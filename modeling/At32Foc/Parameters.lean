import At32Foc.Usart

/-!
# Which parameter a command sets

The eleven names `parse_and_set_pid` knows (`Param`), with the member each one names
and the conversion its text goes through, and the strings that reach one of them.

* `parseName_eq_some_iff`: what the searches for the first `:` and the last `_` accept.
* `get_setParam`, `setParam_of_unknown`: the eleven-way match stores the converted text in the
  named member.
* `parseAndSetPid_routed`, `parseAndSetPid_not_routed`: the parser on the strings that
  are routed to a parameter (`Routes`) and on all others.
-/

namespace At32Foc

open ControlLib

inductive Param where
  | CurrentSET
  | CurrentKP
  | CurrentKI
  | CurrentKD
  | Iq
  | Id
  | SpeedSET
  | SpeedKP
  | SpeedKI
  | SpeedKD
  | Speed
  deriving Repr, DecidableEq

namespace Param

instance : Fintype Param where
  elems := {CurrentSET, CurrentKP, CurrentKI, CurrentKD, Iq, Id, SpeedSET, SpeedKP, SpeedKI,
    SpeedKD, Speed}
  complete := by
    intro q
    cases q <;> decide

/-- The name the parser compares with. -/
def name : Param → List UInt8
  | CurrentSET => cstr "Current_SET"
  | CurrentKP => cstr "Current_KP"
  | CurrentKI => cstr "Current_KI"
  | CurrentKD => cstr "Current_KD"
  | Iq => cstr "Iq"
  | Id => cstr "Id"
  | SpeedSET => cstr "Speed_SET"
  | SpeedKP => cstr "Speed_KP"
  | SpeedKI => cstr "Speed_KI"
  | SpeedKD => cstr "Speed_KD"
  | Speed => cstr "Speed"

variable {F : Type}

/-- The member it names; the two flags are bytes. -/
def get : Param → PIDParams F → F ⊕ UInt8
  | CurrentSET, pid => .inr pid.CurrentSetFlag
  | CurrentKP, pid => .inl pid.CurrentKP
  | CurrentKI, pid => .inl pid.CurrentKI
  | CurrentKD, pid => .inl pid.CurrentKD
  | Iq, pid => .inl pid.Iq
  | Id, pid => .inl pid.Id
  | SpeedSET, pid => .inr pid.SpeedSetFlag
  | SpeedKP, pid => .inl pid.SpeedKP
  | SpeedKI, pid => .inl pid.SpeedKI
  | SpeedKD, pid => .inl pid.SpeedKD
  | Speed, pid => .inl pid.Speed

/-- The names converted by `strtol`. -/
def IsSet (q : Param) : Prop := q = CurrentSET ∨ q = SpeedSET

instance (q : Param) : Decidable q.IsSet := inferInstanceAs (Decidable (_ ∨ _))

/-- The value a text is converted to. -/
def convert (strtof : List UInt8 → F) (q : Param) (text : List UInt8) : F ⊕ UInt8 :=
  if q.IsSet then .inr (UInt8.ofInt (strtol text)) else .inl (strtof text)

theorem name_injective : Function.Injective name := by
  intro q r
  revert q r
  decide

/-- The members are all there is in a parameter set. -/
theorem ext_get {a b : PIDParams F} (h : ∀ q : Param, q.get a = q.get b) : a = b := by
  cases a
  cases b
  have h1 := h CurrentSET
  have h2 := h CurrentKP
  have h3 := h CurrentKI
  have h4 := h CurrentKD
  have h5 := h Iq
  have h6 := h Id
  have h7 := h SpeedSET
  have h8 := h SpeedKP
  have h9 := h SpeedKI
  have h10 := h SpeedKD
  have h11 := h Speed
  simp only [get, Sum.inl.injEq, Sum.inr.injEq] at h1 h2 h3 h4 h5 h6 h7 h8 h9 h10 h11
  simp only [PIDParams.mk.injEq]
  exact ⟨h2, h3, h4, h5, h6, h1, h8, h9, h10, h11, h7⟩

end Param

/-! ## The match on the name -/

section SetParam

variable {F : Type} (strtof : List UInt8 → F)

theorem get_setParam (q r : Param) (text : List UInt8) (pid : PIDParams F) :
    r.get (setParam strtof q.name text pid) =
      if r = q then q.convert strtof text else r.get pid := by
  cases q <;> cases r <;> rfl

theorem setParam_of_unknown {name : List UInt8} (h : ∀ q : Param, name ≠ q.name)
    (text : List UInt8) (pid : PIDParams F) : setParam strtof name text pid = pid := by
  unfold setParam
  refine (if_neg (h .CurrentSET)).trans ?_
  refine (if_neg (h .CurrentKP)).trans ?_
  refine (if_neg (h .CurrentKI)).trans ?_
  refine (if_neg (h .CurrentKD)).trans ?_
  refine (if_neg (h .Iq)).trans ?_
  refine (if_neg (h .Id)).trans ?_
  refine (if_neg (h .SpeedSET)).trans ?_
  refine (if_neg (h .SpeedKP)).trans ?_
  refine (if_neg (h .SpeedKI)).trans ?_
  refine (if_neg (h .SpeedKD)).trans ?_
  exact if_neg (h .Speed)

end SetParam

/-! ## Strings that are routed -/

/-- The suffix of a group. -/
def digit : Motor → UInt8
  | .M1 => 49
  | .M2 => 50

theorem exists_of_parseName {s name text : List UInt8} {g : Motor}
    (h : parseName s = some (g, name, text)) :
    ∃ before post, s = before ++ 58 :: text ∧ 58 ∉ before ∧ before.length < 20 ∧
      before = name ++ 95 :: digit g :: post ∧ 95 ∉ post := by
  unfold parseName at h
  split at h
  · cases h
  next nameLen hcolon =>
  obtain ⟨before, text', rfl, hbefore, rfl⟩ := exists_of_strchr hcolon
  rw [List.take_left, drop_after] at h
  split_ifs at h with hlen
  dsimp only at h
  split at h
  · cases h
  next suffix hsuffix =>
  obtain ⟨name', rest, rfl, hrest, rfl⟩ := exists_of_strrchr hsuffix
  rw [List.take_left, getD_after] at h
  -- the byte after the last `_`
  cases rest with
  | nil => simp at h
  | cons d post =>
    have hpost : (95 : UInt8) ∉ post := fun hmem => hrest (List.mem_cons_of_mem d hmem)
    simp only [List.getD_cons_zero] at h
    split_ifs at h with h1 h2
    · cases h
      exact ⟨_, post, rfl, hbefore, by omega, by rw [h1]; rfl, hpost⟩
    · cases h
      exact ⟨_, post, rfl, hbefore, by omega, by rw [h2]; rfl, hpost⟩

theorem parseName_append {name post : List UInt8} (g : Motor) (text : List UInt8)
    (hbefore : 58 ∉ name ++ 95 :: digit g :: post)
    (hlen : (name ++ 95 :: digit g :: post).length < 20) (hpost : 95 ∉ post) :
    parseName (name ++ 95 :: digit g :: post ++ 58 :: text) = some (g, name, text) := by
  have hlast : (95 : UInt8) ∉ digit g :: post := by
    rw [List.mem_cons, not_or]
    exact ⟨by cases g <;> decide, hpost⟩
  unfold parseName
  rw [strchr_append hbefore]
  dsimp only
  rw [if_neg (not_le.mpr hlen), List.take_left, strrchr_append hlast]
  dsimp only
  rw [getD_after, drop_after, List.take_left, List.getD_cons_zero]
  cases g <;> rfl

/-- What `parseName` accepts: before the first `:` fewer than 20 bytes, in which the
last `_` is followed by the group. -/
theorem parseName_eq_some_iff {s name text : List UInt8} {g : Motor} :
    parseName s = some (g, name, text) ↔
      ∃ before post, s = before ++ 58 :: text ∧ 58 ∉ before ∧ before.length < 20 ∧
        before = name ++ 95 :: digit g :: post ∧ 95 ∉ post := by
  constructor
  · exact exists_of_parseName
  · rintro ⟨before, post, rfl, hbefore, hlen, rfl, hpost⟩
    exact parseName_append g text hbefore hlen hpost

/-- The string sets the parameter `q` of group `g` from `text`: the part before its first
`:` is shorter than 20 bytes, the byte after the last `_` there is the digit of the group,
and what precedes that `_` is the name. -/
def Routes (s : List UInt8) (g : Motor) (q : Param) (text : List UInt8) : Prop :=
  ∃ before post, s = before ++ 58 :: text ∧ 58 ∉ before ∧ before.length < 20 ∧
    before = q.name ++ 95 :: digit g :: post ∧ 95 ∉ post

section Routes

variable {s text text' : List UInt8} {g g' : Motor} {q q' : Param}

theorem routes_iff : Routes s g q text ↔ parseName s = some (g, q.name, text) :=
  parseName_eq_some_iff.symm

theorem Routes.unique (h : Routes s g q text) (h' : Routes s g' q' text') :
    g = g' ∧ q = q' ∧ text = text' := by
  rw [routes_iff] at h h'
  rw [h] at h'
  simp only [Option.some.injEq, Prod.mk.injEq] at h'
  exact ⟨h'.1, Param.name_injective h'.2.1, h'.2.2⟩

/-- More bytes at the end of a routed string are more text. -/
theorem Routes.append (h : Routes s g q text) (r : List UInt8) :
    Routes (s ++ r) g q (text ++ r) := by
  obtain ⟨before, post, rfl, hcolon, hlen, hname, hpost⟩ := h
  exact ⟨before, post, by simp, hcolon, hlen, hname, hpost⟩

example : Routes (cstr "Speed_KP_2:1:3") .M2 .SpeedKP (cstr "1:3") := routes_iff.mpr (by decide)

variable {F : Type} {strtof : List UInt8 → F}

/-- The parameter set of a group. -/
def paramsOf : Motor → PIDParams F × PIDParams F → PIDParams F
  | .M1, ps => ps.1
  | .M2, ps => ps.2

/-- A routed string changes the parameter it names and nothing else. -/
theorem parseAndSetPid_routed (h : Routes s g q text) (p1 p2 : PIDParams F) (g' : Motor)
    (r : Param) :
    r.get (paramsOf g' (parseAndSetPid strtof s p1 p2)) =
      if g' = g ∧ r = q then q.convert strtof text else r.get (paramsOf g' (p1, p2)) := by
  rw [routes_iff] at h
  unfold parseAndSetPid
  rw [h]
  cases g <;> cases g' <;> simp [paramsOf, get_setParam]

/-- Any other string changes nothing. -/
theorem parseAndSetPid_not_routed (h : ∀ g q text, ¬Routes s g q text) (p1 p2 : PIDParams F) :
    parseAndSetPid strtof s p1 p2 = (p1, p2) := by
  unfold parseAndSetPid
  cases hs : parseName s with
  | none => rfl
  | some c =>
    obtain ⟨g, name, text⟩ := c
    have hname : ∀ q : Param, name ≠ q.name := by
      rintro q rfl
      exact h g q text (routes_iff.mpr hs)
    cases g <;> simp only [setParam_of_unknown strtof hname]

end Routes

/-- **Routing and frame.**  Whatever the string, at most one member of one of the two sets
changes; something changes only if the string is routed to a parameter; and a routed
string gives that parameter of that group the converted text and keeps all the rest. -/
theorem command_routing_and_frame {F : Type} (strtof : List UInt8 → F) (s : List UInt8)
    (p1 p2 : PIDParams F) :
    (∃ (g : Motor) (q : Param), ∀ g' r, ¬(g' = g ∧ r = q) →
      r.get (paramsOf g' (parseAndSetPid strtof s p1 p2)) = r.get (paramsOf g' (p1, p2))) ∧
    (parseAndSetPid strtof s p1 p2 ≠ (p1, p2) → ∃ g q text, Routes s g q text) ∧
    ∀ g q text, Routes s g q text → ∀ g' r,
      r.get (paramsOf g' (parseAndSetPid strtof s p1 p2)) =
        if g' = g ∧ r = q then q.convert strtof text else r.get (paramsOf g' (p1, p2)) := by
  by_cases hr : ∃ g q text, Routes s g q text
  · refine ⟨?_, fun _ => hr, fun g q text h => parseAndSetPid_routed h p1 p2⟩
    obtain ⟨g, q, text, h⟩ := hr
    refine ⟨g, q, fun g' r hne => ?_⟩
    rw [parseAndSetPid_routed h, if_neg hne]
  · have hn : ∀ g q text, ¬Routes s g q text := fun g q text h => hr ⟨g, q, text, h⟩
    have hsame : parseAndSetPid strtof s p1 p2 = (p1, p2) := parseAndSetPid_not_routed hn p1 p2
    refine ⟨⟨.M1, .Speed, fun g' r _ => by rw [hsame]⟩, fun h => absurd hsame h, ?_⟩
    intro g q text h
    exact absurd h (hn g q text)

end At32Foc
