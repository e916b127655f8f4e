import At32Foc.Parameters

/-!
# Malformed commands

The parser prints an error and returns on a string without `:`, with a long name,
without a group suffix or with an unknown name.  It ignores what stands between the
group digit and the `:`, and it does not look at where the conversion of the number
stopped, so it accepts strings outside the command grammar (`WellFormed`).

* `WellFormed.routes`: every command of the grammar is routed.
* `malformed_unchanged_iff`: a string outside the grammar changes nothing exactly when
  it is not routed.
* `malformed_zeroes_gain`: one that zeroes a gain.
-/

namespace At32Foc

open ControlLib

/-! ## The grammar -/

/-- After the mantissa: an optional exponent, then white space. -/
def isExponentTail : List UInt8 → Bool
  | [] => true
  | b :: s =>
    if tolower b = 101 then
      let s := (takeSign s).2
      !(s.takeWhile isdigit).isEmpty && (s.dropWhile isdigit).all isspace
    else (b :: s).all isspace

/-- A decimal number as `strtof` takes it, with a digit, up to white space at the end. -/
def isDecimal (text : List UInt8) : Bool :=
  let (ip, fp, s) := takeMantissa isdigit (takeSign (text.dropWhile isspace)).2
  !(ip ++ fp).isEmpty && isExponentTail s

/-- An integer as `strtol` takes it, with a digit and in the range of a byte. -/
def isByte (text : List UInt8) : Bool :=
  let s := (takeSign (text.dropWhile isspace)).2
  !(s.takeWhile isdigit).isEmpty && (s.dropWhile isdigit).all isspace &&
    decide (0 ≤ strtol text ∧ strtol text ≤ 255)

/-- The number a parameter takes. -/
def Param.isNumber (q : Param) (text : List UInt8) : Bool :=
  if q.IsSet then isByte text else isDecimal text

/-- A known name, `_`, the digit of a group, `:` and a number. -/
def WellFormed (s : List UInt8) : Prop :=
  ∃ (q : Param) (g : Motor) (text : List UInt8),
    s = q.name ++ 95 :: digit g :: 58 :: text ∧ q.isNumber text = true

theorem WellFormed.routes {s : List UInt8} (h : WellFormed s) :
    ∃ g q text, Routes s g q text ∧ q.isNumber text = true := by
  obtain ⟨q, g, text, rfl, hnum⟩ := h
  refine ⟨g, q, text, ⟨q.name ++ [95, digit g], [], ?_, ?_, ?_, rfl, List.not_mem_nil⟩, hnum⟩
  · simp
  · cases q <;> cases g <;> decide
  · cases q <;> cases g <;> decide

/-- A routed string is in the grammar only if its text is a number. -/
theorem Routes.not_wellFormed {s text : List UInt8} {g : Motor} {q : Param}
    (h : Routes s g q text) (hnum : q.isNumber text = false) : ¬WellFormed s := by
  intro hs
  obtain ⟨g', q', text', h', hnum'⟩ := hs.routes
  obtain ⟨rfl, rfl, rfl⟩ := h.unique h'
  rw [hnum] at hnum'
  cases hnum'

/-! ## What malformed commands do -/

section Unchanged

variable {F : Type} (strtof : List UInt8 → F) (s : List UInt8)

/-- The parser leaves two given sets as they are exactly when the string is not routed or
the parameter has the converted value already. -/
theorem parseAndSetPid_eq_iff (p1 p2 : PIDParams F) :
    parseAndSetPid strtof s p1 p2 = (p1, p2) ↔
      ∀ g q text, Routes s g q text → q.get (paramsOf g (p1, p2)) = q.convert strtof text := by
  constructor
  · intro h g q text hr
    rw [← h, parseAndSetPid_routed hr, if_pos ⟨rfl, rfl⟩]
  · intro h
    by_cases hr : ∃ g q text, Routes s g q text
    · obtain ⟨g, q, text, hr⟩ := hr
      have hget : ∀ (g' : Motor) (r : Param), r.get (paramsOf g' (parseAndSetPid strtof s p1 p2)) =
          r.get (paramsOf g' (p1, p2)) := by
        intro g' r
        rw [parseAndSetPid_routed hr]
        split_ifs with he
        · obtain ⟨rfl, rfl⟩ := he
          exact (h _ _ _ hr).symm
        · rfl
      exact Prod.ext (Param.ext_get (hget .M1)) (Param.ext_get (hget .M2))
    · exact parseAndSetPid_not_routed (fun g q text h' => hr ⟨g, q, text, h'⟩) p1 p2

/-- A parameter set whose parameter `q` differs from a given value. -/
theorem Param.exists_get_ne [Nontrivial F] (q : Param) (v : F ⊕ UInt8) :
    ∃ pid : PIDParams F, q.get pid ≠ v := by
  obtain ⟨x, y, hxy⟩ := exists_pair_ne F
  by_contra hcon
  simp only [not_exists, not_not] at hcon
  have h1 := hcon ⟨x, x, x, x, x, 0, x, x, x, x, 0⟩
  have h2 := hcon ⟨y, y, y, y, y, 1, y, y, y, y, 1⟩
  rw [← h2] at h1
  cases q <;> simp [Param.get, hxy] at h1

end Unchanged

/-- **Malformed commands.**  A string outside the grammar leaves all parameters as they
are, whatever they are, exactly when it is not routed to one of them; for two given sets
it is enough that the parameter has the converted value already. -/
theorem malformed_unchanged_iff {F : Type} [Nontrivial F] (strtof : List UInt8 → F)
    (s : List UInt8) :
    ((¬WellFormed s → ∀ p1 p2 : PIDParams F, parseAndSetPid strtof s p1 p2 = (p1, p2)) ↔
      (WellFormed s ∨ ∀ g q text, ¬Routes s g q text)) ∧
    ∀ p1 p2 : PIDParams F, parseAndSetPid strtof s p1 p2 = (p1, p2) ↔
      ∀ g q text, Routes s g q text → q.get (paramsOf g (p1, p2)) = q.convert strtof text := by
  refine ⟨⟨fun h => ?_, ?_⟩, parseAndSetPid_eq_iff strtof s⟩
  · by_cases hs : WellFormed s
    · exact .inl hs
    · refine .inr fun g q text hr => ?_
      obtain ⟨pid, hpid⟩ := q.exists_get_ne (q.convert strtof text)
      have heq := (parseAndSetPid_eq_iff strtof s pid pid).mp (h hs pid pid) g q text hr
      cases g <;> exact hpid heq
  · rintro (hs | hn) hns p1 p2
    · exact absurd hs hns
    · exact parseAndSetPid_not_routed hn p1 p2

theorem malformed_unchanged_iff_strtof :
    ((¬WellFormed (cstr "Gain_1:2") → ∀ p1 p2 : PIDParams XFloat,
        parseAndSetPid strtof (cstr "Gain_1:2") p1 p2 = (p1, p2)) ↔
      (WellFormed (cstr "Gain_1:2") ∨ ∀ g q text, ¬Routes (cstr "Gain_1:2") g q text)) ∧
    ∀ p1 p2 : PIDParams XFloat, parseAndSetPid strtof (cstr "Gain_1:2") p1 p2 = (p1, p2) ↔
      ∀ g q text, Routes (cstr "Gain_1:2") g q text →
        q.get (paramsOf g (p1, p2)) = q.convert strtof text :=
  haveI : Nontrivial XFloat := ⟨.nan, .fin 0, by decide⟩
  malformed_unchanged_iff strtof (cstr "Gain_1:2")

/-- A word in place of the number zeroes the gain it is sent to; a byte after the group
digit goes unnoticed; a word sent to a commit flag commits. -/
theorem malformed_zeroes_gain :
    (¬WellFormed (cstr "Speed_KP_1:abc") ∧ (pidParamsInit : PIDParams XFloat).SpeedKP ≠ .fin 0 ∧
      (parseAndSetPid strtof (cstr "Speed_KP_1:abc") pidParamsInit pidParamsInit).1.SpeedKP =
        .fin 0) ∧
    (parseAndSetPid strtof (cstr "Iq_12:3") pidParamsInit pidParamsInit).1.Iq = .fin 3 ∧
    (parseAndSetPid strtof (cstr "Current_SET_2:on") pidParamsInit pidParamsInit).2.CurrentSetFlag
      = 0 := by
  have hr : Routes (cstr "Speed_KP_1:abc") .M1 .SpeedKP (cstr "abc") :=
    routes_iff.mpr (by decide)
  refine ⟨⟨hr.not_wellFormed (by decide), by decide +kernel, by decide +kernel⟩, ?_, ?_⟩
  · decide +kernel
  · decide +kernel

end At32Foc
