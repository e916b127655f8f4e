import At32Foc.Lib.CMemory
import At32Foc.Parameters
import At32Foc.Reception

/-!
# The parser's accesses

`parse_and_set_pid` once more, now on the bytes of the receive buffer and of its local
array `name`, with every access checked.  The searches, the copy and the cuts in `name`
stay in bounds whatever the buffer holds; the search for `:` needs a `:` or a NUL, and
once a parameter is set the text is printed up to a NUL, which nothing guarantees.

* `copyName_eq`, `targetOf_eq`, `setIn_known`: the stages, each in bounds or not.
* `parseInMemory_not_routed`, `parseInMemory_routed`: the parser without and with a parameter
  to set.
* `parseInMemory_eq`: the whole parser is in bounds if and only if `Confined`, and is then
  `parseAndSetPid` on the string in the buffer.
-/

namespace At32Foc

open ControlLib

/-! ## Algorithm -/

/-- The object an access falls outside of. -/
inductive Fault where
  | uart1RxBuffer
  | name
  deriving Repr, DecidableEq

/-- `name` once the text before the `:` is copied and terminated; `stack` is what the array
holds before. -/
def copyName (stack input : List UInt8) (nameLen : ℕ) : Except Fault (List UInt8) := do
  let name ← strncpyIn .name .uart1RxBuffer 0 nameLen input stack
  writeAt .name name nameLen 0

/-- The group and the name without its suffix, which `strcmp` and `printf` read. -/
def targetOf (name : List UInt8) : Except Fault (Option (Motor × List UInt8)) := do
  let string ← readString .name name
  match strrchr string 95 with
  | none => return none
  | some suffix =>
    let digit ← readAt .name name (suffix + 1)
    if digit = 49 ∨ digit = 50 then
      let name ← writeAt .name name suffix 0
      let key ← readString .name name
      return some (if digit = 49 then .M1 else .M2, key)
    else return none

section Parse

variable {F : Type} (strtof : List UInt8 → F) (more : List UInt8 → Bool)

/-- The match on the name: the conversion reads what `more` says, and once the parameter is
set the text is printed. -/
def setIn (g : Motor) (key text : List UInt8) (p1 p2 : PIDParams F) :
    Except Fault (PIDParams F × PIDParams F) := do
  if ∃ q : Param, key = q.name then
    scan .uart1RxBuffer more [] text
    let params := match g with
      | .M1 => (setParam strtof key (cString text) p1, p2)
      | .M2 => (p1, setParam strtof key (cString text) p2)
    let _ ← readString .uart1RxBuffer text
    return params
  else return (p1, p2)

def parseInMemory (stack input : List UInt8) (p1 p2 : PIDParams F) :
    Except Fault (PIDParams F × PIDParams F) := do
  match ← strchrIn .uart1RxBuffer 58 input with
  | none => return (p1, p2)
  | some nameLen =>
    if nameLen ≥ 20 then return (p1, p2)
    else
      let name ← copyName stack input nameLen
      match ← targetOf name with
      | none => return (p1, p2)
      | some (g, key) => setIn strtof more g key (input.drop (nameLen + 1)) p1 p2

end Parse

/-! ## The stages -/

theorem copyName_eq {stack before : List UInt8} (rest : List UInt8) (hstack : stack.length = 20)
    (hlen : before.length < 20) (hnul : (0 : UInt8) ∉ before) :
    copyName stack (before ++ rest) before.length =
      .ok (before ++ 0 :: stack.drop (before.length + 1)) := by
  have htake : (before ++ rest).take before.length = before := List.take_left
  have hcopy := strncpyIn_eq Fault.name .uart1RxBuffer before.length (before ++ rest) []
    (stack.take before.length) (stack.drop before.length)
    (by simp) (by rwa [htake]) (by rw [List.length_take]; omega)
  rw [List.take_append_drop, htake] at hcopy
  have hdrop : stack.drop before.length =
      stack[before.length] :: stack.drop (before.length + 1) :=
    List.drop_eq_getElem_cons (by omega)
  have hwrite : writeAt Fault.name (before ++ stack.drop before.length) before.length 0 =
      .ok (before ++ 0 :: stack.drop (before.length + 1)) := by
    rw [writeAt_of_lt _ (by rw [List.length_append, List.length_drop]; omega),
      List.set_append_right _ _ le_rfl, Nat.sub_self, hdrop]
    rfl
  unfold copyName
  simp only [List.nil_append, List.length_nil] at hcopy
  rw [hcopy]
  exact hwrite

theorem readString_name {string junk : List UInt8} (hnul : (0 : UInt8) ∉ string) :
    readString Fault.name (string ++ 0 :: junk) = .ok string := by
  rw [readString_eq, if_pos (by simp), cString_append_of_notMem hnul]
  simp [cString]

/-- The suffix is found and cut in bounds, as `parseName` says. -/
theorem targetOf_eq {before : List UInt8} (text junk : List UInt8) (hlen : before.length < 20)
    (hcolon : (58 : UInt8) ∉ before) (hnul : (0 : UInt8) ∉ before) :
    targetOf (before ++ 0 :: junk) =
      .ok ((parseName (before ++ 58 :: text)).map fun c => (c.1, c.2.1)) := by
  unfold targetOf parseName
  rw [readString_name hnul, strchr_append hcolon]
  simp only [bind, Except.bind, if_neg (not_le.mpr hlen), List.take_left, drop_after]
  cases hs : strrchr before 95 with
  | none => rfl
  | some suffix =>
    obtain ⟨key, post, rfl, -, rfl⟩ := exists_of_strrchr hs
    have hname : key ++ 95 :: post ++ 0 :: junk = key ++ 95 :: (post ++ 0 :: junk) := by simp
    have hnul' : (0 : UInt8) ∉ key := fun h => hnul (List.mem_append_left _ h)
    -- the byte after the `_`: that of the string, or its NUL
    have hdigit : (post ++ 0 :: junk).getD 0 0 = post.getD 0 0 := by cases post <;> rfl
    have hread : readAt Fault.name (key ++ 95 :: (post ++ 0 :: junk)) (key.length + 1) =
        .ok (post.getD 0 0) := by
      rw [readAt_of_lt _ (by simp), getD_after, hdigit]
    have hwrite : writeAt Fault.name (key ++ 95 :: (post ++ 0 :: junk)) key.length 0 =
        .ok (key ++ 0 :: (post ++ 0 :: junk)) := by
      rw [writeAt_of_lt _ (by simp), List.set_append_right _ _ le_rfl, Nat.sub_self]
      rfl
    have hkey : readString Fault.name (key ++ 0 :: (post ++ 0 :: junk)) = .ok key :=
      readString_name hnul'
    simp only [hname, hread, hwrite, hkey, getD_after, List.take_left]
    by_cases h1 : post.getD 0 0 = 49
    · rw [if_pos (.inl h1), if_pos h1, if_pos h1]
      rfl
    · by_cases h2 : post.getD 0 0 = 50
      · rw [if_pos (.inr h2), if_neg h1, if_neg h1, if_pos h2]
        rfl
      · rw [if_neg fun h => h.elim h1 h2, if_neg h1, if_neg h2]
        rfl

section Parse

variable {F : Type} (strtof : List UInt8 → F) (more : List UInt8 → Bool)

theorem setIn_known (g : Motor) (q : Param) (text : List UInt8) (p1 p2 : PIDParams F) :
    setIn strtof more g q.name text p1 p2 =
      if 0 ∈ text then
        .ok (match g with
          | .M1 => (setParam strtof q.name (cString text) p1, p2)
          | .M2 => (p1, setParam strtof q.name (cString text) p2))
      else .error .uart1RxBuffer := by
  unfold setIn
  rw [if_pos ⟨q, rfl⟩, readString_eq]
  by_cases h : (0 : UInt8) ∈ text
  · rw [scan_of_mem _ _ _ h, if_pos h, if_pos h]
    rfl
  · rw [if_neg h, if_neg h]
    rcases scan_eq_or Fault.uart1RxBuffer more [] text with hs | hs
    · rw [hs]
      rfl
    · rw [hs]
      rfl

theorem setIn_unknown {key : List UInt8} (h : ∀ q : Param, key ≠ q.name) (g : Motor)
    (text : List UInt8) (p1 p2 : PIDParams F) :
    setIn strtof more g key text p1 p2 = .ok (p1, p2) :=
  if_neg fun ⟨q, hq⟩ => h q hq

/-! ## The whole parser -/

/-- The contents on which the parser stays inside: those with a NUL, and those with a `:`
that set no parameter. -/
def Confined (input : List UInt8) : Prop :=
  0 ∈ input ∨ 58 ∈ input ∧ ∀ g q text, ¬Routes input g q text

theorem confined_of_not_routed {input : List UInt8} (hmem : 58 ∈ input ∨ 0 ∈ input)
    (h : ∀ g q text, ¬Routes (cString input) g q text) : Confined input := by
  by_cases h0 : (0 : UInt8) ∈ input
  · exact .inl h0
  · rw [cString_of_notMem h0] at h
    exact .inr ⟨hmem.resolve_right h0, h⟩

/-- The parser past the search for `:`; the text before it has no NUL. -/
theorem parseInMemory_at_colon {stack before rest : List UInt8} (hstack : stack.length = 20)
    (hcolon : (58 : UInt8) ∉ before) (hnul : (0 : UInt8) ∉ before) (p1 p2 : PIDParams F) :
    parseInMemory strtof more stack (before ++ 58 :: rest) p1 p2 =
      match parseName (cString (before ++ 58 :: rest)) with
      | none => .ok (p1, p2)
      | some (g, key, _) => setIn strtof more g key rest p1 p2 := by
  have hs : cString (before ++ 58 :: rest) = before ++ 58 :: cString rest := by
    rw [cString_append_of_notMem hnul]
    rfl
  unfold parseInMemory
  rw [strchrIn_eq _ (by decide), if_pos (.inl (by simp)), hs, strchr_append hcolon]
  simp only [bind, Except.bind]
  by_cases hlen : before.length < 20
  · rw [if_neg (not_le.mpr hlen), copyName_eq _ hstack hlen hnul]
    dsimp only
    rw [targetOf_eq (cString rest) _ hlen hcolon hnul, drop_after]
    cases parseName (before ++ 58 :: cString rest) <;> rfl
  · have hnone : parseName (before ++ 58 :: cString rest) = none := by
      rw [parseName, strchr_append hcolon]
      exact if_pos (not_lt.mp hlen)
    rw [if_pos (not_lt.mp hlen), hnone]
    rfl

theorem parseInMemory_not_routed {stack input : List UInt8} (hstack : stack.length = 20)
    (hmem : 58 ∈ input ∨ 0 ∈ input) (h : ∀ g q text, ¬Routes (cString input) g q text)
    (p1 p2 : PIDParams F) : parseInMemory strtof more stack input p1 p2 = .ok (p1, p2) := by
  cases hcolon : strchr (cString input) 58 with
  | none =>
    unfold parseInMemory
    rw [strchrIn_eq _ (by decide), if_pos hmem, hcolon]
    rfl
  | some nameLen =>
    obtain ⟨before, text, hs, hbefore, rfl⟩ := exists_of_strchr hcolon
    obtain ⟨rest, rfl, rfl⟩ := exists_of_cString_eq hs
    have hnul : (0 : UInt8) ∉ before := fun h0 =>
      notMem_cString _ (hs ▸ List.mem_append_left _ h0)
    rw [parseInMemory_at_colon strtof more hstack hbefore hnul]
    cases hname : parseName (cString (before ++ 58 :: rest)) with
    | none => rfl
    | some c =>
      obtain ⟨g, key, text⟩ := c
      exact setIn_unknown strtof more (fun q hq => h g q text (routes_iff.mpr (hq ▸ hname))) g
        rest p1 p2

/-- A parameter is set, and the text is printed. -/
theorem parseInMemory_routed {stack input text : List UInt8} {g : Motor} {q : Param}
    (hstack : stack.length = 20) (h : Routes (cString input) g q text) (p1 p2 : PIDParams F) :
    parseInMemory strtof more stack input p1 p2 =
      if 0 ∈ input then .ok (parseAndSetPid strtof (cString input) p1 p2)
      else .error .uart1RxBuffer := by
  have hname := routes_iff.mp h
  obtain ⟨before, post, hs, hbefore, -⟩ := h
  obtain ⟨rest, rfl, rfl⟩ := exists_of_cString_eq hs
  have hnul : (0 : UInt8) ∉ before := fun h0 =>
    notMem_cString _ (hs ▸ List.mem_append_left _ h0)
  have h0 : (0 : UInt8) ∈ before ++ 58 :: rest ↔ 0 ∈ rest := by simp [hnul]
  rw [parseInMemory_at_colon strtof more hstack hbefore hnul, parseAndSetPid, hname]
  dsimp only
  rw [setIn_known]
  by_cases hrest : (0 : UInt8) ∈ rest
  · rw [if_pos hrest, if_pos (h0.mpr hrest)]
    cases g <;> rfl
  · rw [if_neg hrest, if_neg fun h => hrest (h0.mp h)]

/-- **Bounds.**  Whatever the conversions read, every access is inside its object if and only
if the contents are confined; the parser then does what it does on the string, and else it
reads past the end of the buffer. -/
theorem parseInMemory_eq {stack : List UInt8} (hstack : stack.length = 20) (input : List UInt8)
    (p1 p2 : PIDParams F) [Decidable (Confined input)] :
    parseInMemory strtof more stack input p1 p2 =
      if Confined input then .ok (parseAndSetPid strtof (cString input) p1 p2)
      else .error .uart1RxBuffer := by
  by_cases hr : ∃ g q text, Routes (cString input) g q text
  · obtain ⟨g, q, text, hr⟩ := hr
    rw [parseInMemory_routed strtof more hstack hr]
    by_cases h0 : (0 : UInt8) ∈ input
    · rw [if_pos h0, if_pos (.inl h0)]
    · rw [cString_of_notMem h0] at hr
      rw [if_neg h0, if_neg fun h => h.elim h0 fun h => h.2 g q text hr]
  · have hidle : ∀ g q text, ¬Routes (cString input) g q text :=
      fun g q text h => hr ⟨g, q, text, h⟩
    by_cases hmem : 58 ∈ input ∨ 0 ∈ input
    · rw [parseInMemory_not_routed strtof more hstack hmem hidle,
        parseAndSetPid_not_routed hidle, if_pos (confined_of_not_routed hmem hidle)]
    · unfold parseInMemory
      rw [strchrIn_eq _ (by decide), if_neg hmem,
        if_neg fun h => hmem (h.elim .inr fun h => .inl h.1)]
      rfl

end Parse

/-! ## The receive buffer -/

/-- **The receive buffer.**  On every content of its bytes the parser never writes outside
`name`; it stays inside the buffer if and only if there is a NUL in it, or a `:` and no
parameter to set; and it then sets what the string in the buffer says. -/
theorem parser_confined_iff {F : Type} (strtof : List UInt8 → F) (more : List UInt8 → Bool)
    (stack : Vector UInt8 20) (buf : Vector UInt8 RX_BUFFER_SIZE) (p1 p2 : PIDParams F) :
    (parseInMemory strtof more stack.toList buf.toList p1 p2 ≠ .error .uart1RxBuffer ↔
      0 ∈ buf.toList ∨ 58 ∈ buf.toList ∧ ∀ g q text, ¬Routes buf.toList g q text) ∧
    parseInMemory strtof more stack.toList buf.toList p1 p2 ≠ .error .name ∧
    (Confined buf.toList → parseInMemory strtof more stack.toList buf.toList p1 p2 =
      .ok (parseAndSetPid strtof (cString buf.toList) p1 p2)) := by
  classical
  have h := parseInMemory_eq strtof more stack.length_toList buf.toList p1 p2
  by_cases hc : Confined buf.toList
  · rw [if_pos hc] at h
    rw [h]
    exact ⟨⟨fun _ => hc, nofun⟩, nofun, fun _ => rfl⟩
  · rw [if_neg hc] at h
    rw [h]
    exact ⟨⟨fun hne => absurd rfl hne, fun h' => absurd h' hc⟩, nofun, fun h' => absurd h' hc⟩

/-- Two messages that fill the buffer: one without `:`, and a command with a long number. -/
theorem parser_leaves_buffer :
    let noise := List.replicate 64 65
    let command := cstr "Speed_1:" ++ List.replicate 56 49
    let zeros := List.replicate RX_BUFFER_SIZE 0
    let stack := List.replicate 20 0
    rxWrite noise zeros = noise ∧ rxWrite command zeros = command ∧
      parseInMemory strtof (fun _ => true) stack noise pidParamsInit pidParamsInit =
        .error .uart1RxBuffer ∧
      parseInMemory strtof (fun _ => true) stack command pidParamsInit pidParamsInit =
        .error .uart1RxBuffer := by
  refine ⟨by decide +kernel, by decide +kernel, by decide +kernel, by decide +kernel⟩

end At32Foc
