import At32Foc.Lib.XFloat

/-!
# C string functions

A string is the list of its bytes before the terminating NUL.  `strtol` is the
base-10 conversion to a 32-bit `long`, `strtof` the C99 conversion: optional
white space and sign, then `inf`/`infinity`, `nan`, a hexadecimal or a decimal
number; a string without a number converts to zero.  Finite results are kept
exact; a magnitude that rounds past the largest `float` gives an infinity.
-/

namespace ControlLib

/-- The bytes of a string literal. -/
def cstr (s : String) : List UInt8 := s.toUTF8.data.toList

/-- The string that starts at the head of a piece of memory: its bytes before the first NUL. -/
def cString (mem : List UInt8) : List UInt8 := mem.takeWhile (· ≠ 0)

/-- Position of the first `c`. -/
def strchr (s : List UInt8) (c : UInt8) : Option ℕ := s.findIdx? (· == c)

/-- Position of the last `c`. -/
def strrchr : List UInt8 → UInt8 → Option ℕ
  | [], _ => none
  | b :: s, c =>
    match strrchr s c with
    | some i => some (i + 1)
    | none => if b = c then some 0 else none

/-! ## Searches -/

section Searches

variable {s l r : List UInt8} {c : UInt8} {i : ℕ}

theorem strchr_cons (b : UInt8) (s : List UInt8) (c : UInt8) :
    strchr (b :: s) c = if b = c then some 0 else (strchr s c).map (· + 1) := by
  simp only [strchr, List.findIdx?_cons, beq_iff_eq]

theorem strchr_append (h : c ∉ l) (r : List UInt8) : strchr (l ++ c :: r) c = some l.length := by
  induction l with
  | nil => simp [strchr_cons]
  | cons b l ih =>
    rw [List.mem_cons, not_or] at h
    rw [List.cons_append, strchr_cons, if_neg (Ne.symm h.1), ih h.2]
    rfl

theorem exists_of_strchr (h : strchr s c = some i) :
    ∃ l r, s = l ++ c :: r ∧ c ∉ l ∧ l.length = i := by
  induction s generalizing i with
  | nil => cases h
  | cons b s ih =>
    rw [strchr_cons] at h
    split_ifs at h with hb
    · exact ⟨[], s, by rw [hb]; rfl, List.not_mem_nil, by simpa using h⟩
    · obtain ⟨j, hj, rfl⟩ := Option.map_eq_some_iff.mp h
      obtain ⟨l, r, rfl, hl, rfl⟩ := ih hj
      refine ⟨b :: l, r, rfl, ?_, rfl⟩
      rw [List.mem_cons, not_or]
      exact ⟨Ne.symm hb, hl⟩

theorem strrchr_eq_none_iff : strrchr s c = none ↔ c ∉ s := by
  induction s with
  | nil => simp [strrchr]
  | cons b s ih =>
    rw [strrchr, List.mem_cons, not_or]
    cases hs : strrchr s c with
    | none =>
      have hmem := ih.mp hs
      by_cases hb : b = c
      · simp [hb]
      · simp [hb, Ne.symm hb, hmem]
    | some i =>
      have hmem : c ∈ s := by
        by_contra hcon
        rw [ih.mpr hcon] at hs
        cases hs
      simp [hmem]

theorem strrchr_append (h : c ∉ r) (l : List UInt8) :
    strrchr (l ++ c :: r) c = some l.length := by
  induction l with
  | nil => simp [strrchr, strrchr_eq_none_iff.mpr h]
  | cons b l ih => simp [strrchr, ih]

theorem exists_of_strrchr (h : strrchr s c = some i) :
    ∃ l r, s = l ++ c :: r ∧ c ∉ r ∧ l.length = i := by
  induction s generalizing i with
  | nil => cases h
  | cons b s ih =>
    rw [strrchr] at h
    cases hs : strrchr s c with
    | some j =>
      obtain ⟨l, r, rfl, hr, rfl⟩ := ih hs
      rw [hs] at h
      exact ⟨b :: l, r, rfl, hr, by simpa using h⟩
    | none =>
      rw [hs] at h
      simp only [Option.ite_none_right_eq_some, Option.some.injEq] at h
      obtain ⟨rfl, rfl⟩ := h
      exact ⟨[], s, rfl, strrchr_eq_none_iff.mp hs, rfl⟩

/-- The text after a separator. -/
theorem drop_after (l r : List UInt8) (c : UInt8) : (l ++ c :: r).drop (l.length + 1) = r := by
  rw [← List.drop_drop, List.drop_left]
  rfl

theorem getD_after (l r : List UInt8) (c d : UInt8) :
    (l ++ c :: r).getD (l.length + 1) d = r.getD 0 d := by
  induction l with
  | nil => rfl
  | cons b l ih => exact ih

end Searches

/-! ## Numbers -/

def isspace (b : UInt8) : Bool := b == 32 || (9 ≤ b && b ≤ 13)

def isdigit (b : UInt8) : Bool := 48 ≤ b && b ≤ 57

def tolower (b : UInt8) : UInt8 := if 65 ≤ b && b ≤ 90 then b + 32 else b

/-- Value of a hexadecimal digit. -/
def xdigit? (b : UInt8) : Option ℕ :=
  if isdigit b then some (b.toNat - 48)
  else if 97 ≤ tolower b && tolower b ≤ 102 then some ((tolower b).toNat - 87)
  else none

/-- Value of a digit string in base `base`. -/
def digitsVal (base : ℕ) (ds : List UInt8) : ℕ :=
  ds.foldl (fun v d => base * v + (xdigit? d).getD 0) 0

/-- An optional sign: whether it is a minus, and the rest. -/
def takeSign : List UInt8 → Bool × List UInt8
  | 45 :: s => (true, s)
  | 43 :: s => (false, s)
  | s => (false, s)

def signed (neg : Bool) (n : ℕ) : ℤ := if neg then -(n : ℤ) else n

/-- `strtol(s, NULL, 10)`, saturating at the ends of a 32-bit `long`. -/
def strtol (s : List UInt8) : ℤ :=
  let (neg, s) := takeSign (s.dropWhile isspace)
  let v := signed neg (digitsVal 10 (s.takeWhile isdigit))
  max (-2147483648) (min 2147483647 v)

/-- Case-insensitive prefix; `p` is in lower case. -/
def startsWithCI (p s : List UInt8) : Bool := p.isPrefixOf (s.map tolower)

/-- A mantissa in base `base`, whose digits are those that satisfy `dig`: the digits
before and after the point, and the rest. -/
def takeMantissa (dig : UInt8 → Bool) (s : List UInt8) : List UInt8 × List UInt8 × List UInt8 :=
  let ip := s.takeWhile dig
  match s.dropWhile dig with
  | 46 :: s => (ip, s.takeWhile dig, s.dropWhile dig)
  | s => (ip, [], s)

/-- An optional exponent introduced by `mark` (in lower case). -/
def takeExponent (mark : UInt8) : List UInt8 → ℤ
  | [] => 0
  | b :: s =>
    if tolower b = mark then
      let (neg, s) := takeSign s
      signed neg (digitsVal 10 (s.takeWhile isdigit))
    else 0

/-- Magnitudes from here on round to infinity. -/
def floatOverflow : ℚ := 2 ^ 128 - 2 ^ 103

def toFloat (neg : Bool) (q : ℚ) : XFloat :=
  if floatOverflow ≤ q then .inf neg else .fin (if neg then -q else q)

/-- `strtof(s, NULL)`. -/
def strtof (s : List UInt8) : XFloat :=
  let (neg, s) := takeSign (s.dropWhile isspace)
  if startsWithCI (cstr "inf") s then .inf neg
  else if startsWithCI (cstr "nan") s then .nan
  else
    let (hi, hf, hs) := takeMantissa (fun b => (xdigit? b).isSome) (s.drop 2)
    if startsWithCI (cstr "0x") s && !(hi ++ hf).isEmpty then
      toFloat neg (digitsVal 16 (hi ++ hf) * 2 ^ (takeExponent 112 hs - 4 * hf.length))
    else
      let (di, df, ds) := takeMantissa isdigit s
      if (di ++ df).isEmpty then .fin 0
      else toFloat neg (digitsVal 10 (di ++ df) * 10 ^ (takeExponent 101 ds - df.length))

example : strtof (cstr " -1.5e2x") = .fin (-150) := by decide +kernel

/-- `strtof` over the rationals, for texts that convert to a finite number. -/
def finiteStrtof (s : List UInt8) : ℚ :=
  match strtof s with
  | .fin q => q
  | _ => 0

theorem finiteStrtof_eq {s : List UInt8} (h : XFloat.IsFin (strtof s)) :
    strtof s = .fin (finiteStrtof s) := by
  obtain ⟨q, hq⟩ := h
  rw [finiteStrtof, hq]

/-! ## Strings in memory -/

/-- A string whose NUL is in the first piece does not depend on what follows. -/
theorem cString_append {mem : List UInt8} (h : (0 : UInt8) ∈ mem) (rest : List UInt8) :
    cString (mem ++ rest) = cString mem := by
  induction mem with
  | nil => exact absurd h List.not_mem_nil
  | cons b mem ih =>
    by_cases hb : b = 0
    · simp [cString, hb]
    · have hmem : (0 : UInt8) ∈ mem := (List.mem_cons.mp h).resolve_left fun h0 => hb h0.symm
      simpa [cString, hb] using ih hmem

/-- A string in front of others runs on into them. -/
theorem cString_append_of_notMem {mem : List UInt8} (h : (0 : UInt8) ∉ mem) (rest : List UInt8) :
    cString (mem ++ rest) = mem ++ cString rest := by
  unfold cString
  refine List.takeWhile_append_of_pos fun b hb => ?_
  simp only [ne_eq, decide_eq_true_eq]
  rintro rfl
  exact h hb

/-- Without a NUL the whole memory is the string. -/
theorem cString_of_notMem {mem : List UInt8} (h : (0 : UInt8) ∉ mem) : cString mem = mem := by
  have h' := cString_append_of_notMem h []
  rw [List.append_nil] at h'
  exact h'.trans (List.append_nil mem)

/-- A memory with a NUL is its string, the NUL, and the rest. -/
theorem exists_eq_cString_append {mem : List UInt8} (h : (0 : UInt8) ∈ mem) :
    ∃ rest, mem = cString mem ++ 0 :: rest := by
  induction mem with
  | nil => exact absurd h List.not_mem_nil
  | cons b mem ih =>
    by_cases hb : b = 0
    · exact ⟨mem, by simp [cString, hb]⟩
    · obtain ⟨rest, hrest⟩ := ih ((List.mem_cons.mp h).resolve_left (Ne.symm hb))
      refine ⟨rest, ?_⟩
      have hcons : cString (b :: mem) = b :: cString mem := by simp [cString, hb]
      rw [hcons, List.cons_append, ← hrest]

theorem notMem_cString (mem : List UInt8) : (0 : UInt8) ∉ cString mem := by
  intro h
  have h' := List.mem_takeWhile_imp h
  simp at h'

/-- A place in the string is a place in the memory. -/
theorem exists_of_cString_eq {mem l r : List UInt8} {b : UInt8} (h : cString mem = l ++ b :: r) :
    ∃ rest, mem = l ++ b :: rest ∧ cString rest = r := by
  induction l generalizing mem with
  | nil =>
    cases mem with
    | nil => cases h
    | cons c mem =>
      by_cases hc : c = 0
      · simp [cString, hc] at h
      · simp only [cString, ne_eq, hc, not_false_eq_true, decide_true, List.takeWhile_cons_of_pos,
          List.nil_append, List.cons.injEq] at h
        exact ⟨mem, by rw [h.1]; rfl, h.2⟩
  | cons a l ih =>
    cases mem with
    | nil => cases h
    | cons c mem =>
      by_cases hc : c = 0
      · simp [cString, hc] at h
      · simp only [cString, ne_eq, hc, not_false_eq_true, decide_true, List.takeWhile_cons_of_pos,
          List.cons_append, List.cons.injEq] at h
        obtain ⟨rest, rfl, hr⟩ := ih h.2
        exact ⟨rest, by rw [h.1]; rfl, hr⟩

theorem cString_eq_nil_iff (mem : List UInt8) : cString mem = [] ↔ mem.getD 0 0 = 0 := by
  cases mem with
  | nil => simp [cString]
  | cons b mem => by_cases hb : b = 0 <;> simp [cString, hb]

end ControlLib
