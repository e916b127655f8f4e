import At32Foc.Lib.CString

/-!
# C string functions on an object of known size

The same functions, reading and writing an object byte by byte.  An object is the list
of its bytes, a pointer into it the list of those from there on, and an access past the
end is the error `e` given for the object.  Each function is in bounds exactly when it
meets what stops it, and then agrees with the one on strings:

* `readString_eq`: reads up to the NUL (`strrchr`, `%s`);
* `strchrIn_eq`: reads up to the character or the NUL;
* `scan_of_mem`: a conversion reads no further than the NUL;
* `strncpyIn_eq`: copies what fits.
-/

namespace ControlLib

variable {ε : Type*} (e : ε)

/-! ## Accesses -/

def readAt (mem : List UInt8) (i : ℕ) : Except ε UInt8 :=
  match mem[i]? with
  | some b => .ok b
  | none => .error e

def writeAt (mem : List UInt8) (i : ℕ) (b : UInt8) : Except ε (List UInt8) :=
  if i < mem.length then .ok (mem.set i b) else .error e

/-! ## Functions -/

/-- The string at a pointer. -/
def readString : List UInt8 → Except ε (List UInt8)
  | [] => .error e
  | b :: mem => if b = 0 then .ok [] else (readString mem).map (b :: ·)

def strchrIn (c : UInt8) : List UInt8 → Except ε (Option ℕ)
  | [] => .error e
  | b :: mem =>
    if b = c then .ok (some 0)
    else if b = 0 then .ok none
    else (strchrIn c mem).map (·.map (· + 1))

/-- What a conversion reads: `more seen` says that it wants a byte after those in `seen`;
it never reads past the NUL. -/
def scan (more : List UInt8 → Bool) (seen : List UInt8) : List UInt8 → Except ε Unit
  | [] => if more seen then .error e else .ok ()
  | b :: mem => if more seen && b != 0 then scan more (seen ++ [b]) mem else .ok ()

/-- `strncpy(dst + i, src, n)`; after a NUL of the source the rest is filled with NULs. -/
def strncpyIn (es : ε) : ℕ → ℕ → List UInt8 → List UInt8 → Except ε (List UInt8)
  | _, 0, _, dst => .ok dst
  | _, _ + 1, [], _ => .error es
  | i, n + 1, b :: src, dst =>
    (writeAt e dst i b).bind (strncpyIn es (i + 1) n (if b = 0 then b :: src else src))

/-! ## In bounds -/

theorem readAt_of_lt {mem : List UInt8} {i : ℕ} (h : i < mem.length) :
    readAt e mem i = .ok (mem.getD i 0) := by
  rw [readAt, List.getElem?_eq_getElem h, List.getD_eq_getElem _ _ h]

theorem writeAt_of_lt {mem : List UInt8} {i : ℕ} (h : i < mem.length) (b : UInt8) :
    writeAt e mem i b = .ok (mem.set i b) := if_pos h

theorem readString_eq (mem : List UInt8) :
    readString e mem = if 0 ∈ mem then .ok (cString mem) else .error e := by
  induction mem with
  | nil => rfl
  | cons b mem ih =>
    rw [readString, ih]
    by_cases hb : b = 0
    · simp [hb, cString]
    · have h0 : (0 : UInt8) ∈ b :: mem ↔ 0 ∈ mem := by simp [Ne.symm hb]
      rw [if_neg hb]
      by_cases hmem : (0 : UInt8) ∈ mem
      · rw [if_pos hmem, if_pos (h0.mpr hmem)]
        simp [cString, hb, Except.map]
      · rw [if_neg hmem, if_neg fun h => hmem (h0.mp h)]
        rfl

theorem strchrIn_eq {c : UInt8} (hc : c ≠ 0) (mem : List UInt8) :
    strchrIn e c mem =
      if c ∈ mem ∨ 0 ∈ mem then .ok (strchr (cString mem) c) else .error e := by
  induction mem with
  | nil => rfl
  | cons b mem ih =>
    rw [strchrIn, ih]
    by_cases hbc : b = c
    · subst hbc
      rw [if_pos rfl, if_pos (.inl List.mem_cons_self)]
      simp [cString, hc, strchr_cons]
    by_cases hb : b = 0
    · rw [if_neg hbc, if_pos hb, if_pos (.inr (hb ▸ List.mem_cons_self))]
      simp [cString, hb, strchr]
    have hmem : (c ∈ b :: mem ∨ 0 ∈ b :: mem) ↔ (c ∈ mem ∨ 0 ∈ mem) := by
      simp [Ne.symm hbc, Ne.symm hb]
    rw [if_neg hbc, if_neg hb]
    by_cases h : c ∈ mem ∨ 0 ∈ mem
    · rw [if_pos h, if_pos (hmem.mpr h)]
      simp [cString, hb, Except.map, strchr_cons, hbc]
    · rw [if_neg h, if_neg fun h' => h (hmem.mp h')]
      rfl

/-- A conversion of a terminated string stays in bounds. -/
theorem scan_of_mem (more : List UInt8 → Bool) (seen : List UInt8) {mem : List UInt8}
    (h : (0 : UInt8) ∈ mem) : scan e more seen mem = .ok () := by
  induction mem generalizing seen with
  | nil => exact absurd h List.not_mem_nil
  | cons b mem ih =>
    rw [scan]
    by_cases hb : b = 0
    · simp [hb]
    · have hmem : (0 : UInt8) ∈ mem := (List.mem_cons.mp h).resolve_left (Ne.symm hb)
      by_cases hm : more seen = true
      · simpa [hm, hb] using ih (seen ++ [b]) hmem
      · simp [hm]

theorem scan_eq_or (more : List UInt8 → Bool) (seen mem : List UInt8) :
    scan e more seen mem = .ok () ∨ scan e more seen mem = .error e := by
  induction mem generalizing seen with
  | nil =>
    rw [scan]
    split_ifs
    · exact .inr rfl
    · exact .inl rfl
  | cons b mem ih =>
    rw [scan]
    split_ifs
    · exact ih (seen ++ [b])
    · exact .inl rfl

/-- A copy of bytes other than NUL into an object with room for them. -/
theorem strncpyIn_eq (es : ε) (n : ℕ) (src pre old post : List UInt8) (hn : n ≤ src.length)
    (hnul : (0 : UInt8) ∉ src.take n) (hold : old.length = n) :
    strncpyIn e es pre.length n src (pre ++ (old ++ post)) =
      .ok (pre ++ (src.take n ++ post)) := by
  induction n generalizing src pre old with
  | zero =>
    obtain rfl := List.length_eq_zero_iff.mp hold
    rfl
  | succ n ih =>
    obtain ⟨b, src, rfl⟩ := List.exists_cons_of_length_pos (show 0 < src.length by omega)
    obtain ⟨o, old, rfl⟩ := List.exists_cons_of_length_eq_add_one hold
    rw [List.take_succ_cons, List.mem_cons, not_or] at hnul
    rw [List.length_cons] at hn hold
    have hset : (pre ++ (o :: old ++ post)).set pre.length b = (pre ++ [b]) ++ (old ++ post) := by
      rw [List.set_append_right _ _ le_rfl, Nat.sub_self]
      simp
    have hlen : pre.length < (pre ++ (o :: old ++ post)).length := by simp
    have hpre : pre.length + 1 = (pre ++ [b]).length := by simp
    rw [strncpyIn, writeAt_of_lt e hlen, hset, if_neg (Ne.symm hnul.1), hpre]
    refine (ih src (pre ++ [b]) old (by omega) hnul.2 (by omega)).trans ?_
    simp

end ControlLib
