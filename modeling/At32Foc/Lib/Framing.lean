import Mathlib

/-!
# Frames that end with a tail

A stream of frames, each followed by the same tail, and a receiver that collects what
arrives and hands over a frame whenever what it has collected ends with the tail
(`splitTail`).

* `splitTail_frames`: frames without the tail inside come back, if the tail does not
  overlap itself (`Unbordered`).
* `splitTail_length`: nothing is lost or added, whatever the stream.
-/

namespace ControlLib

variable {α : Type*} [DecidableEq α] (tail : List α)

/-- The frames of a stream and what is left after the last tail; `acc` has been collected
before. -/
def splitTail (acc : List α) : List α → List (List α) × List α
  | [] => ([], acc)
  | a :: s =>
    if tail <:+ acc ++ [a] then
      let (frames, rest) := splitTail [] s
      ((acc ++ [a]).take (acc.length + 1 - tail.length) :: frames, rest)
    else splitTail (acc ++ [a]) s

/-- Only the empty list and the whole tail are both a prefix and a suffix of the tail. -/
def Unbordered : Prop := ∀ t, t <+: tail → t <:+ tail → t = [] ∨ t = tail

variable {tail}

theorem splitTail_length (acc s : List α) :
    ((splitTail tail acc s).1.map fun f => f.length + tail.length).sum +
      (splitTail tail acc s).2.length = acc.length + s.length := by
  induction s generalizing acc with
  | nil => simp [splitTail]
  | cons a s ih =>
    rw [splitTail]
    split_ifs with h
    · have hle := h.length_le
      have ih' := ih []
      simp only [List.map_cons, List.sum_cons, List.length_take, List.length_append,
        List.length_cons, List.length_nil] at hle ih' ⊢
      omega
    · rw [ih (acc ++ [a])]
      simp only [List.length_append, List.length_cons, List.length_nil]
      omega

/-- The receiver goes on collecting as long as the tail is not complete. -/
theorem splitTail_collect (acc x s : List α) (h : ∀ p, p <+: x → p ≠ [] → ¬tail <:+ acc ++ p) :
    splitTail tail acc (x ++ s) = splitTail tail (acc ++ x) s := by
  induction x generalizing acc with
  | nil => rw [List.append_nil, List.nil_append]
  | cons a x ih =>
    have ha : ¬tail <:+ acc ++ [a] := h [a] (by simp) (by simp)
    rw [List.cons_append, splitTail, if_neg ha, ih (acc ++ [a])]
    · simp
    · intro p hp _
      have hp' := h (a :: p) (List.cons_prefix_cons.mpr ⟨rfl, hp⟩) (by simp)
      simpa using hp'

omit [DecidableEq α] in
/-- The tail is complete for the first time at its place behind the frame. -/
theorem not_suffix_of_unbordered (htail : Unbordered tail) {f p : List α} (hf : ¬tail <:+: f)
    (hp : p <+: f ++ tail) (hne : p ≠ f ++ tail) : ¬tail <:+ p := by
  intro hs
  rcases List.prefix_or_prefix_of_prefix hp (List.prefix_append f tail) with hpf | ⟨q, rfl⟩
  · exact hf (hs.isInfix.trans hpf.isInfix)
  · -- `p` ends inside the tail, in a part of it that is both prefix and suffix
    have hq : q <+: tail := (List.prefix_append_right_inj f).mp hp
    have hlen : q.length ≤ tail.length := hq.length_le
    have hqs : q <:+ tail :=
      List.suffix_of_suffix_length_le (List.suffix_append f q) hs hlen
    rcases htail q hq hqs with rfl | rfl
    · rw [List.append_nil] at hs
      exact hf hs.isInfix
    · exact hne rfl

theorem splitTail_frame (htail : Unbordered tail) (hne : tail ≠ []) {f : List α}
    (hf : ¬tail <:+: f) (s : List α) :
    splitTail tail [] (f ++ tail ++ s) =
      (f :: (splitTail tail [] s).1, (splitTail tail [] s).2) := by
  obtain ⟨t, b, hb⟩ := (List.eq_nil_or_concat' tail).resolve_left hne
  have hsplit : f ++ tail ++ s = (f ++ t) ++ (b :: s) := by rw [hb]; simp
  have hend : f ++ t ++ [b] = f ++ tail := by rw [hb, List.append_assoc]
  have hlen : (f ++ t).length + 1 - tail.length = f.length := by
    rw [hb]
    simp only [List.length_append, List.length_cons, List.length_nil]
    omega
  rw [hsplit, splitTail_collect [] (f ++ t) (b :: s), splitTail, List.nil_append, hend,
    if_pos (List.suffix_append f tail), hlen, List.take_left]
  intro p hp _
  rw [List.nil_append]
  refine not_suffix_of_unbordered htail hf (hp.trans ⟨[b], hend⟩) ?_
  rintro rfl
  have hle := hp.length_le
  rw [hb] at hle
  simp only [List.length_append, List.length_cons, List.length_nil] at hle
  omega

theorem splitTail_frames (htail : Unbordered tail) (hne : tail ≠ []) (frames : List (List α))
    (h : ∀ f ∈ frames, ¬tail <:+: f) :
    splitTail tail [] (frames.flatMap (· ++ tail)) = (frames, []) := by
  induction frames with
  | nil => rfl
  | cons f frames ih =>
    rw [List.forall_mem_cons] at h
    rw [List.flatMap_cons, splitTail_frame htail hne h.1, ih h.2]

end ControlLib
