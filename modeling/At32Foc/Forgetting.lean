import At32Foc.Lib.PIForgetting
import At32Foc.Saturation

/-!
# What a controller keeps of its past

Each of the three controllers, started from any two records with the same gains and fed the
same measurements and targets:

* its two outputs never move further apart than the integrals were (`controller_contracts`);
* an error `e` that stays for `1 + 2 * |outMax| / |ki * e|` calls saturates it, whatever the
  record held, and from then on the two are the same for ever (`controller_forgets`).

So windup costs a bounded number of calls, and no part of the past survives it.
-/

namespace At32Foc

open ControlLib

section Forgetting

variable (l : Loop) (pFOC pFOC' : FOCState ℚ) (kp ki M : ℚ) (h : l.Gains kp ki M pFOC)
  (h' : l.Gains kp ki M pFOC')

include h h'

/-- **Contraction.**  After any calls on the same inputs the outputs differ by no more than
`out - kp * lastBias` did before them. -/
theorem controller_contracts (xs : List LoopInput) (x : LoopInput) :
    |(l.pid (run l.step pFOC (xs ++ [x]))).out - (l.pid (run l.step pFOC' (xs ++ [x]))).out| ≤
      |((l.pid pFOC).out - kp * (l.pid pFOC).lastBias) -
        ((l.pid pFOC').out - kp * (l.pid pFOC').lastBias)| := by
  have hout : ∀ p, l.Gains kp ki M p → (l.pid (run l.step p (xs ++ [x]))).out =
      (run (piStep kp ki M) (l.pid p).state (xs.map LoopInput.bias ++ [x.bias])).out := by
    intro p hp
    have hrun := Loop.run_state hp (xs ++ [x])
    rw [List.map_append, List.map_cons, List.map_nil] at hrun
    exact congrArg PIState.out hrun
  rw [hout pFOC h, hout pFOC' h']
  exact piRun_out_sub_le _ _ _ _

/-- **Windup ends.**  An error that lasts takes both records to the same limit, and nothing that
follows tells them apart. -/
theorem controller_forgets (e : ℚ) (he : ki * e ≠ 0) (xs : List LoopInput)
    (hxs : ∀ x ∈ xs, x.bias = e) (hlen : 2 * |M| + |ki * e| ≤ xs.length * |ki * e|)
    (ys : List LoopInput) :
    (l.pid (run l.step pFOC xs)).out = (if 0 < ki * e then |M| else -|M|) ∧
      (l.pid (run l.step pFOC (xs ++ ys))).state = (l.pid (run l.step pFOC' (xs ++ ys))).state := by
  have hpos : 0 < |ki * e| := abs_pos.mpr he
  -- the errors are `n + 1` copies of `e`
  obtain ⟨n, hn⟩ : ∃ n, xs.length = n + 1 := by
    refine Nat.exists_eq_succ_of_ne_zero fun h0 => ?_
    rw [h0, Nat.cast_zero, zero_mul] at hlen
    linarith [abs_nonneg M]
  have hmap : xs.map LoopInput.bias = List.replicate (n + 1) e := by
    rw [← hn]
    exact List.eq_replicate_iff.mpr ⟨List.length_map _, fun b hb => by
      obtain ⟨x, hx, rfl⟩ := List.mem_map.mp hb
      exact hxs x hx⟩
  have hbound : 2 * |M| ≤ n * |ki * e| := by
    rw [hn, Nat.cast_succ] at hlen
    linarith
  have hsat : ∀ p, l.Gains kp ki M p → (l.pid (run l.step p xs)).state =
      ⟨if 0 < ki * e then |M| else -|M|, e⟩ := by
    intro p hp
    rw [Loop.run_state hp, hmap]
    exact piRun_saturates he hbound _
  refine ⟨congrArg PIState.out (hsat pFOC h), ?_⟩
  have hg : ∀ p, l.Gains kp ki M p → l.Gains kp ki M (run l.step p xs) :=
    fun p hp => run_invariant (fun q x hq => Loop.step_gains q x hq) xs p hp
  rw [run_append, run_append, Loop.run_state (hg pFOC h), Loop.run_state (hg pFOC' h'),
    hsat pFOC h, hsat pFOC' h']

end Forgetting

theorem restFOC_gains : Loop.id.Gains 0.04 0.04 6 restFOC := by
  norm_num [Loop.Gains, Loop.pid, restFOC, setSpeedPIDParams, setCurrentPIDParams]

/-- A record that has been driven to its limit. -/
def woundFOC : FOCState ℚ := Loop.id.step restFOC ⟨200, 0⟩

theorem woundFOC_gains : Loop.id.Gains 0.04 0.04 6 woundFOC :=
  Loop.step_gains restFOC ⟨200, 0⟩ restFOC_gains

theorem controller_contracts_wound :
    |(Loop.id.pid (run Loop.id.step restFOC ([⟨0, 10⟩] ++ [⟨5, 10⟩]))).out -
        (Loop.id.pid (run Loop.id.step woundFOC ([⟨0, 10⟩] ++ [⟨5, 10⟩]))).out| ≤
      |((Loop.id.pid restFOC).out - 0.04 * (Loop.id.pid restFOC).lastBias) -
        ((Loop.id.pid woundFOC).out - 0.04 * (Loop.id.pid woundFOC).lastBias)| :=
  controller_contracts .id restFOC woundFOC 0.04 0.04 6 restFOC_gains woundFOC_gains _ _

/-- Four calls on an error of 100 take the controller from -6 to 6. -/
theorem controller_forgets_wound :
    (Loop.id.pid woundFOC).out = -6 ∧
      (Loop.id.pid (run Loop.id.step woundFOC (List.replicate 4 ⟨0, 100⟩))).out = 6 := by
  refine ⟨by decide +kernel, ?_⟩
  have hf := (controller_forgets .id woundFOC restFOC 0.04 0.04 6 woundFOC_gains restFOC_gains 100
    (by norm_num) (List.replicate 4 ⟨0, 100⟩)
    (fun x hx => by rw [List.eq_of_mem_replicate hx]; norm_num [LoopInput.bias])
    (by rw [List.length_replicate]; norm_num) []).1
  rw [hf]
  norm_num

end At32Foc
