import At32Foc.InterruptSafety

/-!
# What the telemetry shows

Each pass of the main loop loads the speed of motor 1, then the output of its speed loop, and
sends the two.  Interrupts may come between the loads, so a frame need not be a state the
motor was ever in; but

* every value sent was in the record at the time of its load, and the loads of all frames
  follow one another;
* the second value is within the limit of the speed loop

(`telemetry_samples`).
-/

namespace At32Foc

open ControlLib

section Sampling

variable (strtof : List UInt8 → ℚ) (b : BootInputs)

/-- The record of motor 1 before event number `t`. -/
def recordAt (evs : List MainLoopEvent) (t : ℕ) : FOCState ℚ :=
  (run (mainLoopStep strtof) (mainLoopBoot b) (evs.take t)).sys.Motor_1

/-- The values loaded at two events. -/
def loaded (evs : List MainLoopEvent) (t : ℕ × ℕ) : ℚ × ℚ :=
  ((recordAt strtof b evs t.1).speed, (recordAt strtof b evs t.2).speedPID.out)

/-- All loads, in the order of the frames. -/
def loads (ts : List (ℕ × ℕ)) : List ℕ := ts.flatMap fun t => [t.1, t.2]

/-- The loads of the frame under way. -/
def MainLoop.Loading (evs : List MainLoopEvent) (s : MainLoop) (pending : List ℕ) : Prop :=
  match s.pc with
  | .sampleOut => ∃ i, pending = [i] ∧ s.sPid0 = (recordAt strtof b evs i).speed
  | .send => ∃ i j, pending = [i, j] ∧ (s.sPid0, s.sPid1) = loaded strtof b evs (i, j)
  | _ => pending = []

/-- The frames so far, and the loads of the next. -/
structure Sampling (evs : List MainLoopEvent) (s : MainLoop) (ts : List (ℕ × ℕ))
    (pending : List ℕ) : Prop where
  sent : s.sent = ts.map (loaded strtof b evs)
  ordered : (loads ts ++ pending).Pairwise (· < ·)
  past : ∀ t ∈ loads ts ++ pending, t < evs.length
  loading : s.Loading strtof b evs pending

variable {strtof b}

theorem recordAt_append {evs : List MainLoopEvent} {t : ℕ} (h : t ≤ evs.length)
    (e : MainLoopEvent) : recordAt strtof b (evs ++ [e]) t = recordAt strtof b evs t := by
  rw [recordAt, recordAt, List.take_append_of_le_length h]

theorem recordAt_length (strtof : List UInt8 → ℚ) (b : BootInputs)
    (evs : List MainLoopEvent) : recordAt strtof b evs evs.length =
    (run (mainLoopStep strtof) (mainLoopBoot b) evs).sys.Motor_1 := by
  rw [recordAt, List.take_length]

theorem mem_loads {ts : List (ℕ × ℕ)} {t : ℕ × ℕ} (h : t ∈ ts) :
    t.1 ∈ loads ts ∧ t.2 ∈ loads ts := by
  constructor
  · exact List.mem_flatMap.mpr ⟨t, h, by simp⟩
  · exact List.mem_flatMap.mpr ⟨t, h, by simp⟩

section Step

variable {evs : List MainLoopEvent} {s : MainLoop} {ts : List (ℕ × ℕ)} {pending : List ℕ}

/-- Earlier loads are not changed by another event. -/
theorem loaded_append {t : ℕ × ℕ} (h1 : t.1 ≤ evs.length) (h2 : t.2 ≤ evs.length)
    (e : MainLoopEvent) : loaded strtof b (evs ++ [e]) t = loaded strtof b evs t := by
  rw [loaded, loaded, recordAt_append h1, recordAt_append h2]

theorem Sampling.sent_append (h : Sampling strtof b evs s ts pending) (e : MainLoopEvent) :
    s.sent = ts.map (loaded strtof b (evs ++ [e])) := by
  rw [h.sent]
  refine List.map_congr_left fun t ht => (loaded_append ?_ ?_ e).symm
  · exact (h.past _ (List.mem_append_left _ (mem_loads ht).1)).le
  · exact (h.past _ (List.mem_append_left _ (mem_loads ht).2)).le

theorem Sampling.past_append (h : Sampling strtof b evs s ts pending) (e : MainLoopEvent) :
    ∀ t ∈ loads ts ++ pending, t < (evs ++ [e]).length := by
  intro t ht
  rw [List.length_append]
  exact (h.past t ht).trans (Nat.lt_succ_self _)

/-- An event that loads nothing and sends nothing. -/
theorem Sampling.keep (h : Sampling strtof b evs s ts pending) (e : MainLoopEvent) {s' : MainLoop}
    (hsent : s'.sent = s.sent)
    (hload : s.Loading strtof b evs pending → s'.Loading strtof b evs pending) :
    Sampling strtof b (evs ++ [e]) s' ts pending := by
  refine ⟨hsent ▸ h.sent_append e, h.ordered, h.past_append e, ?_⟩
  have hl := hload h.loading
  unfold MainLoop.Loading at hl ⊢
  split at hl
  · obtain ⟨i, rfl, hi⟩ := hl
    have li := (h.past i (by simp)).le
    exact ⟨i, rfl, by rw [recordAt_append li]; exact hi⟩
  · obtain ⟨i, j, rfl, hij⟩ := hl
    have li := (h.past i (by simp)).le
    have lj := (h.past j (by simp)).le
    exact ⟨i, j, rfl, by rw [hij, loaded_append li lj]⟩
  · exact hl

/-- An event that makes the next load. -/
theorem Sampling.load (h : Sampling strtof b evs s ts pending) (e : MainLoopEvent) {s' : MainLoop}
    (hsent : s'.sent = s.sent)
    (hload : s'.Loading strtof b (evs ++ [e]) (pending ++ [evs.length])) :
    Sampling strtof b (evs ++ [e]) s' ts (pending ++ [evs.length]) := by
  refine ⟨hsent ▸ h.sent_append e, ?_, ?_, hload⟩
  · rw [← List.append_assoc, List.pairwise_append]
    refine ⟨h.ordered, List.pairwise_singleton _ _, fun t ht u hu => ?_⟩
    rw [List.mem_singleton.mp hu]
    exact h.past t ht
  · rw [← List.append_assoc]
    intro t ht
    rcases List.mem_append.mp ht with ht | ht
    · exact h.past_append e t ht
    · rw [List.mem_singleton.mp ht, List.length_append]
      exact Nat.lt_succ_self _

end Step

/-- Whatever happens next: a load, a frame sent, or neither. -/
theorem run_sampling (strtof : List UInt8 → ℚ) (b : BootInputs) (evs : List MainLoopEvent) :
    ∃ ts pending, Sampling strtof b evs (run (mainLoopStep strtof) (mainLoopBoot b) evs) ts
      pending := by
  induction evs using List.reverseRecOn with
  | nil => exact ⟨[], [], rfl, List.Pairwise.nil, nofun, rfl⟩
  | append_singleton evs e ih =>
    obtain ⟨ts, pending, h⟩ := ih
    have hnow := recordAt_length strtof b evs
    rw [run_append, run_cons, run_nil]
    generalize run (mainLoopStep strtof) (mainLoopBoot b) evs = s at h hnow ⊢
    have hl := h.loading
    unfold MainLoop.Loading at hl
    cases e with
    | irq i => exact ⟨ts, pending, h.keep (.irq i) rfl id⟩
    | main msg =>
      rw [mainLoopStep, mainStep]
      cases hpc : s.pc with
      | sampleSpeed =>
        rw [hpc] at hl
        obtain rfl := hl
        refine ⟨ts, _, h.load (.main msg) rfl ⟨evs.length, rfl, ?_⟩⟩
        rw [recordAt_append le_rfl, hnow]
      | sampleOut =>
        rw [hpc] at hl
        obtain ⟨i, rfl, hi⟩ := hl
        have li := (h.past i (by simp)).le
        refine ⟨ts, _, h.load (.main msg) rfl ⟨i, evs.length, rfl, ?_⟩⟩
        rw [loaded_append li le_rfl, loaded, hnow, hi]
      | send =>
        rw [hpc] at hl
        obtain ⟨i, j, rfl, hij⟩ := hl
        have li := (h.past i (by simp)).le
        have lj := (h.past j (by simp)).le
        have hloads : loads (ts ++ [(i, j)]) ++ [] = loads ts ++ [i, j] := by
          simp [loads]
        refine ⟨ts ++ [(i, j)], [], ?_, ?_, ?_, rfl⟩
        · rw [List.map_append, ← h.sent_append, List.map_cons, List.map_nil,
            loaded_append li lj, ← hij]
        · rw [hloads]
          exact h.ordered
        · rw [hloads]
          exact h.past_append (.main msg)
      | test c m =>
        refine ⟨ts, pending, h.keep (.main msg) ?_ fun hp => ?_⟩
        · dsimp only
          split_ifs <;> rfl
        · unfold MainLoop.Loading at hp ⊢
          rw [hpc] at hp
          dsimp only
          split_ifs
          · exact hp
          · cases c <;> cases m <;> exact hp
      | store c m k =>
        refine ⟨ts, pending, h.keep (.main msg) ?_ fun hp => ?_⟩
        · dsimp only
          split <;> rfl
        · unfold MainLoop.Loading at hp ⊢
          rw [hpc] at hp
          dsimp only
          cases c.stores[k]? with
          | some f => exact hp
          | none => cases c <;> cases m <;> exact hp
      | parse =>
        refine ⟨ts, pending, h.keep (.main msg) rfl fun hp => ?_⟩
        unfold MainLoop.Loading at hp ⊢
        rw [hpc] at hp
        exact hp

end Sampling

/-! ## Result -/

theorem mainLoopStep_safe (strtof : List UInt8 → ℚ) {s : MainLoop} (hw : Wired s.sys)
    (h : s.sys.Safe) (e : MainLoopEvent) : (mainLoopStep strtof s e).sys.Safe := by
  cases e with
  | main msg => exact mainStep_safe strtof h msg
  | irq i =>
    intro m
    rw [mainLoopStep]
    cases ho : i.val.forMotor m with
    | none =>
      rw [view_step_none strtof hw ho]
      exact h m
    | some o =>
      rw [view_step_some strtof hw ho]
      exact motorStep_safe strtof m _ o (h m)

theorem run_mainLoop_safe (strtof : List UInt8 → ℚ) (b : BootInputs) (evs : List MainLoopEvent) :
    (run (mainLoopStep strtof) (mainLoopBoot b) evs).sys.Safe := by
  have hboot : (boot b).Safe := by
    intro m
    rw [view_boot]
    exact bootView_safe m _ _
  have hall := run_invariant (I := fun s : MainLoop => Midway strtof b s ∧ s.sys.Safe)
    (fun s e h => ⟨mainLoopStep_midway e h.1, mainLoopStep_safe strtof h.1.wired h.2 e⟩) evs
    (mainLoopBoot b) ⟨boot_midway strtof b, hboot⟩
  exact hall.2

/-- **Telemetry.**  In any run of the main loop with interrupts between its stores, every frame
passed on is a speed and a speed loop's output that motor 1 had at two moments of the run, the
second later than the first and the moments of the next frame later still; and the output is
at most 40. -/
theorem telemetry_samples (strtof : List UInt8 → ℚ) (b : BootInputs) (evs : List MainLoopEvent) :
    let s := run (mainLoopStep strtof) (mainLoopBoot b) evs
    let Motor_1 := fun t => (run (mainLoopStep strtof) (mainLoopBoot b) (evs.take t)).sys.Motor_1
    (∃ ts : List (ℕ × ℕ), s.sent = ts.map (fun t =>
        ((Motor_1 t.1).speed, (Motor_1 t.2).speedPID.out)) ∧
      (ts.flatMap fun t => [t.1, t.2]).Pairwise (· < ·) ∧ ∀ t ∈ ts, t.2 < evs.length) ∧
    ∀ f ∈ s.sent, |f.2| ≤ 40 := by
  intro s Motor_1
  obtain ⟨ts, pending, h⟩ := run_sampling strtof b evs
  have hsent : s.sent = ts.map (loaded strtof b evs) := h.sent
  refine ⟨⟨ts, hsent, (List.pairwise_append.mp h.ordered).1, fun t ht =>
    h.past _ (List.mem_append_left _ (mem_loads ht).2)⟩, fun f hf => ?_⟩
  rw [hsent] at hf
  obtain ⟨t, -, rfl⟩ := List.mem_map.mp hf
  exact (run_mainLoop_safe strtof b (evs.take t.2) .M1).commands.speedOut

end At32Foc
