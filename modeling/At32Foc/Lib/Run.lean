import Mathlib

/-!
# Runs of an event-driven system

A system is a step function `step : σ → ε → σ`; a run feeds it a list of events,
oldest first.  Rules that carry a fact about one step to a fact about every run:

* `run_invariant`: what every step keeps holds after every run;
* `run_invariant_of`: the same for runs all of whose steps meet a side condition
  on the state before the step and its event (`AllSteps`; `allSteps_image` carries it over
  to the run of a part of the state);
* `run_last_write`: a part of the state that only some events write is what the last of
  them wrote;
* `run_simulates`: a relation to a smaller system, kept by every step, where each event
  is a step of the smaller system or none; `run_simulation` is the case of a part of
  the state, `run_map` and `run_image` the cases of a part that moves at every event.
-/

namespace ControlLib

variable {σ ε : Type*}

/-- The state after the events `evs`. -/
def run (step : σ → ε → σ) (s : σ) (evs : List ε) : σ := evs.foldl step s

@[simp] theorem run_nil (step : σ → ε → σ) (s : σ) : run step s [] = s := rfl

@[simp] theorem run_cons (step : σ → ε → σ) (s : σ) (e : ε) (evs : List ε) :
    run step s (e :: evs) = run step (step s e) evs := rfl

@[simp] theorem run_append (step : σ → ε → σ) (s : σ) (evs evs' : List ε) :
    run step s (evs ++ evs') = run step (run step s evs) evs' := by
  simp [run, List.foldl_append]

/-- Every step of the run of `evs` from `s` meets `C`. -/
def AllSteps (C : σ → ε → Prop) (step : σ → ε → σ) : σ → List ε → Prop
  | _, [] => True
  | s, e :: evs => C s e ∧ AllSteps C step (step s e) evs

instance decidableAllSteps {C : σ → ε → Prop} [∀ s e, Decidable (C s e)] (step : σ → ε → σ) :
    ∀ (evs : List ε) (s : σ), Decidable (AllSteps C step s evs)
  | [], _ => .isTrue trivial
  | e :: evs, s =>
    have := decidableAllSteps (C := C) step evs (step s e)
    inferInstanceAs (Decidable (C s e ∧ AllSteps C step (step s e) evs))

theorem allSteps_of_forall_mem {P : ε → Prop} (step : σ → ε → σ) :
    ∀ (evs : List ε) (s : σ), (∀ e ∈ evs, P e) → AllSteps (fun _ e => P e) step s evs := by
  intro evs
  induction evs with
  | nil => intro s _; trivial
  | cons e evs ih =>
    intro s h
    exact ⟨h e List.mem_cons_self, ih (step s e) fun e' h' => h e' (List.mem_cons_of_mem e h')⟩

theorem AllSteps.imp_of_mem {C C' : σ → ε → Prop} {step : σ → ε → σ} :
    ∀ {evs : List ε} {s : σ}, AllSteps C step s evs → (∀ t, ∀ e ∈ evs, C t e → C' t e) →
      AllSteps C' step s evs := by
  intro evs
  induction evs with
  | nil => intro s _ _; trivial
  | cons e evs ih =>
    rintro s ⟨he, hrest⟩ h
    exact ⟨h s e List.mem_cons_self he,
      ih hrest fun t e' he' => h t e' (List.mem_cons_of_mem e he')⟩

/-- What every admitted step keeps holds at the end of every admitted run. -/
theorem run_invariant_of {I : σ → Prop} {C : σ → ε → Prop} {step : σ → ε → σ}
    (hstep : ∀ s e, I s → C s e → I (step s e)) :
    ∀ (evs : List ε) (s : σ), I s → AllSteps C step s evs → I (run step s evs) := by
  intro evs
  induction evs with
  | nil => intro s hs _; exact hs
  | cons e evs ih =>
    rintro s hs ⟨hC, hrest⟩
    exact ih (step s e) (hstep s e hs hC) hrest

/-- What every step keeps holds at the end of every run. -/
theorem run_invariant {I : σ → Prop} {step : σ → ε → σ}
    (hstep : ∀ s e, I s → I (step s e)) (evs : List ε) (s : σ) (hs : I s) :
    I (run step s evs) :=
  run_invariant_of (C := fun _ _ => True) (fun s e h _ => hstep s e h) evs s hs
    (allSteps_of_forall_mem step evs s fun _ _ => trivial)

/-- A run of admitted steps is one of admitted steps in every system it maps to. -/
theorem allSteps_image {τ η : Type*} {I : σ → Prop} {v : σ → τ} {lab : ε → η}
    {C : σ → ε → Prop} {C' : τ → η → Prop} {step : σ → ε → σ} {step' : τ → η → τ}
    (hinv : ∀ s e, I s → I (step s e)) (hv : ∀ s e, I s → v (step s e) = step' (v s) (lab e))
    (hC : ∀ s e, I s → C s e → C' (v s) (lab e)) :
    ∀ (evs : List ε) (s : σ), I s → AllSteps C step s evs →
      AllSteps C' step' (v s) (evs.map lab) := by
  intro evs
  induction evs with
  | nil => intro s _ _; trivial
  | cons e evs ih =>
    rintro s hs ⟨he, hrest⟩
    refine ⟨hC s e hs he, ?_⟩
    rw [← hv s e hs]
    exact ih (step s e) (hinv s e hs) hrest

section LastWrite

variable {α : Type*} {W : ε → Prop} {o : σ → α} {step : σ → ε → σ}

/-- A part of the state that no event of the run writes. -/
theorem run_unwritten (hkeep : ∀ s e, ¬W e → o (step s e) = o s) (evs : List ε) (s : σ)
    (h : ∀ e ∈ evs, ¬W e) : o (run step s evs) = o s :=
  run_invariant_of (I := fun t => o t = o s) (C := fun _ e => ¬W e)
    (fun t e ht he => (hkeep t e he).trans ht) evs s rfl (allSteps_of_forall_mem step evs s h)

theorem run_last_write (hkeep : ∀ s e, ¬W e → o (step s e) = o s) (pre : List ε) (e : ε)
    (post : List ε) (s : σ) (h : ∀ e' ∈ post, ¬W e') :
    o (run step s (pre ++ e :: post)) = o (step (run step s pre) e) := by
  rw [run_append, run_cons]
  exact run_unwritten hkeep post _ h

/-- A run writes nothing, or there is a last event that writes. -/
theorem unwritten_or_exists_last (W : ε → Prop) (evs : List ε) :
    (∀ e ∈ evs, ¬W e) ∨
      ∃ pre e post, evs = pre ++ e :: post ∧ W e ∧ ∀ e' ∈ post, ¬W e' := by
  induction evs with
  | nil => exact .inl fun e he => absurd he List.not_mem_nil
  | cons e evs ih =>
    rcases ih with h | ⟨pre, e', post, rfl, he', hpost⟩
    · by_cases he : W e
      · exact .inr ⟨[], e, evs, rfl, he, h⟩
      · exact .inl (List.forall_mem_cons.mpr ⟨he, h⟩)
    · exact .inr ⟨e :: pre, e', post, rfl, he', hpost⟩

end LastWrite

section Simulation

variable {τ η : Type*} {step : σ → ε → σ} {step' : τ → η → τ} {lab : ε → Option η}

/-- **Simulation.**  If every admitted step is matched, under the relation `R`, by the step
`lab` assigns to its event, or by none, then so is every admitted run. -/
theorem run_simulates {R : σ → τ → Prop} {C : σ → ε → Prop}
    (hnone : ∀ s t e, R s t → C s e → lab e = none → R (step s e) t)
    (hsome : ∀ s t e e', R s t → C s e → lab e = some e' → R (step s e) (step' t e')) :
    ∀ (evs : List ε) (s : σ) (t : τ), R s t → AllSteps C step s evs →
      R (run step s evs) (run step' t (evs.filterMap lab)) := by
  intro evs
  induction evs with
  | nil => intro s t h _; exact h
  | cons e evs ih =>
    rintro s t h ⟨hC, hrest⟩
    rw [run_cons, List.filterMap_cons]
    cases hlab : lab e with
    | none => exact ih (step s e) t (hnone s t e h hC hlab) hrest
    | some e' => exact ih (step s e) (step' t e') (hsome s t e e' h hC hlab) hrest

/-- A part of the state that every step moves as `lab` says, or not at all. -/
theorem run_simulation {I : σ → Prop} {v : σ → τ} (hinv : ∀ s e, I s → I (step s e))
    (hnone : ∀ s e, I s → lab e = none → v (step s e) = v s)
    (hsome : ∀ s e e', I s → lab e = some e' → v (step s e) = step' (v s) e')
    (evs : List ε) (s : σ) (hs : I s) :
    v (run step s evs) = run step' (v s) (evs.filterMap lab) := by
  refine (run_simulates (R := fun s t => I s ∧ v s = t) (C := fun _ _ => True) ?_ ?_ evs s
    (v s) ⟨hs, rfl⟩ (allSteps_of_forall_mem step evs s fun _ _ => trivial)).2
  · rintro s _ e ⟨h, rfl⟩ - hlab
    exact ⟨hinv s e h, hnone s e h hlab⟩
  · rintro s _ e e' ⟨h, rfl⟩ - hlab
    exact ⟨hinv s e h, hsome s e e' h hlab⟩

/-- A part `v` of the state that every step moves by the event `lab` assigns to its own. -/
theorem run_map {lab : ε → η} (I : σ → Prop) (v : σ → τ) (step' : τ → η → τ)
    (hinv : ∀ s e, I s → I (step s e)) (hv : ∀ s e, I s → v (step s e) = step' (v s) (lab e))
    (evs : List ε) (s : σ) (hs : I s) : v (run step s evs) = run step' (v s) (evs.map lab) := by
  rw [← List.filterMap_eq_map']
  refine run_simulation hinv (fun _ _ _ hlab => ?_) (fun s e e' hs hlab => ?_) evs s hs
  · cases hlab
  · cases hlab
    exact hv s e hs

/-- A part `v` of the state that every step moves as the step of the same event does. -/
theorem run_image (I : σ → Prop) (v : σ → τ) (step' : τ → ε → τ)
    (hinv : ∀ s e, I s → I (step s e)) (hv : ∀ s e, I s → v (step s e) = step' (v s) e)
    (evs : List ε) (s : σ) (hs : I s) : v (run step s evs) = run step' (v s) evs := by
  have h : v (run step s evs) = run step' (v s) (evs.map id) := run_map I v step' hinv hv evs s hs
  rwa [List.map_id] at h

end Simulation

end ControlLib
