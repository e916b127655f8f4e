import At32Foc.Lib.Run

/-!
# Nested interrupts

A core runs one program, the thread, and interrupt handlers that preempt it and each
other.  Each interrupt line `i` has a preemption level (the lower, the more urgent)
and a handler that runs in indivisible steps `micro i` on the shared state; a requested
line is entered when it is more urgent than the handler that runs.

* `Nested`: the handlers that are active have strictly increasing levels, so two of one
  level never interleave (`Nested.unique`).
* `Serialises` / `Serialises.run`: where the lines that write a part of the state share a
  level, and the others leave it alone, every run is, seen through that part, a run in
  which each handler is one step, taken where the handler returns.
* `drains`: a measure that the core itself can always lower empties the stack.
-/

namespace ControlLib

structure InterruptSystem (ι : Type*) (L : ι → Type*) (σ ε : Type*) where
  level : ι → ℕ
  /-- The request of a line, as the shared state shows it. -/
  requested : ι → σ → Bool
  entry : (i : ι) → L i
  /-- A step of a handler, and what is left of it: nothing when it returns. -/
  micro : (i : ι) → L i → σ → σ × Option (L i)
  thread : σ → σ
  hardware : ε → σ → σ

structure Core (ι : Type*) (L : ι → Type*) (σ : Type*) where
  shared : σ
  /-- The handlers entered and not left, the running one first. -/
  active : List (Σ i, L i)
  /-- The handlers that have returned, oldest first. -/
  returned : List ι

inductive CoreEvent (ι ε : Type*) where
  | hardware (e : ε)
  | enter (i : ι)
  /-- The next step of the running handler, or of the thread if there is none. -/
  | execute

namespace InterruptSystem

variable {ι : Type*} {L : ι → Type*} {σ ε : Type*} (S : InterruptSystem ι L σ ε)

/-- More urgent than what runs. -/
def Preempts (i : ι) (active : List (Σ i, L i)) : Prop :=
  ∀ f ∈ active.head?, S.level i < S.level f.1

instance (i : ι) (active : List (Σ i, L i)) : Decidable (S.Preempts i active) :=
  match active with
  | [] => .isTrue nofun
  | f :: _ => decidable_of_iff (S.level i < S.level f.1) (by simp [Preempts])

def step (c : Core ι L σ) : CoreEvent ι ε → Core ι L σ
  | .hardware e => { c with shared := S.hardware e c.shared }
  | .enter i =>
    if S.requested i c.shared = true ∧ S.Preempts i c.active then
      { c with active := ⟨i, S.entry i⟩ :: c.active }
    else c
  | .execute =>
    match c.active with
    | [] => { c with shared := S.thread c.shared }
    | ⟨i, l⟩ :: rest =>
      match S.micro i l c.shared with
      | (s, some l') => { c with shared := s, active := ⟨i, l'⟩ :: rest }
      | (s, none) => ⟨s, rest, c.returned ++ [i]⟩

/-- Everything a step can do. -/
theorem step_cases {P : Core ι L σ → Prop} {c : Core ι L σ} (e : CoreEvent ι ε) (hc : P c)
    (hhardware : ∀ e, P { c with shared := S.hardware e c.shared })
    (henter : ∀ i, S.requested i c.shared = true → S.Preempts i c.active →
      P { c with active := ⟨i, S.entry i⟩ :: c.active })
    (hthread : c.active = [] → P { c with shared := S.thread c.shared })
    (hmicro : ∀ i l rest s l', c.active = ⟨i, l⟩ :: rest → S.micro i l c.shared = (s, some l') →
      P { c with shared := s, active := ⟨i, l'⟩ :: rest })
    (hreturn : ∀ i l rest s, c.active = ⟨i, l⟩ :: rest → S.micro i l c.shared = (s, none) →
      P ⟨s, rest, c.returned ++ [i]⟩) : P (S.step c e) := by
  cases e with
  | hardware e => exact hhardware e
  | enter i =>
    rw [step]
    split_ifs with h
    · exact henter i h.1 h.2
    · exact hc
  | execute =>
    rw [step]
    split
    · exact hthread ‹_›
    · rename_i i l rest hactive
      split
      · exact hmicro i l rest _ _ hactive ‹_›
      · exact hreturn i l rest _ hactive ‹_›

section Execute

variable {S} {c : Core ι L σ} {i : ι} {l : L i} {rest : List (Σ i, L i)} {s : σ}

theorem step_execute_micro {l' : L i} (ha : c.active = ⟨i, l⟩ :: rest)
    (hm : S.micro i l c.shared = (s, some l')) :
    S.step c .execute = { c with shared := s, active := ⟨i, l'⟩ :: rest } := by
  simp only [step, ha, hm]

theorem step_execute_return (ha : c.active = ⟨i, l⟩ :: rest)
    (hm : S.micro i l c.shared = (s, none)) :
    S.step c .execute = ⟨s, rest, c.returned ++ [i]⟩ := by
  simp only [step, ha, hm]

end Execute

/-! ## Nesting -/

/-- Each active handler is more urgent than those below it. -/
def Nested (active : List (Σ i, L i)) : Prop :=
  active.Pairwise fun f g => S.level f.1 < S.level g.1

variable {S}

theorem Nested.enter {active : List (Σ i, L i)} (h : S.Nested active) {i : ι}
    (hi : S.Preempts i active) (f : Σ i, L i) (hf : f ∈ active) : S.level i < S.level f.1 := by
  cases active with
  | nil => cases hf
  | cons g rest =>
    have hg : S.level i < S.level g.1 := hi g rfl
    rcases List.mem_cons.mp hf with rfl | hf
    · exact hg
    · exact hg.trans (List.rel_of_pairwise_cons h hf)

theorem step_nested (c : Core ι L σ) (e : CoreEvent ι ε) (h : S.Nested c.active) :
    S.Nested (S.step c e).active := by
  refine S.step_cases (P := fun c => S.Nested c.active) e h (fun _ => h) (fun i _ hi => ?_)
    (fun _ => h) (fun i l rest s l' ha _ => ?_) (fun i l rest s ha _ => ?_)
  · exact List.pairwise_cons.mpr ⟨h.enter hi, h⟩
  · rw [ha] at h
    exact List.pairwise_cons.mpr (List.pairwise_cons.mp h)
  · rw [ha] at h
    exact (List.pairwise_cons.mp h).2

/-- One handler of a level at a time. -/
theorem Nested.unique {active : List (Σ i, L i)} (h : S.Nested active) {f g : Σ i, L i}
    (hf : f ∈ active) (hg : g ∈ active) (hl : S.level f.1 = S.level g.1) : f = g := by
  by_contra hne
  have hp : active.Pairwise fun f g => S.level f.1 ≠ S.level g.1 := h.imp fun hlt => hlt.ne
  have : Std.Symm fun f g : Σ i, L i => S.level f.1 ≠ S.level g.1 := ⟨fun _ _ h => h.symm⟩
  exact hp.forall hf hg hne hl

/-! ## Handlers as single steps -/

variable (S)

/-- The lines of `Visible` share a level and move the part `view` of the state; a handler
that is under way at `l` has taken it from `t` to what `Mid` says, and one that returns
has made the step `step` of one event, or none.  No other handler touches that part; the
thread makes steps of its own. -/
structure Serialises {τ η : Type*} (view : σ → τ) (step : τ → η → τ) (label : η → Option ι)
    (Visible : ι → Prop) (Mid : (i : ι) → L i → τ → τ → Prop) (I : τ → Prop) : Prop where
  level : ∀ i j, Visible i → Visible j → S.level i = S.level j
  inv : ∀ t e, I t → I (step t e)
  entry : ∀ i t, Visible i → I t → Mid i (S.entry i) t t
  micro : ∀ i l s t s' l', Visible i → I t → Mid i l t (view s) →
    S.micro i l s = (s', some l') → Mid i l' t (view s')
  done : ∀ i l s t s', Visible i → I t → Mid i l t (view s) → S.micro i l s = (s', none) →
    view s' = t ∨ ∃ e, label e = some i ∧ view s' = step t e
  hidden : ∀ i l s, ¬Visible i → view (S.micro i l s).1 = view s
  thread : ∀ s, I (view s) → ∃ evs : List η, (∀ e ∈ evs, label e = none) ∧
    view (S.thread s) = run step (view s) evs
  hardware : ∀ e s, view (S.hardware e s) = view s

section Serialises

variable {S} {τ η : Type*} {view : σ → τ} {astep : τ → η → τ} {label : η → Option ι}
  {Visible : ι → Prop} [DecidablePred Visible] {Mid : (i : ι) → L i → τ → τ → Prop} {I : τ → Prop}

/-- The state `t` of the run of single steps that a core state is matched with. -/
structure Matches (label : η → Option ι) (Visible : ι → Prop) [DecidablePred Visible]
    (Mid : (i : ι) → L i → τ → τ → Prop) (view : σ → τ) (evs : List η) (t : τ)
    (c : Core ι L σ) : Prop where
  log : (evs.filterMap label).Sublist (c.returned.filter fun i => Visible i)
  busy : ∀ f ∈ c.active, Visible f.1 → Mid f.1 f.2 t (view c.shared)
  idle : (∀ f ∈ c.active, ¬Visible f.1) → view c.shared = t

/-- Every step of the core is matched by steps of the run of single steps. -/
theorem Serialises.step_matches (h : S.Serialises view astep label Visible Mid I) {t₀ : τ}
    {evs : List η} {c : Core ι L σ} (hn : S.Nested c.active) (hI : I t₀)
    (hm : Matches label Visible Mid view evs (run astep t₀ evs) c) (e : CoreEvent ι ε) :
    ∃ evs', Matches label Visible Mid view evs' (run astep t₀ evs') (S.step c e) := by
  have hIt : I (run astep t₀ evs) := run_invariant h.inv evs t₀ hI
  refine S.step_cases (P := fun c => ∃ evs', Matches label Visible Mid view evs'
    (run astep t₀ evs') c) e ⟨evs, hm⟩ (fun e => ?_) (fun i _ hi => ?_) (fun ha => ?_)
    (fun i l rest s l' ha hl => ?_) (fun i l rest s ha hl => ?_)
  · refine ⟨evs, hm.log, fun f hf hv => ?_, fun hi => ?_⟩
    · rw [h.hardware]
      exact hm.busy f hf hv
    · rw [h.hardware]
      exact hm.idle hi
  · -- a visible line is entered over invisible ones only
    have hclear : Visible i → ∀ f ∈ c.active, ¬Visible f.1 := fun hv f hf hf' =>
      (hn.enter hi f hf).ne (h.level i f.1 hv hf')
    refine ⟨evs, hm.log, fun f hf hv => ?_, fun hidle => ?_⟩
    · rcases List.mem_cons.mp hf with rfl | hf
      · dsimp only
        rw [hm.idle (hclear hv)]
        exact h.entry i _ hv hIt
      · exact hm.busy f hf hv
    · exact hm.idle fun f hf => hidle f (List.mem_cons_of_mem _ hf)
  · have hview : view c.shared = run astep t₀ evs := hm.idle (by rw [ha]; nofun)
    obtain ⟨evs', hlab, hrun⟩ := h.thread c.shared (hview ▸ hIt)
    refine ⟨evs ++ evs', ?_, ?_, fun _ => ?_⟩
    · rw [List.filterMap_append, List.filterMap_eq_nil_iff.mpr hlab, List.append_nil]
      exact hm.log
    · dsimp only
      rw [ha]
      nofun
    · dsimp only
      rw [hrun, run_append, hview]
  · have hmem : (⟨i, l⟩ : Σ i, L i) ∈ c.active := by rw [ha]; exact List.mem_cons_self
    rw [ha] at hn
    by_cases hv : Visible i
    · have hMid := h.micro i l _ _ s l' hv hIt (hm.busy _ hmem hv) hl
      refine ⟨evs, hm.log, fun f hf hv' => ?_, fun hidle => ?_⟩
      · rcases List.mem_cons.mp hf with rfl | hf
        · exact hMid
        · exact absurd (h.level i f.1 hv hv') (List.rel_of_pairwise_cons hn hf).ne
      · exact absurd hv (hidle ⟨i, l'⟩ List.mem_cons_self)
    · have hsame : view s = view c.shared := by
        have hh := h.hidden i l c.shared hv
        rwa [hl] at hh
      refine ⟨evs, hm.log, fun f hf hv' => ?_, fun hidle => ?_⟩
      · rcases List.mem_cons.mp hf with rfl | hf
        · exact absurd hv' hv
        · dsimp only
          rw [hsame]
          exact hm.busy f (by rw [ha]; exact List.mem_cons_of_mem _ hf) hv'
      · dsimp only
        rw [hsame]
        refine hm.idle fun f hf => ?_
        rw [ha] at hf
        rcases List.mem_cons.mp hf with rfl | hf
        · exact hv
        · exact hidle f (List.mem_cons_of_mem _ hf)
  · have hmem : (⟨i, l⟩ : Σ i, L i) ∈ c.active := by rw [ha]; exact List.mem_cons_self
    rw [ha] at hn
    by_cases hv : Visible i
    · have hrest : ∀ f ∈ rest, ¬Visible f.1 := fun f hf hv' =>
        absurd (h.level i f.1 hv hv') (List.rel_of_pairwise_cons hn hf).ne
      rcases h.done i l _ _ s hv hIt (hm.busy _ hmem hv) hl with hview | ⟨e', hlab, hview⟩
      · refine ⟨evs, ?_, fun f hf hv' => absurd hv' (hrest f hf), fun _ => hview⟩
        rw [List.filter_append]
        exact hm.log.trans (List.sublist_append_left _ _)
      · refine ⟨evs ++ [e'], ?_, fun f hf hv' => absurd hv' (hrest f hf), fun _ => ?_⟩
        · rw [List.filterMap_append, List.filter_append]
          exact hm.log.append (by simp [hlab, hv])
        · rw [run_append]
          exact hview
    · have hsame : view s = view c.shared := by
        have hh := h.hidden i l c.shared hv
        rwa [hl] at hh
      refine ⟨evs, ?_, fun f hf hv' => ?_, fun hidle => ?_⟩
      · rw [List.filter_append]
        exact hm.log.trans (List.sublist_append_left _ _)
      · dsimp only
        rw [hsame]
        exact hm.busy f (by rw [ha]; exact List.mem_cons_of_mem _ hf) hv'
      · dsimp only
        rw [hsame]
        refine hm.idle fun f hf => ?_
        rw [ha] at hf
        rcases List.mem_cons.mp hf with rfl | hf
        · exact hv
        · exact hidle f hf

/-- **Serialisation.**  Every run of the core is matched by one of single steps, of visible
handlers in the order of their returns. -/
theorem Serialises.run (h : S.Serialises view astep label Visible Mid I) (s₀ : σ)
    (hI : I (view s₀)) (cevs : List (CoreEvent ι ε)) :
    ∃ evs, Matches label Visible Mid view evs (run astep (view s₀) evs)
      (run S.step ⟨s₀, [], []⟩ cevs) := by
  have h₀ : Matches label Visible Mid view [] (view s₀) ⟨s₀, [], []⟩ :=
    ⟨List.Sublist.slnil, nofun, fun _ => rfl⟩
  refine (run_invariant (I := fun c : Core ι L σ => S.Nested c.active ∧ ∃ evs,
    Matches label Visible Mid view evs (ControlLib.run astep (view s₀) evs) c) (fun c e hc => ?_)
    cevs ⟨s₀, [], []⟩ ⟨List.Pairwise.nil, [], h₀⟩).2
  obtain ⟨hn, evs, hm⟩ := hc
  exact ⟨step_nested c e hn, h.step_matches hn hI hm e⟩

end Serialises

/-! ## Draining -/

/-- The steps the core takes by itself. -/
def CoreEvent.IsOwn : CoreEvent ι ε → Prop
  | .hardware _ => False
  | .enter _ | .execute => True

variable {S}

/-- If the core can always lower a measure by itself while handlers are active, it can
return from all of them. -/
theorem drains {I : Core ι L σ → Prop} (μ : Core ι L σ → ℕ)
    (h : ∀ c, I c → c.active ≠ [] → ∃ evs : List (CoreEvent ι ε),
      (∀ e ∈ evs, CoreEvent.IsOwn e) ∧ I (run S.step c evs) ∧ μ (run S.step c evs) < μ c)
    (c : Core ι L σ) (hc : I c) : ∃ evs : List (CoreEvent ι ε),
      (∀ e ∈ evs, CoreEvent.IsOwn e) ∧ (run S.step c evs).active = [] := by
  induction hn : μ c using Nat.strong_induction_on generalizing c with
  | _ n ih =>
    by_cases ha : c.active = []
    · exact ⟨[], nofun, ha⟩
    · obtain ⟨evs, hown, hI, hlt⟩ := h c hc ha
      obtain ⟨evs', hown', hdone⟩ := ih _ (hn ▸ hlt) _ hI rfl
      refine ⟨evs ++ evs', fun e he => (List.mem_append.mp he).elim (hown e) (hown' e), ?_⟩
      rw [run_append]
      exact hdone

end InterruptSystem

end ControlLib
