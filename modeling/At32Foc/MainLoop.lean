import At32Foc.Staging

/-!
# The main loop, store by store

`main`'s loop is not a step of its own: the control handlers and the timer tick preempt
it between any two of its stores.  `mainLoopStep` runs it one load or store at a time,
with interrupts anywhere in between.

* `Progress`: how far a pass is with a commit.
* `Committing`: what the controllers of a motor hold at that point, against the same
  passes run without interrupts (`passEvents`).
* `commits_store_by_store`: so a commit is never lost or mixed with another; while its
  stores run, the controllers work with the new values up to one place and the old from
  there on.
-/

namespace At32Foc

open ControlLib

/-! ## Algorithm -/

/-- The stores of a commit, in the order of the two setters. -/
def Commit.stores : Commit → List (PIDParams ℚ → FOCState ℚ → FOCState ℚ)
  | .current => [
      fun pid p => { p with tarid := pid.Id },
      fun pid p => { p with tariq := pid.Iq },
      fun pid p => { p with idPID := { p.idPID with kp := pid.CurrentKP } },
      fun pid p => { p with idPID := { p.idPID with ki := pid.CurrentKI } },
      fun pid p => { p with idPID := { p.idPID with kd := pid.CurrentKD } },
      fun _ p => { p with idPID := { p.idPID with outMax := 6.0 } },
      fun pid p => { p with iqPID := { p.iqPID with kp := pid.CurrentKP } },
      fun pid p => { p with iqPID := { p.iqPID with ki := pid.CurrentKI } },
      fun pid p => { p with iqPID := { p.iqPID with kd := pid.CurrentKD } },
      fun _ p => { p with iqPID := { p.iqPID with outMax := 6.0 } }]
  | .speed => [
      fun pid p => { p with tarSpeed := pid.Speed },
      fun pid p => { p with speedPID := { p.speedPID with kp := pid.SpeedKP } },
      fun pid p => { p with speedPID := { p.speedPID with ki := pid.SpeedKI } },
      fun pid p => { p with speedPID := { p.speedPID with kd := pid.SpeedKD } },
      fun _ p => { p with speedPID := { p.speedPID with outMax := 40.0 } }]

def Commit.setFlag (c : Commit) (pid : PIDParams ℚ) : PIDParams ℚ :=
  match c with
  | .current => { pid with CurrentSetFlag := 1 }
  | .speed => { pid with SpeedSetFlag := 1 }

/-- Where the main loop is. -/
inductive MainPc where
  /-- The two loads of `s_pid`, and the call that sends it. -/
  | sampleSpeed
  | sampleOut
  | send
  /-- The test of a commit flag. -/
  | test (c : Commit) (m : Motor)
  /-- Store `k` of a commit; after the last, the flag. -/
  | store (c : Commit) (m : Motor) (k : ℕ)
  | parse
  deriving DecidableEq

/-- What follows the block of a commit. -/
def nextBlock : Commit → Motor → MainPc
  | .current, .M1 => .test .current .M2
  | .current, .M2 => .test .speed .M1
  | .speed, .M1 => .test .speed .M2
  | .speed, .M2 => .parse

structure MainLoop where
  sys : Sys
  pc : MainPc
  /-- `s_pid`. -/
  sPid0 : ℚ
  sPid1 : ℚ
  /-- The arrays passed to `USART1_SendFloatArray`, oldest first. -/
  sent : List (ℚ × ℚ)
  /-- What the parse phase of each pass found, oldest first. -/
  passes : List (Option (List UInt8))

def Sys.setFoc (m : Motor) (pFOC : FOCState ℚ) (s : Sys) : Sys :=
  match m with
  | .M1 => { s with Motor_1 := pFOC }
  | .M2 => { s with Motor_2 := pFOC }

def Sys.setParams (m : Motor) (pid : PIDParams ℚ) (s : Sys) : Sys :=
  match m with
  | .M1 => { s with pidParams1 := pid }
  | .M2 => { s with pidParams2 := pid }

/-- The text the parse phase finds, if `rx1_flag` is set. -/
def parsePhase (strtof : List UInt8 → ℚ) (msg : Option (List UInt8)) (s : Sys) : Sys :=
  match msg with
  | none => s
  | some text => step strtof s (.parse text)

/-- The next load or store of the main loop. -/
def mainStep (strtof : List UInt8 → ℚ) (msg : Option (List UInt8)) (s : MainLoop) : MainLoop :=
  match s.pc with
  | .sampleSpeed => { s with sPid0 := s.sys.Motor_1.speed, pc := .sampleOut }
  | .sampleOut => { s with sPid1 := s.sys.Motor_1.speedPID.out, pc := .send }
  | .send => { s with sent := s.sent ++ [(s.sPid0, s.sPid1)], pc := .test .current .M1 }
  | .test c m =>
    if c.flag (s.sys.view m).params = 0 then { s with pc := .store c m 0 }
    else { s with pc := nextBlock c m }
  | .store c m k =>
    let v := s.sys.view m
    match c.stores[k]? with
    | some f => { s with sys := s.sys.setFoc m (f v.params v.foc), pc := .store c m (k + 1) }
    | none => { s with sys := s.sys.setParams m (c.setFlag v.params), pc := nextBlock c m }
  | .parse =>
    { s with sys := parsePhase strtof msg s.sys, passes := s.passes ++ [msg], pc := .sampleSpeed }

inductive MainLoopEvent where
  /-- The next step of the main loop; at the parse phase, with the text it finds. -/
  | main (msg : Option (List UInt8))
  | irq (i : Interrupt)

def mainLoopStep (strtof : List UInt8 → ℚ) (s : MainLoop) : MainLoopEvent → MainLoop
  | .main msg => mainStep strtof msg s
  | .irq i => { s with sys := step strtof s.sys i.val }

def mainLoopBoot (b : BootInputs) : MainLoop := ⟨boot b, .sampleSpeed, 0, 0, [], []⟩

/-- The same passes, without interrupts. -/
def passEvents (passes : List (Option (List UInt8))) : List Event :=
  passes.flatMap fun msg => .apply :: (msg.map Event.parse).toList

/-! ## What the controllers hold -/

/-- The values a commit stores, in the order of its stores. -/
def Commit.values (c : Commit) (p : FOCState ℚ) : List ℚ :=
  match c with
  | .current => [p.tarid, p.tariq, p.idPID.kp, p.idPID.ki, p.idPID.kd, p.idPID.outMax,
      p.iqPID.kp, p.iqPID.ki, p.iqPID.kd, p.iqPID.outMax]
  | .speed => [p.tarSpeed, p.speedPID.kp, p.speedPID.ki, p.speedPID.kd, p.speedPID.outMax]

/-- The same, in the staged set. -/
def Commit.wanted (c : Commit) (pid : PIDParams ℚ) : List ℚ :=
  match c with
  | .current => [pid.Id, pid.Iq, pid.CurrentKP, pid.CurrentKI, pid.CurrentKD, 6.0,
      pid.CurrentKP, pid.CurrentKI, pid.CurrentKD, 6.0]
  | .speed => [pid.Speed, pid.SpeedKP, pid.SpeedKI, pid.SpeedKD, 40.0]

namespace Commit

@[simp] theorem values_length (c : Commit) (p : FOCState ℚ) :
    (c.values p).length = c.stores.length := by
  cases c <;> rfl

@[simp] theorem wanted_length (c : Commit) (pid : PIDParams ℚ) :
    (c.wanted pid).length = c.stores.length := by
  cases c <;> rfl

theorem values_of_held {c : Commit} {p q : FOCState ℚ} (h : c.held p = c.held q) :
    c.values p = c.values q := by
  cases c <;>
    simp only [held, PIStruct.gains, Tuning.mk.injEq, List.cons.injEq, Gains.mk.injEq] at h <;>
    simp [values, h]

/-- Store `k` writes value `k` of its own commit, and no other value. -/
theorem values_store (c : Commit) {k : ℕ} (hk : k < c.stores.length) (pid : PIDParams ℚ)
    (p : FOCState ℚ) :
    c.values (c.stores[k] pid p) = (c.values p).set k ((c.wanted pid).getD k 0) := by
  cases c with
  | current =>
    have hk : k < 10 := hk
    interval_cases k <;> rfl
  | speed =>
    have hk : k < 5 := hk
    interval_cases k <;> rfl

theorem values_store_other {c c' : Commit} (hc : c' ≠ c) {k : ℕ} (hk : k < c.stores.length)
    (pid : PIDParams ℚ) (p : FOCState ℚ) : c'.values (c.stores[k] pid p) = c'.values p := by
  cases c with
  | current =>
    obtain rfl : c' = .speed := by cases c' <;> first | rfl | exact absurd rfl hc
    have hk : k < 10 := hk
    interval_cases k <;> rfl
  | speed =>
    obtain rfl : c' = .current := by cases c' <;> first | rfl | exact absurd rfl hc
    have hk : k < 5 := hk
    interval_cases k <;> rfl

end Commit

/-- Values one commit stores one after the other: new up to place `k`, old from there on. -/
theorem set_take_append_drop {xs ys : List ℚ} (h : xs.length = ys.length) {k : ℕ}
    (hk : k < xs.length) :
    (xs.take k ++ ys.drop k).set k (xs.getD k 0) = xs.take (k + 1) ++ ys.drop (k + 1) := by
  have hlen : (xs.take k).length = k := List.length_take_of_le hk.le
  have hy : k < ys.length := by omega
  rw [List.set_append_right _ _ hlen.le, hlen, Nat.sub_self, List.drop_eq_getElem_cons hy,
    List.set_cons_zero, List.take_succ_eq_append_getElem hk, List.append_assoc,
    List.getD_eq_getElem _ _ hk]
  rfl

/-! ## Progress of a pass -/

inductive Progress where
  | pending
  | storing (k : ℕ)
  | done
  deriving DecidableEq

/-- The blocks of a pass, in order. -/
def blockIndex : Commit → Motor → ℕ
  | .current, .M1 => 0
  | .current, .M2 => 1
  | .speed, .M1 => 2
  | .speed, .M2 => 3

/-- How far the pass is with a commit. -/
def MainPc.progress (pc : MainPc) (c : Commit) (m : Motor) : Progress :=
  match pc with
  | .sampleSpeed | .sampleOut | .send => .pending
  | .test c' m' => if blockIndex c m < blockIndex c' m' then .done else .pending
  | .store c' m' k =>
    if blockIndex c m < blockIndex c' m' then .done
    else if c = c' ∧ m = m' then .storing k
    else .pending
  | .parse => .done

theorem progress_test_self (c : Commit) (m : Motor) : (MainPc.test c m).progress c m = .pending :=
  if_neg (lt_irrefl _)

theorem progress_store_self (c : Commit) (m : Motor) (k : ℕ) :
    (MainPc.store c m k).progress c m = .storing k := by
  cases c <;> cases m <;> rfl

theorem progress_next_self (c : Commit) (m : Motor) : (nextBlock c m).progress c m = .done := by
  cases c <;> cases m <;> rfl

section Other

variable {c c' : Commit} {m m' : Motor} (h : ¬(c = c' ∧ m = m'))

include h

theorem progress_store_other (k : ℕ) :
    (MainPc.store c' m' k).progress c m = (MainPc.test c' m').progress c m := by
  cases c <;> cases c' <;> cases m <;> cases m' <;> first | rfl | exact absurd ⟨rfl, rfl⟩ h

theorem progress_next_other :
    (nextBlock c' m').progress c m = (MainPc.test c' m').progress c m := by
  cases c <;> cases c' <;> cases m <;> cases m' <;> first | rfl | exact absurd ⟨rfl, rfl⟩ h

end Other

/-- What a motor's controllers and flag are at a point of a pass that found it as `old`. -/
def Committing (c : Commit) (old v : MotorView) : Progress → Prop
  | .pending => c.values v.foc = c.values old.foc ∧ c.flag v.params = c.flag old.params
  | .storing k =>
    c.flag old.params = 0 ∧ c.flag v.params = 0 ∧
      c.values v.foc = (c.wanted old.params).take k ++ (c.values old.foc).drop k
  | .done => c.values v.foc = c.values old.apply.foc ∧ c.flag v.params = c.flag old.apply.params

theorem apply_values (c : Commit) (v : MotorView) :
    c.values v.apply.foc = if c.flag v.params = 0 then c.wanted v.params else c.values v.foc := by
  unfold MotorView.apply applyCurrent applySpeed
  cases c <;>
    by_cases hc : v.params.CurrentSetFlag = 0 <;> by_cases hs : v.params.SpeedSetFlag = 0 <;>
    simp [Commit.flag, hc, hs] <;> rfl

theorem apply_flag (c : Commit) (v : MotorView) :
    c.flag v.apply.params = if c.flag v.params = 0 then 1 else c.flag v.params := by
  unfold MotorView.apply applyCurrent applySpeed
  cases c <;>
    by_cases hc : v.params.CurrentSetFlag = 0 <;> by_cases hs : v.params.SpeedSetFlag = 0 <;>
    simp [Commit.flag, hc, hs]

theorem apply_wanted (c : Commit) (v : MotorView) :
    c.wanted v.apply.params = c.wanted v.params := by
  unfold MotorView.apply applyCurrent applySpeed
  cases c <;>
    by_cases hc : v.params.CurrentSetFlag = 0 <;> by_cases hs : v.params.SpeedSetFlag = 0 <;>
    simp [hc, hs] <;> rfl

/-- A staged set is its two flags and the values of its two commits. -/
theorem params_ext {p q : PIDParams ℚ}
    (h : ∀ c : Commit, c.wanted p = c.wanted q ∧ c.flag p = c.flag q) : p = q := by
  have hc := h .current
  have hs := h .speed
  cases p
  cases q
  simp only [Commit.wanted, Commit.flag, List.cons.injEq] at hc hs
  simp [hc, hs]

/-! ## One step -/

@[simp] theorem view_setFoc (m g : Motor) (p : FOCState ℚ) (s : Sys) :
    (s.setFoc m p).view g = if g = m then { s.view g with foc := p } else s.view g := by
  cases m <;> cases g <;> rfl

@[simp] theorem view_setParams (m g : Motor) (pid : PIDParams ℚ) (s : Sys) :
    (s.setParams m pid).view g = if g = m then { s.view g with params := pid } else s.view g := by
  cases m <;> cases g <;> rfl

theorem store_wiring {c : Commit} {f : PIDParams ℚ → FOCState ℚ → FOCState ℚ}
    (hf : f ∈ c.stores) (pid : PIDParams ℚ) (p : FOCState ℚ) : (f pid p).wiring = p.wiring := by
  cases c <;> simp only [Commit.stores, List.mem_cons, List.not_mem_nil, or_false] at hf
  · rcases hf with rfl | rfl | rfl | rfl | rfl | rfl | rfl | rfl | rfl | rfl <;> rfl
  · rcases hf with rfl | rfl | rfl | rfl | rfl <;> rfl

theorem setFoc_wired {m : Motor} {s : Sys} {p : FOCState ℚ} (hs : Wired s)
    (hp : p.wiring = (s.view m).foc.wiring) : Wired (s.setFoc m p) := by
  refine wired_of_view (fun g h => ?_) hs
  rw [view_setFoc]
  split_ifs with hg
  · subst hg
    exact h.of_wiring hp
  · exact h

theorem setParams_wired {m : Motor} {s : Sys} {pid : PIDParams ℚ} (hs : Wired s) :
    Wired (s.setParams m pid) := by
  refine wired_of_view (fun g h => ?_) hs
  rw [view_setParams]
  split_ifs <;> exact h

section Pass

variable (strtof : List UInt8 → ℚ) (b : BootInputs)

/-- The state after some passes, had there been no interrupts. -/
def passBase (passes : List (Option (List UInt8))) : Sys :=
  run (step strtof) (boot b) (passEvents passes)

/-- Between the passes without interrupts. -/
structure Midway (s : MainLoop) : Prop where
  wired : Wired s.sys
  staged : ∀ (m : Motor) (c : Commit),
    c.wanted (s.sys.view m).params = c.wanted ((passBase strtof b s.passes).view m).params
  committing : ∀ (m : Motor) (c : Commit),
    Committing c ((passBase strtof b s.passes).view m) (s.sys.view m) (s.pc.progress c m)

variable {strtof b} {s : MainLoop}

/-- Committing depends on values and flag alone. -/
theorem Committing.congr {c : Commit} {old v v' : MotorView} {p : Progress}
    (h : Committing c old v p) (hv : c.values v'.foc = c.values v.foc)
    (hp : c.flag v'.params = c.flag v.params) : Committing c old v' p := by
  cases p with
  | pending => exact ⟨hv.trans h.1, hp.trans h.2⟩
  | storing k => exact ⟨h.1, hp.trans h.2.1, hv.trans h.2.2⟩
  | done => exact ⟨hv.trans h.1, hp.trans h.2⟩

theorem Midway.irq (h : Midway strtof b s) (i : Interrupt) :
    Midway strtof b { s with sys := step strtof s.sys i.val } := by
  have hk := interrupt_keeps strtof h.wired i
  refine ⟨step_wired strtof _ _ h.wired, fun m c => ?_, fun m c => ?_⟩
  · rw [(hk m c).2]
    exact h.staged m c
  · exact (h.committing m c).congr (Commit.values_of_held (hk m c).1) (by rw [(hk m c).2])

/-- A step of the program that stays in the pass and touches no controller. -/
theorem Midway.goto (h : Midway strtof b s) {s' : MainLoop} (hsys : s'.sys = s.sys)
    (hpasses : s'.passes = s.passes)
    (hpc : ∀ c m, Committing c ((passBase strtof b s.passes).view m) (s.sys.view m)
      (s.pc.progress c m) → Committing c ((passBase strtof b s.passes).view m) (s.sys.view m)
      (s'.pc.progress c m)) : Midway strtof b s' := by
  refine ⟨hsys ▸ h.wired, fun m c => ?_, fun m c => ?_⟩
  · rw [hsys, hpasses]
    exact h.staged m c
  · rw [hsys, hpasses]
    exact hpc c m (h.committing m c)

theorem Midway.test {c : Commit} {m : Motor} (h : Midway strtof b s) (hpc : s.pc = .test c m) :
    Midway strtof b (if c.flag (s.sys.view m).params = 0 then { s with pc := .store c m 0 }
      else { s with pc := nextBlock c m }) := by
  have hself := h.committing m c
  rw [hpc, progress_test_self] at hself
  split_ifs with h0
  · refine h.goto rfl rfl fun c' m' h' => ?_
    by_cases hb : c' = c ∧ m' = m
    · obtain ⟨rfl, rfl⟩ := hb
      dsimp only
      rw [progress_store_self]
      refine ⟨by rw [← hself.2, h0], h0, ?_⟩
      rw [List.take_zero, List.nil_append, List.drop_zero]
      exact hself.1
    · dsimp only
      rwa [progress_store_other hb, ← hpc]
  · refine h.goto rfl rfl fun c' m' h' => ?_
    by_cases hb : c' = c ∧ m' = m
    · obtain ⟨rfl, rfl⟩ := hb
      dsimp only
      rw [progress_next_self]
      have hold := hself.2 ▸ h0
      refine ⟨?_, ?_⟩
      · rw [apply_values, if_neg hold]
        exact hself.1
      · rw [apply_flag, if_neg hold]
        exact hself.2
    · dsimp only
      rwa [progress_next_other hb, ← hpc]

/-- Store `k` of a commit. -/
theorem Midway.store {c : Commit} {m : Motor} {k : ℕ} (h : Midway strtof b s)
    (hpc : s.pc = .store c m k) (hk : k < c.stores.length) :
    Midway strtof b { s with
      sys := s.sys.setFoc m (c.stores[k] (s.sys.view m).params (s.sys.view m).foc)
      pc := .store c m (k + 1) } := by
  have hmem : c.stores[k] ∈ c.stores := List.getElem_mem hk
  refine ⟨setFoc_wired h.wired (store_wiring hmem _ _), fun g c' => ?_, fun g c' => ?_⟩
  · have hg := h.staged g c'
    dsimp only
    rw [view_setFoc]
    split_ifs <;> exact hg
  · have hg := h.committing g c'
    rw [hpc] at hg
    dsimp only
    by_cases hb : c' = c ∧ g = m
    · obtain ⟨rfl, rfl⟩ := hb
      rw [progress_store_self] at hg ⊢
      obtain ⟨hold, hflag, hvals⟩ := hg
      rw [view_setFoc, if_pos rfl]
      refine ⟨hold, hflag, ?_⟩
      dsimp only
      rw [Commit.values_store c' hk, hvals, h.staged]
      exact set_take_append_drop (by simp) (by simpa using hk)
    · rw [progress_store_other hb] at hg ⊢
      rw [view_setFoc]
      split_ifs with hm
      · -- the other commit of the same motor
        subst hm
        have hc : c' ≠ c := fun e => hb ⟨e, rfl⟩
        exact hg.congr (Commit.values_store_other hc hk _ _) rfl
      · exact hg

theorem setFlag_flag (c : Commit) (pid : PIDParams ℚ) : c.flag (c.setFlag pid) = 1 := by
  cases c <;> rfl

theorem setFlag_flag_other {c c' : Commit} (h : c' ≠ c) (pid : PIDParams ℚ) :
    c'.flag (c.setFlag pid) = c'.flag pid := by
  cases c <;> cases c' <;> first | rfl | exact absurd rfl h

theorem setFlag_wanted (c c' : Commit) (pid : PIDParams ℚ) :
    c'.wanted (c.setFlag pid) = c'.wanted pid := by
  cases c <;> cases c' <;> rfl

/-- The flag, once every store has been made. -/
theorem Midway.setFlag {c : Commit} {m : Motor} {k : ℕ} (h : Midway strtof b s)
    (hpc : s.pc = .store c m k) (hk : c.stores.length ≤ k) :
    Midway strtof b { s with
      sys := s.sys.setParams m (c.setFlag (s.sys.view m).params), pc := nextBlock c m } := by
  refine ⟨setParams_wired h.wired, fun g c' => ?_, fun g c' => ?_⟩
  · have hg := h.staged g c'
    dsimp only
    rw [view_setParams]
    split_ifs with hm
    · subst hm
      exact (setFlag_wanted c c' _).trans hg
    · exact hg
  · have hg := h.committing g c'
    rw [hpc] at hg
    dsimp only
    by_cases hb : c' = c ∧ g = m
    · obtain ⟨rfl, rfl⟩ := hb
      rw [progress_store_self] at hg
      obtain ⟨hold, -, hvals⟩ := hg
      rw [progress_next_self, view_setParams, if_pos rfl]
      refine ⟨?_, ?_⟩
      · rw [apply_values, if_pos hold]
        dsimp only
        rw [hvals, List.take_of_length_le (by simpa using hk), List.drop_eq_nil_of_le
          (by simpa using hk), List.append_nil]
      · rw [apply_flag, if_pos hold]
        exact setFlag_flag c' _
    · rw [progress_store_other hb] at hg
      rw [progress_next_other hb, view_setParams]
      split_ifs with hm
      · subst hm
        have hc : c' ≠ c := fun e => hb ⟨e, rfl⟩
        exact hg.congr rfl (setFlag_flag_other hc _)
      · exact hg

theorem passBase_append (msg : Option (List UInt8)) (passes : List (Option (List UInt8))) :
    passBase strtof b (passes ++ [msg]) =
      parsePhase strtof msg (step strtof (passBase strtof b passes) .apply) := by
  rw [passBase, passEvents, List.flatMap_append, run_append]
  cases msg <;> rfl

/-- The view of a motor after a parse phase: its staged set moves by itself. -/
theorem view_parsePhase (msg : Option (List UInt8)) (m : Motor) (t : Sys) :
    ((parsePhase strtof msg t).view m).foc = (t.view m).foc ∧
      ∀ t' : Sys, (t'.view m).params = (t.view m).params →
        ((parsePhase strtof msg t').view m).params = ((parsePhase strtof msg t).view m).params := by
  cases msg with
  | none => exact ⟨rfl, fun _ h => h⟩
  | some text =>
    have hv := fun t : Sys => view_mainParse strtof m t text
    simp only [parsePhase, step, hv]
    split_ifs
    · unfold MotorView.parse
      refine ⟨by split <;> rfl, fun t' h => ?_⟩
      split
      · exact h
      · rw [h]
    · exact ⟨rfl, fun _ h => h⟩

/-- The parse phase ends the pass. -/
theorem Midway.parse (h : Midway strtof b s) (hpc : s.pc = .parse) (msg : Option (List UInt8)) :
    Midway strtof b { s with
      sys := parsePhase strtof msg s.sys, passes := s.passes ++ [msg], pc := .sampleSpeed } := by
  have happ : ∀ m, (step strtof (passBase strtof b s.passes) .apply).view m =
      ((passBase strtof b s.passes).view m).apply := fun m => view_mainApply m _
  have hdone : ∀ m c, Committing c ((passBase strtof b s.passes).view m) (s.sys.view m) .done := by
    intro m c
    have hc := h.committing m c
    rwa [hpc] at hc
  have hparams : ∀ m, (s.sys.view m).params =
      ((step strtof (passBase strtof b s.passes) .apply).view m).params := by
    intro m
    refine params_ext fun c => ⟨?_, ?_⟩
    · rw [happ, apply_wanted]
      exact h.staged m c
    · rw [happ]
      exact (hdone m c).2
  have hafter : ∀ m, ((parsePhase strtof msg s.sys).view m).params =
      ((passBase strtof b (s.passes ++ [msg])).view m).params := by
    intro m
    rw [passBase_append]
    exact (view_parsePhase msg m _).2 _ (hparams m)
  refine ⟨?_, fun m c => ?_, fun m c => ⟨?_, ?_⟩⟩
  · cases msg with
    | none => exact h.wired
    | some text => exact step_wired strtof _ _ h.wired
  · exact congrArg c.wanted (hafter m)
  · dsimp only
    rw [passBase_append, (view_parsePhase msg m _).1, (view_parsePhase msg m _).1, happ]
    exact (hdone m c).1
  · exact congrArg c.flag (hafter m)

/-- Whatever the main loop does next, or an interrupt. -/
theorem mainLoopStep_midway (e : MainLoopEvent) (h : Midway strtof b s) :
    Midway strtof b (mainLoopStep strtof s e) := by
  cases e with
  | irq i => exact h.irq i
  | main msg =>
    rw [mainLoopStep, mainStep]
    cases hpc : s.pc with
    | sampleSpeed => exact h.goto rfl rfl fun c m hc => by rwa [hpc] at hc
    | sampleOut => exact h.goto rfl rfl fun c m hc => by rwa [hpc] at hc
    | send =>
      refine h.goto rfl rfl fun c m hc => ?_
      rw [hpc] at hc
      cases c <;> cases m <;> exact hc
    | test c m => exact h.test hpc
    | store c m k =>
      dsimp only
      rcases lt_or_ge k c.stores.length with hk | hk
      · rw [List.getElem?_eq_getElem hk]
        exact h.store hpc hk
      · rw [List.getElem?_eq_none hk]
        exact h.setFlag hpc hk
    | parse => exact h.parse hpc msg

end Pass

theorem boot_midway (strtof : List UInt8 → ℚ) (b : BootInputs) :
    Midway strtof b (mainLoopBoot b) :=
  ⟨boot_wired b, fun _ _ => rfl, fun _ _ => ⟨rfl, rfl⟩⟩

theorem run_midway (strtof : List UInt8 → ℚ) (b : BootInputs) (evs : List MainLoopEvent) :
    Midway strtof b (run (mainLoopStep strtof) (mainLoopBoot b) evs) :=
  run_invariant (fun _ e h => mainLoopStep_midway e h) evs _ (boot_midway strtof b)

/-! ## Result -/

/-- Any point of a pass: the values that have been stored are the new ones. -/
theorem Committing.values {c : Commit} {old v : MotorView} {p : Progress}
    (h : Committing c old v p) :
    ∃ k, c.values v.foc = (c.values old.apply.foc).take k ++ (c.values old.foc).drop k := by
  cases p with
  | pending => exact ⟨0, by rw [List.take_zero, List.nil_append, List.drop_zero]; exact h.1⟩
  | storing k =>
    refine ⟨k, ?_⟩
    rw [apply_values, if_pos h.1]
    exact h.2.2
  | done =>
    refine ⟨c.stores.length, ?_⟩
    rw [List.take_of_length_le (by simp), List.drop_eq_nil_of_le (by simp), List.append_nil]
    exact h.1

/-- **Commits under interrupts.**  Take any run of the main loop with interrupts between its
stores, and the passes it has completed, run without interrupts: `old`.  At every point the
controllers of every motor hold, of each commit, the first values as the apply phase on
`old` leaves them and the others as in `old`; and at the start of a pass controllers and
staged sets are those of `old`. -/
theorem commits_store_by_store (strtof : List UInt8 → ℚ) (b : BootInputs)
    (evs : List MainLoopEvent) :
    let s := run (mainLoopStep strtof) (mainLoopBoot b) evs
    let old := run (step strtof) (boot b) (passEvents s.passes)
    let new := step strtof old .apply
    (∀ (m : Motor) (c : Commit), ∃ k, c.values (s.sys.view m).foc =
      (c.values (new.view m).foc).take k ++ (c.values (old.view m).foc).drop k) ∧
    (s.pc = .sampleSpeed → ∀ m : Motor, (s.sys.view m).params = (old.view m).params ∧
      ∀ c : Commit, c.values (s.sys.view m).foc = c.values (old.view m).foc) := by
  intro s old new
  have h : Midway strtof b s := run_midway strtof b evs
  have hnew : ∀ m, new.view m = (old.view m).apply := fun m => view_mainApply m old
  refine ⟨fun m c => ?_, fun hpc m => ?_⟩
  · rw [hnew]
    exact (h.committing m c).values
  · have hc : ∀ c, Committing c (old.view m) (s.sys.view m) .pending := by
      intro c
      have hm := h.committing m c
      rwa [hpc] at hm
    exact ⟨params_ext fun c => ⟨h.staged m c, (hc c).2⟩, fun c => (hc c).1⟩

end At32Foc
