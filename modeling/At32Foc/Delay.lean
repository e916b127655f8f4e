import At32Foc.Lib.DownCounter
import At32Foc.Lib.Run

/-!
# Delays

`delay.c` on the SysTick counter, which is 24 bits wide and runs at the core clock that
`wk_system_clock_config` sets up.  A delay is a list of waits, one for each value it
writes to `LOAD`; the program and the counter run at their own pace, so a run is the list
of the clocks that pass before each step of the program (`delayStep`).

* `due` / `due_run`: the clocks a delay still has to see, whatever the pace.
* `budget` / `budget_run`: the clocks it can still take if its steps are at most `P` apart.
* `delayMs_bounds`: `delay_ms` waits for its milliseconds, and little longer.
* `delayUs_not_early_iff`: `delay_us` does so if and only if its clocks fit the counter, or
  leave nothing of it; then it does not return.
-/

namespace At32Foc

open ControlLib

/-! ## The core clock -/

def HEXT_VALUE : ℕ := 8000000
def HICK_VALUE : ℕ := 8000000

inductive CrmSclk where
  | hick
  | hext
  | pll
  deriving Repr, DecidableEq

/-- The fields of the clock registers that decide the core clock. -/
structure Crm where
  sclksts : CrmSclk
  hickToSclk : Bool
  hickdiv : Bool
  pllrcs : Bool
  pllhextdiv : Bool
  hextdiv : ℕ
  pllmultL : ℕ
  pllmultH : ℕ
  ahbdiv : ℕ
  deriving Repr, DecidableEq

inductive CrmPllClockSource where
  | hick
  | hext
  | hextDiv
  deriving Repr, DecidableEq

/-- `crm_pll_config`, up to the output range. -/
def crmPllConfig (clockSource : CrmPllClockSource) (multValue : ℕ) (crm : Crm) : Crm :=
  let crm := match clockSource with
    | .hick => { crm with pllrcs := false, hickdiv := true }
    | .hext => { crm with pllrcs := true, pllhextdiv := false }
    | .hextDiv => { crm with pllrcs := true, pllhextdiv := true }
  { crm with pllmultL := multValue &&& 0x0F, pllmultH := (multValue &&& 0x30) >>> 4 }

def sysAhbDivTable : List ℕ := [0, 0, 0, 0, 0, 0, 0, 0, 1, 2, 3, 4, 6, 7, 8, 9]

/-- The multiplier that `system_core_clock_update` reads back. -/
def pllMult (crm : Crm) : ℕ :=
  if crm.pllmultH ≠ 0 ∨ crm.pllmultL = 15 then crm.pllmultL + (16 * crm.pllmultH + 1)
  else crm.pllmultL + 2

def systemCoreClockUpdate (crm : Crm) : ℕ :=
  let clock := match crm.sclksts with
    | .hick => if crm.hickToSclk ∧ crm.hickdiv then HICK_VALUE * 6 else HICK_VALUE
    | .hext => HEXT_VALUE
    | .pll =>
      if crm.pllrcs = false then (HICK_VALUE >>> 1) * pllMult crm
      else if crm.pllhextdiv then HEXT_VALUE / (crm.hextdiv + 2) * pllMult crm
      else HEXT_VALUE * pllMult crm
  clock >>> sysAhbDivTable.getD crm.ahbdiv 0

/-- `CRM_PLL_MULT_30`. -/
def CRM_PLL_MULT_30 : ℕ := 29

/-- The clock registers after `wk_system_clock_config`. -/
def wkSystemClockConfig (crm : Crm) : Crm :=
  let crm := crmPllConfig .hext CRM_PLL_MULT_30 crm
  let crm := { crm with ahbdiv := 0 }
  { crm with sclksts := .pll }

theorem systemCoreClock_eq (crm : Crm) :
    systemCoreClockUpdate (wkSystemClockConfig crm) = 240000000 := by
  have hmult : pllMult (wkSystemClockConfig crm) = 30 := rfl
  show (HEXT_VALUE * pllMult (wkSystemClockConfig crm)) >>> 0 = 240000000
  rw [hmult, Nat.shiftRight_zero, HEXT_VALUE]

/-! ## Algorithm -/

def STEP_DELAY_MS : ℕ := 50

/-- What `delay_init` computes, from the core clock. -/
def facUs (systemCoreClock : ℕ) : ℕ := systemCoreClock / 1000000

def facMs (systemCoreClock : ℕ) : ℕ := facUs systemCoreClock * 1000

/-- What `delay_ms` writes to `LOAD`, one value for each wait. -/
def delayMs (systemCoreClock nms : ℕ) : List ℕ :=
  if nms = 0 then []
  else if nms > STEP_DELAY_MS then
    (STEP_DELAY_MS * facMs systemCoreClock) % 2 ^ 32 ::
      delayMs systemCoreClock (nms - STEP_DELAY_MS)
  else [(nms * facMs systemCoreClock) % 2 ^ 32]
termination_by nms
decreasing_by
  simp only [STEP_DELAY_MS]
  omega

/-- `delay_us` waits once. -/
def delayUs (systemCoreClock nus : ℕ) : List ℕ := [(nus * facUs systemCoreClock) % 2 ^ 32]

/-- The steps of a wait, by what the program does next. -/
inductive DelayPc where
  /-- Writes the next value to `LOAD`, or returns. -/
  | load
  | val
  | enable
  /-- Reads `CTRL`. -/
  | poll
  | disable
  | clear
  | done
  deriving Repr, DecidableEq

structure Delay where
  SysTick : DownCounter
  loads : List ℕ
  pc : DelayPc

/-- The next step of the program. -/
def Delay.next (s : Delay) : Delay :=
  match s.pc with
  | .load =>
    match s.loads with
    | [] => { s with pc := .done }
    | l :: loads =>
      { s with SysTick := { s.SysTick with load := l % 2 ^ 24 }, loads := loads, pc := .val }
  | .val => { s with SysTick := s.SysTick.clear, pc := .enable }
  -- `CTRL` is read before it is written
  | .enable => { s with SysTick := { s.SysTick.readControl with enable := true }, pc := .poll }
  | .poll =>
    if s.SysTick.enable = true ∧ s.SysTick.flag = false then s
    else { s with SysTick := s.SysTick.readControl, pc := .disable }
  | .disable => { s with SysTick := { s.SysTick.readControl with enable := false }, pc := .clear }
  | .clear => { s with SysTick := s.SysTick.clear, pc := .load }
  | .done => s

/-- The step of the program that `g` clocks after the one before. -/
def delayStep (s : Delay) (g : ℕ) : Delay :=
  if s.pc = .done then s else Delay.next { s with SysTick := DownCounter.clock^[g] s.SysTick }

/-- A call, with the counter as its last user has left it. -/
def delayCall (SysTick : DownCounter) (loads : List ℕ) : Delay := ⟨SysTick, loads, .load⟩

/-! ## Not early -/

/-- The clocks of the waits to come. -/
def waits (loads : List ℕ) : ℕ := (loads.map fun l => l % 2 ^ 24 + 1).sum

/-- The clocks that have to pass before the program returns. -/
def Delay.due (s : Delay) : ℕ :=
  match s.pc with
  | .load | .disable | .clear => waits s.loads
  | .val => s.SysTick.load + 1 + waits s.loads
  | .enable | .poll => s.SysTick.left + waits s.loads
  | .done => 0

/-- The program polls a counter that is enabled. -/
def Delay.Counts (s : Delay) : Prop := s.pc = .poll → s.SysTick.enable = true

theorem delayStep_counts (s : Delay) (g : ℕ) (h : s.Counts) : (delayStep s g).Counts := by
  obtain ⟨c, loads, pc⟩ := s
  unfold Delay.Counts at h ⊢
  cases pc with
  | load => cases loads <;> simp [delayStep, Delay.next]
  | poll =>
    simp only [delayStep, Delay.next]
    rw [if_neg nofun]
    split_ifs
    · intro _
      rw [DownCounter.clocks_enable]
      exact h rfl
    · nofun
  | val | enable | disable | clear | done => simp [delayStep, Delay.next]

theorem due_step (s : Delay) (g : ℕ) (h : s.Counts) : s.due ≤ g + (delayStep s g).due := by
  obtain ⟨c, loads, pc⟩ := s
  have hleft := c.left_le g
  cases pc with
  | load =>
    cases loads with
    | nil => exact Nat.zero_le _
    | cons l loads =>
      show (l % 2 ^ 24 + 1) + waits loads ≤ g + (l % 2 ^ 24 + 1 + waits loads)
      omega
  | val =>
    show c.load + 1 + waits loads ≤ g + ((DownCounter.clock^[g] c).load + 1 + waits loads)
    rw [DownCounter.clocks_load]
    omega
  | enable =>
    have hread := (DownCounter.clock^[g] c).left_le_readControl
    show c.left + waits loads ≤ g + ((DownCounter.clock^[g] c).readControl.left + waits loads)
    omega
  | poll =>
    have he : (DownCounter.clock^[g] c).enable = true := by
      rw [DownCounter.clocks_enable]
      exact h rfl
    simp only [delayStep, Delay.next]
    rw [if_neg nofun]
    split_ifs with hc
    · show c.left + waits loads ≤ g + ((DownCounter.clock^[g] c).left + waits loads)
      omega
    · have hflag : (DownCounter.clock^[g] c).flag = true := by
        by_contra hcon
        exact hc ⟨he, Bool.eq_false_iff.mpr hcon⟩
      have h0 := DownCounter.left_of_flag hflag
      show c.left + waits loads ≤ g + waits loads
      omega
  | disable | clear => exact Nat.le_add_left _ _
  | done => exact Nat.zero_le _

theorem due_run (gaps : List ℕ) (s : Delay) (h : s.Counts) :
    s.due ≤ gaps.sum + (run delayStep s gaps).due := by
  induction gaps generalizing s with
  | nil => exact Nat.le_add_left _ _
  | cons g gaps ih =>
    have h1 := due_step s g h
    have h2 := ih (delayStep s g) (delayStep_counts s g h)
    rw [run_cons, List.sum_cons]
    omega

/-! ## Not much later -/

/-- The clocks of the waits to come, with six steps of the program for each. -/
def cost (P : ℕ) (loads : List ℕ) : ℕ := waits loads + 6 * P * loads.length + P

/-- The clocks that can pass before the program returns, if its steps are at most `P`
clocks apart. -/
def Delay.budget (P : ℕ) (s : Delay) : ℕ :=
  match s.pc with
  | .load => cost P s.loads
  | .val => s.SysTick.load + 1 + 5 * P + cost P s.loads
  | .enable => s.SysTick.load + 1 + 4 * P + cost P s.loads
  | .poll => s.SysTick.left + 3 * P + cost P s.loads
  | .disable => 2 * P + cost P s.loads
  | .clear => P + cost P s.loads
  | .done => 0

/-- The waits are not empty, and a counter that is to be enabled has been cleared. -/
structure Delay.Positive (s : Delay) : Prop where
  loads : ∀ l ∈ s.loads, 0 < l % 2 ^ 24
  load : s.pc = .val ∨ s.pc = .enable ∨ s.pc = .poll → 0 < s.SysTick.load
  cleared : s.pc = .enable → s.SysTick.val ≤ s.SysTick.load

theorem delayStep_positive (s : Delay) (g : ℕ) (h : s.Positive) : (delayStep s g).Positive := by
  obtain ⟨c, loads, pc⟩ := s
  obtain ⟨hloads, hload, hcleared⟩ := h
  cases pc with
  | load =>
    cases loads with
    | nil => exact ⟨nofun, by simp [delayStep, Delay.next], nofun⟩
    | cons l loads =>
      exact ⟨fun l' hl' => hloads l' (List.mem_cons_of_mem l hl'),
        fun _ => hloads l List.mem_cons_self, nofun⟩
  | val =>
    refine ⟨hloads, fun _ => ?_, fun _ => Nat.zero_le _⟩
    have hc := hload (by simp)
    simpa [delayStep, Delay.next, DownCounter.clear] using hc
  | enable =>
    refine ⟨hloads, fun _ => ?_, nofun⟩
    have hc := hload (by simp)
    simpa [delayStep, Delay.next, DownCounter.readControl] using hc
  | poll =>
    simp only [delayStep, Delay.next]
    rw [if_neg nofun]
    split_ifs
    · refine ⟨hloads, fun _ => ?_, nofun⟩
      have hc := hload (by simp)
      simpa using hc
    · exact ⟨hloads, by simp, nofun⟩
  | disable | clear => exact ⟨hloads, by simp [delayStep, Delay.next], nofun⟩
  | done => exact ⟨hloads, hload, nofun⟩

theorem waits_cons (l : ℕ) (loads : List ℕ) :
    waits (l :: loads) = l % 2 ^ 24 + 1 + waits loads := by
  rw [waits, List.map_cons, List.sum_cons, waits]

theorem cost_cons (P l : ℕ) (loads : List ℕ) :
    cost P (l :: loads) = l % 2 ^ 24 + 1 + 6 * P + cost P loads := by
  rw [cost, cost, waits_cons, List.length_cons]
  ring

theorem budget_step {P : ℕ} (s : Delay) {g : ℕ} (hg : g ≤ P) (hc : s.Counts) (hp : s.Positive)
    (hpc : s.pc ≠ .done) : g + (delayStep s g).budget P ≤ s.budget P := by
  obtain ⟨c, loads, pc⟩ := s
  cases pc with
  | load =>
    cases loads with
    | nil =>
      show g + 0 ≤ 0 + 6 * P * 0 + P
      omega
    | cons l loads =>
      show g + (l % 2 ^ 24 + 1 + 5 * P + cost P loads) ≤ cost P (l :: loads)
      rw [cost_cons]
      omega
  | val =>
    show g + ((DownCounter.clock^[g] c).load + 1 + 4 * P + cost P loads) ≤ _
    rw [DownCounter.clocks_load]
    show _ ≤ c.load + 1 + 5 * P + cost P loads
    omega
  | enable =>
    -- a flag that went up since the counter was cleared is lost, and the wait starts again
    have hval : (DownCounter.clock^[g] c).val ≤ (DownCounter.clock^[g] c).load := by
      rw [DownCounter.clocks_load]
      exact DownCounter.clocks_val_le (hp.cleared rfl) g
    have hleft := DownCounter.readControl_left_le hval
    rw [DownCounter.clocks_load] at hleft
    show g + ((DownCounter.clock^[g] c).readControl.left + 3 * P + cost P loads) ≤
      c.load + 1 + 4 * P + cost P loads
    omega
  | poll =>
    have hleft := DownCounter.left_clocks (hc rfl) (hp.load (by simp)) g
    dsimp only at hleft
    simp only [delayStep, Delay.next]
    rw [if_neg nofun]
    split_ifs with hcount
    · have hpos := DownCounter.left_pos hcount.2
      show g + ((DownCounter.clock^[g] c).left + 3 * P + cost P loads) ≤
        c.left + 3 * P + cost P loads
      omega
    · show g + (2 * P + cost P loads) ≤ c.left + 3 * P + cost P loads
      omega
  | disable =>
    show g + (P + cost P loads) ≤ 2 * P + cost P loads
    omega
  | clear =>
    show g + cost P loads ≤ P + cost P loads
    omega
  | done => exact absurd rfl hpc

theorem budget_run {P : ℕ} (gaps : List ℕ) (hg : ∀ g ∈ gaps, g ≤ P) (s : Delay) (hc : s.Counts)
    (hp : s.Positive) : (run delayStep s gaps).pc = .done ∨
      gaps.sum + (run delayStep s gaps).budget P ≤ s.budget P := by
  induction gaps generalizing s with
  | nil => exact .inr (Nat.zero_add _).le
  | cons g gaps ih =>
    rw [run_cons, List.sum_cons]
    by_cases hpc : s.pc = .done
    · have hstep : delayStep s g = s := if_pos hpc
      rw [hstep]
      exact .inl (run_invariant (I := fun s : Delay => s.pc = .done)
        (fun s g hs => by rwa [delayStep, if_pos hs]) gaps s hpc)
    · have h1 := budget_step s (hg g List.mem_cons_self) hc hp hpc
      refine (ih (fun g' hg' => hg g' (List.mem_cons_of_mem g hg')) (delayStep s g)
        (delayStep_counts s g hc) (delayStep_positive s g hp)).imp_right fun h2 => ?_
      omega

/-! ## A call -/

section Call

variable (SysTick : DownCounter) (loads gaps : List ℕ)

/-- A call takes the clocks of its waits. -/
theorem waits_le (hdone : (run delayStep (delayCall SysTick loads) gaps).pc = .done) :
    waits loads ≤ gaps.sum := by
  have h := due_run gaps (delayCall SysTick loads) nofun
  have h0 : (run delayStep (delayCall SysTick loads) gaps).due = 0 := by
    rw [Delay.due, hdone]
  rw [h0] at h
  exact h

/-- A call returns, if its waits are not empty. -/
theorem returns {P : ℕ} (hl : ∀ l ∈ loads, 0 < l % 2 ^ 24) (hg : ∀ g ∈ gaps, g ≤ P)
    (hsum : cost P loads < gaps.sum) :
    (run delayStep (delayCall SysTick loads) gaps).pc = .done := by
  refine (budget_run gaps hg (delayCall SysTick loads) nofun
    ⟨hl, by simp [delayCall], nofun⟩).resolve_right fun h => ?_
  have hb : (delayCall SysTick loads).budget P = cost P loads := rfl
  omega

end Call

/-- The values `delay_ms` writes fit the counter, and wait for its milliseconds. -/
theorem delayMs_spec (n : ℕ) : waits (delayMs 240000000 n) = n * 240000 + (n + 49) / 50 ∧
    (delayMs 240000000 n).length = (n + 49) / 50 ∧
    ∀ l ∈ delayMs 240000000 n, 0 < l % 2 ^ 24 := by
  have hfac : facMs 240000000 = 240000 := rfl
  induction n using Nat.strong_induction_on with
  | _ n ih =>
    rw [delayMs, hfac, STEP_DELAY_MS]
    split_ifs with h0 h50
    · subst h0
      exact ⟨rfl, rfl, nofun⟩
    · obtain ⟨h1, h2, h3⟩ := ih (n - 50) (by omega)
      refine ⟨?_, ?_, List.forall_mem_cons.mpr ⟨by norm_num, h3⟩⟩
      · rw [waits_cons, h1]
        omega
      · rw [List.length_cons, h2]
        omega
    · have hl : n * 240000 % 2 ^ 32 % 2 ^ 24 = n * 240000 := by omega
      refine ⟨?_, ?_, fun l hl' => ?_⟩
      · rw [waits_cons, hl]
        show n * 240000 + 1 + 0 = _
        omega
      · rw [List.length_singleton]
        omega
      · rw [List.mem_singleton.mp hl', hl]
        omega

/-- **`delay_ms` waits its milliseconds.**  Whatever the state of the counter and the pace of
the program, it does not return before `nms` milliseconds have passed; and if its steps are at
most `P` clocks apart it returns within that, one clock and six steps for each wait, and one
step more. -/
theorem delayMs_bounds (crm : Crm) (SysTick : DownCounter) (nms : UInt16) (P : ℕ)
    (gaps : List ℕ) :
    let n := nms.toNat
    let loads := delayMs (systemCoreClockUpdate (wkSystemClockConfig crm)) n
    let s := run delayStep (delayCall SysTick loads) gaps
    (s.pc = .done → n * 240000 ≤ gaps.sum) ∧
      ((∀ g ∈ gaps, g ≤ P) → n * 240000 + (1 + 6 * P) * ((n + 49) / 50) + P < gaps.sum →
        s.pc = .done) := by
  intro n loads s
  obtain ⟨hwaits, hlen, hpos⟩ := delayMs_spec n
  have hloads : loads = delayMs 240000000 n := by rw [← systemCoreClock_eq crm]
  rw [← hloads] at hwaits hlen hpos
  refine ⟨fun hdone => ?_, fun hg hsum => returns SysTick loads gaps hpos hg ?_⟩
  · have h := waits_le SysTick loads gaps hdone
    omega
  · rw [cost, hwaits, hlen]
    calc _ = n * 240000 + (1 + 6 * P) * ((n + 49) / 50) + P := by ring
      _ < gaps.sum := hsum

/-! ## Long waits -/

/-- A wait that has been cut to nothing. -/
def Delay.Stuck (s : Delay) : Prop :=
  match s.pc with
  | .load => ∃ l, s.loads = [l] ∧ l % 2 ^ 24 = 0
  | .val => s.SysTick.load = 0
  | .enable => s.SysTick.load = 0 ∧ s.SysTick.val = 0 ∧ s.SysTick.flag = false
  | .poll => s.SysTick.load = 0 ∧ s.SysTick.val = 0 ∧ s.SysTick.flag = false ∧
      s.SysTick.enable = true
  | _ => False

/-- A counter that reloads zero stands still. -/
theorem clocks_of_zero {c : DownCounter} (hl : c.load = 0) (hv : c.val = 0) (n : ℕ) :
    DownCounter.clock^[n] c = c := by
  have hc : c.clock = c := by
    obtain ⟨load, val, enable, flag⟩ := c
    obtain rfl : load = 0 := hl
    obtain rfl : val = 0 := hv
    cases enable <;> rfl
  exact Function.iterate_fixed hc n

theorem delayStep_stuck (s : Delay) (g : ℕ) (h : s.Stuck) : (delayStep s g).Stuck := by
  obtain ⟨c, loads, pc⟩ := s
  cases pc with
  | load =>
    obtain ⟨l, hl, h0⟩ := h
    obtain rfl : loads = [l] := hl
    exact h0
  | val =>
    refine ⟨?_, rfl, rfl⟩
    show (DownCounter.clock^[g] c).load = 0
    rw [DownCounter.clocks_load]
    exact h
  | enable =>
    obtain ⟨hl, hv, hf⟩ := h
    show Delay.Stuck
      ⟨{ (DownCounter.clock^[g] c).readControl with enable := true }, loads, .poll⟩
    rw [clocks_of_zero hl hv]
    exact ⟨hl, hv, rfl, rfl⟩
  | poll =>
    obtain ⟨hl, hv, hf, he⟩ := h
    have hstep : delayStep ⟨c, loads, .poll⟩ g = ⟨c, loads, .poll⟩ := by
      rw [delayStep, if_neg nofun, clocks_of_zero hl hv]
      exact if_pos ⟨he, hf⟩
    rw [hstep]
    exact ⟨hl, hv, hf, he⟩
  | disable => exact h.elim
  | clear => exact h.elim
  | done => exact h.elim

/-- What is left of the clocks of a call of `delay_us` in the counter. -/
def usLoad (nus : UInt32) : ℕ := nus.toNat * 240 % 2 ^ 24

theorem delayUs_eq (nus : UInt32) :
    ∃ l, delayUs 240000000 nus.toNat = [l] ∧ l % 2 ^ 24 = usLoad nus := by
  refine ⟨_, rfl, ?_⟩
  have hfac : facUs 240000000 = 240 := rfl
  rw [hfac, usLoad]
  omega

/-- **`delay_us` waits its microseconds if and only if they fit the counter.**  No call that
returns is early exactly when its clocks fit the 24 bits of the counter, or when they leave
nothing modulo `2 ^ 24`: then none returns. -/
theorem delayUs_not_early_iff (crm : Crm) (nus : UInt32) :
    (∀ SysTick gaps, (run delayStep (delayCall SysTick
      (delayUs (systemCoreClockUpdate (wkSystemClockConfig crm)) nus.toNat)) gaps).pc = .done →
        nus.toNat * 240 ≤ gaps.sum) ↔
      nus.toNat * 240 < 2 ^ 24 ∨ nus.toNat * 240 % 2 ^ 24 = 0 := by
  rw [systemCoreClock_eq]
  obtain ⟨l, hl, hmod⟩ := delayUs_eq nus
  rw [hl]
  unfold usLoad at hmod
  constructor
  · intro h
    by_contra hcon
    obtain ⟨hbig, hne⟩ := not_or.mp hcon
    -- a program that looks at the counter at every clock returns early
    have hdone := returns ⟨0, 0, false, false⟩ [l] (List.replicate (l % 2 ^ 24 + 9) 1) (P := 1)
      (fun l' hl' => by rw [List.mem_singleton.mp hl']; omega)
      (fun g hg => (List.eq_of_mem_replicate hg).le)
      (by rw [cost_cons, List.sum_replicate]; simp [cost, waits])
    have hle := h _ _ hdone
    rw [List.sum_replicate, smul_eq_mul, mul_one] at hle
    omega
  · rintro (hfit | hzero) SysTick gaps hdone
    · have h := waits_le SysTick [l] gaps hdone
      rw [waits_cons] at h
      omega
    · have hstuck : (run delayStep (delayCall SysTick [l]) gaps).Stuck :=
        run_invariant delayStep_stuck gaps _ ⟨l, rfl, hmod.trans hzero⟩
      unfold Delay.Stuck at hstuck
      rw [hdone] at hstuck
      exact hstuck.elim

end At32Foc
