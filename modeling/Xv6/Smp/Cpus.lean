import Xv6.Smp.Steps

namespace Xv6.Smp

open Locks Transition

variable {C : Type*} {s t : State C} {me : Option Slot} {o : Nat} {pc k : Pc} {a : Act} {p q r : Slot} {c d : C}
  {l : Lock}

/-! ### One CPU for each process -/

structure OneCpu (s : State C) : Prop where
  /-- a process whose lock is free is `RUNNING` exactly when one CPU has it -/
  running : ∀ p, s.lock (.proc p) = none → ((s.proc p).state = .running ↔ ∃! c, s.cpuProc c = some p)
  /-- a process that waits or has exited is on no CPU and can be switched to -/
  waiting : ∀ p, s.lock (.proc p) = none →
    (s.proc p).state = .runnable ∨ (s.proc p).state = .sleeping ∨ (s.proc p).state = .zombie →
    (∀ c, s.cpuProc c ≠ some p) ∧ (∀ c, s.cur c ≠ some p) ∧ s.saved p = true
  /-- no two CPUs execute on one kernel stack -/
  stack : ∀ c d p, s.cur c = some p → s.cur d = some p → c = d
  /-- `wait` frees a process that no CPU has and on whose stack no CPU is -/
  free : ∀ c q, s.pc c = .waitFree q → ∀ d, s.cpuProc d ≠ some q ∧ s.cur d ≠ some q

section
variable (h : Inv s) (hf : s.lock (.proc p) = none)
include h hf

theorem Inv.cur_of_cpuProc (hc : s.cpuProc c = some p) : s.cur c = some p := by
  cases hcur : s.cur c with
  | none =>
    -- the scheduler that has set `c->proc` holds the lock
    have hi := h.idle hcur
    rw [hc] at hi
    have hl : Lock.proc p ∈ s.heldBy c := by
      rw [State.heldBy_of_idle hcur, Pc.held_of_current hi.symm]
      exact List.mem_singleton_self _
    exact absurd hl (h.locks.not_held hf)
  | some q =>
    rw [(h.busy hcur).2.1] at hc
    exact hc

theorem Inv.running_of_cur (hc : s.cur c = some p) : (s.proc p).state = .running :=
  Classical.byContradiction fun hs => h.locks.not_held hf (h.own_lock hc hs)

theorem Inv.cur_of_running (hs : (s.proc p).state = .running) : ∃ c, s.cur c = some p := by
  obtain ⟨c, hc⟩ := h.running hs
  cases hcur : s.cur c with
  | none =>
    rw [State.claims_of_idle hcur] at hc
    have hl : Lock.proc p ∈ s.heldBy c := by
      rw [State.heldBy_of_idle hcur, Pc.held_of_entering hc]
      exact List.mem_singleton_self _
    exact absurd hl (h.locks.not_held hf)
  | some q =>
    rw [State.claims_of_cur hcur] at hc
    exact ⟨c, hcur.trans hc⟩

end

theorem Inv.oneCpu (h : Inv s) : OneCpu s where
  running p hf := by
    constructor
    · intro hs
      obtain ⟨c, hc⟩ := h.cur_of_running hf hs
      exact ⟨c, (h.busy hc).2.1, fun d hd => h.cur_inj (h.cur_of_cpuProc hf hd) hc⟩
    · rintro ⟨c, hc, -⟩
      exact h.running_of_cur hf (h.cur_of_cpuProc hf hc)
  waiting p hf hs := by
    have hr : (s.proc p).state ≠ .running := by
      rintro he
      simp [he] at hs
    have hoff : ∀ c, s.cur c ≠ some p := fun c hc => hr (h.running_of_cur hf hc)
    refine ⟨fun c hc => hoff c (h.cur_of_cpuProc hf hc), hoff, ?_⟩
    have hpark := h.parked hoff
    rcases hs with hs | hs | hs <;> rw [State.Parked, hs] at hpark <;> exact hpark.2
  stack c d p hc hd := h.cur_inj hc hd
  free c q hq d := by
    obtain ⟨p, hc⟩ : ∃ p, s.cur c = some p := by
      cases hc : s.cur c with
      | none =>
        have hw := h.wf c
        rw [hq, hc] at hw
        cases hw
      | some p => exact ⟨p, rfl⟩
    have hpc : s.ppc p = .waitFree q := (State.pc_of_cur hc).symm.trans hq
    have hoff : ∀ e, s.cur e ≠ some q := fun e he => h.not_made he (p := p) (by rw [hpc]; rfl)
    refine ⟨fun hd => ?_, hoff d⟩
    cases hcur : s.cur d with
    | none =>
      -- the scheduler that is about to clear `c->proc` still has the lock
      have hi := h.idle hcur
      rw [hd] at hi
      have hl : Lock.proc q ∈ s.heldBy d := by
        rw [State.heldBy_of_idle hcur, Pc.held_of_current hi.symm]
        exact List.mem_singleton_self _
      have hlc : Lock.proc q ∈ s.heldBy c := by
        rw [State.heldBy_of_cur hc, hpc]
        exact List.mem_cons_self
      obtain rfl := h.holder hl hlc
      rw [hc] at hcur
      cases hcur
    | some r =>
      rw [(h.busy hcur).2.1] at hd
      exact hoff d (hcur.trans hd)

variable [DecidableEq C]

/-- In every run on any number of CPUs a process runs on at most one of them. -/
theorem process_on_one_cpu {evs : List (Ev C)} (h : Run step booted evs s) : OneCpu s :=
  (run_inv h).oneCpu

def runs (c : C) (n : Nat) : List (Ev C) := List.replicate n (.run c 1)

def initRuns (c : C) : List (Ev C) := runs c 5

def initForks (c : C) : List (Ev C) := initRuns c ++ .call c .fork :: runs c 20

def bothRun : List (Ev Bool) := initForks false ++ runs true 8

theorem bothRun_on_one_cpu_each :
    ∃ s : State Bool, Run step booted bothRun s ∧ s.cpuProc false = some 0 ∧ s.cpuProc true = some 1 ∧
      s.ppc 0 = .user ∧ s.ppc 1 = .user ∧ OneCpu s := by
  have hstate : ((exec step (booted : State Bool) bothRun).map fun s =>
      (s.cpuProc false, s.cpuProc true, s.ppc 0, s.ppc 1)) = some (some 0, some 1, .user, .user) := by
    decide +kernel
  obtain ⟨s, hrun, heq⟩ := Option.map_eq_some_iff.mp hstate
  simp only [Prod.mk.injEq] at heq
  obtain ⟨h0, h1, hu0, hu1⟩ := heq
  exact ⟨s, run_of_exec hrun, h0, h1, hu0, hu1, process_on_one_cpu (run_of_exec hrun)⟩

end Xv6.Smp
