import Mathlib
import Xv6.Smp.Wakeup

namespace Xv6.Smp

open Locks Transition Relation Option Function

variable {C : Type*} {s t : State C} {me : Option Slot} {o : Nat} {pc k : Pc} {a : Act} {p q : Slot} {c d : C} {l x : Lock}

/-! ### Spinlocks -/

/-- The thread on CPU `c` is about to acquire lock `l`. -/
def State.Wants (s : State C) (c : C) (l : Lock) : Prop :=
  ∃ o k, next s (s.cur c) o (s.pc c) = some (.acquire l, k)

/-- CPU `c` spins for a lock that CPU `d` holds. -/
def State.Waits (s : State C) (c d : C) : Prop := ∃ l, s.Wants c l ∧ s.lock l = some d

theorem next_acquire (hw : pc.wf me) (h : next s me o pc = some (.acquire l, k)) (hx : x ∈ pc.held me) :
    (∃ q, l = .proc q) ∧ ∀ q, x ≠ .proc q := by
  cases pc
  all_goals
    simp only [next] at h
    repeat' split at h
  all_goals
    simp only [some.injEq, Prod.mk.injEq, map_eq_some_iff, reduceCtorEq, Act.acquire.injEq, false_and, and_false,
      exists_false] at h
  all_goals first
    | (obtain ⟨rfl, rfl⟩ := h; simp_all [Pc.wf, Pc.held])
    | (obtain ⟨_, rfl, rfl, rfl⟩ := h; simp_all [Pc.wf, Pc.held])
  all_goals
    rintro q rfl
    exact hw.1.2 q hx

theorem next_swtch (hw : pc.wf me) (h : next s me o pc = some (.swtch, k)) :
    ∃ p, me = some p ∧ pc.held me = [.proc p] ∧ pc.runState ≠ .running := by
  rcases next_effect h with he | hq
  · cases he with
    | yieldSwtch => exact ⟨_, rfl, by simp [Pc.held, hw.2.1], by simp [Pc.runState]⟩
    | sleepSwtch | exitSwtch => exact ⟨_, rfl, rfl, by simp [Pc.runState]⟩
  · exact hq.elim

theorem next_swtchTo (h : next s me o pc = some (.swtchTo q, k)) : pc = .enter q := by
  rcases next_effect h with he | hq
  · cases he
    rfl
  · exact hq.elim

theorem next_dead (hw : pc.wf me) (h : next s me o pc = some (a, .dead)) : a = .swtch := by
  have hret : me.isSome → pc.return? ≠ some .dead := fun hs =>
    Pc.not_return_of_held hw (by simpa [Pc.held] using isSome_iff_ne_none.mp hs) id
  cases pc
  case sleepLock σ => cases σ <;> cases h
  case killedRel σ b =>
    obtain ⟨_, -, hk⟩ := map_eq_some_iff.mp h
    cases b <;> cases σ <;> cases hk
  all_goals
    simp only [next] at h
    repeat' split at h
  all_goals simp_all [Pc.wf, Pc.return?]

theorem next_exists (hw : pc.wf me) (hu : pc ≠ .user) (hd : pc ≠ .dead) : ∃ a k, next s me o pc = some (a, k) := by
  cases me
  all_goals cases pc
  all_goals simp_all [Pc.wf, next]
  all_goals
    repeat' split
  all_goals simp

theorem Inv.waits_end (hi : Inv s) (h₁ : s.Waits c d) {e : C} (h₂ : s.Waits d e) (l : Lock) : ¬ s.Wants e l := by
  rintro ⟨o, k, hn⟩
  obtain ⟨l₁, -, hl₁⟩ := h₁
  obtain ⟨l₂, ⟨o₂, k₂, hn₂⟩, hl₂⟩ := h₂
  obtain ⟨⟨q, rfl⟩, -⟩ := next_acquire (hi.wf d) hn₂ ((hi.locks d l₁).mp hl₁)
  exact (next_acquire (hi.wf e) hn ((hi.locks e _).mp hl₂)).2 q rfl

theorem Inv.not_waits_self (hi : Inv s) (hl : s.lock l = some c) : ¬ s.Wants c l := by
  rintro ⟨o, k, hn⟩
  obtain ⟨⟨q, rfl⟩, hno⟩ := next_acquire (hi.wf c) hn ((hi.locks c l).mp hl)
  exact hno q rfl

theorem Inv.chain_end (hi : Inv s) (c : C) : ∃ d, ReflTransGen s.Waits c d ∧ ∀ e, ¬ s.Waits d e := by
  by_cases h₁ : ∃ d, s.Waits c d
  · obtain ⟨d, hd⟩ := h₁
    by_cases h₂ : ∃ e, s.Waits d e
    · obtain ⟨e, he⟩ := h₂
      refine ⟨e, .tail (.single hd) he, ?_⟩
      rintro f ⟨l, hl, -⟩
      exact hi.waits_end hd he l hl
    · exact ⟨d, .single hd, not_exists.mp h₂⟩
  · exact ⟨c, .refl, not_exists.mp h₁⟩

theorem Inv.acyclic (hi : Inv s) (c : C) : ¬ TransGen s.Waits c c := by
  intro h
  obtain ⟨d, hd, hdc⟩ := TransGen.head'_iff.mp h
  obtain ⟨e, he, hed⟩ := TransGen.head'_iff.mp (TransGen.tail' hdc hd)
  obtain ⟨f, ⟨l, hl, -⟩, -⟩ := TransGen.head'_iff.mp (TransGen.tail' hed he)
  exact hi.waits_end hd he l hl

/-- No process that has exited is on a CPU: `panic("zombie exit")` is not reached. -/
def State.Awake (s : State C) : Prop := ∀ c q, s.cur c = some q → s.ppc q ≠ .dead

theorem Inv.not_dead (hi : Inv s) (ha : s.Awake) (c : C) : s.pc c ≠ .dead := by
  intro hdead
  cases hc : s.cur c with
  | none =>
    have hw := hi.wf c
    rw [hdead, hc] at hw
    cases hw
  | some p => exact ha c p hc ((State.pc_of_cur hc).symm.trans hdead)

section
variable [DecidableEq C]

theorem Act.run_onto (ha : a.run c me s = some t) (hd : t.cur d = some q) : s.cur d = some q ∨ a = .swtchTo q := by
  cases a with
  | swtchTo r =>
    cases ha
    by_cases hdc : d = c
    · rw [hdc] at hd
      exact .inr (by rw [some.inj ((update_self (f := s.cur) ..).symm.trans hd)])
    · exact .inl ((update_of_ne hdc _ s.cur).symm.trans hd)
  | swtch =>
    obtain ⟨_, -, rfl⟩ := map_eq_some_iff.mp ha
    by_cases hdc : d = c
    · rw [hdc] at hd
      cases (update_self (f := s.cur) ..).symm.trans hd
    · exact .inl ((update_of_ne hdc _ s.cur).symm.trans hd)
  | _ => exact .inl (Act.run_cur (by simp) (by simp) ha ▸ hd)

theorem Act.run_dead (ha : a.run c me s = some t) (hq : t.ppc q = .dead) : s.ppc q = .dead := by
  cases a with
  | context r =>
    cases ha
    by_cases hqr : q = r
    · rw [hqr] at hq
      cases (update_self (f := s.ppc) ..).symm.trans hq
    · exact (update_of_ne hqr _ s.ppc).symm.trans hq
  | swtch =>
    obtain ⟨_, -, rfl⟩ := map_eq_some_iff.mp ha
    exact hq
  | acquire l =>
    simp only [Act.run] at ha
    split at ha <;> cases ha
    exact hq
  | device d v => cases d <;> cases ha <;> exact hq
  | _ =>
    cases ha
    exact hq

theorem Inv.awake_run (hi : Inv s) (h : s.Awake) (ht : step s (.run c o) = some t) : t.Awake := by
  obtain ⟨a, k, u, hn, ha, rfl⟩ := step_run.mp ht
  intro d q hd hdead
  rw [goto_cur] at hd
  by_cases hq : s.cur c = some q
  · -- the thread that took the step has ended, and is off its CPU then
    rw [hq, goto_ppc, update_self] at hdead
    obtain rfl := next_dead (hi.wf c) (hdead ▸ hn)
    rcases Act.run_onto ha hd with hs | hs
    · obtain rfl := hi.cur_inj hs hq
      rw [hq] at ha
      cases ha
      cases (update_self (f := s.cur) ..).symm.trans hd
    · cases hs
  · rw [goto_ppc_ne hq] at hdead
    have hold := Act.run_dead ha hdead
    rcases Act.run_onto ha hd with hs | rfl
    · exact h d q hs hold
    · -- the scheduler switches to a process that gave up its CPU
      have hpc := next_swtchTo hn
      have hw := hi.wf c
      rw [hpc] at hw
      have hc : s.cur c = none := hw
      have hent : (s.spc c).entering = some q := by
        rw [← State.pc_of_idle hc, hpc]
        rfl
      have hoff : ∀ d, s.cur d ≠ some q := fun d hd => by
        obtain rfl := hi.uniq (State.claims_of_cur hd) ((State.claims_of_idle hc).trans hent)
        rw [hc] at hd
        cases hd
      have hpark := hi.parked hoff
      rw [State.Parked, hi.entering hc hent, hold] at hpark
      exact hpark.1.elim

theorem Inv.awake_step {e : Ev C} (hi : Inv s) (h : s.Awake) (ht : step s e = some t) : t.Awake := by
  rcases step_cases ht with ⟨c, o, rfl⟩ | ⟨c, k, n, hj, -, rfl⟩
  · exact hi.awake_run h ht
  · intro d q hd hdead
    rw [goto_cur] at hd
    by_cases hq : s.cur c = some q
    · rw [hq, goto_ppc, update_self] at hdead
      cases hj with
      | call f => cases f <;> cases hdead
      | timer | intr => cases hdead
    · rw [goto_ppc_ne hq] at hdead
      exact h d q hd hdead

theorem run_awake {evs : List (Ev C)} (h : Run step booted evs s) : Inv s ∧ s.Awake :=
  h.invariant (P := fun _ s => Inv s ∧ s.Awake) ⟨Inv.at_boot, fun _ _ hc => by cases hc⟩
    fun _ hs ht => ⟨hs.1.keep ht, hs.1.awake_step hs.2 ht⟩

/-- No lock is acquired twice, released by another CPU or kept across `swtch`, and from every CPU the chain
of CPUs that spin for each other's locks ends, after at most two, at one that goes on. -/
structure LocksSafe (s : State C) : Prop where
  acquire : ∀ c l, s.Wants c l → s.lock l ≠ some c
  release : ∀ c o l k, next s (s.cur c) o (s.pc c) = some (.release l, k) → s.lock l = some c
  sched : ∀ c o k, next s (s.cur c) o (s.pc c) = some (.swtch, k) →
    ∃ p, s.cur c = some p ∧ (s.proc p).state ≠ .running ∧ ∀ l, s.lock l = some c ↔ l = .proc p
  zombie : ∀ c, s.pc c ≠ .dead
  acyclic : ∀ c, ¬ TransGen s.Waits c c
  goes : ∀ c, ∃ d, ReflTransGen s.Waits c d ∧ (s.pc d = .user ∨ ∀ o, (step s (.run d o)).isSome)

theorem Inv.goes_on (hi : Inv s) (ha : s.Awake) (hno : ∀ d, ¬ s.Waits c d) :
    s.pc c = .user ∨ ∀ o, (step s (.run c o)).isSome := by
  by_cases hu : s.pc c = .user
  · exact .inl hu
  · refine .inr fun o => ?_
    obtain ⟨a, k, hn⟩ := next_exists (s := s) (o := o) (hi.wf c) hu (hi.not_dead ha c)
    obtain ⟨u, hrun⟩ : ∃ u, a.run c (s.cur c) s = some u := by
      cases a with
      | acquire l =>
        cases hl : s.lock l with
        | none => exact ⟨_, if_pos hl⟩
        | some d => exact absurd ⟨l, ⟨o, k, hn⟩, hl⟩ (hno d)
      | swtch =>
        obtain ⟨p, hp, -⟩ := next_swtch (hi.wf c) hn
        exact ⟨_, by rw [hp]; rfl⟩
      | device d v => cases d <;> exact ⟨_, rfl⟩
      | _ => exact ⟨_, rfl⟩
    rw [step_run.mpr ⟨a, k, u, hn, hrun, rfl⟩]
    rfl

/-- In every run on any number of CPUs the spinlocks are used as `acquire`, `release` and `sched` demand, and
never deadlock. -/
theorem spinlocks_safe {evs : List (Ev C)} (h : Run step booted evs s) : LocksSafe s := by
  obtain ⟨hi, ha⟩ := run_awake h
  refine ⟨fun c l hw hl => hi.not_waits_self hl hw, fun c o l k hn => ?_, fun c o k hn => ?_, hi.not_dead ha, hi.acyclic, fun c => ?_⟩
  · exact (hi.locks c l).mpr (next_held (hi.wf c) hn).1
  · obtain ⟨p, hp, hheld, hrun⟩ := next_swtch (hi.wf c) hn
    refine ⟨p, hp, ?_, fun l => ?_⟩
    · rw [(hi.busy hp).2.2, ← State.pc_of_cur hp]
      exact hrun
    · rw [hi.locks c l, State.heldBy, hheld, List.mem_singleton]
  · obtain ⟨d, hd, hend⟩ := hi.chain_end c
    exact ⟨d, hd, hi.goes_on ha hend⟩

/-- Init and its child both want `wait_lock`, which init has. -/
def bothWait : List (Ev Bool) := bothRun ++ .call false (.wait 0) :: .run false 1 :: [.call true (.wait 0)]

theorem bothWait_locks_safe : ∃ s : State Bool, Run step booted bothWait s ∧ s.Waits true false ∧ LocksSafe s := by
  have hstate : ((exec step (booted : State Bool) bothWait).map fun s => (s.lock .wait, s.cur true, s.ppc 1)) =
      some (some false, some 1, .wait 0) := by
    decide +kernel
  obtain ⟨s, hrun, heq⟩ := map_eq_some_iff.mp hstate
  simp only [Prod.mk.injEq] at heq
  obtain ⟨hlock, hcur, hpc⟩ := heq
  refine ⟨s, run_of_exec hrun, ⟨.wait, ⟨0, .waitScan 0 0 false, ?_⟩, hlock⟩, spinlocks_safe (run_of_exec hrun)⟩
  rw [State.pc_of_cur hcur, hpc]
  rfl

end

end Xv6.Smp
