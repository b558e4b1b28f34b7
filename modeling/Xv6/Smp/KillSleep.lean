import Xv6.Smp.Slots

namespace Xv6.Smp

open Locks Transition

variable {C : Type*} {s t : State C} {me : Option Slot} {o : Nat} {pc k : Pc} {a : Act} {p q r : Slot} {c d : C}
  {l : Lock}

/-- The sleeps that test `killed` first: `wait`, `pipewrite`, `piperead`, `consoleread` and `sys_sleep`. -/
def Site.interruptible : Site → Bool
  | .block _ => false
  | _ => true

/-- The call of `sleep` that follows a `wakeup` in `pipewrite`. -/
def Pc.thenSleeps : Pc → Prop
  | .sleepAcq σ => σ.interruptible
  | _ => False

/-- Process `p` at `pc` has found itself not killed and sleeps, or is going to, without another test. -/
def State.Tested (s : State C) (p : Slot) : Pc → Prop
  | .killedRel _ k => k = false
  | .writeFull w => (s.pipe w.pi).full
  | .sleepAcq σ | .sleepRel σ | .sleepChan σ | .sleepSet σ | .sleepSwtch σ => σ.interruptible
  | .wake _ _ k | .wakeTest _ _ k | .wakeRel _ _ k => k.thenSleeps
  | .sleepTidy σ => σ.interruptible ∧ (s.proc p).state = .sleeping
  | _ => False

theorem State.Tested.locked (h : s.Tested p pc) : pc.held (some p) ≠ [] := by
  cases pc
  case wake ch i k => cases k <;> first | exact h.elim | simp [Pc.held]
  all_goals first | exact h.elim | simp [Pc.held]

variable [DecidableEq C]

theorem Act.killed_of_run (h : a.run c me s = some t) (hk : ∀ u, a = .set p u → u ≠ .kill ∧ u ≠ .killed ∧ u ≠ .free)
    (hr : a ≠ .reap p) : (t.proc p).killed = (s.proc p).killed := by
  cases a with
  | set q u =>
    cases h
    by_cases hq : p = q
    · subst hq
      obtain ⟨h1, h2, h3⟩ := hk u rfl
      cases u <;> simp_all [Upd.apply]
    · simp [hq]
  | allocpid q | zombie q =>
    cases h
    by_cases hq : p = q <;> simp [hq, Upd.apply]
  | reap q =>
    cases h
    have hq : p ≠ q := fun he => hr (he ▸ rfl)
    simp [hq]
  | acquire l =>
    rw [(Act.run_quiet (a := .acquire l) trivial h).proc]
  | device d v =>
    rw [(Act.run_quiet (a := .device d v) trivial h).proc]
  | swtch =>
    obtain ⟨p, -, rfl⟩ := Option.map_eq_some_iff.mp h
    rfl
  | _ => cases h; rfl

theorem tested_of_next (hw : pc.wf (some p)) (h : next s (some p) o pc = some (a, k))
    (ha : a.run c (some p) s = some t) (hk : t.Tested p k) :
    (s.Tested p pc ∨ (s.proc p).killed = false) ∧ (t.proc p).killed = (s.proc p).killed := by
  cases pc
  case yieldRel k' => cases h; exact absurd hw.2.1 hk.locked
  case notifyRel d k' => cases h; exact absurd hw.1 hk.locked
  case wake ch i k' =>
    simp only [next] at h
    split at h
    next =>
      split at h <;> cases h <;> exact ⟨.inl hk, Act.killed_of_run ha (by simp) (by simp)⟩
    next =>
      cases h
      refine ⟨.inl ?_, Act.killed_of_run ha (by simp) (by simp)⟩
      cases k <;> first | exact hw.1.1.elim | exact hk
  all_goals
    simp only [next] at h
    repeat' split at h
  all_goals
    simp only [Option.some.injEq, Prod.mk.injEq, Option.map_some, reduceCtorEq] at h
  all_goals obtain ⟨rfl, rfl⟩ := h
  case sleepSwtch σ => exact ⟨.inl hk.1, Act.killed_of_run ha (by simp) (by simp)⟩
  case sleepLock σ => cases σ <;> exact hk.elim
  case killedRead σ =>
    cases ha
    exact ⟨.inr hk, rfl⟩
  case killedRel.isFalse σ k' hf => exact ⟨.inl (show k' = false by simpa using hf), Act.killed_of_run ha (by simp) (by simp)⟩
  case writeFull.isTrue w hf => exact ⟨.inl hf, Act.killed_of_run ha (by simp) (by simp)⟩
  case blockLoop.isTrue d hf => cases hk
  all_goals first
    | exact hk.elim
    | exact ⟨.inl hk, Act.killed_of_run ha (by simp) (by simp)⟩

omit [DecidableEq C] in
theorem State.Tested.congr (hp : t.pipe = s.pipe) (hs : (t.proc p).state = (s.proc p).state) :
    t.Tested p pc ↔ s.Tested p pc := by
  cases pc <;> simp only [State.Tested, hp, hs]

theorem slot_of_ne (ht : step s (.run c o) = some t) (hne : s.cur c ≠ some p) :
    (s.pc c = .killTest (s.proc p).pid p ∧ t.proc p = Upd.kill.apply (s.proc p)) ∨
      ((t.proc p).state = .sleeping → (s.proc p).state = .sleeping) ∧
      ((t.proc p).killed = true → (s.proc p).killed = true) := by
  obtain ⟨a, k, u, hn, ha, rfl⟩ := step_run.mp ht
  rw [goto_proc, Act.run_table ha]
  rcases next_effect hn with he | hq
  · generalize s.cur c = me, s.pc c = pc at he hne
    cases he with
    | setCpu | enter | clearCpu | yieldSwtch | sleepSwtch | exitSwtch | forkContext => exact .inr ⟨id, id⟩
    | yieldSet | sleepChan | sleepSet | sleepTidy | setkilled | exitStatus | exitZombie =>
      have hp : p ≠ _ := fun he => hne (congrArg some he.symm)
      rw [Act.table, Function.update_of_ne hp]
      exact .inr ⟨id, id⟩
    | @killTest _ pid q hpid =>
      by_cases hp : p = q
      · subst hp
        exact .inl ⟨by rw [hpid], by simp [Act.table]⟩
      · exact .inr (by simp [Act.table, hp])
    | @check _ q hs | @wakeTest _ _ q _ hs | @forkUsed _ q | @forkTrapframe _ q | @forkPagetable _ q | @forkFree _ q
    | @forkSz _ q | @forkParent _ q | @forkRunnable _ q | @reparent _ _ _ q | @waitFree _ q | @forkPid _ q =>
      by_cases hp : p = q <;> simp [Act.table, hp, Upd.apply, Proc.free]
  · rw [← Act.run_table ha, (Act.run_quiet hq ha).proc]
    exact .inr ⟨id, id⟩

/-- No `kill` marks a process between its test of `killed` and its sleep. -/
def KillsSeen (s : State C) : Ev C → Prop
  | .run c _ =>
    match s.pc c with
    | .killTest pid q => (s.proc q).pid = pid → (s.ppc q).resumable ∨ ¬ s.Tested q (s.ppc q)
    | _ => True
  | _ => True

/-- A process that has tested `killed` and is still to sleep, or sleeps, is not killed. -/
def KillInv (s : State C) : Prop := ∀ p, s.Tested p (s.ppc p) → (s.proc p).killed = false

instance (pc : Pc) : Decidable pc.thenSleeps := by unfold Pc.thenSleeps; split <;> infer_instance

def State.tested (s : State C) (p : Slot) : Pc → Bool
  | .killedRel _ k => !k
  | .writeFull w => decide (s.pipe w.pi).full
  | .sleepAcq σ | .sleepRel σ | .sleepChan σ | .sleepSet σ | .sleepSwtch σ => decide σ.interruptible
  | .wake _ _ k | .wakeTest _ _ k | .wakeRel _ _ k => decide k.thenSleeps
  | .sleepTidy σ => decide (σ.interruptible ∧ (s.proc p).state = .sleeping)
  | _ => false

omit [DecidableEq C] in
theorem State.tested_iff (s : State C) (p : Slot) (pc : Pc) : s.tested p pc = true ↔ s.Tested p pc := by
  cases pc <;> simp [State.tested, State.Tested]

instance (s : State C) (p : Slot) (pc : Pc) : Decidable (s.Tested p pc) :=
  decidable_of_iff (s.tested p pc = true) (s.tested_iff p pc)

def State.killsSeen (s : State C) : Ev C → Bool
  | .run c _ =>
    match s.pc c with
    | .killTest pid q => decide ((s.proc q).pid = pid → (s.ppc q).resumable ∨ ¬ s.Tested q (s.ppc q))
    | _ => true
  | _ => true

omit [DecidableEq C] in
theorem State.killsSeen_iff (s : State C) (e : Ev C) : s.killsSeen e = true ↔ KillsSeen s e := by
  cases e with
  | run c o =>
    simp only [State.killsSeen, KillsSeen]
    cases s.pc c <;> simp only [decide_eq_true_eq]
  | _ => simp only [State.killsSeen, KillsSeen]

instance (s : State C) (e : Ev C) : Decidable (KillsSeen s e) :=
  decidable_of_iff (s.killsSeen e = true) (s.killsSeen_iff e)

theorem KillInv.run (h : KillInv s) (hi : Inv s) (hg : KillsSeen s (.run c o)) (ht : step s (.run c o) = some t) :
    KillInv t := by
  intro p hk
  by_cases hc : s.cur c = some p
  · obtain ⟨a, k, u, hn, ha, rfl⟩ := step_run.mp ht
    rw [hc] at hn ha hk ⊢
    rw [State.pc_of_cur hc] at hn
    rw [goto_ppc, Function.update_self, State.Tested.congr goto_pipe (by rw [goto_proc])] at hk
    obtain ⟨htest, hkilled⟩ := tested_of_next (hi.wfProc p) hn ha hk
    rw [goto_proc, hkilled]
    rcases htest with htest | hf
    · exact h p htest
    · exact hf
  · have hp : t.ppc p = s.ppc p := by
      rcases ppc_of_ne ht hc with hp | hp
      · exact hp
      · rw [hp] at hk
        exact hk.elim
    rw [hp] at hk
    -- the test and the lock of the pipe are older than this step
    have htest : (s.proc p).state = .sleeping ∨ (t.proc p).state ≠ .sleeping → s.Tested p (s.ppc p) := by
      intro hs
      cases hpc : s.ppc p
      case writeFull w =>
        obtain ⟨d, hd⟩ := hi.on_cpu (p := p) (by simp [hpc]) (by simp [hpc, Pc.resumable])
        have hl : Lock.pipe w.pi ∈ s.heldBy d := by rw [State.heldBy_of_cur hd, hpc]; simp [Pc.held]
        rw [hpc] at hk
        have hfull : (t.pipe w.pi).full := hk
        rwa [hi.locked_pipe ht hl fun hdc => hc (hdc ▸ hd)] at hfull
      case sleepTidy σ =>
        rw [hpc] at hk
        exact ⟨hk.1, hs.resolve_right fun hn => hn hk.2⟩
      all_goals
        rw [hpc] at hk
        exact hk
    rcases slot_of_ne ht hc with ⟨hpc, hkill⟩ | ⟨hsleep, hkilled⟩
    · -- `kill` makes a sleeping process `RUNNABLE`, and finds no other that has tested `killed`
      exfalso
      have hns : (t.proc p).state ≠ .sleeping := by
        rw [hkill]
        simp only [Upd.apply]
        split <;> simp_all
      have ht := htest (.inr hns)
      simp only [KillsSeen, hpc] at hg
      rcases hg trivial with hr | hn
      · cases hpp : s.ppc p <;> simp only [hpp, Pc.resumable] at hr <;> rw [hpp] at hk
        · exact hk
        · exact hk
        · exact hns hk.2
      · exact hn ht
    · have hold : (s.proc p).killed = false := by
        by_cases hs : (t.proc p).state = .sleeping
        · exact h p (htest (.inl (hsleep hs)))
        · exact h p (htest (.inr hs))
      by_contra hne
      rw [hkilled (by simpa using hne)] at hold
      cases hold

theorem KillInv.keep (h : KillInv s) (hi : Inv s) {e : Ev C} (hg : KillsSeen s e) (ht : step s e = some t) :
    KillInv t := by
  rcases step_cases ht with ⟨c, o, rfl⟩ | ⟨c, k, n, hj, hl, rfl⟩
  · exact h.run hi hg ht
  · intro p hk
    rw [goto_ppc_apply, State.Tested.congr (s := s) (by simp) (by simp)] at hk
    rw [goto_proc]
    split at hk
    · cases hj with
      | call f => cases f <;> exact hk.elim
      | _ => exact hk.elim
    · exact h p hk

/-- In a run in which no `kill` marks a process between its test of `killed` and its sleep, nobody sleeps
killed in an interruptible sleep. -/
theorem kill_not_missed {evs : List (Ev C)} (h : Run (guarded step KillsSeen) booted evs s) {σ : Site}
    (hσ : σ.interruptible) (hpc : s.ppc p = .sleepSwtch σ ∨ s.ppc p = .sleepTidy σ)
    (hs : (s.proc p).state = .sleeping) : (s.proc p).killed = false := by
  have hinv : Inv s ∧ KillInv s := by
    refine h.invariant (P := fun _ s => Inv s ∧ KillInv s) ⟨Inv.at_boot, fun p hk => ?_⟩ fun _ hi ht => ?_
    · by_cases h0 : p = initproc <;> simp [booted, h0, State.Tested] at hk
    · obtain ⟨hg, ht⟩ := guarded_eq_some.mp ht
      exact ⟨hi.1.keep ht, hi.2.keep hi.1 hg ht⟩
  apply hinv.2 p
  rcases hpc with hpc | hpc
  · rw [hpc]
    exact hσ
  · rw [hpc]
    exact ⟨hσ, hs⟩

/-- The child of init calls `piperead` on an empty pipe and has found itself not killed. -/
def childReads : List (Ev Bool) := bothRun ++ .call true (.piperead 0 1) :: runs true 5

/-- It goes to sleep and its CPU is free again. -/
def childSleeps : List (Ev Bool) := childReads ++ runs true 7

/-- Between the test of `killed` and the sleep init kills itself. -/
def initKilled : List (Ev Bool) := childReads ++ .call false (.kill 1) :: runs false 4 ++ runs true 7

theorem initKilled_child_sleeps :
    ∃ s : State Bool, Run (guarded step KillsSeen) booted initKilled s ∧ s.ppc 1 = .sleepTidy (.piperead ⟨0, 1, 0, 1⟩) ∧
      (s.proc 0).killed = true ∧ (s.proc 1).state = .sleeping ∧ (s.proc 1).killed = false := by
  have hstate : ((exec (guarded step KillsSeen) (booted : State Bool) initKilled).map fun s =>
      (s.ppc 1, (s.proc 0).killed, (s.proc 1).state)) = some (.sleepTidy (.piperead ⟨0, 1, 0, 1⟩), true, .sleeping) := by
    decide +kernel
  obtain ⟨s, hrun, heq⟩ := Option.map_eq_some_iff.mp hstate
  obtain ⟨hpc, hkilled, hs⟩ : _ ∧ _ ∧ _ := by simpa only [Prod.mk.injEq] using heq
  exact ⟨s, run_of_exec hrun, hpc, hkilled, hs, kill_not_missed (run_of_exec hrun) rfl (.inr hpc) hs⟩

/-- Init kills its child after the test of `killed` and before the sleep. -/
def killMissed : List (Ev Bool) := childReads ++ .call false (.kill 2) :: runs false 7 ++ runs true 7

/-- The child sleeps in `piperead` with `killed` set, and nobody is left to wake it: `kill` has returned 0
and no lock is held. -/
theorem killMissed_sleeps_killed :
    ∃ s : State Bool, Run step booted killMissed s ∧ s.ppc 0 = .user ∧ s.ppc 1 = .sleepTidy (.piperead ⟨0, 1, 0, 1⟩) ∧
      (s.proc 1).state = .sleeping ∧ (s.proc 1).killed = true ∧ s.lock (.proc 1) = none ∧ s.lock (.pipe 0) = none := by
  have hstate : ((exec step (booted : State Bool) killMissed).map fun s =>
      (s.ppc 0, s.ppc 1, (s.proc 1).state, (s.proc 1).killed, (s.lock (.proc 1)).isNone, (s.lock (.pipe 0)).isNone)) =
      some (.user, .sleepTidy (.piperead ⟨0, 1, 0, 1⟩), .sleeping, true, true, true) := by
    decide +kernel
  obtain ⟨s, hrun, heq⟩ := Option.map_eq_some_iff.mp hstate
  simp only [Prod.mk.injEq, Option.isNone_iff_eq_none] at heq
  obtain ⟨h0, h1, hs, hk, hl, hp⟩ := heq
  exact ⟨s, run_of_exec hrun, h0, h1, hs, hk, hl, hp⟩

end Xv6.Smp
