import Xv6.Smp.Wakeup

namespace Xv6.Smp

open Locks Transition State

variable {C : Type*} {s t : State C} {me : Option Slot} {o n : Nat} {pc k : Pc} {a : Act} {p q r : Slot} {c d : C}
  {l : Lock}

/-- `exit` wakes its parent or has done so, and is not a zombie yet. -/
def Pc.telling : Pc → Prop
  | .exitAcq _ | .exitStatus _ | .exitZombie _
  | .wake _ _ (.exitAcq _) | .wakeTest _ _ (.exitAcq _) | .wakeRel _ _ (.exitAcq _) => True
  | _ => False

/-- `wait` has looked at the children in the slots below this one in its last scan, and none was a
zombie. -/
def Pc.scanned : Pc → Option Nat
  | .waitScan _ i _ => some i
  | .waitTest _ q => some q
  | .waitNext _ q => some (q + 1)
  | .killedAcq (.wait _) | .killedRead (.wait _) | .killedRel (.wait _) _ | .sleepAcq (.wait _)
  | .sleepRel (.wait _) => some 64
  | _ => none

theorem Pc.held_of_telling (h : pc.telling) : Lock.wait ∈ pc.held me := by
  unfold Pc.telling at h
  split at h <;> simp_all [Pc.held]

theorem Pc.held_of_scanned (h : pc.scanned = some n) : Lock.wait ∈ pc.held me := by
  unfold Pc.scanned at h
  split at h <;> simp_all [Pc.held, Site.lock]

theorem Pc.not_resumable_of_telling (h : pc.telling) : pc ≠ .dead ∧ ¬ pc.resumable := by
  unfold Pc.telling at h
  split at h <;> simp_all [Pc.resumable]

theorem Pc.not_resumable_of_scanned (h : pc.scanned = some n) : pc ≠ .dead ∧ ¬ pc.resumable ∧ ¬ pc.afterWake := by
  unfold Pc.scanned at h
  split at h <;> simp_all [Pc.resumable, Pc.afterWake]

theorem next_telling (hw : pc.wf (some p)) (h : next s (some p) o pc = some (a, k)) (hk : k.telling) :
    pc.telling ∨ a = .skip ∧ ∀ r, (s.proc p).parent = some r → k.pending (.proc r) r := by
  have hl : Lock.wait ∈ k.held (some p) := Pc.held_of_telling hk
  cases pc
  case yieldRel k' =>
    cases h
    rw [hw.2.1] at hl
    cases hl
  case notifyRel d k' =>
    cases h
    rw [hw.1] at hl
    cases hl
  case wake ch i k' =>
    simp only [next] at h
    repeat' split at h
    all_goals cases h
    · cases k' <;> first | exact hk.elim | exact .inl trivial
    · cases k' <;> first | exact hk.elim | exact .inl trivial
    · cases k <;> first | exact hk.elim | exact hw.1.1.elim | exact .inl trivial
  case wakeTest ch q k' =>
    simp only [next] at h
    split at h <;> cases h <;> cases k' <;> first | exact hk.elim | exact .inl trivial
  case wakeRel ch q k' =>
    cases h
    cases k' <;> first | exact hk.elim | exact .inl trivial
  case reparent v i =>
    simp only [next] at h
    split at h
    next => split at h <;> cases h <;> exact hk.elim
    next =>
      split at h <;> cases h
      next r hr =>
        refine .inr ⟨rfl, fun r' hr' => ?_⟩
        obtain rfl := Option.some.inj (hr.symm.trans hr')
        exact ⟨rfl, Nat.zero_le _⟩
      next hr =>
        refine .inr ⟨rfl, fun r' hr' => ?_⟩
        cases hr.symm.trans hr'
  all_goals
    simp only [next] at h
    repeat' split at h
  all_goals simp only [Option.some.injEq, Prod.mk.injEq, Option.map_some, reduceCtorEq] at h
  all_goals obtain ⟨rfl, rfl⟩ := h
  all_goals first
    | exact hk.elim
    | (cases ‹Site› <;> exact hk.elim)
    | exact .inl trivial

theorem next_scanned (hw : pc.wf (some p)) (h : next s (some p) o pc = some (a, k)) (hk : k.scanned = some n) :
    a.quiet ∧ (n = 0 ∨ ∃ m, pc.scanned = some m ∧
      ∀ q : Slot, (s.proc q).state = .zombie → (s.proc q).parent = some p → m ≤ q.val → n ≤ q.val) := by
  have hret := Pc.not_return_of_held hw (List.ne_nil_of_mem (Pc.held_of_scanned hk)) (Pc.not_resumable_of_scanned hk).2.2
  cases pc
  case waitScan addr i havekids =>
    simp only [next] at h
    split at h
    next q hq =>
      have hqi := slot?_eq_some.mp hq
      split at h <;> cases h
      next => cases hk; exact ⟨trivial, .inr ⟨i, rfl, fun r _ _ hr => hqi.symm ▸ hr⟩⟩
      next hpar =>
        cases hk
        refine ⟨trivial, .inr ⟨i, rfl, fun r _ hr hle => ?_⟩⟩
        have hne : r ≠ q := by
          rintro rfl
          exact hpar ⟨rfl, hr⟩
        have hval := Fin.val_ne_of_ne hne
        omega
    next hq =>
      have hle := slot?_eq_none.mp hq
      cases h
      refine ⟨trivial, .inr ⟨i, rfl, fun r _ _ hr => ?_⟩⟩
      omega
  case waitTest addr q =>
    simp only [next] at h
    repeat' split at h
    all_goals cases h; cases hk
    next hz =>
      refine ⟨trivial, .inr ⟨q, rfl, fun r hr _ hle => ?_⟩⟩
      have hne : r ≠ q := by
        rintro rfl
        exact hz hr
      have hval := Fin.val_ne_of_ne hne
      omega
  all_goals
    simp only [next] at h
    repeat' split at h
  all_goals simp only [Option.some.injEq, Prod.mk.injEq, Option.map_some, reduceCtorEq] at h
  all_goals obtain ⟨rfl, rfl⟩ := h
  all_goals first
    | exact absurd rfl hret
    | (cases hk; done)
    | (cases hk; exact ⟨trivial, .inl rfl⟩)
    | (cases hk; exact ⟨trivial, .inr ⟨_, rfl, fun _ _ _ h => h⟩⟩)
    | cases ‹Site› <;> cases hk
  all_goals first
    | exact ⟨trivial, .inl rfl⟩
    | exact ⟨trivial, .inr ⟨_, rfl, fun _ _ _ h => h⟩⟩

structure WaitInv (s : State C) : Prop where
  /-- a process that dozes in `wait` is woken for its zombies before `wait_lock` is released -/
  doze : ∀ {p q}, s.Dozing p (.proc p) → (s.proc q).state = .zombie → (s.proc q).parent = some p →
    ∃ c, (s.pc c).pending (.proc p) p ∧ Lock.wait ∈ s.heldBy c
  exit : ∀ {q r}, (s.ppc q).telling → (s.proc q).parent = some r → s.Dozing r (.proc r) → (s.ppc q).pending (.proc r) r
  scan : ∀ {p q n}, (s.ppc p).scanned = some n → (s.proc q).state = .zombie → (s.proc q).parent = some p → n ≤ q.val

theorem Inv.wait_of_telling (h : Inv s) (hq : (s.ppc q).telling) : ∃ c, s.cur c = some q ∧ Lock.wait ∈ s.heldBy c := by
  obtain ⟨hd, hr⟩ := Pc.not_resumable_of_telling hq
  obtain ⟨c, hc⟩ := h.on_cpu hd hr
  exact ⟨c, hc, heldBy_of_cur hc ▸ Pc.held_of_telling hq⟩

theorem Inv.wait_of_scanned (h : Inv s) (hp : (s.ppc p).scanned = some n) :
    ∃ c, s.cur c = some p ∧ Lock.wait ∈ s.heldBy c := by
  obtain ⟨hd, hr, -⟩ := Pc.not_resumable_of_scanned hp
  obtain ⟨c, hc⟩ := h.on_cpu hd hr
  exact ⟨c, hc, heldBy_of_cur hc ▸ Pc.held_of_scanned hp⟩

section
variable [DecidableEq C]

/-- A zombie child of `p` after a step was one before, or the step is one under `wait_lock`: the end of the
exit of the child, or the `reparent` that hands it to init. -/
theorem Inv.zombie_child (h : Inv s) (ht : step s (.run c o) = some t) (hz : (t.proc q).state = .zombie)
    (hp : (t.proc q).parent = some p) :
    ((s.proc q).state = .zombie ∧ (s.proc q).parent = some p) ∨
      (s.cur c = some q ∧ (s.proc q).parent = some p ∧ ∃ v, s.pc c = .exitZombie v) ∨
      (p = initproc ∧ ∃ r v i, s.cur c = some r ∧ s.pc c = .reparent v i ∧ slot? i = some q ∧
        (s.proc q).parent = some r) := by
  have hf := h.fate ht q
  generalize t.proc q = y at hf hz hp
  cases hf with
  | kept hpar _ _ hst =>
    rcases hst with hst | hst
    · exact .inl ⟨hst ▸ hz, hpar ▸ hp⟩
    · simp [hz, ProcState.alive] at hst
  | forkParent _ _ hu =>
    rw [show (s.proc q).state = .zombie from hz] at hu
    cases hu
  | reparent hme hpc hi hpar => exact .inr (.inr ⟨(Option.some.inj hp).symm, _, _, _, hme, hpc, hi, hpar⟩)
  | exitZombie hme hpc => exact .inr (.inl ⟨hme, hp, _, hpc⟩)
  | exitStatus | allocpid => exact .inl ⟨hz, hp⟩
  | use | start | freed | reaped => cases hz

namespace WaitInv

theorem keep_doze (h : WaitInv s) (hi : Inv s) (ht : step s (.run c o) = some t) (hd : t.Dozing p (.proc p))
    (hz : (t.proc q).state = .zombie) (hp : (t.proc q).parent = some p) :
    ∃ c, (t.pc c).pending (.proc p) p ∧ Lock.wait ∈ t.heldBy c := by
  rcases hi.dozing_before ht hd with hds | ⟨hc, σ, hpc, hch⟩
  · rcases hi.zombie_child ht hz hp with ⟨hzs, hps⟩ | ⟨hc, hps, v, hpc⟩ | ⟨rfl, r, v, i, hc, hpc, hq, hpar⟩
    · obtain ⟨d, hpend, hl⟩ := h.doze hds hzs hps
      obtain ⟨-, hpend', hl'⟩ := hi.pending_step ht hpend hds hd
      exact ⟨d, hpend', hl' _ (by simp) hl⟩
    · -- the parent has been woken and has not got `wait_lock` since
      rw [pc_of_cur hc] at hpc
      have hpend := h.exit (q := q) (by rw [hpc]; trivial) hps hds
      rw [hpc] at hpend
      exact hpend.elim
    · -- the child is handed to init, which is woken next
      obtain ⟨a, k, u, hn, -, -, -, hstay⟩ := step_stay ht
      rw [hc, hpc] at hn
      simp only [next, hq, hpar, Option.isSome_some, and_self, if_true] at hn
      cases hn
      obtain ⟨-, hpc'⟩ := hstay (by rintro ⟨⟩) (by rintro _ ⟨⟩)
      refine ⟨c, ?_, ?_⟩
      · rw [hpc']
        exact ⟨rfl, Nat.zero_le _⟩
      · rw [heldBy, hpc']
        exact List.mem_singleton_self _
  · -- the last scan has found no zombie, and `wait_lock` was held since
    have hsite : ∃ addr, σ = .wait addr := by cases σ <;> simp [Site.chan] at hch ⊢
    obtain ⟨addr, rfl⟩ := hsite
    obtain ⟨a, k, u, hn, ha, hproc, -⟩ := step_proc hc ht
    rw [hpc] at hn
    cases hn
    rw [hproc, (Act.run_quiet (a := .release _) trivial ha).proc] at hz hp
    have hle := h.scan (p := p) (by rw [hpc]; rfl) hz hp
    omega

theorem keep_scan (h : WaitInv s) (hi : Inv s) (ht : step s (.run c o) = some t) (hn : (t.ppc p).scanned = some n)
    (hz : (t.proc q).state = .zombie) (hp : (t.proc q).parent = some p) : n ≤ q.val := by
  by_cases hc : s.cur c = some p
  · obtain ⟨a, k, u, hnext, ha, hproc, rfl⟩ := step_proc hc ht
    obtain ⟨hquiet, h0 | ⟨m, hm, hle⟩⟩ := next_scanned (hi.wfProc p) hnext hn
    · omega
    · rw [hproc, (Act.run_quiet hquiet ha).proc] at hz hp
      exact hle q hz hp (h.scan hm hz hp)
  · rcases ppc_of_ne ht hc with hpc | hpc
    · rw [hpc] at hn
      obtain ⟨d, hd, hl⟩ := hi.wait_of_scanned hn
      have hcd : Lock.wait ∉ s.heldBy c := by
        intro hlc
        obtain rfl := hi.holder hl hlc
        exact hc hd
      rcases hi.zombie_child ht hz hp with ⟨hzs, hps⟩ | ⟨hcq, -, v, hpc'⟩ | ⟨-, r, v, i, hcr, hpc', -, -⟩
      · exact h.scan hn hzs hps
      · exact absurd (by simp [heldBy, hpc', Pc.held]) hcd
      · exact absurd (by simp [heldBy, hpc', Pc.held]) hcd
    · rw [hpc] at hn
      cases hn

theorem keep_exit (h : WaitInv s) (hi : Inv s) (ht : step s (.run c o) = some t) (hq : (t.ppc q).telling)
    (hp : (t.proc q).parent = some r) (hd : t.Dozing r (.proc r)) : (t.ppc q).pending (.proc r) r := by
  by_cases hc : s.cur c = some q
  · obtain ⟨a, k, u, hn, ha, hproc, rfl⟩ := step_proc hc ht
    rcases next_telling (hi.wfProc q) hn hq with htell | ⟨rfl, hpend⟩
    · have hps : (s.proc q).parent = some r := by
        have hf := hi.fate ht q
        rw [pc_of_cur hc] at hf
        generalize t.proc q = y at hf hp
        generalize s.ppc q = pc at hf htell
        cases hf with
        | kept hpar => exact hpar ▸ hp
        | forkParent _ hpc | reparent _ hpc | freed hpc | reaped _ hpc =>
          subst hpc
          exact htell.elim
        | _ => exact hp
      rcases hi.dozing_before ht hd with hds | ⟨hc', σ, hpc, -⟩
      · have hpend := h.exit htell hps hds
        rw [← pc_of_cur hc] at hpend
        obtain ⟨hcur, hpend', -⟩ := hi.pending_step ht hpend hds hd
        rwa [pc_of_cur (hcur.trans hc)] at hpend'
      · obtain rfl := Option.some.inj (hc'.symm.trans hc)
        rw [hpc] at htell
        exact htell.elim
    · refine hpend r ?_
      cases ha
      rwa [hproc] at hp
  · rcases ppc_of_ne ht hc with hpc | hpc
    · rw [hpc] at hq ⊢
      obtain ⟨d, hd', hl⟩ := hi.wait_of_telling hq
      have hcd : Lock.wait ∉ s.heldBy c := by
        intro hlc
        obtain rfl := hi.holder hl hlc
        exact hc hd'
      have hps : (s.proc q).parent = some r := by
        have hf := hi.fate ht q
        generalize t.proc q = y at hf hp
        cases hf with
        | kept hpar => exact hpar ▸ hp
        | forkParent _ hpc' | reparent _ hpc' => exact absurd (by simp [heldBy, hpc', Pc.held]) hcd
        | freed | reaped => cases hp
        | _ => exact hp
      rcases hi.dozing_before ht hd with hds | ⟨hcr, σ, hpc', hch⟩
      · exact h.exit hq hps hds
      · have hlock : σ.lock = .wait := by cases σ <;> first | rfl | cases hch
        exact absurd (by simp [heldBy_of_cur hcr, hpc', Pc.held, hlock]) hcd
    · rw [hpc] at hq
      exact hq.elim

omit [DecidableEq C] in
theorem at_boot : WaitInv (booted : State C) where
  doze {p q} _ hz _ := by by_cases h0 : q = initproc <;> simp [booted, h0, Proc.free] at hz
  exit {q r} ht := by by_cases h0 : q = initproc <;> simp [booted, h0, Pc.telling] at ht
  scan {p q n} hn := by by_cases h0 : p = initproc <;> simp [booted, h0, Pc.scanned] at hn

theorem jump (h : WaitInv s) (hi : Inv s) {n : Nat} (hj : Jump s c n k) (hl : s.heldBy c = []) :
    WaitInv (goto { s with calls := n } c (s.cur c) k) := by
  have hk : ¬ k.telling ∧ k.scanned = none := by
    cases hj with
    | call f => cases f <;> exact ⟨id, rfl⟩
    | _ => exact ⟨id, rfl⟩
  refine ⟨?_, ?_, ?_⟩
  · intro p q hd hz hp
    rw [goto_proc] at hz hp
    obtain ⟨d, hpend, hwait⟩ := h.doze (hj.dozing_before hd) hz hp
    have hdc : d ≠ c := by
      rintro rfl
      rw [hl] at hwait
      cases hwait
    obtain ⟨hcur, hpc⟩ := hi.pc_jump (k := k) (n := n) hdc
    exact ⟨d, by rwa [hpc], by rwa [heldBy, hpc, hcur]⟩
  · intro q r ht hp hd
    rw [goto_proc] at hp
    rw [goto_ppc_apply] at ht ⊢
    split at ht
    · exact absurd ht hk.1
    next hne =>
      rw [if_neg hne]
      exact h.exit ht hp (hj.dozing_before hd)
  · intro p q m hm hz hp
    rw [goto_proc] at hz hp
    rw [goto_ppc_apply] at hm
    split at hm
    · rw [hk.2] at hm
      cases hm
    · exact h.scan hm hz hp

theorem keep (h : WaitInv s) (hi : Inv s) {e : Ev C} (ht : step s e = some t) : WaitInv t := by
  rcases step_cases ht with ⟨c, o, rfl⟩ | ⟨c, k, n, hj, hl, rfl⟩
  · exact ⟨h.keep_doze hi ht, h.keep_exit hi ht, h.keep_scan hi ht⟩
  · exact h.jump hi hj hl

end WaitInv

theorem run_waitInv {evs : List (Ev C)} (h : Run step booted evs s) : Inv s ∧ WaitInv s :=
  h.invariant (P := fun _ s => Inv s ∧ WaitInv s) ⟨Inv.at_boot, WaitInv.at_boot⟩ fun _ hi ht =>
    ⟨hi.1.keep ht, hi.2.keep hi.1 ht⟩

/-- In every run, a process that sleeps in `wait` while `wait_lock` is free has no zombie child. -/
theorem exit_wakeup_not_lost {evs : List (Ev C)} (h : Run step booted evs s) (hfree : s.lock .wait = none)
    (hs : (s.proc p).state = .sleeping) (hc : (s.proc p).chan = some (.proc p)) (hp : (s.proc q).parent = some p) :
    (s.proc q).state ≠ .zombie := by
  obtain ⟨hi, hw⟩ := run_waitInv h
  intro hz
  obtain ⟨c, -, hl⟩ := hw.doze (State.dozing_of_sleeping hi hs hc) hz hp
  have hheld := (hi.locks c .wait).mpr hl
  rw [hfree] at hheld
  cases hheld

def initWaits : List (Ev Bool) := bothRun ++ .call false (.wait 0) :: runs false 80

theorem initWaits_no_zombie :
    ∃ s : State Bool, Run step booted initWaits s ∧ s.lock .wait = none ∧ (s.proc 0).state = .sleeping ∧
      (s.proc 1).parent = some 0 ∧ (s.proc 1).state ≠ .zombie := by
  have hstate : ((exec step (booted : State Bool) initWaits).map fun s =>
      ((s.lock .wait).isNone, (s.proc 0).state, (s.proc 0).chan, (s.proc 1).parent)) =
      some (true, .sleeping, some (.proc 0), some 0) := by
    decide +kernel
  obtain ⟨s, hrun, heq⟩ := Option.map_eq_some_iff.mp hstate
  simp only [Prod.mk.injEq, Option.isNone_iff_eq_none] at heq
  obtain ⟨hl, hs, hc, hp⟩ := heq
  exact ⟨s, run_of_exec hrun, hl, hs, hp, exit_wakeup_not_lost (run_of_exec hrun) hl hs hc hp⟩

end

end Xv6.Smp
