import Xv6.Smp.Cpus

namespace Xv6.Smp

open Locks Transition Option

variable {C : Type*} {s t : State C} {me : Option Slot} {o : Nat} {pc k : Pc} {a : Act} {p q r : Slot} {c d : C}
  {l : Lock}

/-- What a step of a thread at `pc` makes of slot `q`. -/
inductive SlotStep (pc : Pc) (q : Slot) (x : Proc) : Proc → Prop
  | same : SlotStep pc q x x
  | parent (v : Option Slot) : SlotStep pc q x { x with parent := v }
  | kill : pc = .killTest x.pid q → SlotStep pc q x (Upd.kill.apply x)
  | live {y : Proc} : x.state ≠ .unused → y.state ≠ .unused → SlotStep pc q x y
  | allocpid (n : Int) : pc = .forkPid q → x.state = .unused → SlotStep pc q x { x with pid := n }
  | use : pc = .forkUsed q → x.state = .unused → SlotStep pc q x { x with state := .used }
  | free : x.state ≠ .unused → SlotStep pc q x .free

theorem Pc.runState_ne_unused : pc.runState ≠ .unused := by cases pc <;> simp [Pc.runState]

theorem Inv.not_unused (h : Inv s) (hc : s.cur c = some p) : (s.proc p).state ≠ .unused :=
  (h.busy hc).2.2 ▸ Pc.runState_ne_unused

theorem SlotStep.update {f : Slot → Proc} {x : Proc} (hx : SlotStep pc q (f q) x) (r : Slot) :
    SlotStep pc r (f r) (Function.update f q x r) := by
  by_cases hr : r = q
  · subst hr
    simpa using hx
  · rw [Function.update_of_ne hr]
    exact .same

section
variable [DecidableEq C]

theorem Inv.slot_step (h : Inv s) (ht : step s (.run c o) = some t) (r : Slot) :
    SlotStep (s.pc c) r (s.proc r) (t.proc r) := by
  obtain ⟨a, k, u, hn, ha, rfl⟩ := step_run.mp ht
  have hw := h.wf c
  have hon : ∀ p, s.cur c = some p → (s.proc p).state ≠ .unused := fun p hp => h.not_unused hp
  have hmk : ∀ p q st, s.cur c = some p → (s.pc c).making = some (q, st) → s.Made q st := fun p q st hp hm =>
    h.making (State.pc_of_cur hp ▸ hm)
  rw [goto_proc]
  generalize s.cur c = me, s.pc c = pc at hn ha hw hon hmk
  rcases next_effect hn with he | hq
  · cases he with
    | setCpu | enter | clearCpu | yieldSwtch | sleepSwtch | exitSwtch | forkContext => cases ha; exact .same
    | check hs | wakeTest hs =>
      cases ha
      exact .update (.live (by simp [hs]) (by simp [Upd.apply])) r
    | killTest hp => cases ha; exact .update (.kill (by rw [hp])) r
    | yieldSet | sleepSet | exitZombie => cases ha; exact .update (.live (hon _ rfl) (by simp [Upd.apply])) r
    | sleepChan | sleepTidy | setkilled | exitStatus =>
      cases ha
      exact .update (.live (hon _ rfl) (by simpa [Upd.apply] using hon _ rfl)) r
    | @forkPid _ q | @forkUsed _ q =>
      obtain ⟨p, rfl⟩ := isSome_iff_exists.mp hw
      have hm : (s.proc q).state = .unused := hmk p _ _ rfl rfl
      cases ha
      exact .update (by first | exact .allocpid _ rfl hm | exact .use rfl hm) r
    | @forkTrapframe _ q | @forkPagetable _ q | @forkFree _ q =>
      obtain ⟨p, rfl⟩ := isSome_iff_exists.mp hw
      have hm : (s.proc q).state = .used := hmk p _ _ rfl rfl
      cases ha
      exact .update (by first | exact .free (by simp [hm]) | exact .live (by simp [hm]) (by simp [Upd.apply, hm])) r
    | forkSz =>
      have hm := (hmk _ _ _ rfl rfl).1
      cases ha
      exact .update (.live (by simp [hm]) (by simp [Upd.apply, hm])) r
    | forkRunnable =>
      obtain ⟨p, rfl⟩ := isSome_iff_exists.mp hw
      have hm := (hmk p _ _ rfl rfl).1
      cases ha
      exact .update (.live (by simp [hm]) (by simp [Upd.apply])) r
    | @waitFree _ q =>
      obtain ⟨p, rfl⟩ := isSome_iff_exists.mp hw
      have hm : (s.proc q).state = .zombie := hmk p _ _ rfl rfl
      cases ha
      exact .update (.free (by simp [hm])) r
    | forkParent | reparent => cases ha; exact .update (.parent _) r
  · rw [(Act.run_quiet hq ha).proc]
    exact .same

end

/-! ### Slots that are not in use -/

/-- The fields of a slot that `allocproc` does not set are as `freeproc` left them. -/
structure Proc.Clean (x : Proc) : Prop where
  killed : x.killed = false
  chan : x.chan = none
  xstate : x.xstate = 0
  sz : x.sz = 0
  pagetable : x.pagetable = false
  trapframe : x.trapframe = false

/-- The slot that `allocproc` has marked `USED` and not returned, or has just returned. -/
def Pc.allocated : Pc → Option Slot
  | .forkTrapframe q | .forkPagetable q | .forkContext q | .forkCopy q => some q
  | _ => none

theorem Pc.held_of_allocated (h : pc.allocated = some q) : pc.held me = [.proc q] := by
  cases pc <;> simp_all [Pc.allocated, Pc.held]

theorem next_allocated (hw : pc.wf me) (h : next s me o pc = some (a, k)) (hk : k.allocated = some q) :
    pc = .forkUsed q ∧ a = .set q (.state .used) ∨
      pc.allocated = some q ∧ (a = .set q .trapframe ∨ a = .set q .pagetable ∨ a = .context q) := by
  have hret := Pc.not_return (q := q) hw (show _ ∈ k.held me by simp [Pc.held_of_allocated hk])
  cases pc
  all_goals
    simp only [next] at h
    repeat' split at h
  all_goals
    simp only [some.injEq, Prod.mk.injEq, map_eq_some_iff, reduceCtorEq] at h
  all_goals first
    | obtain ⟨rfl, rfl⟩ := h
    | obtain ⟨_, rfl, rfl, rfl⟩ := h
  all_goals first
    | exact absurd rfl hret
    | (cases hk <;> simp [Pc.allocated])
    | (cases ‹Site› <;> cases hk)

theorem next_killRel {pid : Int} (hw : pc.wf me) (h : next s me o pc = some (a, .killRel pid q)) :
    pc = .killTest pid q ∧ a = .set q .kill ∧ (s.proc q).pid = pid := by
  generalize hk : Pc.killRel pid q = k at h
  have hret := Pc.not_return (q := q) hw (show _ ∈ k.held me by simp [← hk, Pc.held])
  cases pc
  all_goals
    simp only [next] at h
    repeat' split at h
  all_goals
    simp only [some.injEq, Prod.mk.injEq, map_eq_some_iff, reduceCtorEq] at h
  all_goals first
    | obtain ⟨rfl, rfl⟩ := h
    | obtain ⟨_, rfl, rfl, rfl⟩ := h
  all_goals first
    | exact absurd rfl hret
    | (cases hk <;> simp_all)
    | (cases ‹Site› <;> cases hk)

structure SlotInv (s : State C) : Prop where
  clean : ∀ q, (s.proc q).state = .unused → (s.proc q).Clean
  pid : ∀ q, (s.proc q).state = .unused → (s.proc q).pid = 0 ∨ ∃ p, s.ppc p = .forkUsed q
  fresh : ∀ p q, (s.ppc p).allocated = some q → (s.proc q).killed = false
  killed : ∀ p pid q, s.ppc p = .killRel pid q → (s.proc q).pid = pid ∧ (s.proc q).state ≠ .unused

variable [DecidableEq C]

/-- No `kill(0)` gets to a slot that is not in use. -/
def KillsInUse (s : State C) : Ev C → Prop
  | .run c _ =>
    match s.pc c with
    | .killTest pid q => pid = 0 → (s.proc q).state ≠ .unused
    | _ => True
  | _ => True

instance (s : State C) (e : Ev C) : Decidable (KillsInUse s e) := by
  unfold KillsInUse
  split
  · split <;> infer_instance
  · infer_instance

namespace SlotInv

omit [DecidableEq C] in
theorem not_killed (h : SlotInv s) (hi : Inv s) (hg : KillsInUse s (.run c o))
    (hpc : s.pc c = .killTest (s.proc q).pid q) : (s.proc q).state ≠ .unused := by
  intro hu
  rcases h.pid q hu with h0 | ⟨p, hp⟩
  · simp only [KillsInUse, hpc] at hg
    exact hg h0 hu
  · -- a slot with a pid of its own is locked by the `allocproc` that takes it
    obtain ⟨d, hd⟩ := hi.on_cpu (p := p) (by simp [hp]) (by simp [hp, Pc.resumable])
    have hl : Lock.proc q ∈ s.heldBy d := by rw [State.heldBy_of_cur hd, hp]; exact List.mem_singleton_self _
    have hlc : Lock.proc q ∈ s.heldBy c := by rw [State.heldBy, hpc]; exact List.mem_singleton_self _
    obtain rfl := hi.holder hl hlc
    rw [State.pc_of_cur hd, hp] at hpc
    cases hpc

theorem keep_clean (h : SlotInv s) (hi : Inv s) (hg : KillsInUse s (.run c o)) (ht : step s (.run c o) = some t)
    (q : Slot) (hu : (t.proc q).state = .unused) : (t.proc q).Clean := by
  have hs := hi.slot_step ht q
  generalize t.proc q = y at hs hu
  cases hs with
  | same => exact h.clean q hu
  | parent v | allocpid n => exact { h.clean q hu with }
  | kill hk =>
    have hne := h.not_killed hi hg hk
    exfalso
    simp only [Upd.apply] at hu
    split at hu
    · cases hu
    · exact hne hu
  | live _ hy => exact absurd hu hy
  | use => cases hu
  | free => exact ⟨rfl, rfl, rfl, rfl, rfl, rfl⟩

theorem keep_pid (h : SlotInv s) (hi : Inv s) (hg : KillsInUse s (.run c o)) (ht : step s (.run c o) = some t)
    (q : Slot) (hu : (t.proc q).state = .unused) : (t.proc q).pid = 0 ∨ ∃ p, t.ppc p = .forkUsed q := by
  have hold : (s.proc q).pid = 0 ∨ (∃ p, t.ppc p = .forkUsed q) ∨ (s.proc q).state ≠ .unused := by
    by_cases hs : (s.proc q).state = .unused
    · rcases h.pid q hs with h0 | ⟨p, hp⟩
      · exact .inl h0
      · obtain ⟨d, hd⟩ := hi.on_cpu (p := p) (by simp [hp]) (by simp [hp, Pc.resumable])
        by_cases hdc : d = c
        · -- the step marks the slot `USED`
          subst hdc
          obtain ⟨a, k, u, hn, ha, hproc, -⟩ := step_proc hd ht
          rw [hp] at hn
          cases hn
          cases ha
          simp [hproc, Upd.apply] at hu
        · exact .inr (.inl ⟨p, by rw [hi.ppc_other ht hd hdc, hp]⟩)
    · exact .inr (.inr hs)
  have hs := hi.slot_step ht q
  generalize t.proc q = y at hs hu
  cases hs with
  | same | parent v =>
    rcases hold with h0 | hp | hne
    · exact .inl h0
    · exact .inr hp
    · exact absurd hu hne
  | allocpid n hpc =>
    cases hc : s.cur c with
    | none =>
      have hw := hi.wf c
      rw [hpc, hc] at hw
      cases hw
    | some p =>
      obtain ⟨a, k, u, hn, -, -, hk⟩ := step_proc hc ht
      rw [← State.pc_of_cur hc, hpc] at hn
      cases hn
      exact .inr ⟨p, hk⟩
  | kill hk =>
    have hne := h.not_killed hi hg hk
    exfalso
    simp only [Upd.apply] at hu
    split at hu
    · cases hu
    · exact hne hu
  | live _ hy => exact absurd hu hy
  | use => cases hu
  | free => exact .inl rfl

theorem keep_fresh (h : SlotInv s) (hi : Inv s) (ht : step s (.run c o) = some t) (p q : Slot)
    (hk : (t.ppc p).allocated = some q) : (t.proc q).killed = false := by
  by_cases hc : s.cur c = some p
  · obtain ⟨a, k, u, hn, ha, hproc, rfl⟩ := step_proc hc ht
    rw [hproc]
    rcases next_allocated (hi.wfProc p) hn hk with ⟨hpc, rfl⟩ | ⟨hpc, rfl | rfl | rfl⟩ <;> cases ha
    · have hm : (s.ppc p).making = some (q, .alloc) := by rw [hpc]; rfl
      have hu : (s.proc q).state = .unused := hi.making hm
      simpa [Upd.apply] using (h.clean q hu).killed
    all_goals simpa [Upd.apply] using h.fresh p q hpc
  · rcases ppc_of_ne ht hc with hp | hp
    · rw [hp] at hk
      have hnd : s.ppc p ≠ .dead := fun he => by simp [he, Pc.allocated] at hk
      have hnr : ¬ (s.ppc p).resumable := fun hr => by cases hpc : s.ppc p <;> simp_all [Pc.resumable, Pc.allocated]
      obtain ⟨d, hd⟩ := hi.on_cpu hnd hnr
      have hl : Lock.proc q ∈ s.heldBy d := by rw [State.heldBy_of_cur hd, Pc.held_of_allocated hk]; simp
      obtain ⟨v, hv⟩ := hi.locked_slot ht hl fun hdc => hc (hdc ▸ hd)
      rw [hv]
      exact h.fresh p q hk
    · rw [hp] at hk
      cases hk

theorem keep_killed (h : SlotInv s) (hi : Inv s) (hg : KillsInUse s (.run c o)) (ht : step s (.run c o) = some t)
    (p : Slot) (pid : Int) (q : Slot) (hk : t.ppc p = .killRel pid q) :
    (t.proc q).pid = pid ∧ (t.proc q).state ≠ .unused := by
  by_cases hc : s.cur c = some p
  · obtain ⟨a, k, u, hn, ha, hproc, hkp⟩ := step_proc hc ht
    rw [hkp] at hk
    subst hk
    obtain ⟨hpc, rfl, hpid⟩ := next_killRel (hi.wfProc p) hn
    have hne := h.not_killed hi hg (by rw [State.pc_of_cur hc, hpc, hpid])
    cases ha
    rw [hproc]
    simp only [Function.update_self, Upd.apply]
    exact ⟨hpid, by split <;> simp_all⟩
  · rcases ppc_of_ne ht hc with hp | hp
    · rw [hp] at hk
      obtain ⟨d, hd⟩ := hi.on_cpu (p := p) (by simp [hk]) (by simp [hk, Pc.resumable])
      have hl : Lock.proc q ∈ s.heldBy d := by rw [State.heldBy_of_cur hd, hk]; simp [Pc.held]
      obtain ⟨v, hv⟩ := hi.locked_slot ht hl fun hdc => hc (hdc ▸ hd)
      rw [hv]
      exact h.killed p pid q hk
    · rw [hp] at hk
      cases hk

theorem jump (h : SlotInv s) {n : Nat} (hj : Jump s c n k) (hl : s.heldBy c = []) :
    SlotInv (State.goto { s with calls := n } c (s.cur c) k) := by
  have hpc : ∀ {p}, s.cur c = some p → (s.ppc p).held (some p) = [] := fun hp => State.heldBy_of_cur hp ▸ hl
  refine ⟨fun q hq => ?_, fun q hq => ?_, fun p q hk => ?_, fun p pid q hk => ?_⟩
  · rw [goto_proc] at hq ⊢
    exact h.clean q hq
  · rw [goto_proc] at hq ⊢
    rcases h.pid q hq with h0 | ⟨p, hp⟩
    · exact .inl h0
    · refine .inr ⟨p, ?_⟩
      rw [goto_ppc_apply, if_neg fun hc => ?_, hp]
      have hnil := hpc hc
      simp [hp, Pc.held] at hnil
  · rw [goto_proc]
    rw [goto_ppc_apply] at hk
    split at hk
    · cases hj with
      | call f => cases f <;> cases hk
      | _ => cases hk
    · exact h.fresh p q hk
  · rw [goto_proc]
    rw [goto_ppc_apply] at hk
    split at hk
    · cases hj with
      | call f => cases f <;> cases hk
      | _ => cases hk
    · exact h.killed p pid q hk

theorem keep (h : SlotInv s) (hi : Inv s) {e : Ev C} (hg : KillsInUse s e) (ht : step s e = some t) : SlotInv t := by
  rcases step_cases ht with ⟨c, o, rfl⟩ | ⟨c, k, n, hj, hl, rfl⟩
  · exact ⟨h.keep_clean hi hg ht, h.keep_pid hi hg ht, h.keep_fresh hi ht, h.keep_killed hi hg ht⟩
  · exact h.jump hj hl

omit [DecidableEq C] in
theorem at_boot : SlotInv (booted : State C) := by
  refine ⟨fun q hq => ?_, fun q hq => ?_, fun p q hk => ?_, fun p pid q hk => ?_⟩
  · by_cases h0 : q = initproc
    · simp [booted, h0] at hq
    · simpa [booted, h0, Proc.free] using (⟨rfl, rfl, rfl, rfl, rfl, rfl⟩ : Proc.Clean .free)
  · by_cases h0 : q = initproc
    · simp [booted, h0] at hq
    · exact .inl (by simp [booted, h0, Proc.free])
  · by_cases h0 : p = initproc <;> simp [booted, h0, Pc.allocated] at hk
  · by_cases h0 : p = initproc <;> simp [booted, h0] at hk

end SlotInv

theorem run_slotInv {evs : List (Ev C)} (h : Run (guarded step KillsInUse) booted evs s) : Inv s ∧ SlotInv s := by
  refine h.invariant (P := fun _ s => Inv s ∧ SlotInv s) ⟨Inv.at_boot, SlotInv.at_boot⟩ fun _ hi ht => ?_
  obtain ⟨hg, hs⟩ := guarded_eq_some.mp ht
  exact ⟨hi.1.keep hs, hi.2.keep hi.1 hg hs⟩

def Pc.killing : Pc → Option Int
  | .kill pid _ | .killTest pid _ | .killNext pid _ | .killRel pid _ => some pid
  | _ => none

/-- A step of a `kill(pid)` on CPU `c` returns 0 only if some slot in use has the pid, and changes the
process table only on its way there. -/
def KillStep (s : State C) (c : C) (t : State C) : Prop :=
  ∀ p pid, s.cur c = some p → (s.ppc p).killing = some pid →
    (t.ppc p = .ret 0 → ∃ q, (s.proc q).pid = pid ∧ (s.proc q).state ≠ .unused) ∧
    (t.proc ≠ s.proc →
      ∃ q, (s.proc q).pid = pid ∧ (s.proc q).state ≠ .unused ∧ t.ppc p = .killRel pid q)

structure StartsClean (s : State C) : Prop where
  unused : ∀ q, (s.proc q).state = .unused → (s.proc q).Clean
  /-- `allocproc` has just returned the slot to `fork` -/
  allocproc : ∀ p q, s.ppc p = .forkCopy q → (s.proc q).killed = false
  kill : ∀ c o t, guarded step KillsInUse s (.run c o) = some t → KillStep s c t

theorem SlotInv.kill_step (h : SlotInv s) (hi : Inv s) (hg : KillsInUse s (.run c o))
    (ht : step s (.run c o) = some t) : KillStep s c t := by
  intro p pid hc hk
  obtain ⟨a, k, u, hn, ha, hproc, hkp⟩ := step_proc hc ht
  rw [hkp, hproc]
  have hsame : a.quiet → u.proc = s.proc := fun hq => (Act.run_quiet hq ha).proc
  cases hpc : s.ppc p <;> simp only [hpc, Pc.killing, reduceCtorEq] at hk
  case kill pid i =>
    rw [hpc] at hn
    simp only [next] at hn
    split at hn <;> cases hn <;> exact ⟨(by rintro ⟨⟩), fun hne => absurd (hsame trivial) hne⟩
  case killTest pid' q =>
    obtain rfl := some.inj hk
    rw [hpc] at hn
    simp only [next] at hn
    split at hn <;> cases hn
    next hpid =>
      have hne := h.not_killed hi hg (by rw [State.pc_of_cur hc, hpc, hpid])
      exact ⟨(by rintro ⟨⟩), fun _ => ⟨q, hpid, hne, rfl⟩⟩
    next => exact ⟨(by rintro ⟨⟩), fun hne => absurd (hsame trivial) hne⟩
  case killNext pid' q =>
    rw [hpc] at hn
    cases hn
    exact ⟨(by rintro ⟨⟩), fun hne => absurd (hsame trivial) hne⟩
  case killRel pid' q =>
    obtain rfl := some.inj hk
    rw [hpc] at hn
    cases hn
    exact ⟨fun _ => ⟨q, h.killed p _ q hpc⟩, fun hne => absurd (hsame trivial) hne⟩

/-- In a run in which no `kill(0)` gets to a slot that is not in use, a new process starts clean. -/
theorem new_process_clean {evs : List (Ev C)} (h : Run (guarded step KillsInUse) booted evs s) : StartsClean s := by
  obtain ⟨hi, hs⟩ := run_slotInv h
  refine ⟨hs.clean, fun p q hpc => hs.fresh p q (by rw [hpc]; rfl), fun c o t ht => ?_⟩
  obtain ⟨hg, ht⟩ := guarded_eq_some.mp ht
  exact hs.kill_step hi hg ht

def killChild : List (Ev Unit) := initForks () ++ .call () (.kill 2) :: runs () 5

theorem killChild_clean :
    ∃ s : State Unit, Run (guarded step KillsInUse) booted killChild s ∧ s.ppc 0 = .killRel 2 1 ∧
      (s.proc 1).killed = true ∧ StartsClean s := by
  have hstate : ((exec (guarded step KillsInUse) (booted : State Unit) killChild).map fun s =>
      (s.ppc 0, (s.proc 1).killed)) = some (.killRel 2 1, true) := by
    decide +kernel
  obtain ⟨s, hrun, heq⟩ := map_eq_some_iff.mp hstate
  obtain ⟨hpc, hk⟩ := Prod.mk.inj heq
  exact ⟨s, run_of_exec hrun, hpc, hk, new_process_clean (run_of_exec hrun)⟩

def killZero : List (Ev Unit) := initRuns () ++ .call () (.kill 0) :: runs () 6

def thenForks : List (Ev Unit) := runs () 1 ++ .call () .fork :: runs () 10

/-- `kill(0)` finds the first slot that is not in use, marks it as killed and returns 0, and the next
process starts killed. -/
theorem killZero_marks_unused :
    ∃ s t : State Unit, Run step booted killZero s ∧ s.ppc 0 = .ret 0 ∧ (∀ q, (s.proc q).state ≠ .unused → (s.proc q).pid ≠ 0) ∧
      (s.proc 1).state = .unused ∧ (s.proc 1).killed = true ∧ ¬ StartsClean s ∧
      Run step booted (killZero ++ thenForks) t ∧ t.ppc 0 = .forkCopy 1 ∧ (t.proc 1).killed = true := by
  have hstate : ((exec step (booted : State Unit) killZero).bind fun s => (exec step s thenForks).map fun t =>
      (s.ppc 0, decide (∀ q, (s.proc q).state ≠ .unused → (s.proc q).pid ≠ 0), (s.proc 1).state, (s.proc 1).killed,
        t.ppc 0, (t.proc 1).killed)) = some (.ret 0, true, .unused, true, .forkCopy 1, true) := by
    decide +kernel
  obtain ⟨s, hrun, hs⟩ := bind_eq_some_iff.mp hstate
  obtain ⟨t, ht, heq⟩ := map_eq_some_iff.mp hs
  simp only [Prod.mk.injEq, decide_eq_true_eq] at heq
  obtain ⟨hpc, hpid, hu, hk, htpc, htk⟩ := heq
  have hs := run_of_exec hrun
  refine ⟨s, t, hs, hpc, hpid, hu, hk, fun hc => ?_, hs.append ht, htpc, htk⟩
  have hclean := (hc.unused 1 hu).killed
  rw [hk] at hclean
  cases hclean

end Xv6.Smp
