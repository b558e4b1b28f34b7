import Xv6.Smp.Table

namespace Xv6.Smp

open Locks State Function

variable {C : Type*} {s t : State C} {me : Option Slot} {o : Nat} {pc k : Pc} {a : Act} {p q r : Slot} {c d : C}
  {l : Lock} {st : Stage} {u : Upd}

/-! ### What a step leaves alone -/

structure SameTable (s t : State C) : Prop where
  proc : t.proc = s.proc
  cur : t.cur = s.cur
  cpuProc : t.cpuProc = s.cpuProc
  ppc : t.ppc = s.ppc
  spc : t.spc = s.spc
  saved : t.saved = s.saved

theorem SameTable.slot (h : SameTable s t) (q : Slot) : SameSlot s t q :=
  ⟨by rw [h.proc], by rw [h.proc], by rw [h.ppc], by rw [h.saved]⟩

def Upd.soft : Upd → Prop
  | .killed | .xstate _ | .parent _ | .pid _ | .trapframe | .pagetable | .sz _ => True
  | _ => False

theorem Upd.soft_state (h : u.soft) (x : Proc) : (u.apply x).state = x.state := by
  cases u <;> first | rfl | exact h.elim

theorem Upd.soft_chan (h : u.soft) (x : Proc) : (u.apply x).chan = x.chan := by
  cases u <;> first | rfl | exact h.elim

namespace Inv

section
variable (h : Inv s)
include h

theorem wf (c : C) : (s.pc c).wf (s.cur c) := by
  cases hc : s.cur c with
  | none => simpa [pc, hc] using h.wfSched c
  | some p => simpa [pc, hc] using h.wfProc p

theorem making_kept (hc : s.cur c = some p) (hm : k.making = (s.ppc p).making ∨
      ∃ q, (s.ppc p).making = some (q, .ready) ∧ k.making = some (q, .fresh))
    (same : ∀ q, q ≠ p → SameSlot s t q) (q : Slot) (st : Stage) (hk : k.making = some (q, st)) :
    q ≠ p ∧ t.Made q st ∧ ∀ p' st', p' ≠ p → (s.ppc p').making ≠ some (q, st') := by
  obtain ⟨st₀, hp, hmade⟩ : ∃ st₀, (s.ppc p).making = some (q, st₀) ∧ s.Made q st := by
    rcases hm with hm | ⟨r, hr, hkr⟩
    · rw [hm] at hk
      exact ⟨st, hk, h.making hk⟩
    · rw [hkr] at hk
      cases hk
      exact ⟨_, hr, (h.making hr).1⟩
  have hq : q ≠ p := by
    rintro rfl
    exact h.not_made hc hp
  exact ⟨hq, (same q hq).made hmade, fun p' st' hne hp' => hne (h.maker hp' hp)⟩

theorem alone (hc : s.cur c = some p) (hl : Lock.proc q ∈ s.heldBy c)
    (hs : (s.proc q).state = .unused ∨ (s.proc q).state = .zombie) (p' : Slot) (st : Stage) (hne : p' ≠ p) :
    (s.ppc p').making ≠ some (q, st) := by
  intro hm
  have hmade := h.making hm
  have hst : st = .alloc ∨ st = .reap := by cases st <;> simp_all [State.Made]
  obtain ⟨d, hd, hld⟩ := h.lock_of_making hm hst
  obtain rfl := h.holder hl hld
  exact hne (Option.some.inj (hd.symm.trans hc))

theorem claims_ne (hoff : ∀ d, s.cur d ≠ some q) (hs : (s.proc q).state ≠ .running) (d : C) : s.claims d ≠ some q := by
  intro hd
  cases hcur : s.cur d with
  | none =>
    rw [claims_of_idle hcur] at hd
    exact hs (h.entering hcur hd)
  | some r =>
    rw [claims_of_cur hcur] at hd
    exact hoff d (hcur.trans hd)

theorem off_of_lock (hl : Lock.proc q ∈ s.heldBy c) (hc : s.cur c ≠ some q)
    (hs : (s.proc q).state ≠ .running) (d : C) : s.cur d ≠ some q := by
  intro hd
  obtain rfl := h.holder hl (h.own_lock hd hs)
  exact hc hd

theorem parked_of_making (hm : (s.ppc p).making = some (q, st)) : s.Parked q :=
  h.parked fun _ hd => h.not_made hd hm

theorem new_of_making (hm : (s.ppc p).making = some (q, st)) (parked : t.Parked q)
    (hs : (s.proc q).state ≠ .running) (chan : (t.proc q).chan = (t.ppc q).chan q)
    (ppc : t.ppc q = s.ppc q ∨ t.ppc q = .forkret) : NewSlot s t (some p) q where
  off := h.claims_ne (fun _ hd => h.not_made hd hm) hs
  parked := parked
  chan := chan
  wf := by
    rcases ppc with he | he
    · exact he ▸ h.wfProc q
    · rw [he]
      rfl
  making := by
    rcases ppc with he | he
    · rw [he]
    · have hq := h.parked_of_making hm
      have hmade := h.making hm
      have hnone : (s.ppc q).making = none := by
        cases st with
        | alloc | fresh =>
          rw [State.Parked, show (s.proc q).state = _ from hmade] at hq
          rcases hq with hq | hq <;> rw [hq] <;> rfl
        | ready => rw [hmade.2.1]; rfl
        | reap =>
          rw [State.Parked, show (s.proc q).state = _ from hmade] at hq
          rw [hq.1]
          rfl
      rw [he, hnone]
      rfl
  alone p' st' hne hp' := hne (congrArg some (h.maker hp' hm))

theorem new_of_sleeping (hl : Lock.proc q ∈ s.heldBy c) (hc : s.cur c ≠ some q)
    (hs : (s.proc q).state = .sleeping) (state : (t.proc q).state = .runnable)
    (chan : (t.proc q).chan = (s.proc q).chan) (ppc : t.ppc q = s.ppc q) (saved : t.saved q = s.saved q)
    (me : Option Slot) : NewSlot s t me q := by
  have hoff := h.off_of_lock hl hc (by simp [hs])
  have hpark := h.parked hoff
  rw [State.Parked, hs] at hpark
  obtain ⟨⟨σ, hσ⟩, hsv⟩ := hpark
  refine ⟨h.claims_ne hoff (by simp [hs]), ?_, ?_, ppc ▸ h.wfProc q, by rw [ppc], fun p' st _ hm => ?_⟩
  · rw [State.Parked, state, ppc, hσ, saved]
    exact ⟨trivial, hsv⟩
  · rw [chan, ppc, h.chan q]
  · have hmade := h.making hm
    cases st <;> simp [State.Made, hs] at hmade

end

theorem at_boot : Inv (booted : State C) where
  wfProc p := by by_cases hp : p = initproc <;> simp [booted, hp, Pc.wf]
  wfSched c := rfl
  locks c l := by simp [booted, heldBy, pc, Pc.held]
  uniq h := by simp [booted, claims, Pc.entering] at h
  busy h := by simp [booted] at h
  idle _ := rfl
  entering _ h := by simp [booted, Pc.entering] at h
  running {q} h := by by_cases hq : q = initproc <;> simp [booted, hq, Proc.free] at h
  parked {q} _ := by
    by_cases hq : q = initproc <;> simp [booted, State.Parked, hq, Proc.free, Pc.resumable]
  chan q := by by_cases hq : q = initproc <;> simp [booted, hq, Proc.free, Pc.chan]
  making := by
    intro p q st h
    by_cases hp : p = initproc <;> simp [booted, hp, Pc.making] at h
  maker := by
    intro p p' q st st' h
    by_cases hp : p = initproc <;> simp [booted, hp, Pc.making] at h

end Inv

namespace Claim

variable {st : Stage}

section
variable (h : Claim s pc k q st)
include h

theorem lock : Lock.proc q ∈ pc.held me := by cases h <;> simp [Pc.held]

theorem state : (s.proc q).state = .unused ∨ (s.proc q).state = .zombie := by
  cases h with
  | fork hu => exact Or.inl hu
  | wait hz => exact Or.inr hz

theorem runState : pc.runState = .running ∧ k.runState = .running := by
  cases h <;> exact ⟨rfl, rfl⟩

theorem chan : pc.chan p = none ∧ k.chan p = none := by cases h <;> exact ⟨rfl, rfl⟩

theorem making : k.making = some (q, st) := by cases h <;> rfl

theorem made : s.Made q st := by cases h <;> assumption

end

end Claim

variable [DecidableEq C]

theorem Act.run_quiet (hq : a.quiet) (h : a.run c me s = some t) : SameTable s t := by
  cases a with
  | acquire l =>
    simp only [Act.run] at h
    split at h <;> cases h
    exact ⟨rfl, rfl, rfl, rfl, rfl, rfl⟩
  | device d v => cases d <;> cases h <;> exact ⟨rfl, rfl, rfl, rfl, rfl, rfl⟩
  | skip | release | put | get | close | consGet => cases h; exact ⟨rfl, rfl, rfl, rfl, rfl, rfl⟩
  | _ => exact hq.elim

def Act.table (s : State C) : Act → Slot → Proc
  | .set q u => update s.proc q (u.apply (s.proc q))
  | .allocpid q => update s.proc q ((Upd.pid s.nextpid.toInt).apply (s.proc q))
  | .zombie q _ => update s.proc q ((Upd.state .zombie).apply (s.proc q))
  | .reap q => update s.proc q (Upd.free.apply (s.proc q))
  | _ => s.proc

theorem Act.run_table (h : a.run c me s = some t) : t.proc = a.table s := by
  cases a with
  | acquire l => exact (Act.run_quiet (a := .acquire l) trivial h).proc
  | device d v => exact (Act.run_quiet (a := .device d v) trivial h).proc
  | swtch =>
    obtain ⟨p, -, rfl⟩ := Option.map_eq_some_iff.mp h
    rfl
  | _ => cases h; rfl

theorem Act.run_ledger {L : List Lock} (h : Ledger s.lock s.heldBy) (hl : a.Locks (s.heldBy c) L)
    (ha : a.run c me s = some t) : Ledger t.lock (update s.heldBy c L) := by
  cases a with
  | acquire l =>
    simp only [Act.run] at ha
    split at ha <;> cases ha
    next hfree =>
      cases hl
      exact h.acquire hfree
  | release l =>
    cases ha
    exact h.release hl.1 hl.2
  | device d v =>
    cases hl
    cases d <;> cases ha <;> exact h.keep fun _ => Iff.rfl
  | swtch =>
    cases hl
    obtain ⟨p, -, rfl⟩ := Option.map_eq_some_iff.mp ha
    exact h.keep fun _ => Iff.rfl
  | _ =>
    cases hl
    cases ha
    exact h.keep fun _ => Iff.rfl

theorem step_run : step s (.run c o) = some t ↔
    ∃ a k u, next s (s.cur c) o (s.pc c) = some (a, k) ∧ a.run c (s.cur c) s = some u ∧ u.goto c (s.cur c) k = t := by
  simp only [step, Option.bind_eq_some_iff, Option.map_eq_some_iff, Prod.exists]
  constructor
  · rintro ⟨a, k, hn, u, ha, rfl⟩
    exact ⟨a, k, u, hn, ha, rfl⟩
  · rintro ⟨a, k, u, hn, ha, rfl⟩
    exact ⟨a, k, hn, u, ha, rfl⟩

namespace Inv

section
variable (h : Inv s) (hc : s.cur c = some p)
include h hc

theorem calm_proc (hpc : s.ppc p = pc)
    (hn : next s (some p) o pc = some (a, k)) (ha : a.run c (some p) s = some t) (cur : t.cur = s.cur)
    (cpu : t.cpuProc = s.cpuProc) (spc : t.spc = s.spc) (same : ∀ q, SameSlot s t q)
    (view : SameView (some p) pc k) : Inv (t.goto c (some p) k) := by
  subst hpc
  have hw := h.wfProc p
  have hled := Act.run_ledger h.locks (heldBy_of_cur hc ▸ next_held hw hn) ha
  refine h.moveProc hc cur cpu spc ?_ ?_ (fun q _ => Or.inl (same q)) (next_wf hw hn) hled
    (h.making_kept hc view.making fun q _ => same q)
  · rw [(same p).state, (h.busy hc).2.2, view.runState rfl]
  · rw [(same p).chan, h.chan p, view.chan p rfl]

theorem quiet_proc (hn : next s (some p) o (s.ppc p) = some (a, k))
    (hq : a.quiet) (ha : a.run c (some p) s = some t) : Inv (t.goto c (some p) k) := by
  have hw := h.wfProc p
  have htab := Act.run_quiet hq ha
  rcases next_view hw hn hq with hv | ⟨q, st, hclaim⟩
  · exact h.calm_proc hc rfl hn ha htab.cur htab.cpuProc htab.spc htab.slot hv
  -- the slot is taken over under its lock, which `fork` or `wait` holds
  have hled := Act.run_ledger h.locks (heldBy_of_cur hc ▸ next_held hw hn) ha
  have hrun : (s.proc p).state = .running := by rw [(h.busy hc).2.2, hclaim.runState.1]
  have hl : Lock.proc q ∈ s.heldBy c := heldBy_of_cur hc ▸ hclaim.lock
  have hqp : q ≠ p := by
    rintro rfl
    have hs := hclaim.state
    simp [hrun] at hs
  refine h.moveProc hc htab.cur htab.cpuProc htab.spc ?_ ?_ (fun q _ => Or.inl (htab.slot q)) (next_wf hw hn) hled ?_
  · rw [htab.proc, hrun, hclaim.runState.2]
  · rw [htab.proc, h.chan p, hclaim.chan.1, hclaim.chan.2]
  · intro r st' hk
    cases hclaim.making.symm.trans hk
    exact ⟨hqp, (htab.slot q).made hclaim.made, h.alone hc hl hclaim.state⟩

section
variable (hpc : s.ppc p = pc) {x : Proc}
include hpc

theorem soft_proc
    (hn : next s (some p) o pc = some (.set q u, k)) (hu : u.soft) (view : SameView (some p) pc k) :
    Inv (goto { s with proc := update s.proc q (u.apply (s.proc q)) } c (some p) k) := by
  refine h.calm_proc hc hpc hn rfl rfl rfl rfl (fun r => ?_) view
  by_cases hr : r = q
  · subst hr
    exact ⟨by simp [Upd.soft_state hu], by simp [Upd.soft_chan hu], rfl, rfl⟩
  · exact ⟨by simp [hr], by simp [hr], rfl, rfl⟩

theorem self_proc
    (hw : k.wf (some p)) (hheld : k.held (some p) = pc.held (some p)) (hproc : t.proc = update s.proc p x)
    (cur : t.cur = s.cur) (cpu : t.cpuProc = s.cpuProc) (spc : t.spc = s.spc) (ppc : t.ppc = s.ppc)
    (saved : t.saved = s.saved) (lock : t.lock = s.lock)
    (state : x.state = k.runState) (chan : x.chan = k.chan p) (making : k.making = pc.making) :
    Inv (t.goto c (some p) k) := by
  subst hpc
  have same : ∀ q, q ≠ p → SameSlot s t q := fun q hq =>
    ⟨by simp [hproc, hq], by simp [hproc, hq], by rw [ppc], by rw [saved]⟩
  have hled : Ledger t.lock (update s.heldBy c (k.held (some p))) := by
    rw [lock, hheld]
    exact h.locks.keep fun x => by rw [heldBy_of_cur hc]
  exact h.moveProc hc cur cpu spc (by simpa [hproc] using state) (by simpa [hproc] using chan)
    (fun q hq => Or.inl (same q hq)) hw hled (h.making_kept hc (Or.inl making) same)

theorem other_proc (hqp : q ≠ p) (new : NewSlot s t (some p) q) (state : (t.proc q).state ≠ .running)
    (same : ∀ r, r ≠ q → SameSlot s t r) (cur : t.cur = s.cur) (cpu : t.cpuProc = s.cpuProc) (spc : t.spc = s.spc)
    (hw : k.wf (some p)) (hled : Ledger t.lock (update s.heldBy c (k.held (some p))))
    (run : k.runState = pc.runState) (chan : k.chan p = pc.chan p)
    (making : ∀ st, k.making = some (q, st) → t.Made q st)
    (kept : ∀ r st, r ≠ q → k.making = some (r, st) → pc.making = some (r, st)) : Inv (t.goto c (some p) k) := by
  subst hpc
  have hp := same p hqp.symm
  refine h.moveProc hc cur cpu spc ?_ ?_ (fun r _ => ?_) hw hled fun r st hk => ?_
  · rw [hp.state, (h.busy hc).2.2, run]
  · rw [hp.chan, h.chan p, chan]
  · by_cases hr : r = q
    · subst hr
      exact Or.inr ⟨new, state⟩
    · exact Or.inl (same r hr)
  · by_cases hr : r = q
    · subst hr
      exact ⟨hqp, making st hk, fun p' st' hne => new.alone p' st' fun he => hne (Option.some.inj he)⟩
    · have hm := kept r st hr hk
      have hrp : r ≠ p := by
        rintro rfl
        exact h.not_made hc hm
      exact ⟨hrp, (same r hr).made (h.making hm), fun p' st' hne hp' => hne (h.maker hp' hm)⟩

theorem wake_proc (hl : Lock.proc q ∈ pc.held (some p))
    (hs : (s.proc q).state = .sleeping) (state : x.state = .runnable) (hx : x.chan = (s.proc q).chan)
    (hw : k.wf (some p)) (hheld : k.held (some p) = pc.held (some p)) (prun : pc.runState = .running)
    (run : k.runState = .running) (chan : k.chan p = pc.chan p) (making : k.making = pc.making) :
    Inv (goto { s with proc := update s.proc q x } c (some p) k) := by
  have hqp : q ≠ p := by
    rintro rfl
    have hb := (h.busy hc).2.2
    rw [hpc, prun, hs] at hb
    cases hb
  have hlq : Lock.proc q ∈ s.heldBy c := by rwa [heldBy_of_cur hc, hpc]
  have hne : s.cur c ≠ some q := fun he => hqp (Option.some.inj (he.symm.trans hc))
  refine h.other_proc hc hpc hqp ?_ (by simp [state]) (fun r hr => ⟨by simp [hr], by simp [hr], rfl, rfl⟩)
    rfl rfl rfl hw ?_ (run.trans prun.symm) chan
    (fun st hk => ?_) (fun r st _ hk => making ▸ hk)
  · exact h.new_of_sleeping (t := { s with proc := update s.proc q x }) hlq hne hs (by simpa using state)
      (by simpa using hx) rfl rfl _
  · rw [hheld, ← hpc, ← heldBy_of_cur hc]
    exact h.locks.keep fun _ => Iff.rfl
  · rw [making, ← hpc] at hk
    have hmade := h.making hk
    cases st <;> simp [State.Made, hs] at hmade

theorem making_proc
    (hm : (s.ppc p).making = some (q, st)) (hs : (s.proc q).state ≠ .running)
    (proc : t.proc = update s.proc q x) (ppc : t.ppc = s.ppc) (saved : t.saved = s.saved) (cur : t.cur = s.cur)
    (cpu : t.cpuProc = s.cpuProc) (spc : t.spc = s.spc) (parked : t.Parked q) (hx : x.chan = (s.ppc q).chan q)
    (state : x.state ≠ .running) (hw : k.wf (some p)) (hled : Ledger t.lock (update s.heldBy c (k.held (some p))))
    (run : k.runState = pc.runState) (chan : k.chan p = pc.chan p)
    (making : ∀ r st, k.making = some (r, st) → r = q ∧ t.Made q st) : Inv (t.goto c (some p) k) := by
  have hqp : q ≠ p := fun he => h.not_made hc (he ▸ hm)
  refine h.other_proc hc hpc hqp (h.new_of_making hm parked hs ?_ (.inl (by rw [ppc]))) ?_ (fun r hr => ?_) cur cpu spc
    hw hled run chan (fun st hk => (making q st hk).2) fun r st hr hk => absurd (making r st hk).1 hr
  · rw [proc, ppc, update_self, hx]
  · rwa [proc, update_self]
  · exact ⟨by rw [proc, update_of_ne hr], by rw [proc, update_of_ne hr], by rw [ppc], by rw [saved]⟩

theorem effect_proc (hn : next s (some p) o pc = some (a, k)) (he : Effect s (some p) pc a k)
    (ha : a.run c (some p) s = some t) : Inv (t.goto c (some p) k) := by
  have hw : pc.wf (some p) := hpc ▸ h.wfProc p
  have hk := next_wf hw hn
  have hled := Act.run_ledger h.locks (heldBy_of_cur hc ▸ hpc.symm ▸ next_held hw hn) ha
  have hchan : (s.proc p).chan = pc.chan p := hpc ▸ h.chan p
  have hstate : (s.proc p).state = pc.runState := hpc ▸ (h.busy hc).2.2
  cases he with
  | check | setCpu | enter | clearCpu => cases hw
  | yieldSet | sleepSet | exitZombie =>
    cases ha
    exact h.self_proc hc hpc hk rfl rfl rfl rfl rfl rfl rfl rfl rfl hchan rfl
  | sleepChan | sleepTidy =>
    cases ha
    exact h.self_proc hc hpc hk rfl rfl rfl rfl rfl rfl rfl rfl hstate rfl rfl
  | setkilled | forkTrapframe | forkPagetable | forkSz | forkParent | reparent | exitStatus =>
    cases ha
    exact h.soft_proc hc hpc hn trivial (.process rfl rfl rfl)
  | @forkPid _ q =>
    cases ha
    have hsoft : (Upd.pid s.nextpid.toInt).soft := trivial
    refine h.calm_proc hc hpc hn rfl rfl rfl rfl (fun r => ?_) (.process rfl rfl rfl)
    by_cases hr : r = q
    · subst hr
      exact ⟨by simp [Upd.soft_state hsoft], by simp [Upd.soft_chan hsoft], rfl, rfl⟩
    · exact ⟨by simp [hr], by simp [hr], rfl, rfl⟩
  | yieldSwtch | sleepSwtch | exitSwtch =>
    cases ha
    refine h.leave hc (by first | (simp [hpc, Pc.held]; done) | simp [hpc, Pc.held, hw.2.1]) (by simp [hpc, Pc.runState]) hk
      (by rw [hpc]; rfl) (by rw [hpc]; rfl) fun t hs ht hsv => ?_
    rw [State.Parked, hs, hpc, ht]
    exact ⟨by first | trivial | exact ⟨_, rfl⟩, hsv⟩
  | wakeTest hs =>
    cases ha
    exact h.wake_proc hc hpc List.mem_cons_self hs rfl rfl hk rfl rfl rfl rfl rfl
  | @killTest _ pid q =>
    cases ha
    by_cases hs : (s.proc q).state = .sleeping
    · exact h.wake_proc hc hpc List.mem_cons_self hs (by simp [Upd.apply, hs]) rfl hk rfl rfl rfl rfl rfl
    · refine h.calm_proc hc hpc hn rfl rfl rfl rfl (fun r => ?_) (.process rfl rfl rfl)
      by_cases hr : r = q
      · subst hr
        exact ⟨by simp [Upd.apply, hs], by simp [Upd.apply], rfl, rfl⟩
      · exact ⟨by simp [hr], by simp [hr], rfl, rfl⟩
  | @forkUsed _ q =>
    cases ha
    have hm : (s.ppc p).making = some (q, .alloc) := by rw [hpc]; rfl
    have hmade : (s.proc q).state = .unused := h.making hm
    have hpark := h.parked_of_making hm
    rw [State.Parked, hmade] at hpark
    refine h.making_proc hc hpc hm (by simp [hmade]) rfl rfl rfl rfl rfl rfl ?_ (h.chan q)
      (by simp [Upd.apply]) hk hled rfl rfl ?_
    · simpa [State.Parked, Upd.apply] using hpark
    · rintro r st hst
      cases hst
      simp [State.Made, Upd.apply]
  | @forkContext _ q =>
    cases ha
    have hm : (s.ppc p).making = some (q, .fresh) := by rw [hpc]; rfl
    have hmade : (s.proc q).state = .used := h.making hm
    have hpark := h.parked_of_making hm
    rw [State.Parked, hmade] at hpark
    have hqchan : (s.proc q).chan = none := by
      rw [h.chan q]
      rcases hpark with hq | hq <;> rw [hq] <;> rfl
    refine h.other_proc hc hpc (fun he => h.not_made hc (he ▸ hm)) (h.new_of_making hm ?_ (by simp [hmade]) ?_ (.inr ?_)) ?_
      (fun r hr => ⟨rfl, rfl, by simp [hr], by simp [hr]⟩) rfl rfl rfl hk hled rfl rfl ?_ ?_
    · simp [State.Parked, hmade]
    · simpa [Pc.chan] using hqchan
    · simp
    · simp [hmade]
    · rintro st hst
      cases hst
      simp [State.Made, hmade]
    · rintro r st hr hst
      cases hst
      exact absurd rfl hr
  | @forkFree _ q =>
    cases ha
    have hm : (s.ppc p).making = some (q, .fresh) := by rw [hpc]; rfl
    have hmade : (s.proc q).state = .used := h.making hm
    have hpark := h.parked_of_making hm
    rw [State.Parked, hmade] at hpark
    refine h.making_proc hc hpc hm (by simp [hmade]) rfl rfl rfl rfl rfl rfl ?_ ?_
      (by simp [Upd.apply, Proc.free]) hk hled rfl rfl (by rintro _ _ ⟨⟩)
    · simpa [State.Parked, Upd.apply, Proc.free] using hpark
    · rcases hpark with hq | hq <;> simp [Upd.apply, Proc.free, hq, Pc.chan]
  | @forkRunnable _ q =>
    cases ha
    have hm : (s.ppc p).making = some (q, .ready) := by rw [hpc]; rfl
    obtain ⟨hmade, hqpc, hsv⟩ := h.making hm
    refine h.making_proc hc hpc hm (by simp [hmade]) rfl rfl rfl rfl rfl rfl ?_ (h.chan q)
      (by simp [Upd.apply]) hk hled rfl rfl (by rintro _ _ ⟨⟩)
    simp [State.Parked, Upd.apply, hqpc, hsv, Pc.resumable]
  | @waitFree _ q =>
    cases ha
    have hm : (s.ppc p).making = some (q, .reap) := by rw [hpc]; rfl
    have hmade : (s.proc q).state = .zombie := h.making hm
    have hpark := h.parked_of_making hm
    rw [State.Parked, hmade] at hpark
    refine h.making_proc hc hpc hm (by simp [hmade]) rfl rfl rfl rfl rfl rfl ?_ ?_
      (by simp [Upd.apply, Proc.free]) hk hled rfl rfl (by rintro _ _ ⟨⟩)
    · simp [State.Parked, Upd.apply, Proc.free, hpark.1]
    · simp [Upd.apply, Proc.free, hpark.1, Pc.chan]

end

end

section
variable (h : Inv s)
include h

theorem run_sched (hc : s.cur c = none) (hpc : s.spc c = pc) (hn : next s none o pc = some (a, k))
    (ha : a.run c none s = some t) : Inv (t.goto c none k) := by
  have hw : pc.wf none := hpc ▸ h.wfSched c
  have hk := next_wf hw hn
  have hheld : s.heldBy c = pc.held none := by rw [heldBy_of_idle hc, hpc]
  have hled := Act.run_ledger h.locks (hheld ▸ next_held hw hn) ha
  have hcpu : s.cpuProc c = pc.current := hpc ▸ h.idle hc
  have henter : ∀ q, pc.entering = some q → (s.proc q).state = .running ∧ ∀ d, d ≠ c → s.claims d ≠ some q := by
    intro q hq
    have hcl : s.claims c = some q := by rw [claims_of_idle hc, hpc, hq]
    exact ⟨h.entering hc (hpc ▸ hq), fun d hd hdq => hd (h.uniq hdq hcl)⟩
  rcases next_effect hn with he | hq
  · cases he with
    | @check _ q hs =>
      cases ha
      have hlq : Lock.proc q ∈ s.heldBy c := by simp [hheld, Pc.held]
      have hoff := h.off_of_lock hlq (by simp [hc]) (by simp [hs])
      have hpark := h.parked hoff
      rw [State.Parked, hs] at hpark
      have hclaims := h.claims_ne hoff (by simp [hs])
      refine h.moveSched hc rfl (by rw [show Pc.current (.setCpu q) = s.cpuProc c from hcpu.symm, update_eq_self])
        rfl (fun r => ?_) hk hled ?_ ?_
      · by_cases hr : r = q
        · subst hr
          refine Or.inr ⟨⟨hclaims, ?_, by simpa [Upd.apply] using h.chan r, h.wfProc r, rfl, ?_⟩, fun _ => rfl⟩
          · simpa [State.Parked, Upd.apply] using hpark
          · intro p st _ hm
            have hmade := h.making hm
            cases st <;> simp [State.Made, hs] at hmade
        · exact Or.inl ⟨by simp [hr], by simp [hr], rfl, rfl⟩
      · rw [hpc]
        rintro _ ⟨⟩
      · rintro r hr
        cases hr
        exact ⟨by simp [Upd.apply], fun d _ => hclaims d⟩
    | setCpu =>
      cases ha
      exact h.moveSched hc rfl rfl rfl (fun r => Or.inl ⟨rfl, rfl, rfl, rfl⟩) hk hled (hpc ▸ fun _ hr => hr) henter
    | clearCpu =>
      cases ha
      refine h.moveSched hc rfl rfl rfl (fun r => Or.inl ⟨rfl, rfl, rfl, rfl⟩) hk hled ?_ (by rintro _ ⟨⟩)
      rw [hpc]
      rintro _ ⟨⟩
    | enter =>
      cases ha
      exact h.arrive hc hpc
    | @wakeTest _ ch q k hs =>
      cases ha
      have hlq : Lock.proc q ∈ s.heldBy c := by simp [hheld, Pc.held]
      refine h.moveSched hc rfl (by rw [show Pc.current (.wakeRel ch q k) = s.cpuProc c from hcpu.symm,
        update_eq_self]) rfl (fun r => ?_) hk hled ?_ (by rintro _ ⟨⟩)
      · by_cases hr : r = q
        · subst hr
          exact Or.inr ⟨h.new_of_sleeping (t := { s with proc := update s.proc r _ }) hlq (by simp [hc]) hs
            (by simp [Upd.apply]) (by simp [Upd.apply]) rfl rfl _, by simp [Upd.apply]⟩
        · exact Or.inl ⟨by simp [hr], by simp [hr], rfl, rfl⟩
      · rw [hpc]
        rintro _ ⟨⟩
    | _ => cases hw
  · have htab := Act.run_quiet hq ha
    have hv : SameView none pc k := by
      rcases next_view hw hn hq with hv | ⟨q, st, hclaim⟩
      · exact hv
      · cases hclaim <;> cases hw
    refine h.moveSched hc htab.cur ?_ htab.spc (fun r => Or.inl (htab.slot r)) hk hled ?_ ?_
    · rw [hv.current rfl, ← hcpu, update_eq_self, htab.cpuProc]
    · rw [hpc, hv.entering rfl]
      exact fun _ hr => hr
    · intro r hr
      rw [hv.entering rfl] at hr
      exact htab.proc.symm ▸ henter r hr

theorem keep_run (ht : step s (.run c o) = some t) : Inv t := by
  obtain ⟨a, k, u, hn, ha, rfl⟩ := step_run.mp ht
  cases hc : s.cur c with
  | none =>
    rw [hc] at hn ha
    exact h.run_sched hc (pc_of_idle hc).symm hn ha
  | some p =>
    rw [hc] at hn ha
    rw [pc_of_cur hc] at hn
    rcases next_effect hn with he | hq
    · exact h.effect_proc hc rfl hn he ha
    · exact h.quiet_proc hc hn hq ha

theorem jump_proc (hc : s.cur c = some p) (same : SameTable s t) (lock : t.lock = s.lock)
    (hk : k.wf (some p)) (hheld : k.held (some p) = (s.ppc p).held (some p))
    (view : SameView (some p) (s.ppc p) k) : Inv (t.goto c (some p) k) := by
  refine h.moveProc hc same.cur same.cpuProc same.spc ?_ ?_ (fun q _ => Or.inl (same.slot q)) hk ?_
    (h.making_kept hc view.making fun q _ => same.slot q)
  · rw [same.proc, (h.busy hc).2.2, view.runState rfl]
  · rw [same.proc, h.chan p, view.chan p rfl]
  · rw [lock, hheld]
    exact h.locks.keep fun x => by rw [heldBy_of_cur hc]

theorem keep_call {f : Call} (ht : step s (.call c f) = some t) : Inv t := by
  simp only [step] at ht
  split at ht
  next => cases ht
  next p hc =>
    split at ht <;> cases ht
    next hu =>
      refine h.jump_proc hc ⟨rfl, rfl, rfl, rfl, rfl, rfl⟩ rfl ?_ ?_ (.process ?_ ?_ ?_)
      · cases f <;> simp [Call.entry, Pc.wf, Pc.held]
      all_goals rw [hu.1]; cases f <;> rfl

theorem keep_timer (ht : step s (.timer c) = some t) : Inv t := by
  simp only [step] at ht
  split at ht
  next => cases ht
  next p hc =>
    split at ht <;> cases ht
    next hl =>
      exact h.jump_proc hc ⟨rfl, rfl, rfl, rfl, rfl, rfl⟩ rfl ⟨rfl, hl, h.wfProc p⟩ rfl
        (.into (by simp [hl]) rfl (fun _ => rfl) rfl rfl rfl)

theorem keep_intr {d : Dev} (ht : step s (.intr c d) = some t) : Inv t := by
  simp only [step] at ht
  split at ht <;> cases ht
  next hl =>
    cases hc : s.cur c with
    | some p =>
      rw [pc_of_cur hc, hc] at hl
      rw [pc_of_cur hc]
      exact h.jump_proc hc ⟨rfl, rfl, rfl, rfl, rfl, rfl⟩ rfl ⟨hl, h.wfProc p⟩ rfl
        (.into (by simp [hl]) rfl (fun _ => rfl) rfl rfl rfl)
    | none =>
      rw [pc_of_idle hc, hc] at hl
      rw [pc_of_idle hc]
      have hnot : ∀ q, Lock.proc q ∉ (s.spc c).held none := by simp [hl]
      refine h.moveSched hc rfl ?_ rfl (fun r => Or.inl ⟨rfl, rfl, rfl, rfl⟩) ⟨hl, h.wfSched c⟩ ?_ ?_ (by rintro _ ⟨⟩)
      · rw [show Pc.current (.notify d (s.spc c)) = s.cpuProc c by
          rw [h.idle hc, Pc.current_of_not_held hnot]; rfl, update_eq_self]
      · exact h.locks.keep fun x => by rw [heldBy_of_idle hc]; rfl
      · rw [Pc.entering_of_not_held hnot]
        rintro _ ⟨⟩

theorem keep {e : Ev C} (ht : step s e = some t) : Inv t := by
  cases e with
  | run c o => exact h.keep_run ht
  | call c f => exact h.keep_call ht
  | timer c => exact h.keep_timer ht
  | intr c d => exact h.keep_intr ht

end

end Inv

/-- A thread that goes elsewhere by a system call or an interrupt, with the number of calls after it. -/
inductive Jump (s : State C) (c : C) : Nat → Pc → Prop
  | call {p : Slot} (f : Call) : s.cur c = some p → s.pc c = .user → ¬ (p = initproc ∧ f.isExit) →
      Jump s c (s.calls + 1) (f.entry s.calls)
  | timer {p : Slot} : s.cur c = some p → Jump s c s.calls (.yieldAcq (s.pc c))
  | intr (d : Dev) : Jump s c s.calls (.notify d (s.pc c))

theorem step_cases {e : Ev C} (ht : step s e = some t) :
    (∃ c o, e = .run c o) ∨ ∃ c k n, Jump s c n k ∧ s.heldBy c = [] ∧
      t = goto { s with calls := n } c (s.cur c) k := by
  cases e with
  | run c o => exact .inl ⟨c, o, rfl⟩
  | call c f =>
    simp only [step] at ht
    split at ht
    next => cases ht
    next p hc =>
      split at ht <;> cases ht
      next hu =>
        have hpc : s.pc c = .user := (pc_of_cur hc).trans hu.1
        exact .inr ⟨c, _, s.calls + 1, .call f hc hpc hu.2, by rw [heldBy, hpc]; rfl, by rw [hc]⟩
  | timer c =>
    simp only [step] at ht
    split at ht
    next => cases ht
    next p hc =>
      split at ht <;> cases ht
      next hl =>
        exact .inr ⟨c, _, s.calls, .timer hc, by rw [heldBy_of_cur hc, hl], by rw [hc, pc_of_cur hc]⟩
  | intr c d =>
    simp only [step] at ht
    split at ht <;> cases ht
    next hl => exact .inr ⟨c, _, s.calls, .intr d, hl, rfl⟩

theorem goto_ppc_apply : (s.goto c me k).ppc p = if me = some p then k else s.ppc p := by
  cases me with
  | none => rfl
  | some r =>
    rw [goto_ppc, update_apply]
    by_cases hp : p = r
    · simp [hp]
    · simp [hp, Ne.symm hp]

/-! ### What the other CPUs leave alone -/

theorem Effect.target (he : Effect s me pc a k) (ha : a.run c me s = some t) :
    t.proc = s.proc ∨ ∃ q x, t.proc = update s.proc q x ∧
      (Lock.proc q ∈ pc.held me ∨ ∃ v, x = { s.proc q with parent := v }) := by
  cases he with
  | setCpu | enter | clearCpu | yieldSwtch | sleepSwtch | exitSwtch | forkContext => cases ha; exact .inl rfl
  | forkParent | reparent => cases ha; exact .inr ⟨_, _, rfl, .inr ⟨_, rfl⟩⟩
  | _ => cases ha; exact .inr ⟨_, _, rfl, .inl (by simp [Pc.held])⟩

/-- While one CPU holds the lock of a slot, the steps of the others change at most its parent pointer. -/
theorem Inv.locked_slot (h : Inv s) (ht : step s (.run c o) = some t) (hl : Lock.proc q ∈ s.heldBy d) (hdc : d ≠ c) :
    ∃ v, t.proc q = { s.proc q with parent := v } := by
  obtain ⟨a, k, u, hn, ha, rfl⟩ := step_run.mp ht
  rw [goto_proc]
  rcases next_effect hn with he | hq
  · rcases he.target ha with hp | ⟨r, x, hp, hr⟩
    · exact ⟨_, by rw [hp]⟩
    · by_cases hqr : q = r
      · subst hqr
        rcases hr with hlock | ⟨v, rfl⟩
        · exact absurd (h.holder hl hlock) hdc
        · exact ⟨v, by rw [hp, update_self]⟩
      · exact ⟨_, by rw [hp, update_of_ne hqr]⟩
  · exact ⟨_, by rw [(Act.run_quiet hq ha).proc]⟩

theorem Act.run_dry (hd : a.dry) (h : a.run c me s = some t) : t.pipe = s.pipe := by
  cases a with
  | acquire l =>
    simp only [Act.run] at h
    split at h <;> cases h
    rfl
  | device d v => cases d <;> cases h <;> rfl
  | swtch =>
    obtain ⟨p, -, rfl⟩ := Option.map_eq_some_iff.mp h
    rfl
  | put | get | close => exact hd.elim
  | _ => cases h; rfl

theorem step_pipe (ht : step s (.run c o) = some t) {pi : Nat} (hl : Lock.pipe pi ∉ s.heldBy c) :
    t.pipe pi = s.pipe pi := by
  obtain ⟨a, k, u, hn, ha, rfl⟩ := step_run.mp ht
  rw [goto_pipe]
  rcases next_pipe hn with he | hd
  · have hne : ∀ pi', Lock.pipe pi' ∈ s.heldBy c → pi ≠ pi' := by
      rintro pi' hl' rfl
      exact hl hl'
    rw [heldBy] at hne
    generalize s.pc c = pc at he hne
    cases he <;> cases ha <;> exact update_of_ne (hne _ (by simp [Pc.held])) _ _
  · rw [Act.run_dry hd ha]

theorem Inv.locked_pipe (h : Inv s) (ht : step s (.run c o) = some t) {pi : Nat} (hl : Lock.pipe pi ∈ s.heldBy d)
    (hdc : d ≠ c) : t.pipe pi = s.pipe pi :=
  step_pipe ht fun hlc => hdc (h.holder hl hlc)

theorem ppc_of_ne (ht : step s (.run c o) = some t) (hp : s.cur c ≠ some p) :
    t.ppc p = s.ppc p ∨ t.ppc p = .forkret := by
  obtain ⟨a, k, u, hn, ha, rfl⟩ := step_run.mp ht
  have hu : u.ppc p = s.ppc p ∨ u.ppc p = .forkret := by
    rcases next_effect hn with he | hq
    · generalize s.cur c = me, s.pc c = pc at he ha
      cases he with
      | @forkContext _ q =>
        cases ha
        by_cases hpq : p = q
        · exact .inr (by simp [hpq])
        · exact .inl (by simp [hpq])
      | _ => cases ha; exact .inl rfl
    · exact .inl (by rw [(Act.run_quiet hq ha).ppc])
  cases hc : s.cur c with
  | none => exact hu
  | some r =>
    have hpr : p ≠ r := by
      rintro rfl
      exact hp hc
    rwa [goto_ppc, update_of_ne hpr]

theorem step_proc (hc : s.cur c = some p) (ht : step s (.run c o) = some t) :
    ∃ a k u, next s (some p) o (s.ppc p) = some (a, k) ∧ a.run c (some p) s = some u ∧ t.proc = u.proc ∧
      t.ppc p = k := by
  obtain ⟨a, k, u, hn, ha, rfl⟩ := step_run.mp ht
  rw [hc] at hn ha
  rw [pc_of_cur hc] at hn
  exact ⟨a, k, u, hn, ha, goto_proc, by rw [hc, goto_ppc, update_self]⟩

theorem Inv.ppc_other (h : Inv s) (ht : step s (.run c o) = some t) (hd : s.cur d = some p) (hdc : d ≠ c) :
    t.ppc p = s.ppc p := by
  obtain ⟨a, k, u, hn, ha, rfl⟩ := step_run.mp ht
  have hne : s.cur c ≠ some p := fun hc => hdc (h.cur_inj hd hc)
  have hu : u.ppc p = s.ppc p := by
    rcases next_effect hn with he | hq
    · have hw := h.wf c
      have hmk : ∀ q st, (s.pc c).making = some (q, st) → ∀ r, s.cur c = some r → q ≠ p := by
        rintro q st hm r hr rfl
        exact h.not_made hd (pc_of_cur hr ▸ hm)
      generalize s.cur c = me, s.pc c = pc at he ha hw hmk
      cases he with
      | forkContext =>
        obtain ⟨r, rfl⟩ := Option.isSome_iff_exists.mp hw
        cases ha
        exact update_of_ne (hmk _ _ rfl r rfl).symm _ _
      | _ => cases ha; rfl
    · rw [(Act.run_quiet hq ha).ppc]
  cases hc : s.cur c with
  | none => exact hu
  | some r =>
    have hpr : p ≠ r := by
      rintro rfl
      exact hne hc
    rw [goto_ppc, update_of_ne hpr, hu]

open Transition

theorem run_inv {evs : List (Ev C)} (h : Run step booted evs s) : Inv s :=
  h.invariant (P := fun _ s => Inv s) Inv.at_boot fun _ hi ht => hi.keep ht

end Xv6.Smp
