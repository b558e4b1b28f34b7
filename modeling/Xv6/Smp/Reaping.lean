import Mathlib.Data.List.Nodup
import Xv6.Smp.Family

namespace Xv6.Smp

open Locks Transition List State Function

variable {C : Type*} {s t : State C} {me : Option Slot} {o : Nat} {pc k : Pc} {a : Act} {p q r : Slot} {c d : C}
  {l : Lock}

/-! ### The record of exits and waits -/

def pidOf (n : Nat) : Int := (BitVec.ofNat 32 (n + 1)).toInt

/-- Slot `q` has the pid of a process: `allocpid` has been called for it and it has not been freed. -/
def State.Numbered (s : State C) (q : Slot) : Prop := (s.proc q).state ≠ .unused ∨ ∃ p, s.ppc p = .forkUsed q

structure Ledgered (s : State C) : Prop where
  nextpid : s.nextpid = BitVec.ofNat 32 (s.created + 1)
  birth : ∀ {q}, s.Numbered q → s.birth q < s.created ∧ (s.proc q).pid = pidOf (s.birth q)
  inj : ∀ {q r}, s.Numbered q → s.Numbered r → s.birth q = s.birth r → q = r
  exits : ∀ {e}, e ∈ s.exits → e.birth < s.created ∧ e.pid = pidOf e.birth
  once : (s.exits.map Exit.birth).Nodup
  live : ∀ {q}, s.Numbered q → (s.proc q).state ≠ .zombie → s.birth q ∉ s.exits.map Exit.birth
  zombie : ∀ {q}, (s.proc q).state = .zombie → s.exitOf q ∈ s.exits ∧ s.birth q ∉ s.reaped.map Exit.birth
  reaped : s.reaped ⊆ s.exits
  reapedOnce : (s.reaped.map Exit.birth).Nodup

structure SameRecord (s t : State C) : Prop where
  nextpid : t.nextpid = s.nextpid
  created : t.created = s.created
  birth : t.birth = s.birth
  exits : t.exits = s.exits
  reaped : t.reaped = s.reaped

section
variable [DecidableEq C]

@[simp] theorem goto_nextpid : (s.goto c me k).nextpid = s.nextpid := by cases me <;> rfl
@[simp] theorem goto_created : (s.goto c me k).created = s.created := by cases me <;> rfl
@[simp] theorem goto_birth : (s.goto c me k).birth = s.birth := by cases me <;> rfl
@[simp] theorem goto_exits : (s.goto c me k).exits = s.exits := by cases me <;> rfl
@[simp] theorem goto_reaped : (s.goto c me k).reaped = s.reaped := by cases me <;> rfl

theorem SameRecord.goto (h : SameRecord s t) : SameRecord s (t.goto c me k) := by
  constructor <;> simp [h.nextpid, h.created, h.birth, h.exits, h.reaped]

/-- What a step of CPU `c` adds to the record. -/
inductive RecordStep (s : State C) (c : C) (t : State C) : Prop
  | same : SameRecord s t → (∀ q, s.pc c ≠ .forkPid q) → (∀ v, s.pc c ≠ .exitZombie v) →
      (∀ q, s.pc c ≠ .waitFree q) → RecordStep s c t
  | create {p q : Slot} : s.cur c = some p → s.pc c = .forkPid q → t.nextpid = s.nextpid + 1 →
      t.created = s.created + 1 → t.birth = update s.birth q s.created → t.exits = s.exits →
      t.reaped = s.reaped → (t.proc q).pid = s.nextpid.toInt → RecordStep s c t
  | exit {p : Slot} {v : Int} : s.cur c = some p → s.pc c = .exitZombie v → t.nextpid = s.nextpid →
      t.created = s.created → t.birth = s.birth → t.exits = s.exits ++ [⟨s.birth p, (s.proc p).pid, v⟩] →
      t.reaped = s.reaped → RecordStep s c t
  | reap {p q : Slot} : s.cur c = some p → s.pc c = .waitFree q → t.nextpid = s.nextpid →
      t.created = s.created → t.birth = s.birth → t.exits = s.exits → t.reaped = s.reaped ++ [s.exitOf q] →
      t.ppc p = .waitRel q (s.proc q).pid → RecordStep s c t

theorem Act.run_quiet_record (hq : a.quiet) (ha : a.run c me s = some t) : SameRecord s t := by
  cases a with
  | acquire l =>
    simp only [Act.run] at ha
    split at ha <;> cases ha
    exact ⟨rfl, rfl, rfl, rfl, rfl⟩
  | device d v => cases d <;> cases ha <;> exact ⟨rfl, rfl, rfl, rfl, rfl⟩
  | skip | release | put | get | close | consGet => cases ha; exact ⟨rfl, rfl, rfl, rfl, rfl⟩
  | _ => exact hq.elim

theorem Inv.record_step (h : Inv s) (ht : step s (.run c o) = some t) : RecordStep s c t := by
  obtain ⟨a, k, u, hn, ha, rfl⟩ := step_run.mp ht
  have hw := h.wf c
  rcases next_effect hn with he | hq
  · generalize hme : s.cur c = me, hpc : s.pc c = pc at hn ha hw he
    cases he with
    | forkPid =>
      obtain ⟨p, rfl⟩ := Option.isSome_iff_exists.mp hw
      cases ha
      exact .create hme hpc (by simp) (by simp) (by simp) (by simp) (by simp) (by simp [Upd.apply])
    | exitZombie =>
      cases ha
      exact .exit hme hpc (by simp) (by simp) (by simp) (by simp) (by simp)
    | waitFree =>
      obtain ⟨p, rfl⟩ := Option.isSome_iff_exists.mp hw
      cases ha
      exact .reap hme hpc (by simp) (by simp) (by simp) (by simp) (by simp) (by simp)
    | _ =>
      cases ha
      exact .same (SameRecord.goto ⟨rfl, rfl, rfl, rfl, rfl⟩) (by simp [hpc]) (by simp [hpc]) (by simp [hpc])
  · refine .same (Act.run_quiet_record hq ha).goto ?_ ?_ ?_
    · intro q hpc
      rw [hpc] at hn
      cases hn
      exact hq
    · intro v hpc
      rw [hpc] at hn
      obtain ⟨p, -, he⟩ := Option.map_eq_some_iff.mp hn
      cases he
      exact hq
    · intro q hpc
      rw [hpc] at hn
      cases hn
      exact hq

end

theorem next_forkUsed (hw : pc.wf me) (h : next s me o pc = some (a, .forkUsed q)) : pc = .forkPid q := by
  generalize hk : Pc.forkUsed q = k at h
  have hret := Pc.not_return (q := q) hw (show _ ∈ k.held me by simp [← hk, Pc.held])
  cases pc
  all_goals
    simp only [next] at h
    repeat' split at h
  all_goals
    simp only [Option.some.injEq, Prod.mk.injEq, Option.map_eq_some_iff, reduceCtorEq] at h
  all_goals first
    | obtain ⟨rfl, rfl⟩ := h
    | obtain ⟨_, rfl, rfl, rfl⟩ := h
  all_goals first
    | exact absurd rfl hret
    | (cases hk <;> rfl)
    | (cases ‹Site› <;> cases hk)

section
variable [DecidableEq C]

omit [DecidableEq C] in
theorem Inv.not_numbered (h : Inv s) (hc : s.cur c = some p) (hpc : s.pc c = .forkPid q) : ¬ s.Numbered q := by
  rw [pc_of_cur hc] at hpc
  have hm : (s.ppc p).making = some (q, .alloc) := by rw [hpc]; rfl
  rintro (hs | ⟨p', hp'⟩)
  · exact hs (h.making hm)
  · obtain rfl := h.maker hm (by rw [hp']; rfl)
    rw [hpc] at hp'
    cases hp'

theorem Inv.numbered_step (h : Inv s) (ht : step s (.run c o) = some t) (hpc : s.pc c ≠ .forkPid q)
    (hq : t.Numbered q) :
    s.Numbered q ∧ (t.proc q).pid = (s.proc q).pid ∧ ((s.proc q).state = .zombie → (t.proc q).state = .zombie) := by
  have hused : ∀ {p}, t.ppc p = .forkUsed q → s.ppc p = .forkUsed q := by
    intro p hp
    by_cases hc : s.cur c = some p
    · obtain ⟨a, k, u, hn, -, -, hk⟩ := step_proc hc ht
      rw [← hk, hp] at hn
      exact absurd ((pc_of_cur hc).trans (next_forkUsed (h.wfProc p) hn)) hpc
    · rcases ppc_of_ne ht hc with he | he
      · rw [← he, hp]
      · rw [hp] at he
        cases he
  have hold : s.Numbered q ∨ (t.proc q).state ≠ .unused := by
    rcases hq with hs | ⟨p, hp⟩
    · exact .inr hs
    · exact .inl (.inr ⟨p, hused hp⟩)
  have hfree : (s.proc q).state ≠ .unused → (t.proc q).state = .unused → False := by
    intro hs hu
    rcases hq with ht | ⟨p, hp⟩
    · exact ht hu
    · have hm : (s.ppc p).making = some (q, .alloc) := by rw [hused hp]; rfl
      exact hs (h.making hm)
  have hf := h.fate ht q
  generalize t.proc q = y at hf hold hfree
  cases hf with
  | kept _ _ hpid hst =>
    rcases hst with hst | hst
    · exact ⟨hold.elim id fun hs => .inl (hst ▸ hs), hpid, fun hz => hst.trans hz⟩
    · refine ⟨.inl fun he => ?_, hpid, fun hz => ?_⟩
      · simp [he, ProcState.alive] at hst
      · simp [hz, ProcState.alive] at hst
  | forkParent | reparent | exitStatus => exact ⟨hold.elim id .inl, rfl, id⟩
  | exitZombie _ _ hs | start _ _ hs => exact ⟨.inl (by simp [hs]), rfl, by simp [hs]⟩
  | allocpid n hp => exact absurd hp hpc
  | use hp hs =>
    refine ⟨.inr ?_, rfl, by simp [hs]⟩
    cases hc : s.cur c with
    | none =>
      have hw := h.wf c
      rw [hp, hc] at hw
      cases hw
    | some p => exact ⟨p, (pc_of_cur hc).symm.trans hp⟩
  | freed _ hs | reaped _ _ hs => exact (hfree (by simp [hs]) rfl).elim

theorem Inv.zombie_step (h : Inv s) (ht : step s (.run c o) = some t) (hz : (t.proc q).state = .zombie) :
    (t.proc q).pid = (s.proc q).pid ∧ (t.proc q).xstate = (s.proc q).xstate ∧
      ((s.proc q).state = .zombie ∨ s.cur c = some q ∧ ∃ v, s.pc c = .exitZombie v) := by
  have hf := h.fate ht q
  generalize t.proc q = y at hf hz
  cases hf with
  | kept _ hx hpid hst =>
    rcases hst with hst | hst
    · exact ⟨hpid, hx, .inl (hst ▸ hz)⟩
    · simp [hz, ProcState.alive] at hst
  | forkParent | reparent => exact ⟨rfl, rfl, .inl hz⟩
  | exitZombie hme hpc => exact ⟨rfl, rfl, .inr ⟨hme, _, hpc⟩⟩
  | exitStatus _ _ hs | allocpid _ _ hs =>
    rw [show (s.proc q).state = .zombie from hz] at hs
    cases hs
  | use | start | freed | reaped => cases hz

namespace Ledgered

section
variable (h : Ledgered s) (hi : Inv s)
include h hi

theorem keep_same (ht : step s (.run c o) = some t) (same : SameRecord s t)
    (hpid : ∀ q, s.pc c ≠ .forkPid q) (hexit : ∀ v, s.pc c ≠ .exitZombie v) : Ledgered t where
  nextpid := by rw [same.nextpid, same.created, h.nextpid]
  birth {q} hq := by
    obtain ⟨hs, hp, -⟩ := hi.numbered_step ht (hpid q) hq
    rw [same.birth, same.created, hp]
    exact h.birth hs
  inj {q r} hq hr he := by
    rw [same.birth] at he
    exact h.inj (hi.numbered_step ht (hpid q) hq).1 (hi.numbered_step ht (hpid r) hr).1 he
  exits {e} he := by
    rw [same.exits] at he
    rw [same.created]
    exact h.exits he
  once := by rw [same.exits]; exact h.once
  live {q} hq hz := by
    rw [same.birth, same.exits]
    obtain ⟨hs, -, hzs⟩ := hi.numbered_step ht (hpid q) hq
    exact h.live hs fun he => hz (hzs he)
  zombie {q} hz := by
    obtain ⟨hp, hx, hs | ⟨-, v, hpc⟩⟩ := hi.zombie_step ht hz
    · rw [exitOf, hp, hx, same.birth, same.exits, same.reaped]
      exact h.zombie hs
    · exact absurd hpc (hexit v)
  reaped := by rw [same.reaped, same.exits]; exact h.reaped
  reapedOnce := by rw [same.reaped]; exact h.reapedOnce

theorem keep_create (ht : step s (.run c o) = some t) (hc : s.cur c = some p)
    (hpc : s.pc c = .forkPid q) (nextpid : t.nextpid = s.nextpid + 1) (created : t.created = s.created + 1)
    (birth : t.birth = update s.birth q s.created) (exits : t.exits = s.exits) (reaped : t.reaped = s.reaped)
    (pid : (t.proc q).pid = s.nextpid.toInt) : Ledgered t := by
  have hnew := hi.not_numbered hc hpc
  have hold : ∀ {r}, r ≠ q → t.Numbered r → s.Numbered r ∧ (t.proc r).pid = (s.proc r).pid ∧
      ((s.proc r).state = .zombie → (t.proc r).state = .zombie) := by
    intro r hr
    refine hi.numbered_step ht ?_
    rw [hpc]
    intro he
    cases he
    exact hr rfl
  have hzq : (t.proc q).state ≠ .zombie := by
    intro hz
    obtain ⟨-, -, hs | ⟨-, v, hpc'⟩⟩ := hi.zombie_step ht hz
    · exact hnew (.inl (by simp [hs]))
    · rw [hpc] at hpc'
      cases hpc'
  refine ⟨?_, ?_, ?_, ?_, ?_, ?_, ?_, ?_, ?_⟩
  · rw [nextpid, created, h.nextpid, BitVec.ofNat_add (s.created + 1) 1]
    rfl
  · intro r hr
    by_cases hrq : r = q
    · subst hrq
      rw [birth, created, pid, h.nextpid, update_self]
      exact ⟨by omega, rfl⟩
    · obtain ⟨hs, hp, -⟩ := hold hrq hr
      rw [birth, created, hp, update_of_ne hrq]
      exact ⟨Nat.lt_succ_of_lt (h.birth hs).1, (h.birth hs).2⟩
  · intro r r' hr hr' he
    rw [birth] at he
    by_cases hrq : r = q <;> by_cases hrq' : r' = q
    · rw [hrq, hrq']
    · rw [hrq, update_self, update_of_ne hrq'] at he
      have hlt := (h.birth (hold hrq' hr').1).1
      omega
    · rw [hrq', update_self, update_of_ne hrq] at he
      have hlt := (h.birth (hold hrq hr).1).1
      omega
    · rw [update_of_ne hrq, update_of_ne hrq'] at he
      exact h.inj (hold hrq hr).1 (hold hrq' hr').1 he
  · intro e he
    rw [exits] at he
    rw [created]
    exact ⟨Nat.lt_succ_of_lt (h.exits he).1, (h.exits he).2⟩
  · rw [exits]
    exact h.once
  · intro r hr hz
    rw [birth, exits]
    by_cases hrq : r = q
    · subst hrq
      rw [update_self]
      intro hmem
      obtain ⟨e, he, hb⟩ := mem_map.mp hmem
      have hlt := (h.exits he).1
      omega
    · obtain ⟨hs, -, hzs⟩ := hold hrq hr
      rw [update_of_ne hrq]
      exact h.live hs fun he => hz (hzs he)
  · intro r hz
    have hrq : r ≠ q := by
      rintro rfl
      exact hzq hz
    obtain ⟨hp, hx, hs | ⟨-, v, hpc'⟩⟩ := hi.zombie_step ht hz
    · rw [exitOf, hp, hx, birth, exits, reaped, update_of_ne hrq]
      exact h.zombie hs
    · rw [hpc] at hpc'
      cases hpc'
  · rw [reaped, exits]
    exact h.reaped
  · rw [reaped]
    exact h.reapedOnce

theorem keep_exit (hf : FamilyInv s) (ht : step s (.run c o) = some t)
    (hc : s.cur c = some p) {v : Int} (hpc : s.pc c = .exitZombie v) (nextpid : t.nextpid = s.nextpid)
    (created : t.created = s.created) (birth : t.birth = s.birth)
    (exits : t.exits = s.exits ++ [⟨s.birth p, (s.proc p).pid, v⟩]) (reaped : t.reaped = s.reaped) : Ledgered t := by
  have hold : ∀ {r}, t.Numbered r → s.Numbered r ∧ (t.proc r).pid = (s.proc r).pid ∧
      ((s.proc r).state = .zombie → (t.proc r).state = .zombie) :=
    hi.numbered_step ht (by simp [hpc])
  have hrun : (s.proc p).state = .running := by rw [(hi.busy hc).2.2, ← pc_of_cur hc, hpc]; rfl
  have hz : (t.proc p).state = .zombie := by
    obtain ⟨a, k, u, hn, ha, hproc, -⟩ := step_proc hc ht
    rw [← pc_of_cur hc, hpc] at hn
    cases hn
    cases ha
    simp [hproc, Upd.apply]
  have hp : s.Numbered p := .inl (by simp [hrun])
  have hnot : s.birth p ∉ s.exits.map Exit.birth := h.live hp (by simp [hrun])
  have hx : (s.proc p).xstate = v := (hf.own hc hpc).2.2
  refine ⟨?_, ?_, ?_, ?_, ?_, ?_, ?_, ?_, ?_⟩
  · rw [nextpid, created, h.nextpid]
  · intro r hr
    obtain ⟨hs, hp, -⟩ := hold hr
    rw [birth, created, hp]
    exact h.birth hs
  · intro r r' hr hr' he
    rw [birth] at he
    exact h.inj (hold hr).1 (hold hr').1 he
  · intro e he
    rw [exits, mem_append, mem_singleton] at he
    rw [created]
    rcases he with he | rfl
    · exact h.exits he
    · exact h.birth hp
  · rw [exits, map_append, map_singleton]
    exact nodup_append_comm.mpr (nodup_cons.mpr ⟨hnot, h.once⟩)
  · intro r hr hzr
    obtain ⟨hs, -, hzs⟩ := hold hr
    rw [birth, exits, map_append, map_singleton, mem_append, mem_singleton]
    rintro (hmem | he)
    · exact h.live hs (fun hsz => hzr (hzs hsz)) hmem
    · obtain rfl := h.inj hs hp he
      exact hzr hz
  · intro r hzr
    obtain ⟨hpid, hxs, hs | ⟨hr, -⟩⟩ := hi.zombie_step ht hzr
    · rw [exitOf, hpid, hxs, birth, exits, reaped]
      exact ⟨mem_append_left _ (h.zombie hs).1, (h.zombie hs).2⟩
    · obtain rfl := Option.some.inj (hr.symm.trans hc)
      rw [exitOf, hpid, hxs, hx, birth, exits, reaped]
      refine ⟨mem_append_right _ (mem_singleton_self _), fun hmem => hnot ?_⟩
      exact map_subset _ h.reaped hmem
  · rw [reaped, exits]
    exact fun e he => mem_append_left _ (h.reaped he)
  · rw [reaped]
    exact h.reapedOnce

theorem keep_reap (ht : step s (.run c o) = some t) (hc : s.cur c = some p)
    (hpc : s.pc c = .waitFree q) (nextpid : t.nextpid = s.nextpid) (created : t.created = s.created)
    (birth : t.birth = s.birth) (exits : t.exits = s.exits) (reaped : t.reaped = s.reaped ++ [s.exitOf q]) :
    Ledgered t := by
  have hold : ∀ {r}, t.Numbered r → s.Numbered r ∧ (t.proc r).pid = (s.proc r).pid ∧
      ((s.proc r).state = .zombie → (t.proc r).state = .zombie) :=
    hi.numbered_step ht (by simp [hpc])
  have hm : (s.ppc p).making = some (q, .reap) := by rw [← pc_of_cur hc, hpc]; rfl
  have hq : (s.proc q).state = .zombie := hi.making hm
  have hfree : (t.proc q).state = .unused := by
    obtain ⟨a, k, u, hn, ha, hproc, -⟩ := step_proc hc ht
    rw [← pc_of_cur hc, hpc] at hn
    cases hn
    cases ha
    simp [hproc, Upd.apply, Proc.free]
  obtain ⟨hqe, hqr⟩ := h.zombie hq
  refine ⟨?_, ?_, ?_, ?_, ?_, ?_, ?_, ?_, ?_⟩
  · rw [nextpid, created, h.nextpid]
  · intro r hr
    obtain ⟨hs, hp, -⟩ := hold hr
    rw [birth, created, hp]
    exact h.birth hs
  · intro r r' hr hr' he
    rw [birth] at he
    exact h.inj (hold hr).1 (hold hr').1 he
  · intro e he
    rw [exits] at he
    rw [created]
    exact h.exits he
  · rw [exits]
    exact h.once
  · intro r hr hzr
    obtain ⟨hs, -, hzs⟩ := hold hr
    rw [birth, exits]
    exact h.live hs fun he => hzr (hzs he)
  · intro r hzr
    obtain ⟨hpid, hxs, hs | ⟨-, v, hpc'⟩⟩ := hi.zombie_step ht hzr
    · rw [exitOf, hpid, hxs, birth, exits, reaped, map_append, map_singleton, mem_append,
        mem_singleton]
      refine ⟨(h.zombie hs).1, ?_⟩
      rintro (hmem | he)
      · exact (h.zombie hs).2 hmem
      · obtain rfl := h.inj (.inl (by simp [hs])) (.inl (by simp [hq])) he
        rw [hfree] at hzr
        cases hzr
    · rw [hpc] at hpc'
      cases hpc'
  · rw [reaped, exits]
    intro e he
    rcases mem_append.mp he with he | he
    · exact h.reaped he
    · rw [mem_singleton.mp he]
      exact hqe
  · rw [reaped, map_append, map_singleton]
    exact nodup_append_comm.mpr (nodup_cons.mpr ⟨hqr, h.reapedOnce⟩)

end

theorem jump (h : Ledgered s) {n : Nat} (hj : Jump s c n k) :
    Ledgered (goto { s with calls := n } c (s.cur c) k) := by
  have hnum : ∀ {q}, (goto { s with calls := n } c (s.cur c) k).Numbered q → s.Numbered q := by
    rintro q (hs | ⟨p, hp⟩)
    · exact .inl (by simpa using hs)
    · rw [goto_ppc_apply] at hp
      split at hp
      · cases hj with
        | call f => cases f <;> cases hp
        | _ => cases hp
      · exact .inr ⟨p, hp⟩
  constructor
  · simpa using h.nextpid
  · intro q hq
    simpa using h.birth (hnum hq)
  · intro q r hq hr he
    exact h.inj (hnum hq) (hnum hr) (by simpa using he)
  · intro e he
    simpa using h.exits (e := e) (by simpa using he)
  · simpa using h.once
  · intro q hq hz
    simpa using h.live (hnum hq) (by simpa using hz)
  · intro q hz
    simpa [exitOf] using h.zombie (q := q) (by simpa using hz)
  · simpa using h.reaped
  · simpa using h.reapedOnce

theorem keep (h : Ledgered s) (hi : Inv s) (hf : FamilyInv s) {e : Ev C} (ht : step s e = some t) : Ledgered t := by
  rcases step_cases ht with ⟨c, o, rfl⟩ | ⟨c, k, n, hj, -, rfl⟩
  · cases hi.record_step ht with
    | same hsame hpid hexit => exact h.keep_same hi ht hsame hpid hexit
    | create hc hpc h₁ h₂ h₃ h₄ h₅ h₆ => exact h.keep_create hi ht hc hpc h₁ h₂ h₃ h₄ h₅ h₆
    | exit hc hpc h₁ h₂ h₃ h₄ h₅ => exact h.keep_exit hi hf ht hc hpc h₁ h₂ h₃ h₄ h₅
    | reap hc hpc h₁ h₂ h₃ h₄ h₅ => exact h.keep_reap hi ht hc hpc h₁ h₂ h₃ h₄ h₅
  · exact h.jump hj

omit [DecidableEq C] in
theorem at_boot : Ledgered (booted : State C) := by
  have hnum : ∀ {q}, (booted : State C).Numbered q → q = initproc := by
    rintro q (hs | ⟨p, hp⟩)
    · by_contra h0
      simp [booted, h0, Proc.free] at hs
    · by_cases h0 : p = initproc <;> simp [booted, h0] at hp
  constructor
  · rfl
  · intro q hq
    rw [hnum hq]
    exact ⟨Nat.zero_lt_one, rfl⟩
  · intro q r hq hr _
    rw [hnum hq, hnum hr]
  · intro e he
    simp [booted] at he
  · simp [booted]
  · intro q _ _
    simp [booted]
  · intro q hz
    by_cases h0 : q = initproc <;> simp [booted, h0, Proc.free] at hz
  · simp [booted]
  · simp [booted]

end Ledgered

theorem run_ledgered {evs : List (Ev C)} (h : Run step booted evs s) : Inv s ∧ FamilyInv s ∧ Ledgered s :=
  h.invariant (P := fun _ s => Inv s ∧ FamilyInv s ∧ Ledgered s) ⟨Inv.at_boot, FamilyInv.at_boot, Ledgered.at_boot⟩
    fun _ hi ht => ⟨hi.1.keep ht, hi.2.1.keep hi.1 ht, hi.2.2.keep hi.1 hi.2.1 ht⟩

/-! ### Every exit is reaped once -/

def ProcState.started (st : ProcState) : Bool := st.alive || decide (st = .zombie)

/-- The step of CPU `c` is the `freeproc` of a `wait` by the parent of the zombie in slot `q`, which returns
its pid and its status. -/
structure Frees (s : State C) (c : C) (q : Slot) (t : State C) : Prop where
  zombie : (s.proc q).state = .zombie
  parent : (s.proc q).parent = s.cur c
  wait : s.pc c = .waitFree q
  returns : t.pc c = .waitRel q (s.proc q).pid
  recorded : t.reaped = s.reaped ++ [s.exitOf q]

structure ReapedOnce (s : State C) : Prop where
  parent : ∀ q, q ≠ initproc → (s.proc q).state.started →
    ∃ r, (s.proc q).parent = some r ∧ (s.proc r).state ≠ .unused ∧ (s.proc r).state ≠ .zombie
  /-- a slot is not reused before a `wait` frees it -/
  slot : ∀ e t, step s e = some t → ∀ q, (s.proc q).state.started →
    ((t.proc q).state.started ∧ t.birth q = s.birth q ∧ (t.proc q).pid = (s.proc q).pid) ∨
      ∃ c o, e = .run c o ∧ Frees s c q t
  /-- what `wait` returns was passed to `exit` by the process with that pid -/
  status : s.reaped ⊆ s.exits
  once : (s.reaped.map Exit.pid).Nodup
  zombie : ∀ q, (s.proc q).state = .zombie → s.exitOf q ∈ s.exits ∧ s.exitOf q ∉ s.reaped
  /-- a `wait` whose `copyout` fails changes nothing -/
  copyout : ∀ c t addr q, s.pc c = .waitTest addr q → (s.proc q).state = .zombie → addr ≠ 0 →
    step s (.run c 0) = some t → t.proc = s.proc ∧ t.reaped = s.reaped ∧ t.pc c = .waitFail q

theorem pidOf_eq {n : Nat} (h : n + 1 < 2 ^ 31) : pidOf n = (n + 1 : Nat) := by
  rw [pidOf, BitVec.toInt_eq_toNat_of_lt (by rw [BitVec.toNat_ofNat]; omega), BitVec.toNat_ofNat,
    Nat.mod_eq_of_lt (by omega)]

theorem pidOf_inj {m n : Nat} (hm : m + 1 < 2 ^ 31) (hn : n + 1 < 2 ^ 31) (h : pidOf m = pidOf n) : m = n := by
  rw [pidOf_eq hm, pidOf_eq hn] at h
  omega

omit [DecidableEq C] in
theorem Ledgered.pid_once (h : Ledgered s) (hn : s.created < 2 ^ 31) : (s.reaped.map Exit.pid).Nodup := by
  refine List.Nodup.map_on (fun x hx y hy he => ?_) (List.Nodup.of_map _ h.reapedOnce)
  obtain ⟨hbx, hpx⟩ := h.exits (h.reaped hx)
  obtain ⟨hby, hpy⟩ := h.exits (h.reaped hy)
  rw [hpx, hpy] at he
  exact inj_on_of_nodup_map h.reapedOnce hx hy (pidOf_inj (by omega) (by omega) he)

omit [DecidableEq C] in
theorem numbered_of_started (h : (s.proc q).state.started) : s.Numbered q := by
  refine .inl fun he => ?_
  simp [he, ProcState.started, ProcState.alive] at h

theorem Inv.birth_kept (hi : Inv s) (ht : step s (.run c o) = some t)
    (hq : (s.proc q).state.started) : t.birth q = s.birth q := by
  cases hi.record_step ht with
  | same hs => rw [hs.birth]
  | @create p r hc hpc _ _ hb =>
    have hr : q ≠ r := by
      rintro rfl
      exact hi.not_numbered hc hpc (numbered_of_started hq)
    rw [hb, update_of_ne hr]
  | exit _ _ _ _ hb | reap _ _ _ _ hb => rw [hb]

theorem FamilyInv.frees (h : FamilyInv s) (hi : Inv s) (ht : step s (.run c o) = some t) (hc : s.cur c = some p)
    (hpc : s.pc c = .waitFree q) : Frees s c q t := by
  have hm : (s.ppc p).making = some (q, .reap) := by rw [← pc_of_cur hc, hpc]; rfl
  obtain ⟨a, k, u, hn, ha, rfl⟩ := step_run.mp ht
  rw [hc, hpc] at hn
  cases hn
  rw [hc] at ha
  cases ha
  exact ⟨hi.making hm, (h.own hc hpc).trans hc.symm, hpc, by simp [pc, hc], by simp⟩

theorem FamilyInv.slot_kept (h : FamilyInv s) (hi : Inv s) (ht : step s (.run c o) = some t)
    (hq : (s.proc q).state.started) :
    ((t.proc q).state.started ∧ (t.proc q).pid = (s.proc q).pid) ∨ Frees s c q t := by
  have hf := hi.fate ht q
  generalize t.proc q = y at hf
  cases hf with
  | kept _ _ hp hst =>
    refine .inl ⟨?_, hp⟩
    rcases hst with hst | hst
    · rwa [hst]
    · simp [ProcState.started, hst.2]
  | reparent | exitStatus => exact .inl ⟨hq, rfl⟩
  | exitZombie => exact .inl ⟨rfl, rfl⟩
  | reaped hc hpc => exact .inr (h.frees hi ht hc hpc)
  | forkParent _ _ hs | allocpid _ _ hs | use _ hs | start _ _ hs | freed _ hs =>
    simp [hs, ProcState.started, ProcState.alive] at hq

theorem copyout_fails {addr : Nat} (hc : s.pc c = .waitTest addr q) (hz : (s.proc q).state = .zombie) (ho : addr ≠ 0)
    (ht : step s (.run c 0) = some t) : t.proc = s.proc ∧ t.reaped = s.reaped ∧ t.pc c = .waitFail q := by
  obtain ⟨a, k, u, hn, ha, rfl⟩ := step_run.mp ht
  rw [hc] at hn
  simp only [next, hz, if_true, ne_eq, ho, not_false_eq_true, and_self, Option.some.injEq, Prod.mk.injEq] at hn
  obtain ⟨rfl, rfl⟩ := hn
  cases ha
  refine ⟨goto_proc, goto_reaped, ?_⟩
  cases hcur : s.cur c <;> simp [pc, hcur]

/-- In every run with fewer than 2^31 processes an exit is reaped at most once, by the parent. -/
theorem exit_reaped_once {evs : List (Ev C)} (h : Run step booted evs s) (hn : s.created < 2 ^ 31) : ReapedOnce s := by
  obtain ⟨hi, hf, hl⟩ := run_ledgered h
  refine ⟨fun q hq hs => ?_, fun e t ht q hs => ?_, hl.reaped, hl.pid_once hn, fun q hz => ?_,
    fun c t addr q hpc hz ho ht => copyout_fails hpc hz ho ht⟩
  · obtain ⟨r, hr⟩ := Option.ne_none_iff_exists'.mp (hf.parent hq (by simpa [ProcState.started] using hs))
    have ha := hf.alive hr
    refine ⟨r, hr, fun he => ?_, fun he => ?_⟩ <;> simp [he, ProcState.alive] at ha
  · rcases step_cases ht with ⟨c, o, rfl⟩ | ⟨c, k, n, -, -, rfl⟩
    · rcases hf.slot_kept hi ht hs with ⟨hst, hp⟩ | hfree
      · exact .inl ⟨hst, hi.birth_kept ht hs, hp⟩
      · exact .inr ⟨c, o, rfl, hfree⟩
    · exact .inl ⟨by simpa using hs, by simp, by simp⟩
  · obtain ⟨he, hr⟩ := hl.zombie hz
    exact ⟨he, fun hmem => hr (mem_map.mpr ⟨_, hmem, rfl⟩)⟩

def childExits : List (Ev Bool) :=
  bothRun ++ .call true (.exit 7) :: runs true 264 ++ .call false (.wait 8) :: runs false 8

theorem childExits_reaped_once :
    ∃ s : State Bool, Run step booted childExits s ∧ s.ppc 0 = .user ∧ (s.proc 1).state = .unused ∧
      s.exits = [⟨1, 2, 7⟩] ∧ s.reaped = [⟨1, 2, 7⟩] ∧ ReapedOnce s := by
  have hstate : ((exec step (booted : State Bool) childExits).map fun s =>
      (s.ppc 0, (s.proc 1).state, s.exits, s.reaped, s.created)) =
      some (.user, .unused, [⟨1, 2, 7⟩], [⟨1, 2, 7⟩], 2) := by
    decide +kernel
  obtain ⟨s, hrun, heq⟩ := Option.map_eq_some_iff.mp hstate
  simp only [Prod.mk.injEq] at heq
  obtain ⟨hpc, hs, he, hr, hn⟩ := heq
  exact ⟨s, run_of_exec hrun, hpc, hs, he, hr, exit_reaped_once (run_of_exec hrun) (by omega)⟩

/-- In every run that creates fewer than 2^31 - 1 processes each pid is positive and below `nextpid`, two
processes never share one, and the pid of an exit is only ever that of the zombie it left, not yet reaped. -/
theorem pids_unique {evs : List (Ev C)} (h : Run step booted evs s) (hn : s.created + 1 < 2 ^ 31) :
    (∀ q, s.Numbered q → 0 < (s.proc q).pid ∧ (s.proc q).pid < s.nextpid.toInt) ∧
      (∀ q r, s.Numbered q → s.Numbered r → (s.proc q).pid = (s.proc r).pid → q = r) ∧
      ∀ q, s.Numbered q → ∀ e ∈ s.exits, e.pid = (s.proc q).pid →
        (s.proc q).state = .zombie ∧ e = s.exitOf q ∧ e ∉ s.reaped := by
  obtain ⟨-, -, hl⟩ := run_ledgered h
  refine ⟨fun q hq => ?_, fun q r hq hr hp => ?_, fun q hq e he hp => ?_⟩
  · obtain ⟨hb, hpid⟩ := hl.birth hq
    have hnext : s.nextpid.toInt = pidOf s.created := by rw [hl.nextpid, pidOf]
    rw [hpid, hnext, pidOf_eq (by omega), pidOf_eq hn]
    omega
  · obtain ⟨hbq, hpq⟩ := hl.birth hq
    obtain ⟨hbr, hpr⟩ := hl.birth hr
    rw [hpq, hpr] at hp
    exact hl.inj hq hr (pidOf_inj (by omega) (by omega) hp)
  · obtain ⟨hbq, hpq⟩ := hl.birth hq
    obtain ⟨hbe, hpe⟩ := hl.exits he
    rw [hpe, hpq] at hp
    have hb : e.birth = s.birth q := pidOf_inj (by omega) (by omega) hp
    have hz : (s.proc q).state = .zombie := by
      by_contra hz
      exact hl.live hq hz (hb ▸ mem_map_of_mem he)
    obtain ⟨hq', hr⟩ := hl.zombie hz
    exact ⟨hz, inj_on_of_nodup_map hl.once he hq' hb, fun hmem => hr (hb ▸ mem_map_of_mem hmem)⟩

theorem bothRun_pids : ∃ s : State Bool, Run step booted bothRun s ∧ (s.proc 1).pid = 2 ∧
    ∀ r, s.Numbered r → (s.proc r).pid = 2 → r = 1 := by
  have hstate : ((exec step (booted : State Bool) bothRun).map fun s =>
      ((s.proc 1).pid, (s.proc 1).state, s.created)) = some (2, .running, 2) := by
    decide +kernel
  obtain ⟨s, hrun, heq⟩ := Option.map_eq_some_iff.mp hstate
  simp only [Prod.mk.injEq] at heq
  obtain ⟨hp, hs, hn⟩ := heq
  exact ⟨s, run_of_exec hrun, hp, fun r hr he =>
    (pids_unique (run_of_exec hrun) (by omega)).2.1 r 1 hr (.inl (by simp [hs])) (he.trans hp.symm)⟩

end

end Xv6.Smp
