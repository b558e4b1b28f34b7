import Xv6.Smp.Slots

namespace Xv6.Smp

open Locks Transition Option Function

variable {C : Type*} {s t : State C} {me : Option Slot} {o : Nat} {pc k : Pc} {a : Act} {p q r : Slot} {c d : C}
  {l : Lock}

def ProcState.alive : ProcState → Bool
  | .sleeping | .runnable | .running => true
  | .unused | .used | .zombie => false

/-! ### What becomes of a slot in one step -/

/-- What a step of the thread `me` at `pc` makes of slot `q`, as far as parents and children see it. -/
inductive Fate (me : Option Slot) (pc : Pc) (q : Slot) (x : Proc) : Proc → Prop
  | kept {y : Proc} : y.parent = x.parent → y.xstate = x.xstate → y.pid = x.pid →
      (y.state = x.state ∨ x.state.alive ∧ y.state.alive) → Fate me pc q x y
  | forkParent {p : Slot} {pid : Int} : me = some p → pc = .forkParent q pid → x.state = .used →
      Fate me pc q x { x with parent := some p }
  | reparent {p : Slot} {v : Int} {i : Nat} : me = some p → pc = .reparent v i → slot? i = some q → x.parent = some p →
      Fate me pc q x { x with parent := some initproc }
  | exitStatus {v : Int} : me = some q → pc = .exitStatus v → x.state = .running →
      Fate me pc q x { x with xstate := v }
  | exitZombie {v : Int} : me = some q → pc = .exitZombie v → x.state = .running →
      Fate me pc q x { x with state := .zombie }
  | allocpid (n : Int) : pc = .forkPid q → x.state = .unused → Fate me pc q x { x with pid := n }
  | use : pc = .forkUsed q → x.state = .unused → Fate me pc q x { x with state := .used }
  | start {p : Slot} {pid : Int} : me = some p → pc = .forkRunnable q pid → x.state = .used →
      Fate me pc q x { x with state := .runnable }
  | freed : pc = .forkFree q → x.state = .used → Fate me pc q x .free
  | reaped {p : Slot} : me = some p → pc = .waitFree q → x.state = .zombie → Fate me pc q x .free

theorem Fate.same {x : Proc} : Fate me pc q x x := .kept rfl rfl rfl (.inl rfl)

theorem Fate.update {f : Slot → Proc} {x : Proc} (hx : Fate me pc q (f q) x) (r : Slot) :
    Fate me pc r (f r) (update f q x r) := by
  by_cases hr : r = q
  · subst hr
    simpa using hx
  · rw [update_of_ne hr]
    exact .same

theorem Inv.fate [DecidableEq C] (h : Inv s) (ht : step s (.run c o) = some t) (r : Slot) :
    Fate (s.cur c) (s.pc c) r (s.proc r) (t.proc r) := by
  obtain ⟨a, k, u, hn, ha, rfl⟩ := step_run.mp ht
  have hw := h.wf c
  have hrun : ∀ p, s.cur c = some p → (s.proc p).state = (s.pc c).runState := fun p hp =>
    State.pc_of_cur hp ▸ (h.busy hp).2.2
  have hmk : ∀ p q st, s.cur c = some p → (s.pc c).making = some (q, st) → s.Made q st := fun p q st hp hm =>
    h.making (State.pc_of_cur hp ▸ hm)
  rw [goto_proc]
  generalize s.cur c = me, s.pc c = pc at hn ha hw hrun hmk
  rcases next_effect hn with he | hq
  · cases he with
    | setCpu | enter | clearCpu | yieldSwtch | sleepSwtch | exitSwtch | forkContext => cases ha; exact .same
    | check hs | wakeTest hs =>
      cases ha
      refine .update ?_ r
      exact .kept rfl rfl rfl (.inr (by simp [hs, Upd.apply, ProcState.alive]))
    | killTest =>
      cases ha
      refine .update ?_ r
      refine .kept rfl rfl rfl ?_
      simp only [Upd.apply]
      split
      next hs => exact .inr (by simp [hs, ProcState.alive])
      next => exact .inl rfl
    | yieldSet | sleepSet =>
      cases ha
      refine .update ?_ r
      exact .kept rfl rfl rfl (.inr (by simp [hrun _ rfl, Pc.runState, Upd.apply, ProcState.alive]))
    | exitZombie => cases ha; exact .update (.exitZombie rfl rfl (hrun _ rfl)) r
    | exitStatus => cases ha; exact .update (.exitStatus rfl rfl (hrun _ rfl)) r
    | sleepChan | sleepTidy | setkilled | forkTrapframe | forkPagetable | forkSz =>
      cases ha
      refine .update ?_ r
      exact .kept rfl rfl rfl (.inl rfl)
    | forkPid | forkUsed | forkFree | forkRunnable | waitFree =>
      obtain ⟨p, rfl⟩ := isSome_iff_exists.mp hw
      have hq := hmk p _ _ rfl rfl
      cases ha
      refine .update ?_ r
      first
        | exact .allocpid _ rfl hq
        | exact .use rfl hq
        | exact .freed rfl hq
        | exact .start rfl rfl hq.1
        | exact .reaped rfl rfl hq
    | forkParent => cases ha; exact .update (.forkParent rfl rfl (hmk _ _ _ rfl rfl).1) r
    | reparent hi hp => cases ha; exact .update (.reparent rfl rfl hi hp) r
  · rw [(Act.run_quiet hq ha).proc]
    exact .same

/-! ### What a thread has done about parents and children -/

inductive Phase
  | none
  /-- `fork` has not set the parent of the child yet, or has -/
  | unparented (q : Slot)
  | parented (q : Slot)
  /-- `exit` has given the children in the slots below `i` to init -/
  | adopting (i : Nat)
  /-- `exit` has no child left and has stored its status -/
  | exited (status : Int)
  /-- `wait` has locked a child -/
  | waiting (q : Slot)
  deriving DecidableEq

def Pc.phase : Pc → Phase
  | .forkPid q | .forkUsed q | .forkTrapframe q | .forkPagetable q | .forkContext q | .forkCopy q | .forkFree q
  | .forkSz q | .forkRel q _ | .forkWait q _ | .forkParent q _ => .unparented q
  | .forkUnwait q _ | .forkAcq q _ | .forkRunnable q _ => .parented q
  | .exit _ => .adopting 0
  | .reparent _ i => .adopting i
  | .exitAcq _ | .exitStatus _ => .adopting 64
  | .exitZombie v => .exited v
  | .waitTest _ q | .waitFree q => .waiting q
  | .yieldAcq k | .yieldSet k | .yieldSwtch k | .yieldRel k
  | .notify _ k | .notifySet _ k | .notifyRel _ k
  | .wake _ _ k | .wakeTest _ _ k | .wakeRel _ _ k => k.phase
  | _ => .none

/-- The actions that leave every parent pointer and every exit status as they are. -/
def Act.calm : Act → Prop
  | .set _ (.parent _) | .set _ (.xstate _) | .set _ .free | .reap _ => False
  | _ => True

/-- The steps of process `p` that change its phase. -/
inductive PhaseStep (s : State C) (p : Slot) : Pc → Act → Phase → Prop
  | fork {q : Slot} : (s.proc q).state = .unused → PhaseStep s p (.forkTest q) .skip (.unparented q)
  | forkFree {q : Slot} : PhaseStep s p (.forkFree q) (.set q .free) .none
  | forkParent {q : Slot} {pid : Int} : PhaseStep s p (.forkParent q pid) (.set q (.parent (some p))) (.parented q)
  | forkRunnable {q : Slot} {pid : Int} : PhaseStep s p (.forkRunnable q pid) (.set q (.state .runnable)) .none
  | adopt {v : Int} {i : Nat} {q : Slot} : slot? i = some q → (s.proc q).parent = some p →
      PhaseStep s p (.reparent v i) (.set q (.parent (some initproc))) (.adopting (i + 1))
  | pass {v : Int} {i : Nat} {q : Slot} : slot? i = some q → (s.proc q).parent ≠ some p →
      PhaseStep s p (.reparent v i) .skip (.adopting (i + 1))
  | adopted {v : Int} {i : Nat} : slot? i = none → PhaseStep s p (.reparent v i) .skip (.adopting 64)
  | exitStatus {v : Int} : PhaseStep s p (.exitStatus v) (.set p (.xstate v)) (.exited v)
  | exitZombie {v : Int} : PhaseStep s p (.exitZombie v) (.zombie p v) .none
  | wait {addr i : Nat} {havekids : Bool} {q : Slot} : (s.proc q).parent = some p →
      PhaseStep s p (.waitScan addr i havekids) (.acquire (.proc q)) (.waiting q)
  | waitPass {addr : Nat} {q : Slot} : PhaseStep s p (.waitTest addr q) .skip .none
  | waitFree {q : Slot} : PhaseStep s p (.waitFree q) (.reap q) .none

@[simp] theorem Site.phase_resume (σ : Site) : σ.resume.phase = .none := by cases σ <;> rfl

@[simp] theorem Site.phase_alive (σ : Site) : σ.alive.phase = .none := by cases σ <;> rfl

theorem next_phase (h : next s (some p) o pc = some (a, k)) :
    k.phase = pc.phase ∧ a.calm ∨ PhaseStep s p pc a k.phase := by
  cases pc
  case reparent v i =>
    simp only [next] at h
    split at h
    next q hi =>
      split at h <;> cases h
      next hq => exact Or.inr (.adopt hi hq.2)
      next hq => exact Or.inr (.pass hi fun he => hq ⟨rfl, he⟩)
    next hi => split at h <;> cases h <;> exact Or.inr (.adopted hi)
  all_goals
    simp only [next] at h
    repeat' split at h
  all_goals simp only [some.injEq, Prod.mk.injEq, map_some, reduceCtorEq] at h
  all_goals obtain ⟨rfl, rfl⟩ := h
  all_goals first
    | exact Or.inl ⟨rfl, trivial⟩
    | exact Or.inl ⟨Site.phase_resume _, trivial⟩
    | exact Or.inl ⟨Site.phase_alive _, trivial⟩
    | exact Or.inr (by constructor <;> simp_all)

theorem Pc.making_of_phase (h : pc.phase = .unparented q ∨ pc.phase = .parented q) : ∃ st, pc.making = some (q, st) := by
  induction pc with
  | yieldAcq k ih | yieldSet k ih | yieldSwtch k ih | yieldRel k ih => exact ih h
  | notify _ k ih | notifySet _ k ih | notifyRel _ k ih => exact ih h
  | wake _ _ k ih | wakeTest _ _ k ih | wakeRel _ _ k ih => exact ih h
  | _ => simp_all [Pc.phase, Pc.making]

/-- What a thread in this phase holds: `wait` looks at a child under its lock and `wait_lock`, and the
status of a process is stored under its lock and `wait_lock`. -/
def Phase.locks (p : Slot) : Phase → List Lock
  | .waiting q => [.proc q, .wait]
  | .exited _ => [.proc p, .wait]
  | _ => []

theorem Phase.exists_proc {ph : Phase} (h : ph.locks p ≠ []) : ∃ q, Lock.proc q ∈ ph.locks p := by
  cases ph with
  | waiting q => exact ⟨q, List.mem_cons_self⟩
  | exited v => exact ⟨p, List.mem_cons_self⟩
  | _ => exact absurd rfl h

theorem Pc.held_of_phase (hw : pc.wf (some p)) (h : pc.phase.locks p ≠ []) :
    pc.held (some p) = pc.phase.locks p := by
  induction pc with
  | yieldAcq k ih | yieldSet k ih | yieldSwtch k ih | yieldRel k ih =>
    have hk := ih hw.2.2 h
    rw [hw.2.1] at hk
    exact absurd hk.symm h
  | notify _ k ih | notifySet _ k ih | notifyRel _ k ih =>
    have hk := ih hw.2 h
    rw [hw.1] at hk
    exact absurd hk.symm h
  | wake _ _ k ih | wakeTest _ _ k ih | wakeRel _ _ k ih =>
    have hk := ih hw.2 h
    obtain ⟨q, hq⟩ := Phase.exists_proc h
    exact absurd (hk ▸ hq) (hw.1.2 q)
  | _ => simp_all [Pc.phase, Phase.locks, Pc.held]

theorem Inv.phase_cpu (h : Inv s) (hph : (s.ppc p).phase.locks p ≠ []) :
    ∃ d, s.cur d = some p ∧ s.heldBy d = (s.ppc p).phase.locks p := by
  have hl := Pc.held_of_phase (h.wfProc p) hph
  have hd : s.ppc p ≠ .dead := fun he => by simp [he, Pc.phase, Phase.locks] at hph
  have hr : ¬ (s.ppc p).resumable := fun hr => by
    rw [Pc.held_of_resumable (h.wfProc p) hr] at hl
    cases hp : (s.ppc p).phase <;> simp [hp, Phase.locks] at hl
  obtain ⟨d, hd⟩ := h.on_cpu hd hr
  exact ⟨d, hd, State.heldBy_of_cur hd ▸ hl⟩

def State.PhaseOk (s : State C) (p : Slot) : Phase → Prop
  | .none => True
  | .unparented q => (s.proc q).parent = none
  | .parented q | .waiting q => (s.proc q).parent = some p
  | .adopting i => p ≠ initproc ∧ ∀ q : Slot, q.val < i → (s.proc q).parent ≠ some p
  | .exited v => p ≠ initproc ∧ (∀ q, (s.proc q).parent ≠ some p) ∧ (s.proc p).xstate = v

structure FamilyInv (s : State C) : Prop where
  init : (s.proc initproc).state.alive
  /-- the parent of a process has not exited -/
  alive : ∀ {q r}, (s.proc q).parent = some r → (s.proc r).state.alive
  parent : ∀ {q}, q ≠ initproc → ((s.proc q).state.alive ∨ (s.proc q).state = .zombie) → (s.proc q).parent ≠ none
  unused : ∀ {q}, (s.proc q).state = .unused → (s.proc q).parent = none
  phase : ∀ p, s.PhaseOk p (s.ppc p).phase

theorem State.PhaseOk.congr {ph : Phase} (h : s.PhaseOk p ph) (hp : ∀ q, (t.proc q).parent = (s.proc q).parent)
    (hx : (t.proc p).xstate = (s.proc p).xstate) : t.PhaseOk p ph := by
  cases ph with
  | none => trivial
  | _ => simpa only [State.PhaseOk, hp, hx] using h

section
variable [DecidableEq C]

theorem Act.run_calm (hq : a.calm) (ha : a.run c me s = some t) (q : Slot) :
    (t.proc q).parent = (s.proc q).parent ∧ (t.proc q).xstate = (s.proc q).xstate := by
  rw [Act.run_table ha]
  have hupd : ∀ {q' x}, x.parent = (s.proc q').parent ∧ x.xstate = (s.proc q').xstate →
      (update s.proc q' x q).parent = (s.proc q).parent ∧
        (update s.proc q' x q).xstate = (s.proc q).xstate := by
    intro q' x hx
    by_cases hqq : q = q'
    · subst hqq
      simp [hx]
    · simp [hqq]
  cases a with
  | set q' u => cases u <;> first | exact hq.elim | exact hupd ⟨rfl, rfl⟩
  | allocpid q' | zombie q' v => exact hupd ⟨rfl, rfl⟩
  | reap q' => exact hq.elim
  | _ => exact ⟨rfl, rfl⟩

namespace FamilyInv

omit [DecidableEq C] in
theorem own (h : FamilyInv s) (hc : s.cur c = some p) (hpc : s.pc c = pc) : s.PhaseOk p pc.phase := by
  rw [← hpc, State.pc_of_cur hc]
  exact h.phase p

theorem alive_step (hi : Inv s) (ht : step s (.run c o) = some t) (ha : (s.proc r).state.alive) :
    (t.proc r).state.alive ∨ s.cur c = some r ∧ ∃ v, s.pc c = .exitZombie v := by
  have hf := hi.fate ht r
  generalize t.proc r = y at hf
  cases hf with
  | kept _ _ _ hs =>
    rcases hs with hs | hs
    · exact .inl (hs ▸ ha)
    · exact .inl hs.2
  | exitZombie hme hpc => exact .inr ⟨hme, _, hpc⟩
  | use _ hs | freed _ hs | reaped _ _ hs => simp [hs, ProcState.alive] at ha
  | start => exact .inl rfl
  | _ => exact .inl ha

section
variable (h : FamilyInv s) (hi : Inv s) (ht : step s (.run c o) = some t)
include h hi ht

theorem alive_parent (hq : (s.proc q).parent = some r) : (t.proc r).state.alive := by
  rcases alive_step hi ht (h.alive hq) with ha | ⟨hc, v, hpc⟩
  · exact ha
  · exact absurd hq ((h.own hc hpc).2.1 q)

theorem keep_init : (t.proc initproc).state.alive := by
  rcases alive_step hi ht h.init with ha | ⟨hc, v, hpc⟩
  · exact ha
  · exact absurd rfl (h.own hc hpc).1

theorem keep_alive (hq : (t.proc q).parent = some r) : (t.proc r).state.alive := by
  have hf := hi.fate ht q
  generalize t.proc q = y at hf hq
  cases hf with
  | kept hp => exact h.alive_parent hi ht (hp ▸ hq)
  | @forkParent p pid hme hpc =>
    obtain rfl := some.inj hq
    have hrun := (hi.busy hme).2.2
    rw [← State.pc_of_cur hme, hpc] at hrun
    rcases alive_step hi ht (r := p) (by rw [hrun]; rfl) with ha | ⟨-, v, hpc'⟩
    · exact ha
    · rw [hpc] at hpc'
      cases hpc'
  | reparent =>
    obtain rfl := some.inj hq
    exact h.keep_init hi ht
  | freed | reaped => cases hq
  | _ => exact h.alive_parent hi ht hq

theorem keep_parent (hq : q ≠ initproc)
    (hs : (t.proc q).state.alive ∨ (t.proc q).state = .zombie) : (t.proc q).parent ≠ none := by
  have hf := hi.fate ht q
  generalize t.proc q = y at hf hs
  cases hf with
  | kept hp _ _ hst =>
    rw [hp]
    rcases hst with hst | hst
    · exact h.parent hq (hst ▸ hs)
    · exact h.parent hq (.inl hst.1)
  | forkParent | reparent => simp
  | exitZombie _ _ hrun => exact h.parent hq (.inl (by rw [hrun]; rfl))
  | start hme hpc =>
    have hown : (s.proc q).parent = _ := h.own hme hpc
    simp [hown]
  | use | freed | reaped => simp [ProcState.alive, Proc.free] at hs
  | _ => exact h.parent hq hs

theorem keep_unused (hs : (t.proc q).state = .unused) : (t.proc q).parent = none := by
  have hf := hi.fate ht q
  generalize t.proc q = y at hf hs
  cases hf with
  | kept hp _ _ hst =>
    rw [hp]
    rcases hst with hst | hst
    · exact h.unused (hst ▸ hs)
    · simp [hs, ProcState.alive] at hst
  | forkParent _ _ hu =>
    rw [show (s.proc q).state = .unused from hs] at hu
    cases hu
  | reparent _ _ _ hp =>
    rw [h.unused hs] at hp
    cases hp
  | exitZombie | use | start => cases hs
  | freed | reaped => rfl
  | _ => exact h.unused hs

end

theorem lt_of_slot? {i : Nat} (hi : slot? i = some q) (hr : r.val < i + 1) (hrq : r ≠ q) : r.val < i := by
  have hne := Fin.val_ne_of_ne hrq
  have hq := slot?_eq_some.mp hi
  omega

theorem phase_self (h : FamilyInv s) (hc : s.cur c = some p) (ht : step s (.run c o) = some t) :
    t.PhaseOk p (t.ppc p).phase := by
  obtain ⟨a, k, u, hn, ha, hproc, rfl⟩ := step_proc hc ht
  have hp := h.phase p
  generalize s.ppc p = pc at hn hp
  rcases next_phase hn with ⟨hph, hcalm⟩ | hph
  · rw [hph]
    refine hp.congr (fun q => ?_) ?_
    · rw [hproc, (Act.run_calm hcalm ha q).1]
    · rw [hproc, (Act.run_calm hcalm ha p).2]
  rw [Act.run_table ha] at hproc
  generalize (t.ppc p).phase = ph at hph
  cases hph with
  | forkFree | forkRunnable | exitZombie | waitPass | waitFree => trivial
  | fork hu =>
    rw [State.PhaseOk, hproc]
    exact h.unused hu
  | forkParent => simp [State.PhaseOk, hproc, Act.table, Upd.apply]
  | @adopt v i q hi hq =>
    refine ⟨hp.1, fun r hr => ?_⟩
    rw [hproc, Act.table]
    by_cases hrq : r = q
    · subst hrq
      simpa [Upd.apply] using hp.1.symm
    · rw [update_of_ne hrq]
      exact hp.2 r (lt_of_slot? hi hr hrq)
  | @pass v i q hi hq =>
    refine ⟨hp.1, fun r hr => ?_⟩
    rw [hproc]
    by_cases hrq : r = q
    · rwa [hrq]
    · exact hp.2 r (lt_of_slot? hi hr hrq)
  | @adopted v i hi =>
    refine ⟨hp.1, fun r _ => ?_⟩
    rw [hproc]
    have hle := slot?_eq_none.mp hi
    exact hp.2 r (by omega)
  | exitStatus =>
    refine ⟨hp.1, fun r => ?_, by simp [hproc, Act.table, Upd.apply]⟩
    rw [hproc, Act.table]
    have hr := hp.2 r r.isLt
    by_cases hrp : r = p
    · subst hrp
      simpa [Upd.apply] using hr
    · rwa [update_of_ne hrp]
  | wait hq =>
    rw [State.PhaseOk, hproc]
    exact hq

/-- The children of a process are its own: no other thread takes one of them or makes it a child of `p`. -/
theorem not_adopted (hi : Inv s) (ht : step s (.run c o) = some t) (hc : s.cur c ≠ some p)
    (hp : p ≠ initproc) (hq : (s.proc q).parent ≠ some p) : (t.proc q).parent ≠ some p := by
  have hf := hi.fate ht q
  generalize t.proc q = y at hf
  cases hf with
  | kept hpar => rwa [hpar]
  | forkParent hme =>
    intro he
    exact hc (hme.trans he)
  | reparent =>
    intro he
    exact hp (some.inj he).symm
  | freed | reaped => simp [Proc.free]
  | _ => exact hq

theorem parent_other (h : FamilyInv s) (hi : Inv s) (ht : step s (.run c o) = some t) (hc : s.cur c ≠ some p)
    (hph : (s.ppc p).phase = .parented q ∨ (s.ppc p).phase = .waiting q) (hq : (s.proc q).parent = some p) :
    (t.proc q).parent = some p := by
  have hf := hi.fate ht q
  generalize t.proc q = y at hf
  cases hf with
  | kept hpar => rwa [hpar]
  | forkParent hme hpc =>
    exfalso
    rcases hph with hph | hph
    · obtain ⟨st, hm⟩ := Pc.making_of_phase (.inr hph)
      rw [State.pc_of_cur hme] at hpc
      exact hc (hi.maker (by rw [hpc]; rfl) hm ▸ hme)
    · -- both threads hold `wait_lock`
      obtain ⟨d, hd, hl⟩ := hi.phase_cpu (p := p) (by simp [hph, Phase.locks])
      have hld : Lock.wait ∈ s.heldBy d := by simp [hl, hph, Phase.locks]
      have hlc : Lock.wait ∈ s.heldBy c := by rw [State.heldBy, hpc]; exact List.mem_singleton_self _
      obtain rfl := hi.holder hld hlc
      exact hc hd
  | reparent hme _ _ hpar =>
    rw [hq] at hpar
    exact absurd (hme.trans hpar.symm) hc
  | freed hpc =>
    exfalso
    cases hme : s.cur c with
    | none =>
      have hw := hi.wf c
      rw [hpc, hme] at hw
      cases hw
    | some r =>
      have hown : (s.proc q).parent = none := h.own hme hpc
      rw [hq] at hown
      cases hown
  | reaped hme hpc =>
    have hown : (s.proc q).parent = _ := h.own hme hpc
    rw [hq] at hown
    exact absurd (hme.trans hown.symm) hc
  | _ => exact hq

theorem unparented_other (hi : Inv s) (ht : step s (.run c o) = some t) (hc : s.cur c ≠ some p)
    (hph : (s.ppc p).phase = .unparented q) (hq : (s.proc q).parent = none) : (t.proc q).parent = none := by
  have hf := hi.fate ht q
  generalize t.proc q = y at hf
  cases hf with
  | kept hpar => rwa [hpar]
  | forkParent hme hpc =>
    obtain ⟨st, hm⟩ := Pc.making_of_phase (.inl hph)
    rw [State.pc_of_cur hme] at hpc
    exact absurd (hi.maker (by rw [hpc]; rfl) hm ▸ hme) hc
  | reparent _ _ _ hpar =>
    rw [hq] at hpar
    cases hpar
  | freed | reaped => rfl
  | _ => exact hq

theorem phase_other (h : FamilyInv s) (hi : Inv s) (hc : s.cur c ≠ some p) (ht : step s (.run c o) = some t) :
    t.PhaseOk p (t.ppc p).phase := by
  rcases ppc_of_ne ht hc with hpc | hpc
  · rw [hpc]
    have hp := h.phase p
    cases hph : (s.ppc p).phase with
    | none => trivial
    | unparented q =>
      rw [hph] at hp
      exact unparented_other hi ht hc hph hp
    | parented q =>
      rw [hph] at hp
      exact h.parent_other hi ht hc (.inl hph) hp
    | waiting q =>
      rw [hph] at hp
      exact h.parent_other hi ht hc (.inr hph) hp
    | adopting i =>
      rw [hph] at hp
      exact ⟨hp.1, fun q hq => not_adopted hi ht hc hp.1 (hp.2 q hq)⟩
    | exited v =>
      rw [hph] at hp
      refine ⟨hp.1, fun q => not_adopted hi ht hc hp.1 (hp.2.1 q), ?_⟩
      obtain ⟨d, hd, hl⟩ := hi.phase_cpu (p := p) (by simp [hph, Phase.locks])
      obtain ⟨v, hv⟩ := hi.locked_slot (q := p) ht (by simp [hl, hph, Phase.locks]) fun hdc => hc (hdc ▸ hd)
      rw [hv]
      exact hp.2.2
  · rw [hpc]
    trivial

theorem jump (h : FamilyInv s) {n : Nat} (hj : Jump s c n k) :
    FamilyInv (State.goto { s with calls := n } c (s.cur c) k) := by
  refine ⟨?_, ?_, ?_, ?_, fun p => ?_⟩
  · simpa using h.init
  · intro q r hq
    rw [goto_proc] at hq ⊢
    exact h.alive hq
  · intro q hq hs
    rw [goto_proc] at hs ⊢
    exact h.parent hq hs
  · intro q hq
    rw [goto_proc] at hq ⊢
    exact h.unused hq
  · have hkeep : ∀ {ph}, s.PhaseOk p ph → (State.goto { s with calls := n } c (s.cur c) k).PhaseOk p ph := fun hp =>
      hp.congr (fun q => by rw [goto_proc]) (by rw [goto_proc])
    rw [goto_ppc_apply]
    split
    next hc =>
      cases hj with
      | call f hc' _ hex =>
        obtain rfl := some.inj (hc.symm.trans hc')
        cases f with
        | exit v => exact hkeep ⟨fun he => hex ⟨he, rfl⟩, nofun⟩
        | _ => trivial
      | timer | intr =>
        have hown := h.own hc rfl
        exact hkeep hown
    next => exact hkeep (h.phase p)

theorem keep (h : FamilyInv s) (hi : Inv s) {e : Ev C} (ht : step s e = some t) : FamilyInv t := by
  rcases step_cases ht with ⟨c, o, rfl⟩ | ⟨c, k, n, hj, -, rfl⟩
  · refine ⟨h.keep_init hi ht, h.keep_alive hi ht, h.keep_parent hi ht, h.keep_unused hi ht, fun p => ?_⟩
    by_cases hc : s.cur c = some p
    · exact h.phase_self hc ht
    · exact h.phase_other hi hc ht
  · exact h.jump hj

omit [DecidableEq C] in
theorem at_boot : FamilyInv (booted : State C) where
  init := rfl
  alive {q r} hq := by by_cases h0 : q = initproc <;> simp [booted, h0, Proc.free] at hq
  parent {q} hq hs := by simp [booted, hq, Proc.free, ProcState.alive] at hs
  unused {q} _ := by by_cases h0 : q = initproc <;> simp [booted, h0, Proc.free]
  phase p := by by_cases h0 : p = initproc <;> simp [booted, h0, Pc.phase, State.PhaseOk]

end FamilyInv

end

end Xv6.Smp
