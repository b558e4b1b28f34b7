import Xv6.Lib.Locks
import Xv6.Smp.Machine

namespace Xv6.Smp

open Locks Option

variable {C : Type*}

theorem slot?_eq_some {i : Nat} {q : Slot} : slot? i = some q ↔ q.val = i := by
  unfold slot?
  split
  next => simp [Fin.ext_iff, eq_comm]
  next h =>
    simp only [reduceCtorEq, false_iff]
    omega

theorem slot?_eq_none {i : Nat} : slot? i = none ↔ 64 ≤ i := by
  unfold slot?
  split <;> simp only [reduceCtorEq, true_iff, false_iff] <;> omega

/-! ### What a control point says about the thread -/

def Pc.afterWake : Pc → Prop
  | .reparent _ _ | .exitAcq _ | .sleepAcq (.pipewrite _) | .writeRel _ | .readRel _ | .closeRel _
  | .notifyRel _ _ => True
  | _ => False

/-- A scheduler runs the code of `scheduler`, a process the rest. What a thread returns to after an
interrupt holds no lock, and what it returns to after `wakeup` no process lock. -/
def Pc.wf (me : Option Slot) : Pc → Prop
  | .loop _ | .check _ | .setCpu _ | .enter _ | .clearCpu _ | .unlock _ => me = none
  | .yieldAcq k | .yieldSet k | .yieldSwtch k | .yieldRel k => me.isSome ∧ k.held me = [] ∧ k.wf me
  | .notify _ k | .notifySet _ k | .notifyRel _ k => k.held me = [] ∧ k.wf me
  | .wake _ _ k | .wakeTest _ _ k | .wakeRel _ _ k =>
    (k.afterWake ∧ ∀ q, Lock.proc q ∉ k.held me) ∧ k.wf me
  | _ => me.isSome

def Pc.runState : Pc → ProcState
  | .yieldSwtch _ => .runnable
  | .sleepSwtch _ => .sleeping
  | .exitRel | .exitSwtch => .zombie
  | _ => .running

def Pc.chan (p : Slot) : Pc → Option Chan
  | .sleepSet σ | .sleepSwtch σ | .sleepTidy σ => some (σ.chan p)
  | _ => none

/-- Where a thread that gave up its CPU goes on. -/
def Pc.resumable : Pc → Prop
  | .forkret | .yieldRel _ | .sleepTidy _ => True
  | _ => False

instance (pc : Pc) : Decidable pc.resumable := by unfold Pc.resumable; split <;> infer_instance

def Pc.current : Pc → Option Slot
  | .enter q | .clearCpu q => some q
  | _ => none

/-- The process that the scheduler has marked `RUNNING` and not switched to yet. -/
def Pc.entering : Pc → Option Slot
  | .setCpu q | .enter q => some q
  | _ => none

/-- What a thread is doing with the slot of another process: `fork` fills it (still `UNUSED`, `USED`,
`USED` with a context), or `wait` frees it. -/
inductive Stage
  | alloc
  | fresh
  | ready
  | reap
  deriving DecidableEq

def Pc.making : Pc → Option (Slot × Stage)
  | .forkPid q | .forkUsed q => some (q, .alloc)
  | .forkTrapframe q | .forkPagetable q | .forkContext q | .forkFree q => some (q, .fresh)
  | .forkCopy q | .forkSz q | .forkRel q _ | .forkWait q _ | .forkParent q _ | .forkUnwait q _ | .forkAcq q _
  | .forkRunnable q _ => some (q, .ready)
  | .waitFree q => some (q, .reap)
  | .yieldAcq k | .yieldSet k | .yieldSwtch k | .yieldRel k
  | .notify _ k | .notifySet _ k | .notifyRel _ k
  | .wake _ _ k | .wakeTest _ _ k | .wakeRel _ _ k => k.making
  | _ => none

section
variable {me : Option Slot} {pc k : Pc} {p q : Slot} {st : Stage}

theorem Pc.held_of_runState (h : pc.runState ≠ .running) : Lock.proc p ∈ pc.held (some p) := by
  cases pc <;> simp_all [Pc.runState, Pc.held]

theorem Pc.runState_of_not_held (h : Lock.proc p ∉ pc.held (some p)) : pc.runState = .running :=
  Classical.byContradiction fun hn => h (Pc.held_of_runState hn)

theorem Pc.chan_of_not_held (h : Lock.proc p ∉ pc.held (some p)) : pc.chan p = none := by
  cases pc <;> simp_all [Pc.chan, Pc.held]

theorem Pc.held_of_current (h : pc.current = some q) : pc.held me = [.proc q] := by
  cases pc <;> simp_all [Pc.current, Pc.held]

theorem Pc.held_of_entering (h : pc.entering = some q) : pc.held me = [.proc q] := by
  cases pc <;> simp_all [Pc.entering, Pc.held]

theorem Pc.held_of_resumable (hw : pc.wf (some p)) (h : pc.resumable) : pc.held (some p) = [.proc p] := by
  cases pc <;> simp_all [Pc.resumable, Pc.held, Pc.wf]

theorem Pc.runState_of_resumable (h : pc.resumable) : pc.runState = .running := by
  cases pc <;> simp_all [Pc.resumable, Pc.runState]

theorem Pc.current_of_not_held (h : ∀ q, Lock.proc q ∉ pc.held me) : pc.current = none := by
  cases hc : pc.current with
  | none => rfl
  | some q => simpa [Pc.held_of_current hc] using h q

theorem Pc.entering_of_not_held (h : ∀ q, Lock.proc q ∉ pc.held me) : pc.entering = none := by
  cases hc : pc.entering with
  | none => rfl
  | some q => simpa [Pc.held_of_entering hc] using h q

theorem Pc.held_of_making (hw : pc.wf me) (h : pc.making = some (q, st)) (hst : st = .alloc ∨ st = .reap) :
    Lock.proc q ∈ pc.held me ∧ ¬ pc.resumable := by
  induction pc with
  | yieldAcq k ih | yieldSet k ih | yieldSwtch k ih | yieldRel k ih =>
    have hk := (ih hw.2.2 h).1
    rw [hw.2.1] at hk
    cases hk
  | notify _ k ih | notifySet _ k ih | notifyRel _ k ih =>
    have hk := (ih hw.2 h).1
    rw [hw.1] at hk
    cases hk
  | wake _ _ k ih | wakeTest _ _ k ih | wakeRel _ _ k ih => exact absurd (ih hw.2 h).1 (hw.1.2 q)
  | _ => simp_all [Pc.making, Pc.held, Pc.resumable] <;> (obtain ⟨rfl, rfl⟩ := h; simp_all)

/-- Where a subroutine or an interrupt returns to. -/
def Pc.return? : Pc → Option Pc
  | .yieldRel k | .notifyRel _ k | .wake _ _ k => some k
  | _ => none

theorem Pc.not_return (hw : pc.wf me) (hk : Lock.proc q ∈ k.held me) : pc.return? ≠ some k := by
  intro h
  cases pc with
  | yieldRel k' =>
    cases h
    simp [hw.2.1] at hk
  | notifyRel d k' =>
    cases h
    simp [hw.1] at hk
  | wake ch i k' =>
    cases h
    exact hw.1.2 q hk
  | _ => cases h

theorem Pc.not_return_of_held (hw : pc.wf me) (hk : k.held me ≠ []) (ha : ¬ k.afterWake) : pc.return? ≠ some k := by
  intro h
  cases pc with
  | yieldRel k' =>
    cases h
    exact hk hw.2.1
  | notifyRel d k' =>
    cases h
    exact hk hw.1
  | wake ch i k' =>
    cases h
    exact ha hw.1.1
  | _ => cases h

end

namespace Site

variable {me : Option Slot} {p q : Slot} (σ : Site)

@[simp] theorem lock_ne_proc : σ.lock ≠ .proc q := by cases σ <;> simp [lock]

@[simp] theorem proc_ne_lock : .proc q ≠ σ.lock := (lock_ne_proc σ).symm

@[simp] theorem wf_resume : σ.resume.wf me ↔ me.isSome := by cases σ <;> rfl

@[simp] theorem held_resume : σ.resume.held me = [σ.lock] := by cases σ <;> rfl

@[simp] theorem runState_resume : σ.resume.runState = .running := by cases σ <;> rfl

@[simp] theorem chan_resume : σ.resume.chan p = none := by cases σ <;> rfl

@[simp] theorem current_resume : σ.resume.current = none := by cases σ <;> rfl

@[simp] theorem entering_resume : σ.resume.entering = none := by cases σ <;> rfl

@[simp] theorem making_resume : σ.resume.making = none := by cases σ <;> rfl

@[simp] theorem wf_alive : σ.alive.wf me ↔ me.isSome := by cases σ <;> rfl

@[simp] theorem held_alive : σ.alive.held me = [σ.lock] := by cases σ <;> rfl

@[simp] theorem runState_alive : σ.alive.runState = .running := by cases σ <;> rfl

@[simp] theorem chan_alive : σ.alive.chan p = none := by cases σ <;> rfl

@[simp] theorem current_alive : σ.alive.current = none := by cases σ <;> rfl

@[simp] theorem entering_alive : σ.alive.entering = none := by cases σ <;> rfl

@[simp] theorem making_alive : σ.alive.making = none := by cases σ <;> rfl

end Site

/-! ### What a thread does next -/

/-- The actions that leave the process table and the CPUs as they are. -/
def Act.quiet : Act → Prop
  | .skip | .acquire _ | .release _ | .put _ _ | .get _ | .close _ _ | .device _ _ | .consGet => True
  | _ => False

/-- The steps that change the process table or what a CPU executes. -/
inductive Effect (s : State C) : Option Slot → Pc → Act → Pc → Prop
  | check {me q} : (s.proc q).state = .runnable → Effect s me (.check q) (.set q (.state .running)) (.setCpu q)
  | setCpu {me q} : Effect s me (.setCpu q) (.cpuProc (some q)) (.enter q)
  | enter {me q} : Effect s me (.enter q) (.swtchTo q) (.clearCpu q)
  | clearCpu {me q} : Effect s me (.clearCpu q) (.cpuProc none) (.unlock q)
  | yieldSet {p k} : Effect s (some p) (.yieldSet k) (.set p (.state .runnable)) (.yieldSwtch k)
  | yieldSwtch {p k} : Effect s (some p) (.yieldSwtch k) .swtch (.yieldRel k)
  | sleepChan {p σ} : Effect s (some p) (.sleepChan σ) (.set p (.chan (some (σ.chan p)))) (.sleepSet σ)
  | sleepSet {p σ} : Effect s (some p) (.sleepSet σ) (.set p (.state .sleeping)) (.sleepSwtch σ)
  | sleepSwtch {p σ} : Effect s (some p) (.sleepSwtch σ) .swtch (.sleepTidy σ)
  | sleepTidy {p σ} : Effect s (some p) (.sleepTidy σ) (.set p (.chan none)) (.sleepUnlock σ)
  | wakeTest {me ch q k} : (s.proc q).state = .sleeping → (s.proc q).chan = some ch →
      Effect s me (.wakeTest ch q k) (.set q (.state .runnable)) (.wakeRel ch q k)
  | killTest {me pid q} : (s.proc q).pid = pid → Effect s me (.killTest pid q) (.set q .kill) (.killRel pid q)
  | setkilled {p} : Effect s (some p) .setkilledSet (.set p .killed) .setkilledRel
  | forkPid {me q} : Effect s me (.forkPid q) (.allocpid q) (.forkUsed q)
  | forkUsed {me q} : Effect s me (.forkUsed q) (.set q (.state .used)) (.forkTrapframe q)
  | forkTrapframe {me q} : Effect s me (.forkTrapframe q) (.set q .trapframe) (.forkPagetable q)
  | forkPagetable {me q} : Effect s me (.forkPagetable q) (.set q .pagetable) (.forkContext q)
  | forkContext {me q} : Effect s me (.forkContext q) (.context q) (.forkCopy q)
  | forkFree {me q} : Effect s me (.forkFree q) (.set q .free) (.forkFail q)
  | forkSz {p q} : Effect s (some p) (.forkSz q) (.set q (.sz (s.proc p).sz)) (.forkRel q (s.proc q).pid)
  | forkParent {p q pid} : Effect s (some p) (.forkParent q pid) (.set q (.parent (some p))) (.forkUnwait q pid)
  | forkRunnable {me q pid} :
      Effect s me (.forkRunnable q pid) (.set q (.state .runnable)) (.forkUnlock q pid)
  | reparent {p v i q} : slot? i = some q → (s.proc q).parent = some p →
      Effect s (some p) (.reparent v i) (.set q (.parent (some initproc)))
        (.wake (.proc initproc) 0 (.reparent v (i + 1)))
  | exitStatus {p v} : Effect s (some p) (.exitStatus v) (.set p (.xstate v)) (.exitZombie v)
  | exitZombie {p v} : Effect s (some p) (.exitZombie v) (.zombie p v) .exitRel
  | exitSwtch {p} : Effect s (some p) .exitSwtch .swtch .dead
  | waitFree {me q} : Effect s me (.waitFree q) (.reap q) (.waitRel q (s.proc q).pid)

def Act.dry : Act → Prop
  | .put _ _ | .get _ | .close _ _ => False
  | _ => True

/-- The steps that change a pipe. -/
inductive PipeEffect : Pc → Act → Pc → Prop
  | put {w} : PipeEffect (.writePut w) (.put w (w.buf.getD w.i 0)) (.writeLoop { w with i := w.i + 1 })
  | get {r} : PipeEffect (.readGet r) (.get r) (.readOut r)
  | close {pi b} :
      PipeEffect (.closeEnd pi b) (.close pi b) (.wake (if b then .nread pi else .nwrite pi) 0 (.closeRel pi))

/-- The steps that decide what happens to a slot, under its lock. -/
inductive Claim (s : State C) : Pc → Pc → Slot → Stage → Prop
  | fork {q} : (s.proc q).state = .unused → Claim s (.forkTest q) (.forkPid q) q .alloc
  | wait {addr q} : (s.proc q).state = .zombie → Claim s (.waitTest addr q) (.waitFree q) q .reap

structure SameView (me : Option Slot) (pc k : Pc) : Prop where
  runState : me.isSome → k.runState = pc.runState
  chan : ∀ p, me = some p → k.chan p = pc.chan p
  current : me = none → k.current = pc.current
  entering : me = none → k.entering = pc.entering
  making : k.making = pc.making ∨ ∃ q, pc.making = some (q, .ready) ∧ k.making = some (q, .fresh)

theorem SameView.process {p : Slot} {pc k : Pc} (run : k.runState = pc.runState) (chan : k.chan p = pc.chan p)
    (making : k.making = pc.making) : SameView (some p) pc k := by
  refine ⟨fun _ => run, fun q hq => ?_, fun hnone => ?_, fun hnone => ?_, .inl making⟩
  · cases hq
    exact chan
  · cases hnone
  · cases hnone

def Act.Locks (a : Act) (before after : List Lock) : Prop :=
  match a with
  | .acquire l => after = l :: before
  | .release l => l ∈ before ∧ ∀ x, x ∈ after ↔ x ∈ before ∧ x ≠ l
  | _ => after = before

variable {s t : State C} {me : Option Slot} {o : Nat} {pc k : Pc} {a : Act} {p q r : Slot} {c d : C} {l : Lock}

theorem next_effect (h : next s me o pc = some (a, k)) : Effect s me pc a k ∨ a.quiet := by
  cases pc
  case reparent v i =>
    simp only [next] at h
    split at h
    next q hi =>
      split at h
      next hq =>
        obtain ⟨p, rfl⟩ := isSome_iff_exists.mp hq.1
        cases h
        exact Or.inl (.reparent hi hq.2)
      next => cases h; exact Or.inr trivial
    next => split at h <;> cases h <;> exact Or.inr trivial
  all_goals
    simp only [next] at h
    repeat' split at h
  all_goals
    simp only [some.injEq, Prod.mk.injEq, map_eq_some_iff, reduceCtorEq] at h
  all_goals first
    | (obtain ⟨rfl, rfl⟩ := h; exact Or.inr trivial)
    | (obtain ⟨_, rfl, rfl, rfl⟩ := h; exact Or.inr trivial)
    | (obtain ⟨rfl, rfl⟩ := h; exact Or.inl (by constructor <;> simp_all))
    | (obtain ⟨_, rfl, rfl, rfl⟩ := h; exact Or.inl (by constructor))

theorem next_pipe (h : next s me o pc = some (a, k)) : PipeEffect pc a k ∨ a.dry := by
  cases pc
  case closeEnd pi b => cases h; exact Or.inl .close
  all_goals
    simp only [next] at h
    repeat' split at h
  all_goals
    simp only [some.injEq, Prod.mk.injEq, map_eq_some_iff, reduceCtorEq] at h
  all_goals first
    | (obtain ⟨rfl, rfl⟩ := h; exact Or.inr trivial)
    | (obtain ⟨_, rfl, rfl, rfl⟩ := h; exact Or.inr trivial)
    | (obtain ⟨rfl, rfl⟩ := h; exact Or.inl (by constructor))

theorem next_wf (hw : pc.wf me) (h : next s me o pc = some (a, k)) : k.wf me := by
  cases pc
  all_goals
    simp only [next] at h
    repeat' split at h
  all_goals
    simp only [some.injEq, Prod.mk.injEq, map_eq_some_iff, reduceCtorEq] at h
  all_goals first
    | (obtain ⟨rfl, rfl⟩ := h; simp_all [Pc.wf, Pc.held, Pc.afterWake])
    | (obtain ⟨_, rfl, rfl, rfl⟩ := h; simp_all [Pc.wf])

theorem next_held (hw : pc.wf me) (h : next s me o pc = some (a, k)) : a.Locks (pc.held me) (k.held me) := by
  cases pc
  all_goals
    simp only [next] at h
    repeat' split at h
  all_goals
    simp only [some.injEq, Prod.mk.injEq, map_eq_some_iff, reduceCtorEq] at h
  case exitRel =>
    obtain ⟨rfl, rfl⟩ := h
    obtain ⟨p, rfl⟩ := isSome_iff_exists.mp hw
    exact ⟨by simp [Pc.held], fun x => ⟨by rintro hx; simp_all [Pc.held], by simp [Pc.held]; tauto⟩⟩
  case wakeRel ch q k' =>
    obtain ⟨rfl, rfl⟩ := h
    refine ⟨List.mem_cons_self, fun x => ?_⟩
    have hx : x ∈ k'.held me → x ≠ .proc q := fun hx he => hw.1.2 q (he ▸ hx)
    simp only [Pc.held, List.mem_cons]
    tauto
  all_goals first
    | (obtain ⟨rfl, rfl⟩ := h; simp_all [Pc.wf, Pc.held, Act.Locks])
    | (obtain ⟨_, rfl, rfl, rfl⟩ := h; simp_all [Pc.wf, Pc.held, Act.Locks])
  all_goals first
    | rfl
    | exact fun x => ⟨by rintro rfl; simp, by rintro ⟨rfl | rfl, hx⟩ <;> simp_all⟩

theorem SameView.back (hk : ∀ q, Lock.proc q ∉ k.held me) (run : pc.runState = .running)
    (chan : ∀ p, pc.chan p = none) (current : pc.current = none) (entering : pc.entering = none)
    (making : k.making = pc.making) : SameView me pc k where
  runState hm := by
    obtain ⟨p, rfl⟩ := isSome_iff_exists.mp hm
    rw [Pc.runState_of_not_held (hk p), run]
  chan p hm := by
    subst hm
    rw [Pc.chan_of_not_held (hk p), chan p]
  current _ := by rw [Pc.current_of_not_held hk, current]
  entering _ := by rw [Pc.entering_of_not_held hk, entering]
  making := Or.inl making

theorem SameView.into (hp : ∀ q, Lock.proc q ∉ pc.held me) (run : k.runState = .running)
    (chan : ∀ p, k.chan p = none) (current : k.current = none) (entering : k.entering = none)
    (making : k.making = pc.making) : SameView me pc k where
  runState hm := by
    obtain ⟨p, rfl⟩ := isSome_iff_exists.mp hm
    rw [Pc.runState_of_not_held (hp p), run]
  chan p hm := by
    subst hm
    rw [Pc.chan_of_not_held (hp p), chan p]
  current _ := by rw [Pc.current_of_not_held hp, current]
  entering _ := by rw [Pc.entering_of_not_held hp, entering]
  making := Or.inl making

theorem next_view (hw : pc.wf me) (h : next s me o pc = some (a, k)) (hq : a.quiet) :
    SameView me pc k ∨ ∃ q st, Claim s pc k q st := by
  cases pc
  case wake ch i k' =>
    simp only [next] at h
    split at h
    next =>
      split at h <;> cases h <;> exact Or.inl ⟨fun _ => rfl, fun _ _ => rfl, fun _ => rfl, fun _ => rfl, .inl rfl⟩
    next =>
      cases h
      exact Or.inl (.back hw.1.2 rfl (fun _ => rfl) rfl rfl rfl)
  case yieldRel k' =>
    obtain ⟨p, rfl, h⟩ := map_eq_some_iff.mp h
    cases h
    exact Or.inl (.back (by simp [hw.2.1]) rfl (fun _ => rfl) rfl rfl rfl)
  case notifyRel d k' =>
    cases h
    exact Or.inl (.back (by simp [hw.1]) rfl (fun _ => rfl) rfl rfl rfl)
  all_goals
    simp only [next] at h
    repeat' split at h
  all_goals
    simp only [some.injEq, Prod.mk.injEq, map_eq_some_iff, reduceCtorEq] at h
  case forkTest.isTrue q hu =>
    obtain ⟨rfl, rfl⟩ := h
    exact Or.inr ⟨q, _, .fork hu⟩
  case waitTest.isTrue.isFalse addr q hz _ =>
    obtain ⟨rfl, rfl⟩ := h
    exact Or.inr ⟨q, _, .wait hz⟩
  case forkCopy.isFalse q _ =>
    obtain ⟨rfl, rfl⟩ := h
    exact Or.inl ⟨fun _ => rfl, fun _ _ => rfl, fun _ => rfl, fun _ => rfl, .inr ⟨q, rfl, rfl⟩⟩
  all_goals first
    | obtain ⟨rfl, rfl⟩ := h
    | obtain ⟨_, rfl, rfl, rfl⟩ := h
  all_goals first
    | exact hq.elim
    | exact Or.inl ⟨fun _ => rfl, fun _ _ => rfl, fun _ => rfl, fun _ => rfl, .inl rfl⟩
    | exact Or.inl ⟨fun _ => Site.runState_resume _, fun _ _ => Site.chan_resume _, fun _ => Site.current_resume _,
        fun _ => Site.entering_resume _, .inl (Site.making_resume _)⟩
    | exact Or.inl ⟨fun _ => Site.runState_alive _, fun _ _ => Site.chan_alive _, fun _ => Site.current_alive _,
        fun _ => Site.entering_alive _, .inl (Site.making_alive _)⟩

end Xv6.Smp
