import Mathlib
import Xv6.Lib.Run

namespace Xv6.ForkTrace

open Transition Option Function

abbrev Slot := Fin 64

/-- A sleeping process counts as runnable: it waits for the CPU. -/
inductive Status
  | unused
  | used
  | runnable
  | running
  | zombie
  deriving DecidableEq

/-- Where a process stands in `fork`, with the slot of the child: the child is set up, it has its
parent, it is `RUNNABLE` with its lock released. -/
inductive ForkPc
  | none
  | copied (child : Slot)
  | parented (child : Slot)
  | released (child : Slot)
  deriving DecidableEq

def ForkPc.child : ForkPc → Option Slot
  | .none => Option.none
  | .copied c | .parented c | .released c => some c

/-- A slot of the process table. `forkMask` and `called` record the mask of the parent when it called
`fork` and whether the process has made a system call since. -/
structure Proc where
  status : Status
  parent : Option Slot
  traceMask : BitVec 32
  forkPc : ForkPc
  forkMask : BitVec 32
  called : Bool
  deriving DecidableEq

abbrev Table := Slot → Proc

def free : Proc := ⟨.unused, none, 0, .none, 0, false⟩

section

local instance slots : NeZero 64 := ⟨by decide⟩

def initproc : Slot := 0

end

def booted : Table := fun p => if p = initproc then ⟨.running, none, 0, .none, 0, false⟩ else free

/-- The atomic steps. A step of `fork` is one critical section or one unprotected statement. -/
inductive Ev
  /-- `fork` by `p` up to the first release of the lock of the child in slot `c` -/
  | forkCopy (p c : Slot)
  /-- the assignment `np->parent = p` -/
  | forkParent (p : Slot)
  /-- the assignment `np->state = RUNNABLE` -/
  | forkRunnable (p : Slot)
  /-- the assignment `np->trace_mask = p->trace_mask` and the return -/
  | forkMask (p : Slot)
  | schedule (p : Slot)
  | preempt (p : Slot)
  | sysTrace (p : Slot) (mask : BitVec 32)
  /-- a call that leaves the process table as it was, a failing `fork` or `wait` included -/
  | sysOther (p : Slot)
  | sysExit (p : Slot)
  /-- the process is killed or faults, and `usertrap` calls `exit` -/
  | killed (p : Slot)
  /-- `wait` by `p` finds the zombie in slot `c` -/
  | sysWait (p c : Slot)
  deriving DecidableEq

def Ev.caller : Ev → Option Slot
  | .forkCopy p _ | .sysTrace p _ | .sysOther p | .sysExit p | .sysWait p _ => some p
  | _ => none

def Ready (s : Table) (p : Slot) : Prop := (s p).status = .running ∧ (s p).forkPc = .none

instance (s : Table) (p : Slot) : Decidable (Ready s p) := inferInstanceAs (Decidable (_ ∧ _))

def enter (s : Table) (p : Slot) : Table := update s p { s p with called := true }

def reparent (s : Table) (p : Slot) : Table :=
  fun q => if (s q).parent = some p then { s q with parent := some initproc } else s q

def exit (s : Table) (p : Slot) : Table :=
  let s := reparent s p
  update s p { s p with status := .zombie }

def step (s : Table) : Ev → Option Table
  | .forkCopy p c =>
    if Ready s p ∧ (s c).status = .unused then
      let s := enter s p
      let s := update s p { s p with forkPc := .copied c }
      some (update s c { s c with status := .used, forkMask := (s p).traceMask })
    else none
  | .forkParent p =>
    match (s p).status, (s p).forkPc with
    | .running, .copied c =>
      let s := update s p { s p with forkPc := .parented c }
      some (update s c { s c with parent := some p })
    | _, _ => none
  | .forkRunnable p =>
    match (s p).status, (s p).forkPc with
    | .running, .parented c =>
      let s := update s p { s p with forkPc := .released c }
      some (update s c { s c with status := .runnable })
    | _, _ => none
  | .forkMask p =>
    match (s p).status, (s p).forkPc with
    | .running, .released c =>
      let s := update s p { s p with forkPc := .none }
      some (update s c { s c with traceMask := (s p).traceMask })
    | _, _ => none
  | .schedule p =>
    if (s p).status = .runnable then some (update s p { s p with status := .running }) else none
  | .preempt p =>
    if (s p).status = .running then some (update s p { s p with status := .runnable }) else none
  | .sysTrace p mask =>
    if Ready s p then
      let s := enter s p
      some (if mask.toInt < 0 then s else update s p { s p with traceMask := mask })
    else none
  | .sysOther p => if Ready s p then some (enter s p) else none
  -- `exit` panics in init
  | .sysExit p => if Ready s p ∧ p ≠ initproc then some (exit (enter s p) p) else none
  | .killed p => if Ready s p ∧ p ≠ initproc then some (exit s p) else none
  | .sysWait p c =>
    if Ready s p ∧ (s c).status = .zombie ∧ (s c).parent = some p then
      some (update (enter s p) c free)
    else none

/-- The process in slot `c` may run, and `fork` has not stored its mask yet. -/
def StorePending (s : Table) (c : Slot) : Prop := ∃ p, (s p).forkPc = .released c

/-- No system call is made by a process whose mask is still to be stored. -/
def CallsAfterStore (s : Table) (e : Ev) : Prop := ∀ c, e.caller = some c → ¬ StorePending s c

instance (s : Table) (e : Ev) : Decidable (CallsAfterStore s e) :=
  inferInstanceAs (Decidable (∀ c, e.caller = some c → ¬ ∃ p, (s p).forkPc = .released c))

/-- What a step may do to the masks. At the first system call of a process its mask is the mask its
parent had at the `fork`; after that only its own `trace` changes the mask, until the slot is freed. -/
def Inherits (s : Table) (e : Ev) (s' : Table) : Prop :=
  ∀ c, (e.caller = some c → (s c).called = false → (s c).traceMask = (s c).forkMask) ∧
    ((s c).called = true → (s' c).traceMask ≠ (s c).traceMask →
      (∃ mask, e = .sysTrace c mask) ∨ ∃ p, e = .sysWait p c)

structure Forking (s : Table) (p c : Slot) : Prop where
  caller : (s p).called = true
  alive : (s p).status = .running ∨ (s p).status = .runnable
  taken : (s c).status ≠ .unused
  uncalled : (s c).called = false
  mask : (s c).forkMask = (s p).traceMask
  held : (s p).forkPc ≠ .released c → (s c).status = .used
  parent : (s p).forkPc ≠ .copied c → (s c).parent = some p

structure Inv (s : Table) : Prop where
  unused : ∀ c, (s c).status = .unused → s c = free
  forking : ∀ p c, (s p).forkPc.child = some c → Forking s p c
  unique : ∀ p q c, (s p).forkPc.child = some c → (s q).forkPc.child = some c → p = q
  stored : ∀ c, (s c).called = false → (∀ p, (s p).forkPc.child ≠ some c) → (s c).traceMask = (s c).forkMask

theorem booted_inv : Inv booted := by
  have hchild : ∀ p, (booted p).forkPc.child = none := by
    intro p
    unfold booted
    split <;> rfl
  refine ⟨?_, ?_, ?_, ?_⟩
  · intro c hc
    unfold booted at hc ⊢
    split at hc
    · simp at hc
    · next hne => rw [if_neg hne]
  · intro p c h
    simp [hchild] at h
  · intro p q c h
    simp [hchild] at h
  · intro c _ _
    unfold booted
    split <;> rfl

theorem Forking.ne {s : Table} {p c : Slot} (h : Forking s p c) : p ≠ c := by
  rintro rfl
  simpa [h.caller] using h.uncalled

inductive Step (s s' : Table) : Ev → Prop
  | forkCopy {p c} (ready : Ready s p) (found : (s c).status = .unused)
      (next : ∀ q, s' q = if q = c then { s c with status := .used, forkMask := (s p).traceMask }
        else if q = p then { s p with forkPc := .copied c, called := true } else s q) :
      Step s s' (.forkCopy p c)
  | forkParent {p c} (run : (s p).status = .running) (pc : (s p).forkPc = .copied c)
      (next : ∀ q, s' q = if q = c then { s c with parent := some p }
        else if q = p then { s p with forkPc := .parented c } else s q) :
      Step s s' (.forkParent p)
  | forkRunnable {p c} (run : (s p).status = .running) (pc : (s p).forkPc = .parented c)
      (next : ∀ q, s' q = if q = c then { s c with status := .runnable }
        else if q = p then { s p with forkPc := .released c } else s q) :
      Step s s' (.forkRunnable p)
  | forkMask {p c} (run : (s p).status = .running) (pc : (s p).forkPc = .released c)
      (next : ∀ q, s' q = if q = c then { s c with traceMask := (s p).traceMask }
        else if q = p then { s p with forkPc := .none } else s q) :
      Step s s' (.forkMask p)
  | schedule {p} (waits : (s p).status = .runnable)
      (next : ∀ q, s' q = if q = p then { s p with status := .running } else s q) : Step s s' (.schedule p)
  | preempt {p} (run : (s p).status = .running)
      (next : ∀ q, s' q = if q = p then { s p with status := .runnable } else s q) : Step s s' (.preempt p)
  | sysTrace {p mask} (ready : Ready s p)
      (next : ∀ q, s' q = if q = p then
        { s p with called := true, traceMask := if mask.toInt < 0 then (s p).traceMask else mask } else s q) :
      Step s s' (.sysTrace p mask)
  | sysOther {p} (ready : Ready s p)
      (next : ∀ q, s' q = if q = p then { s p with called := true } else s q) : Step s s' (.sysOther p)
  | sysExit {p} (ready : Ready s p)
      (next : ∀ q, s' q = if q = p then { reparent s p p with called := true, status := .zombie }
        else reparent s p q) : Step s s' (.sysExit p)
  | killed {p} (ready : Ready s p)
      (next : ∀ q, s' q = if q = p then { reparent s p p with status := .zombie } else reparent s p q) :
      Step s s' (.killed p)
  | sysWait {p c} (ready : Ready s p) (zombie : (s c).status = .zombie) (parent : (s c).parent = some p)
      (next : ∀ q, s' q = if q = c then free else if q = p then { s p with called := true } else s q) :
      Step s s' (.sysWait p c)

theorem reparent_enter (s : Table) (p : Slot) :
    reparent (enter s p) p = update (reparent s p) p { reparent s p p with called := true } := by
  funext q
  rcases eq_or_ne q p with rfl | hq
  · by_cases hparent : (s q).parent = some q <;> simp [reparent, enter, hparent]
  · simp [reparent, enter, hq]

theorem step_cases {s s' : Table} {e : Ev} (hinv : Inv s) (h : step s e = some s') : Step s s' e := by
  cases e with
  | forkCopy p c =>
    simp only [step] at h
    split at h
    next hg =>
      cases some.inj h
      have hne : p ≠ c := by
        rintro rfl
        simp [hg.1.1] at hg
      refine .forkCopy hg.1 hg.2 fun q => ?_
      rcases eq_or_ne q c with rfl | hq
      · simp [enter, hne.symm]
      · simp [enter, hq, update_apply]
    next => cases h
  | forkParent p | forkRunnable p | forkMask p =>
    simp only [step] at h
    split at h
    next c hrun hpc =>
      cases some.inj h
      have hne := (hinv.forking p c (by rw [hpc]; rfl)).ne
      constructor
      · exact hrun
      · exact hpc
      · intro q
        simp [update_apply, hne.symm]
    next => cases h
  | schedule p | preempt p | sysOther p =>
    obtain ⟨hg, hs⟩ := ite_none_right_eq_some.mp h
    cases some.inj hs
    exact by constructor; exacts [hg, fun q => update_apply s p _ q]
  | sysTrace p mask =>
    simp only [step] at h
    split at h
    next hg =>
      cases some.inj h
      refine .sysTrace hg fun q => ?_
      split <;> simp [enter, update_apply]
      split <;> rfl
    next => cases h
  | sysExit p =>
    obtain ⟨hg, hs⟩ := ite_none_right_eq_some.mp h
    cases some.inj hs
    refine .sysExit hg.1 fun q => ?_
    rw [exit, reparent_enter, update_idem, update_self]
    exact update_apply (reparent s p) p _ q
  | killed p =>
    obtain ⟨hg, hs⟩ := ite_none_right_eq_some.mp h
    cases some.inj hs
    exact .killed hg.1 fun q => update_apply (reparent s p) p _ q
  | sysWait p c =>
    obtain ⟨⟨hr, hz, hp⟩, hs⟩ := ite_none_right_eq_some.mp h
    cases some.inj hs
    exact .sysWait hr hz hp fun q => by simp [enter, update_apply]

theorem Step.caller_ready {s s' : Table} {e : Ev} {p : Slot} (h : Step s s' e) (he : e.caller = some p) :
    Ready s p := by
  cases h <;> cases he <;> assumption

theorem Inv.not_child {s : Table} {p : Slot} (hinv : Inv s) (hrun : (s p).status = .running)
    (hstore : ¬ StorePending s p) (q : Slot) : (s q).forkPc.child ≠ some p := by
  intro hchild
  have hheld := (hinv.forking q p hchild).held fun hreleased => hstore ⟨q, hreleased⟩
  rw [hrun] at hheld
  cases hheld


@[grind =]
theorem reparent_apply (s : Table) (p q : Slot) :
    reparent s p q = { s q with parent := if (s q).parent = some p then some initproc else (s q).parent } := by
  unfold reparent
  split <;> rfl

section Preservation

variable {s s' : Table} {e : Ev} (hinv : Inv s) (h : Step s s' e)

include hinv h

theorem step_unused (c : Slot) (hc : (s' c).status = .unused) : s' c = free := by
  have hu := hinv.unused c
  cases h with
  | @forkParent p c run pc next | @forkRunnable p c run pc next | @forkMask p c run pc next =>
    have hf := hinv.forking p c (by rw [pc]; rfl)
    grind -ring -linarith [Forking]
  | _ => grind -ring -linarith [Ready, free]

theorem step_unique (p q c : Slot) (hp : (s' p).forkPc.child = some c) (hq : (s' q).forkPc.child = some c) :
    p = q := by
  have hf := hinv.forking
  have hq := hinv.unique p q c
  cases h <;> grind -ring -linarith [ForkPc.child, Forking, free]

theorem step_forking (hc : CallsAfterStore s e) (p c : Slot) (hp : (s' p).forkPc.child = some c) :
    Forking s' p c := by
  have hcaller : ∀ p, e.caller = some p → (s p).status = .running → ∀ q, (s q).forkPc.child ≠ some p :=
    fun p he hrun => hinv.not_child hrun (hc p he)
  have hf := hinv.forking p c
  have hq := hinv.unique 
  have hu := hinv.unused c
  clear hc
  cases h with
  | @forkParent p c run pc next | @forkRunnable p c run pc next | @forkMask p c run pc next =>
    have hf' := hinv.forking p c (by rw [pc]; rfl)
    grind -ext -ring -linarith [Forking, ForkPc.child]
  | _ => grind -ext -ring -linarith [ForkPc.child, Forking, free, Ev.caller, Ready]

theorem step_stored (c : Slot) (hc : (s' c).called = false) (hp : ∀ p, (s' p).forkPc.child ≠ some c) :
    (s' c).traceMask = (s' c).forkMask := by
  have hm := hinv.stored c
  have hf := hinv.forking
  cases h with
  | @sysExit p ready next | @killed p ready next =>
    have hpc : ∀ q, (s' q).forkPc = (s q).forkPc := fun q => by grind
    simp only [hpc] at hp
    grind -ext -ring -linarith
  | _ => grind -ext -ring -linarith [ForkPc.child, Forking, free, Ready]

theorem step_inv (hc : CallsAfterStore s e) : Inv s' where
  unused := step_unused hinv h
  forking := step_forking hinv h hc
  unique := step_unique hinv h
  stored := step_stored hinv h

theorem step_inherits (hc : CallsAfterStore s e) : Inherits s e s' := by
  intro c
  refine ⟨fun hcall hfirst => hinv.stored c hfirst ?_, fun hcalled hchange => ?_⟩
  · exact hinv.not_child (h.caller_ready hcall).1 (hc c hcall)
  · have hu := hinv.unused c
    cases h with
    | @forkMask p d run pc next =>
      have hd := (hinv.forking p d (by rw [pc]; rfl)).uncalled
      grind -ext -ring -linarith
    | _ => grind -ext -ring -linarith [free]

end Preservation

theorem run_inv {evs : List Ev} {s : Table} (h : Run (guarded step CallsAfterStore) booted evs s) : Inv s := by
  induction h with
  | nil => exact booted_inv
  | snoc _ hs hinv =>
    obtain ⟨hc, hs⟩ := guarded_eq_some.mp hs
    exact step_inv hinv (step_cases hinv hs) hc

/-- In a run in which no process makes a system call before the `fork` that made it has stored its
mask, every process starts with the mask of its parent and only its own calls of `trace` change it. -/
theorem fork_traceMask_inherited {evs : List Ev} {s s' : Table} {e : Ev}
    (h : Run (guarded step CallsAfterStore) booted evs s) (hs : guarded step CallsAfterStore s e = some s') :
    Inherits s e s' := by
  have hinv := run_inv h
  obtain ⟨hc, hs⟩ := guarded_eq_some.mp hs
  exact step_inherits hinv (step_cases hinv hs) hc

def patientChild : List Ev :=
  [.sysTrace 0 2, .forkCopy 0 1, .forkParent 0, .forkRunnable 0, .schedule 1, .forkMask 0]

theorem patientChild_inherits :
    ∃ s s', Run (guarded step CallsAfterStore) booted patientChild s ∧
      guarded step CallsAfterStore s (.sysTrace 1 4) = some s' ∧
      (s 1).traceMask = 2 ∧ (s' 1).traceMask = 4 ∧ Inherits s (.sysTrace 1 4) s' := by
  have hmasks : ((exec (guarded step CallsAfterStore) booted patientChild).bind fun s =>
      (guarded step CallsAfterStore s (.sysTrace 1 4)).map fun s' => ((s 1).traceMask, (s' 1).traceMask)) =
      some (2, 4) := by decide +kernel
  obtain ⟨s, hrun, hs⟩ := bind_eq_some_iff.mp hmasks
  obtain ⟨s', hs', heq⟩ := map_eq_some_iff.mp hs
  obtain ⟨h2, h4⟩ := Prod.mk.inj heq
  exact ⟨s, s', run_of_exec hrun, hs', h2, h4, fork_traceMask_inherited (run_of_exec hrun) hs'⟩

/-- Init sets its mask and forks, and the child has the CPU before the mask is stored. -/
def hastyChild : List Ev :=
  [.sysTrace 0 2, .forkCopy 0 1, .forkParent 0, .forkRunnable 0, .schedule 1]

/-- The first call of the child is made with mask 0 instead of 2, and the mask 4 that it sets is then
overwritten with 2 by the `fork` of its parent. -/
theorem hastyChild_loses_mask :
    ∃ s t u, Run step booted hastyChild s ∧ step s (.sysTrace 1 4) = some t ∧ step t (.forkMask 0) = some u ∧
      (s 1).traceMask = 0 ∧ (s 1).forkMask = 2 ∧ ¬ Inherits s (.sysTrace 1 4) t ∧
      (t 1).traceMask = 4 ∧ (u 1).traceMask = 2 ∧ ¬ Inherits t (.forkMask 0) u := by
  have hmasks : ((exec step booted hastyChild).bind fun s => (step s (.sysTrace 1 4)).bind fun t =>
      (step t (.forkMask 0)).map fun u => ((s 1).called, (s 1).traceMask, (s 1).forkMask,
        (t 1).called, (t 1).traceMask, (u 1).traceMask)) = some (false, 0, 2, true, 4, 2) := by
    decide +kernel
  obtain ⟨s, hrun, hs⟩ := bind_eq_some_iff.mp hmasks
  obtain ⟨t, ht, hs⟩ := bind_eq_some_iff.mp hs
  obtain ⟨u, hu, heq⟩ := map_eq_some_iff.mp hs
  simp only [Prod.mk.injEq] at heq
  obtain ⟨hfirst, hs0, hs2, hcalled, ht4, hu2⟩ := heq
  refine ⟨s, t, u, run_of_exec hrun, ht, hu, hs0, hs2, fun h => ?_, ht4, hu2, fun h => ?_⟩
  · have hmask := (h 1).1 rfl hfirst
    rw [hs0, hs2] at hmask
    exact absurd hmask (by decide)
  · have hchange : (u 1).traceMask ≠ (t 1).traceMask := by
      rw [ht4, hu2]
      decide
    obtain ⟨_, he⟩ | ⟨_, he⟩ := (h 1).2 hcalled hchange <;> cases he

end Xv6.ForkTrace
