import Mathlib
import Xv6.Lib.Run

/-!
The nesting of `push_off` and `pop_off`. `noff` and `intena` are fields of the CPU, but belong to the thread that runs on it: a
thread that is switched out in `sched` takes `intena` along and may go on with another CPU. An `acquire` begins with a `push_off`,
a `release` ends with a `pop_off`.
-/

namespace Xv6.Interrupts

open Function

/-- `struct cpu`, with the interrupt flag of the CPU. -/
structure Cpu where
  noff : Int
  intena : Bool
  intr : Bool

/-- `push_off` after `old = intr_get()`. From `intr_off()` on nothing else runs on this CPU. -/
def Cpu.pushOff (c : Cpu) (old : Bool) : Cpu where
  intr := false
  intena := if c.noff = 0 then old else c.intena
  noff := c.noff + 1

/-- `pop_off`; `none` is a panic. -/
def Cpu.popOff (c : Cpu) : Option Cpu :=
  if c.intr = true ∨ c.noff < 1 then none
  else some { c with noff := c.noff - 1, intr := c.noff - 1 = 0 ∧ c.intena = true }

inductive Place (C : Type)
  | running (c : C)
  /-- has not run yet; starts in `forkret` -/
  | fresh
  /-- in `swtch` of `sched`, with the local `intena` -/
  | waits (intena : Bool)

structure Thread (C : Type) where
  place : Place C
  /-- the calls of `push_off` without their `pop_off` -/
  depth : Nat
  /-- `old` of the calls of `push_off` that have only read the interrupt flag -/
  pending : List Bool
  /-- `old` of the outermost `push_off`; `none` for the lock that `forkret` gets from the scheduler -/
  entry : Option Bool

/-- The kernel threads of processes, and the thread of the scheduler of each CPU. -/
structure State (P C : Type) where
  cpu : C → Cpu
  cur : C → P ⊕ C
  thread : P ⊕ C → Thread C

inductive Ev (P C : Type)
  /-- `intr_on`, `intr_off`, a trap or the return from one, with no lock held -/
  | setIntr (c : C) (v : Bool)
  /-- `old = intr_get()` in `push_off`; a timer interrupt can come after it -/
  | readIntr (c : C)
  | pushOff (c : C)
  | popOff (c : C)
  /-- `sched` up to `swtch` -/
  | sched (c : C)
  /-- the `swtch` of the scheduler to `p`, and what `p` does next in `sched` -/
  | resume (c : C) (p : P)

section Steps

variable {P C : Type} [DecidableEq P] [DecidableEq C]

/-- CPU `c` becomes `k`, with `x` running on it; thread `y` becomes `t`. -/
def State.change (s : State P C) (c : C) (k : Cpu) (x y : P ⊕ C) (t : Thread C) : State P C :=
  ⟨update s.cpu c k, update s.cur c x, update s.thread y t⟩

def step (s : State P C) : Ev P C → Option (State P C)
  | .setIntr c v =>
    let t := s.thread (s.cur c)
    if t.depth = 0 then some (s.change c { s.cpu c with intr := v } (s.cur c) (s.cur c) t) else none
  | .readIntr c =>
    let t := s.thread (s.cur c)
    some (s.change c (s.cpu c) (s.cur c) (s.cur c) { t with pending := (s.cpu c).intr :: t.pending })
  | .pushOff c =>
    let t := s.thread (s.cur c)
    match t.pending with
    | [] => none
    | old :: rest =>
      some (s.change c ((s.cpu c).pushOff old) (s.cur c) (s.cur c) { t with
        depth := t.depth + 1, pending := rest, entry := if t.depth = 0 then some old else t.entry })
  | .popOff c =>
    let t := s.thread (s.cur c)
    if t.depth = 0 then none
    else (s.cpu c).popOff.map fun k => s.change c k (s.cur c) (s.cur c) { t with depth := t.depth - 1 }
  | .sched c =>
    match s.cur c with
    | .inr _ => none
    | .inl p =>
      if (s.cpu c).noff ≠ 1 ∨ (s.cpu c).intr = true then none
      else some (s.change c (s.cpu c) (.inr c) (.inl p) { s.thread (.inl p) with place := .waits (s.cpu c).intena })
  | .resume c p =>
    let t := s.thread (.inl p)
    if s.cur c = .inr c ∧ (s.thread (.inr c)).depth = 1 then
      match t.place with
      | .running _ => none
      | .fresh => some (s.change c (s.cpu c) (.inl p) (.inl p) { t with place := .running c, depth := 1, entry := none })
      | .waits i => some (s.change c { s.cpu c with intena := i } (.inl p) (.inl p) { t with place := .running c })
    else none

def start : State P C where
  cpu _ := ⟨0, false, false⟩
  cur c := .inr c
  thread
    | .inl _ => ⟨.fresh, 0, [], none⟩
    | .inr c => ⟨.running c, 0, [], none⟩

end Steps

section Invariant

variable {P C : Type}

structure Fits (c : C) (k : Cpu) (t : Thread C) : Prop where
  place : t.place = .running c
  noff : k.noff = t.depth
  off : 0 < t.depth → k.intr = false

def Keeps (intena : Bool) (t : Thread C) : Prop := ∀ b, t.entry = some b → 0 < t.depth → intena = b

structure Inv (s : State P C) : Prop where
  home : ∀ c, (s.thread (.inr c)).place = .running c
  fits : ∀ c, Fits c (s.cpu c) (s.thread (s.cur c))
  keeps : ∀ c p, s.cur c = .inl p → Keeps (s.cpu c).intena (s.thread (.inl p)) ∧ (s.thread (.inr c)).depth = 1
  waits : ∀ p i, (s.thread (.inl p)).place = .waits i → (s.thread (.inl p)).depth = 1 ∧ Keeps i (s.thread (.inl p))

variable {s s' : State P C} {c : C} {k : Cpu} {x y : P ⊕ C} {t : Thread C} {e : Ev P C} {p : P}

theorem start_inv : Inv (start : State P C) where
  home _ := rfl
  fits _ := ⟨rfl, rfl, fun h => absurd h (lt_irrefl 0)⟩
  keeps _ _ h := by cases h
  waits _ _ h := by cases h

theorem Inv.keeps_cur (h : Inv s) (hp : s.cur c = .inl p) : Keeps (s.cpu c).intena (s.thread (s.cur c)) := hp ▸ (h.keeps c p hp).1

theorem Fits.popOff (h : Fits c k t) (hpos : t.depth ≠ 0) :
    k.popOff = some { k with noff := k.noff - 1, intr := k.noff - 1 = 0 ∧ k.intena = true } := by
  have hnoff := h.noff
  rw [Cpu.popOff, if_neg]
  rw [h.off (by omega)]
  simp only [Bool.false_eq_true, false_or]
  omega

variable [DecidableEq P] [DecidableEq C]

theorem Inv.change (h : Inv s) (hy : ∀ d, d ≠ c → (s.thread y).place ≠ .running d) (hfits : Fits c k (update s.thread y t x))
    (hkeeps : ∀ p, x = .inl p → Keeps k.intena (update s.thread y t x) ∧ (update s.thread y t (.inr c)).depth = 1)
    (hhome : ∀ d, y = .inr d → t.place = .running d) (hwaits : ∀ i, t.place = .waits i → t.depth = 1 ∧ Keeps i t) :
    Inv (s.change c k x y t) := by
  have hcur : ∀ d, d ≠ c → s.cur d ≠ y := fun d hd heq => hy d hd (heq ▸ (h.fits d).place)
  refine ⟨fun d => ?_, fun d => ?_, fun d p hd => ?_, fun p i hp => ?_⟩
  · show (update s.thread y t (.inr d)).place = _
    by_cases heq : Sum.inr d = y
    · rw [heq, update_self, hhome d heq.symm]
    · rw [update_of_ne heq, h.home d]
  · show Fits d (update s.cpu c k d) (update s.thread y t (update s.cur c x d))
    by_cases hd : d = c
    · subst hd
      rwa [update_self, update_self]
    · rw [update_of_ne hd, update_of_ne hd, update_of_ne (hcur d hd)]
      exact h.fits d
  · show Keeps (update s.cpu c k d).intena (update s.thread y t (.inl p)) ∧ (update s.thread y t (.inr d)).depth = 1
    have hd : update s.cur c x d = .inl p := hd
    by_cases hdc : d = c
    · subst hdc
      rw [update_self] at hd ⊢
      exact hd ▸ hkeeps p hd
    · rw [update_of_ne hdc] at hd ⊢
      have hsched : Sum.inr d ≠ y := fun heq => hy d hdc (heq ▸ h.home d)
      rw [update_of_ne (hd ▸ hcur d hdc), update_of_ne hsched]
      exact h.keeps d p hd
  · have hp : (update s.thread y t (.inl p)).place = .waits i := hp
    show (update s.thread y t (.inl p)).depth = 1 ∧ Keeps i (update s.thread y t (.inl p))
    by_cases heq : Sum.inl p = y
    · rw [heq, update_self] at hp ⊢
      exact hwaits i hp
    · rw [update_of_ne heq] at hp ⊢
      exact h.waits p i hp

theorem Inv.own (h : Inv s) (hfits : Fits c k t) (hkeeps : ∀ p, s.cur c = .inl p → Keeps k.intena t) :
    Inv (s.change c k (s.cur c) (s.cur c) t) := by
  have hplace := (h.fits c).place
  refine h.change (fun d hd heq => ?_) (by rwa [update_self]) (fun p hp => ?_) (fun d hd => ?_) fun i hi => ?_
  · rw [hplace, Place.running.injEq] at heq
    exact hd heq.symm
  · rw [update_self, hp, update_of_ne (by simp)]
    exact ⟨hkeeps p hp, (h.keeps c p hp).2⟩
  · have hd' := h.home d
    rw [← hd, hplace] at hd'
    rw [hfits.place, hd']
  · rw [hfits.place] at hi
    cases hi

theorem Inv.sched (h : Inv s) (hc : s.cur c = .inl p) (hone : (s.cpu c).noff = 1) (hintr : (s.cpu c).intr = false) :
    Inv (s.change c (s.cpu c) (.inr c) (.inl p) { s.thread (.inl p) with place := .waits (s.cpu c).intena }) := by
  have hfits := h.fits c
  rw [hc] at hfits
  have hnoff := hfits.noff
  have hleft := (h.keeps c p hc).2
  refine h.change (fun d hd heq => ?_) ?_ (fun q hq => by cases hq) (fun d hd => by cases hd) fun i hi => ?_
  · rw [hfits.place, Place.running.injEq] at heq
    exact hd heq.symm
  · rw [update_of_ne (by simp)]
    exact ⟨h.home c, by omega, fun _ => hintr⟩
  · cases hi
    exact ⟨by simp only; omega, (h.keeps c p hc).1⟩

theorem Inv.resume (h : Inv s) (hc : s.cur c = .inr c) (hdepth : (s.thread (.inr c)).depth = 1)
    (hout : ∀ d, (s.thread (.inl p)).place ≠ .running d) (hplace : t.place = .running c) (hone : t.depth = 1)
    (hnoff : k.noff = (s.cpu c).noff) (hintr : k.intr = (s.cpu c).intr) (hkeeps : Keeps k.intena t) :
    Inv (s.change c k (.inl p) (.inl p) t) := by
  have hfits := h.fits c
  rw [hc] at hfits
  have hdepths := hfits.noff
  refine h.change (fun d _ => hout d) ?_ (fun q _ => ?_) (fun d hd => by cases hd) fun i hi => ?_
  · rw [update_self]
    exact ⟨hplace, by omega, fun _ => hintr.trans (hfits.off (by omega))⟩
  · rw [update_self, update_of_ne (by simp)]
    exact ⟨hkeeps, hdepth⟩
  · rw [hplace] at hi
    cases hi

theorem Inv.step (h : Inv s) (hs : step s e = some s') : Inv s' := by
  cases e with
  | setIntr c v =>
    obtain ⟨hdepth, rfl⟩ : (s.thread (s.cur c)).depth = 0 ∧ _ := by simpa [Interrupts.step] using hs
    have hfits := h.fits c
    exact h.own ⟨hfits.place, hfits.noff, fun hpos => by omega⟩ fun p hp => h.keeps_cur hp
  | readIntr c =>
    cases hs
    have hfits := h.fits c
    exact h.own ⟨hfits.place, hfits.noff, hfits.off⟩ fun p hp => h.keeps_cur hp
  | pushOff c =>
    simp only [Interrupts.step] at hs
    split at hs
    next => cases hs
    next old rest hpending =>
      cases hs
      have hfits := h.fits c
      have hnoff := hfits.noff
      refine h.own ⟨hfits.place, by simp [Cpu.pushOff, hnoff], fun _ => rfl⟩ fun p hp b hb _ => ?_
      simp only [Cpu.pushOff, hnoff, Int.natCast_eq_zero] at hb ⊢
      split at hb
      next hzero => rw [if_pos hzero, Option.some.inj hb]
      next hpos =>
        rw [if_neg hpos]
        exact h.keeps_cur hp b hb (Nat.pos_of_ne_zero hpos)
  | popOff c =>
    have hfits := h.fits c
    simp only [Interrupts.step] at hs
    split at hs
    next => cases hs
    next hpos =>
      rw [hfits.popOff hpos] at hs
      cases hs
      have hnoff := hfits.noff
      refine h.own ⟨hfits.place, by simp only; omega, fun hmore => ?_⟩ fun p hp b hb hmore => ?_
      · have hne : ¬ (s.cpu c).noff - 1 = 0 := by simp only at hmore; omega
        simp [hne]
      · exact h.keeps_cur hp b hb (by omega)
  | sched c =>
    simp only [Interrupts.step] at hs
    split at hs
    next => cases hs
    next p hc =>
      split at hs
      next => cases hs
      next hok =>
        cases hs
        obtain ⟨hone, hintr⟩ := not_or.mp hok
        exact h.sched hc (not_not.mp hone) (eq_false_of_ne_true hintr)
  | resume c p =>
    simp only [Interrupts.step] at hs
    split at hs
    next hin =>
      split at hs
      next => cases hs
      next hplace =>
        cases hs
        exact h.resume hin.1 hin.2 (fun d hd => by simp [hplace] at hd) rfl rfl rfl rfl fun b hb => by cases hb
      next i hplace =>
        cases hs
        obtain ⟨hone, hkeeps⟩ := h.waits p i hplace
        exact h.resume hin.1 hin.2 (fun d hd => by simp [hplace] at hd) rfl hone rfl rfl hkeeps
    next => cases hs

/-- In every run: interrupts are off while `noff > 0`, `noff` is not negative, no `pop_off` panics, and the one that matches the
outermost `push_off` of a process leaves interrupts as that `push_off` found them, whatever CPU the thread is on by then. -/
theorem interrupts_restored {evs : List (Ev P C)} (h : Transition.Run step (start : State P C) evs s) :
    (∀ c, 0 < (s.cpu c).noff → (s.cpu c).intr = false) ∧ (∀ c, 0 ≤ (s.cpu c).noff) ∧
      ∀ c, 0 < (s.thread (s.cur c)).depth → ∃ s', step s (.popOff c) = some s' ∧
        ∀ p b, s.cur c = .inl p → (s.thread (.inl p)).depth = 1 → (s.thread (.inl p)).entry = some b → (s'.cpu c).intr = b := by
  have hinv : Inv s := Transition.Run.invariant (P := fun _ s => Inv s) start_inv (fun _ hs hstep => hs.step hstep) h
  refine ⟨fun c hpos => ?_, fun c => ?_, fun c hpos => ?_⟩
  · have hnoff := (hinv.fits c).noff
    exact (hinv.fits c).off (by omega)
  · rw [(hinv.fits c).noff]
    exact Int.natCast_nonneg _
  · have hnoff := (hinv.fits c).noff
    simp only [step]
    rw [if_neg hpos.ne', (hinv.fits c).popOff hpos.ne']
    refine ⟨_, rfl, fun p b hp hone hb => ?_⟩
    have hintena := (hinv.keeps c p hp).1 b hb (by omega)
    rw [hp, hone] at hnoff
    simp [State.change, hnoff, hintena]

/-- A process with interrupts on takes its lock, gives up CPU 0 and goes on with CPU 1, whose scheduler had them off. -/
def migrates : List (Ev Nat Nat) :=
  [.setIntr 0 true, .readIntr 0, .pushOff 0, .resume 0 7, .popOff 0, .setIntr 0 true, .readIntr 0, .pushOff 0, .sched 0,
    .readIntr 1, .pushOff 1, .resume 1 7]

def migrated : State Nat Nat := (Transition.exec step start migrates).getD start

theorem interrupts_restored_migrated : ∃ s', step migrated (.popOff 1) = some s' ∧ (s'.cpu 1).intr = true := by
  have hsome : (Transition.exec step start migrates).isSome = true := by decide +kernel
  obtain ⟨m, hm⟩ := Option.isSome_iff_exists.mp hsome
  have hrun : Transition.Run step start migrates migrated := by
    rw [migrated, hm]
    exact Transition.run_of_exec hm
  obtain ⟨s', hs, hintr⟩ := (interrupts_restored hrun).2.2 1 (by decide +kernel)
  exact ⟨s', hs, hintr 7 true (by decide +kernel) (by decide +kernel) (by decide +kernel)⟩

end Invariant

end Xv6.Interrupts
