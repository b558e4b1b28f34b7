import Xv6.Smp.KillSleep
import Xv6.Smp.Pipes

namespace Xv6.Smp

open Locks Transition Option State Function

variable {C : Type*} {s t : State C} {me : Option Slot} {o n pi : Nat} {pc k : Pc} {a : Act} {p q r : Slot} {c d : C}
  {l : Lock} {σ : Site} {ch : Chan}

def Chan.pipe? : Chan → Option Nat
  | .nread pi | .nwrite pi => some pi
  | _ => none

/-- There is nothing to do for a process that sleeps on the channel. -/
def State.Idle (s : State C) : Chan → Prop
  | .nread pi => (s.pipe pi).empty ∧ (s.pipe pi).writeopen
  | .nwrite pi => (s.pipe pi).full ∧ (s.pipe pi).readopen
  | _ => True

def State.Open (s : State C) : Chan → Prop
  | .nread pi => (s.pipe pi).readopen ∧ (s.pipe pi).writeopen
  | .nwrite pi => (s.pipe pi).readopen
  | _ => True

/-- A loop that ends with `wakeup(ch)`. -/
def Pc.owes (ch : Chan) : Pc → Prop
  | .writeLoop w | .writeFull w | .writePut w
  | .killedAcq (.pipewrite w) | .killedRead (.pipewrite w) | .killedRel (.pipewrite w) _ => ch = .nread w.pi
  | .readLoop r | .readGet r | .readOut r => ch = .nwrite r.pi
  | _ => False

structure PipeInv (s : State C) : Prop where
  ok : ∀ p, s.PipeOk (s.ppc p)
  /-- a process dozes on a channel with nothing to do, or the thread that has locked the pipe wakes it
  before it releases the lock -/
  doze : ∀ {p ch pi}, s.Dozing p ch → ch.pipe? = some pi → s.Idle ch ∨
    ∃ c, Lock.pipe pi ∈ s.heldBy c ∧ ((s.pc c).pending ch p ∨ (s.pc c).owes ch ∧ s.Open ch)

theorem State.Idle.congr (h : s.Idle ch) (hp : ∀ pi, ch.pipe? = some pi → t.pipe pi = s.pipe pi) : t.Idle ch := by
  cases ch with
  | nread pi | nwrite pi =>
    rw [State.Idle, hp pi rfl]
    exact h
  | _ => trivial

theorem State.Open.congr (h : s.Open ch) (hp : ∀ pi, ch.pipe? = some pi → t.pipe pi = s.pipe pi) : t.Open ch := by
  cases ch with
  | nread pi | nwrite pi =>
    rw [State.Open, hp pi rfl]
    exact h
  | _ => trivial

theorem next_owes (hp : pc.owes ch) (hpi : ch.pipe? = some pi) (hopen : s.Open ch) (h : next s me o pc = some (a, k)) :
    (Lock.pipe pi ∈ k.held me ∧ (k.owes ch ∨ ∀ p, k.pending ch p)) ∨
      ∃ w, pc = .killedRel (.pipewrite w) true ∧ ch = .nread w.pi := by
  have hloop : ∀ {ch' k'}, ch' = ch → Lock.pipe pi ∈ k'.held me →
      Lock.pipe pi ∈ Pc.held me (.wake ch' 0 k') ∧ (Pc.owes ch (.wake ch' 0 k') ∨ ∀ p, Pc.pending ch p (.wake ch' 0 k')) :=
    fun he hl => ⟨hl, .inr fun p => ⟨he, Nat.zero_le _⟩⟩
  cases pc with
  | writeLoop w =>
    subst hp
    cases hpi
    simp only [next, hopen.1, if_true] at h
    split at h <;> cases h
    · exact .inl ⟨by simp [Pc.held, Site.lock], .inl rfl⟩
    · exact .inl (hloop rfl (by simp [Pc.held]))
  | writeFull w =>
    subst hp
    cases hpi
    simp only [next] at h
    split at h <;> cases h
    · exact .inl (hloop rfl (by simp [Pc.held, Site.lock]))
    · exact .inl ⟨by simp [Pc.held], .inl rfl⟩
  | writePut | readLoop | readOut =>
    subst hp
    cases hpi
    simp only [next] at h
    split at h <;> cases h
    · exact .inl ⟨by simp [Pc.held], .inl rfl⟩
    · exact .inl (hloop rfl (by simp [Pc.held]))
  | killedAcq σ | killedRead σ =>
    cases σ with
    | pipewrite w =>
      subst hp
      cases hpi
      obtain ⟨p, rfl, h⟩ := map_eq_some_iff.mp h
      cases h
      exact .inl ⟨by simp [Pc.held, Site.lock], .inl rfl⟩
    | _ => exact hp.elim
  | killedRel σ b =>
    cases σ with
    | pipewrite w =>
      subst hp
      cases hpi
      obtain ⟨p, rfl, h⟩ := map_eq_some_iff.mp h
      cases b with
      | true => exact .inr ⟨w, rfl, rfl⟩
      | false =>
        cases h
        exact .inl ⟨by simp [Pc.held, Site.alive], .inl rfl⟩
    | _ => exact hp.elim
  | readGet r =>
    subst hp
    cases hpi
    cases h
    exact .inl ⟨by simp [Pc.held], .inl rfl⟩
  | _ => exact hp.elim

theorem owes_stays (hp : pc.owes ch) (h : next s me o pc = some (a, k)) :
    a ≠ .swtch ∧ (∀ q, a ≠ .swtchTo q) ∧ ∀ pi b, a ≠ .close pi b := by
  cases pc with
  | killedAcq | killedRead | killedRel =>
    obtain ⟨p, -, h⟩ := map_eq_some_iff.mp h
    cases h
    exact ⟨(by rintro ⟨⟩), (by rintro _ ⟨⟩), (by rintro _ _ ⟨⟩)⟩
  | writeLoop | writeFull | writePut | readLoop | readGet | readOut =>
    simp only [next] at h
    repeat' split at h
    all_goals cases h; exact ⟨(by rintro ⟨⟩), (by rintro _ ⟨⟩), (by rintro _ _ ⟨⟩)⟩
  | _ => exact hp.elim

instance (s : State C) (p : Slot) (ch : Chan) : Decidable (s.Dozing p ch) :=
  decidable_of_iff ((s.ppc p).doze.map (Site.chan p) = some ch ∧ ((s.ppc p).resumable → (s.proc p).state = .sleeping)) (by
    simp only [State.Dozing, map_eq_some_iff])

/-- A `pipewrite` that gives up because its process is killed leaves no byte to a process that sleeps on
`&pi->nread`. -/
def WritersWake (s : State C) : Ev C → Prop
  | .run c _ =>
    match s.pc c with
    | .killedRel (.pipewrite w) true => (s.pipe w.pi).empty ∨ ∀ p, ¬ s.Dozing p (.nread w.pi)
    | _ => True
  | _ => True

def State.writersWake (s : State C) : Ev C → Bool
  | .run c _ =>
    match s.pc c with
    | .killedRel (.pipewrite w) true => decide ((s.pipe w.pi).empty ∨ ∀ p, ¬ s.Dozing p (.nread w.pi))
    | _ => true
  | _ => true

theorem State.writersWake_iff (s : State C) (e : Ev C) : s.writersWake e = true ↔ WritersWake s e := by
  cases e with
  | run c o =>
    simp only [writersWake, WritersWake]
    cases s.pc c with
    | killedRel σ b => cases σ <;> cases b <;> simp only [decide_eq_true_eq]
    | _ => simp only
  | _ => simp only [writersWake, WritersWake]

instance (s : State C) (e : Ev C) : Decidable (WritersWake s e) :=
  decidable_of_iff (s.writersWake e = true) (s.writersWake_iff e)

section
variable [DecidableEq C]

theorem State.Open.kept (hopen : s.Open ch) (ha : a.run c me s = some t) (hclose : ∀ pi b, a ≠ .close pi b) :
    t.Open ch := by
  have hends : ∀ pi, (t.pipe pi).readopen = (s.pipe pi).readopen ∧ (t.pipe pi).writeopen = (s.pipe pi).writeopen := by
    intro pi
    cases a with
    | put w b =>
      cases ha
      by_cases hpi : pi = w.pi
      · subst hpi
        simp [Pipe.put]
      · simp [hpi]
    | get r =>
      cases ha
      by_cases hpi : pi = r.pi
      · subst hpi
        simp [Pipe.get]
      · simp [hpi]
    | close pi b => exact absurd rfl (hclose pi b)
    | _ => rw [Act.run_dry (by trivial) ha]; exact ⟨rfl, rfl⟩
  cases ch with
  | nread pi | nwrite pi =>
    simp only [State.Open, hends] at hopen ⊢
    exact hopen
  | _ => trivial

namespace PipeInv

theorem doze_of_idle (h : PipeInv s) (hi : Inv s) (ht : step s (.run c o) = some t) (hpi : ch.pipe? = some pi)
    (hidle : s.Idle ch) (p : Slot) :
    t.Idle ch ∨ Lock.pipe pi ∈ t.heldBy c ∧ ((t.pc c).pending ch p ∨ (t.pc c).owes ch ∧ t.Open ch) := by
  obtain ⟨a, k, u, hn, ha, -, hpipe, hstay⟩ := step_stay ht
  have hsame : t.pipe pi = s.pipe pi → t.Idle ch := fun he => hidle.congr fun pi' hpi' => by
    obtain rfl := some.inj (hpi.symm.trans hpi')
    exact he
  have hok : s.PipeOk (s.pc c) := by
    cases hc : s.cur c with
    | none => exact pipeOk_sched (hc ▸ hi.wf c)
    | some q => exact pc_of_cur hc ▸ h.ok q
  rcases next_pipe hn with he | hdry
  · rw [heldBy]
    generalize s.pc c = pc at he hn hok
    cases he with
    | @put w =>
      obtain ⟨hcur, hpc⟩ := hstay (by rintro ⟨⟩) (by rintro _ ⟨⟩)
      cases ha
      by_cases hw : pi = w.pi
      · subst hw
        rw [hpc, hcur]
        cases ch with
        | nread =>
          cases hpi
          refine .inr ⟨List.mem_singleton_self _, .inr ⟨rfl, ?_⟩⟩
          simp only [State.Open, hpipe, update_self]
          exact ⟨hok.2, hidle.2⟩
        | nwrite =>
          cases hpi
          exact absurd hidle.1 hok.1
        | _ => cases hpi
      · exact .inl (hsame (by rw [hpipe]; exact update_of_ne hw _ _))
    | @get r =>
      obtain ⟨hcur, hpc⟩ := hstay (by rintro ⟨⟩) (by rintro _ ⟨⟩)
      cases ha
      by_cases hr : pi = r.pi
      · subst hr
        rw [hpc, hcur]
        cases ch with
        | nread =>
          cases hpi
          exact absurd hidle.1 hok
        | nwrite =>
          cases hpi
          refine .inr ⟨List.mem_singleton_self _, .inr ⟨rfl, ?_⟩⟩
          simp only [State.Open, hpipe, update_self]
          exact hidle.2
        | _ => cases hpi
      · exact .inl (hsame (by rw [hpipe]; exact update_of_ne hr _ _))
    | @close pi' b =>
      obtain ⟨hcur, hpc⟩ := hstay (by rintro ⟨⟩) (by rintro _ ⟨⟩)
      cases ha
      by_cases hp : pi = pi'
      · subst hp
        rw [hpc, hcur]
        cases ch with
        | nread | nwrite =>
          cases hpi
          -- the channel of the other end wakes
          cases b <;> first
            | exact .inr ⟨List.mem_singleton_self _, .inl ⟨rfl, Nat.zero_le _⟩⟩
            | (refine .inl ?_; simp only [State.Idle, hpipe, update_self]; exact hidle)
        | _ => cases hpi
      · exact .inl (hsame (by rw [hpipe]; exact update_of_ne hp _ _))
  · exact .inl (hsame (by rw [hpipe, Act.run_dry hdry ha]))

theorem keep_doze (h : PipeInv s) (hi : Inv s) (hg : WritersWake s (.run c o)) (ht : step s (.run c o) = some t)
    (hd : t.Dozing p ch) (hpi : ch.pipe? = some pi) :
    t.Idle ch ∨ ∃ c, Lock.pipe pi ∈ t.heldBy c ∧ ((t.pc c).pending ch p ∨ (t.pc c).owes ch ∧ t.Open ch) := by
  rcases hi.dozing_before ht hd with hds | ⟨hc, σ, hpc, hch⟩
  · rcases h.doze hds hpi with hidle | ⟨d, hl, hpend | ⟨howes, hopen⟩⟩
    · exact (h.doze_of_idle hi ht hpi hidle p).imp_right fun hc => ⟨c, hc⟩
    · obtain ⟨-, hpend', hl'⟩ := hi.pending_step ht hpend hds hd
      exact .inr ⟨d, hl' _ (by simp) hl, .inl hpend'⟩
    · by_cases hdc : d = c
      · subst hdc
        obtain ⟨a, k, u, hn, ha, -, hpipe, hstay⟩ := step_stay ht
        obtain ⟨hs, hs', hclose⟩ := owes_stays howes hn
        obtain ⟨hcur, hpc⟩ := hstay hs hs'
        rcases next_owes howes hpi hopen hn with ⟨hlk, hk⟩ | ⟨w, hpcs, rfl⟩
        · refine .inr ⟨d, by rwa [heldBy, hpc, hcur], ?_⟩
          rw [hpc]
          rcases hk with hk | hk
          · exact .inr ⟨hk, (hopen.kept ha hclose).congr fun _ _ => by rw [hpipe]⟩
          · exact .inl (hk p)
        · -- the writer is killed
          simp only [WritersWake, hpcs] at hg
          rcases hg with hempty | hnone
          · rw [hpcs] at hn
            obtain ⟨q, -, hn⟩ := map_eq_some_iff.mp hn
            cases hn
            have hdry := Act.run_dry (a := .release _) trivial ha
            refine .inl ?_
            rw [State.Idle, hpipe, hdry]
            exact ⟨hempty, hopen.2⟩
          · exact absurd hds (hnone p)
      · obtain ⟨hcur, hpc⟩ := hi.pc_other ht hdc
        have hpipe := hi.locked_pipe ht hl hdc
        refine .inr ⟨d, by rwa [heldBy, hpc, hcur], .inr ⟨by rwa [hpc], hopen.congr fun pi' hpi' => ?_⟩⟩
        obtain rfl := some.inj (hpi.symm.trans hpi')
        exact hpipe
  · -- the process has tested the condition of its loop under the lock that it releases now
    have hok := h.ok p
    rw [hpc] at hok
    have hidle : s.Idle ch := by
      cases σ with
      | pipewrite | piperead =>
        subst hch
        exact hok
      | _ =>
        subst hch
        trivial
    obtain ⟨a, k, u, hn, ha, -, hpipe, -⟩ := step_stay ht
    rw [hc, pc_of_cur hc, hpc] at hn
    cases hn
    exact .inl (hidle.congr fun _ _ => by rw [hpipe, Act.run_dry (a := .release _) trivial ha])

theorem jump (h : PipeInv s) (hi : Inv s) {n : Nat} (hj : Jump s c n k) (hl : s.heldBy c = []) :
    PipeInv (goto { s with calls := n } c (s.cur c) k) := by
  refine ⟨fun p => ?_, ?_⟩
  · rw [goto_ppc_apply]
    split
    · cases hj with
      | call f => cases f <;> trivial
      | _ => trivial
    · exact (h.ok p).congr (some p) fun pi _ => by rw [goto_pipe]
  · intro p ch pi hd hpi
    rcases h.doze (hj.dozing_before hd) hpi with hidle | ⟨d, hlock, hd⟩
    · exact .inl (hidle.congr fun pi _ => by rw [goto_pipe])
    · have hdc : d ≠ c := by
        rintro rfl
        rw [hl] at hlock
        cases hlock
      obtain ⟨hcur, hpc⟩ := hi.pc_jump (k := k) (n := n) hdc
      refine .inr ⟨d, by rwa [heldBy, hpc, hcur], ?_⟩
      rw [hpc]
      exact hd.imp_right fun ho => ⟨ho.1, ho.2.congr fun pi _ => by rw [goto_pipe]⟩

theorem keep (h : PipeInv s) (hi : Inv s) {e : Ev C} (hg : WritersWake s e) (ht : step s e = some t) : PipeInv t := by
  rcases step_cases ht with ⟨c, o, rfl⟩ | ⟨c, k, n, hj, hl, rfl⟩
  · exact ⟨keep_pipeOk hi h.ok ht, h.keep_doze hi hg ht⟩
  · exact h.jump hi hj hl

omit [DecidableEq C] in
theorem at_boot : PipeInv (booted : State C) where
  ok p := by by_cases h0 : p = initproc <;> simp [booted, h0, State.PipeOk]
  doze {p ch pi} hd := by
    obtain ⟨⟨σ, hσ, -⟩, -⟩ := hd
    by_cases h0 : p = initproc <;> simp [booted, h0, Pc.doze] at hσ

end PipeInv

theorem run_pipeInv {evs : List (Ev C)} (h : Run (guarded step WritersWake) booted evs s) : Inv s ∧ PipeInv s := by
  refine h.invariant (P := fun _ s => Inv s ∧ PipeInv s) ⟨Inv.at_boot, PipeInv.at_boot⟩ fun _ hi ht => ?_
  obtain ⟨hg, hs⟩ := guarded_eq_some.mp ht
  exact ⟨hi.1.keep hs, hi.2.keep hi.1 hg hs⟩

/-- In a run in which no killed `pipewrite` leaves bytes to a process that sleeps on `&pi->nread`, a
process that sleeps on a pipe whose lock is free has nothing to read or no room to write. -/
theorem pipe_sleepers_idle {evs : List (Ev C)} (h : Run (guarded step WritersWake) booted evs s)
    (hfree : s.lock (.pipe pi) = none) (hs : (s.proc p).state = .sleeping) :
    ((s.proc p).chan = some (.nread pi) → (s.pipe pi).nread = (s.pipe pi).nwrite ∧ (s.pipe pi).writeopen = true) ∧
      ((s.proc p).chan = some (.nwrite pi) →
        (s.pipe pi).nwrite = (s.pipe pi).nread + BitVec.ofNat 32 pipesize ∧ (s.pipe pi).readopen = true) := by
  obtain ⟨hi, hp⟩ := run_pipeInv h
  have hidle : ∀ {ch}, (s.proc p).chan = some ch → ch.pipe? = some pi → s.Idle ch := by
    intro ch hch hpi
    rcases hp.doze (State.dozing_of_sleeping hi hs hch) hpi with hidle | ⟨c, hl, -⟩
    · exact hidle
    · have hheld := (hi.locks c _).mpr hl
      rw [hfree] at hheld
      cases hheld
  exact ⟨fun hch => hidle hch rfl, fun hch => hidle hch rfl⟩

theorem childSleeps_on_empty_pipe :
    ∃ s : State Bool, Run (guarded step WritersWake) booted childSleeps s ∧ s.lock (.pipe 0) = none ∧
      (s.proc 1).state = .sleeping ∧ (s.proc 1).chan = some (.nread 0) ∧ (s.pipe 0).nread = (s.pipe 0).nwrite := by
  have hstate : ((exec (guarded step WritersWake) (booted : State Bool) childSleeps).map fun s =>
      ((s.lock (.pipe 0)).isNone, (s.proc 1).state, (s.proc 1).chan)) = some (true, .sleeping, some (.nread 0)) := by
    decide +kernel
  obtain ⟨s, hrun, heq⟩ := map_eq_some_iff.mp hstate
  simp only [Prod.mk.injEq, isNone_iff_eq_none] at heq
  obtain ⟨hl, hs, hc⟩ := heq
  exact ⟨s, run_of_exec hrun, hl, hs, hc, ((pipe_sleepers_idle (run_of_exec hrun) hl hs).1 hc).1⟩

/-- While the first child sleeps in `piperead`, init forks a second one, which writes the first of two bytes. -/
def secondWrites : List (Ev Bool) :=
  childSleeps ++ .call false .fork :: runs false 23 ++ runs true 5 ++ .call true (.pipewrite 0 [1, 2]) :: runs true 7

/-- Init kills the writer, whose `pipewrite` returns. -/
def writerKilled : List (Ev Bool) := secondWrites ++ .call false (.kill 3) :: runs false 10 ++ runs true 6

/-- The reader sleeps on a pipe with a byte in it, and nobody is left to wake it: `kill` and `pipewrite`
have returned and the lock of the pipe is free. -/
theorem writerKilled_reader_sleeps :
    ∃ s : State Bool, Run step booted writerKilled s ∧ s.ppc 0 = .user ∧ s.ppc 2 = .user ∧
      s.lock (.pipe 0) = none ∧ (s.proc 1).state = .sleeping ∧ (s.proc 1).chan = some (.nread 0) ∧
      (s.pipe 0).nread = 0 ∧ (s.pipe 0).nwrite = 1 := by
  have hstate : ((exec step (booted : State Bool) writerKilled).map fun s =>
      ((s.ppc 0, s.ppc 2, (s.lock (.pipe 0)).isNone), ((s.proc 1).state, (s.proc 1).chan), (s.pipe 0).nread,
        (s.pipe 0).nwrite)) = some ((.user, .user, true), (.sleeping, some (.nread 0)), 0, 1) := by
    decide +kernel
  obtain ⟨s, hrun, heq⟩ := map_eq_some_iff.mp hstate
  simp only [Prod.mk.injEq, isNone_iff_eq_none] at heq
  obtain ⟨⟨h0, h2, hl⟩, ⟨hs, hc⟩, hr, hw⟩ := heq
  exact ⟨s, run_of_exec hrun, h0, h2, hl, hs, hc, hr, hw⟩

end

end Xv6.Smp
