import Xv6.Smp.Threads

namespace Xv6.Smp

open Locks State Function

variable {C : Type*}

/-! ### The invariant of the process table and the CPUs -/

def State.heldBy (s : State C) (c : C) : List Lock := (s.pc c).held (s.cur c)

def State.claims (s : State C) (c : C) : Option Slot :=
  match s.cur c with
  | some q => some q
  | none => (s.spc c).entering

def State.Parked (s : State C) (q : Slot) : Prop :=
  match (s.proc q).state with
  | .unused | .used => s.ppc q = .dead ∨ s.ppc q = .forkret
  | .runnable | .running => (s.ppc q).resumable ∧ s.saved q = true
  | .sleeping => (∃ σ, s.ppc q = .sleepTidy σ) ∧ s.saved q = true
  | .zombie => s.ppc q = .dead ∧ s.saved q = true

/-- Slot `q` while another thread fills or frees it. -/
def State.Made (s : State C) (q : Slot) : Stage → Prop
  | .alloc => (s.proc q).state = .unused
  | .fresh => (s.proc q).state = .used
  | .ready => (s.proc q).state = .used ∧ s.ppc q = .forkret ∧ s.saved q = true
  | .reap => (s.proc q).state = .zombie

structure Inv (s : State C) : Prop where
  wfProc : ∀ p, (s.ppc p).wf (some p)
  wfSched : ∀ c, (s.spc c).wf none
  locks : Ledger s.lock s.heldBy
  uniq : ∀ {c d q}, s.claims c = some q → s.claims d = some q → c = d
  busy : ∀ {c q}, s.cur c = some q →
    s.spc c = .clearCpu q ∧ s.cpuProc c = some q ∧ (s.proc q).state = (s.ppc q).runState
  idle : ∀ {c}, s.cur c = none → s.cpuProc c = (s.spc c).current
  entering : ∀ {c q}, s.cur c = none → (s.spc c).entering = some q → (s.proc q).state = .running
  running : ∀ {q}, (s.proc q).state = .running → ∃ c, s.claims c = some q
  parked : ∀ {q}, (∀ c, s.cur c ≠ some q) → s.Parked q
  chan : ∀ q, (s.proc q).chan = (s.ppc q).chan q
  making : ∀ {p q st}, (s.ppc p).making = some (q, st) → s.Made q st
  maker : ∀ {p p' q st st'}, (s.ppc p).making = some (q, st) → (s.ppc p').making = some (q, st') → p = p'

variable {s t : State C} {me : Option Slot} {o : Nat} {pc k : Pc} {a : Act} {p q r : Slot} {c d : C} {l : Lock} {st : Stage}

theorem State.claims_of_cur (h : s.cur c = some q) : s.claims c = some q := by simp [State.claims, h]

theorem State.claims_of_idle (h : s.cur c = none) : s.claims c = (s.spc c).entering := by simp [State.claims, h]

theorem State.pc_of_cur (h : s.cur c = some q) : s.pc c = s.ppc q := by simp [State.pc, h]

theorem State.pc_of_idle (h : s.cur c = none) : s.pc c = s.spc c := by simp [State.pc, h]

theorem State.heldBy_of_cur (h : s.cur c = some q) : s.heldBy c = (s.ppc q).held (some q) := by
  simp [heldBy, pc, h]

theorem State.heldBy_of_idle (h : s.cur c = none) : s.heldBy c = (s.spc c).held none := by
  simp [heldBy, pc, h]

namespace Inv

section
variable (h : Inv s)
include h

theorem cur_inj (hc : s.cur c = some q) (hd : s.cur d = some q) : c = d :=
  h.uniq (claims_of_cur hc) (claims_of_cur hd)

theorem holder (hc : l ∈ s.heldBy c) (hd : l ∈ s.heldBy d) : c = d := h.locks.unique hc hd

theorem own_lock (hc : s.cur c = some q) (hs : (s.proc q).state ≠ .running) : Lock.proc q ∈ s.heldBy c := by
  rw [heldBy_of_cur hc]
  exact Pc.held_of_runState ((h.busy hc).2.2 ▸ hs)

theorem on_cpu (hd : s.ppc p ≠ .dead) (hr : ¬ (s.ppc p).resumable) : ∃ c, s.cur c = some p := by
  by_contra hon
  have hp := h.parked (q := p) fun c hc => hon ⟨c, hc⟩
  unfold State.Parked at hp
  split at hp
  · rcases hp with hp | hp
    · exact hd hp
    · exact hr (by rw [hp]; trivial)
  · rcases hp with hp | hp
    · exact hd hp
    · exact hr (by rw [hp]; trivial)
  · exact hr hp.1
  · exact hr hp.1
  · obtain ⟨⟨σ, hσ⟩, -⟩ := hp
    exact hr (by rw [hσ]; trivial)
  · exact hd hp.1

theorem off_cpu (hoff : ∀ c, s.cur c ≠ some p) : s.ppc p = .dead ∨ (s.ppc p).resumable := by
  by_contra hn
  obtain ⟨hd, hr⟩ := not_or.mp hn
  obtain ⟨c, hc⟩ := h.on_cpu hd hr
  exact hoff c hc

theorem lock_of_making (hm : (s.ppc p).making = some (q, st))
    (hst : st = .alloc ∨ st = .reap) : ∃ c, s.cur c = some p ∧ Lock.proc q ∈ s.heldBy c := by
  obtain ⟨hl, hr⟩ := Pc.held_of_making (h.wfProc p) hm hst
  have hd : s.ppc p ≠ .dead := fun hd => by simp [hd, Pc.making] at hm
  obtain ⟨c, hc⟩ := h.on_cpu hd hr
  exact ⟨c, hc, heldBy_of_cur hc ▸ hl⟩

theorem not_made (hc : s.cur c = some q) (hm : (s.ppc p).making = some (q, st)) : False := by
  have hs := (h.busy hc).2.2
  have hmade := h.making hm
  cases st with
  | alloc | fresh =>
    have hu : (s.ppc q).runState = _ := hs.symm.trans hmade
    cases hq : s.ppc q <;> simp [hq, Pc.runState] at hu
  | ready =>
    have hu : (s.ppc q).runState = _ := hs.symm.trans hmade.1
    cases hq : s.ppc q <;> simp [hq, Pc.runState] at hu
  | reap =>
    -- the process holds its lock until the scheduler has it, and `wait` holds it now
    obtain ⟨d, hd, hl⟩ := h.lock_of_making hm (Or.inr rfl)
    have hz : (s.proc q).state = .zombie := hmade
    have hcd := h.holder (h.own_lock hc (by simp [hz])) hl
    subst hcd
    obtain rfl := Option.some.inj (hd.symm.trans hc)
    have hu : (s.ppc p).runState = .zombie := hs.symm.trans hz
    cases hq : s.ppc p <;> simp [hq, Pc.runState] at hu <;> simp [hq, Pc.making] at hm

end

end Inv

/-! ### Moving a thread on -/

section Goto

variable [DecidableEq C]

@[simp] theorem goto_proc : (s.goto c me k).proc = s.proc := by cases me <;> rfl
@[simp] theorem goto_lock : (s.goto c me k).lock = s.lock := by cases me <;> rfl
@[simp] theorem goto_cur : (s.goto c me k).cur = s.cur := by cases me <;> rfl
@[simp] theorem goto_cpuProc : (s.goto c me k).cpuProc = s.cpuProc := by cases me <;> rfl
@[simp] theorem goto_saved : (s.goto c me k).saved = s.saved := by cases me <;> rfl
@[simp] theorem goto_pipe : (s.goto c me k).pipe = s.pipe := by cases me <;> rfl
@[simp] theorem goto_ppc : (s.goto c (some p) k).ppc = update s.ppc p k := rfl
@[simp] theorem goto_spc : (s.goto c (some p) k).spc = s.spc := rfl
@[simp] theorem goto_none_ppc : (s.goto c none k).ppc = s.ppc := rfl
@[simp] theorem goto_none_spc : (s.goto c none k).spc = update s.spc c k := rfl

theorem goto_ppc_ne (h : me ≠ some q) : (s.goto c me k).ppc q = s.ppc q := by
  cases me with
  | none => rfl
  | some p => exact update_of_ne (fun he => h (congrArg some he.symm)) _ _

end Goto

structure SameSlot (s t : State C) (q : Slot) : Prop where
  state : (t.proc q).state = (s.proc q).state
  chan : (t.proc q).chan = (s.proc q).chan
  ppc : t.ppc q = s.ppc q
  saved : t.saved q = s.saved q

structure NewSlot (s t : State C) (me : Option Slot) (q : Slot) : Prop where
  off : ∀ d, s.claims d ≠ some q
  parked : t.Parked q
  chan : (t.proc q).chan = (t.ppc q).chan q
  wf : (t.ppc q).wf (some q)
  making : (t.ppc q).making = (s.ppc q).making
  alone : ∀ p' st, some p' ≠ me → (s.ppc p').making ≠ some (q, st)

theorem SameSlot.parked (h : SameSlot s t q) (hp : s.Parked q) : t.Parked q := by
  simpa only [State.Parked, h.state, h.ppc, h.saved] using hp

theorem SameSlot.made (h : SameSlot s t q) (hm : s.Made q st) : t.Made q st := by
  cases st <;> simpa only [State.Made, h.state, h.ppc, h.saved] using hm

structure Touched (s t : State C) (c : C) (q : Slot) : Prop where
  off : ∀ d, d ≠ c → s.claims d ≠ some q
  wf : (t.ppc q).wf (some q)
  chan : (t.proc q).chan = (t.ppc q).chan q
  running : (t.proc q).state = .running → t.claims c = some q
  parked : t.cur c ≠ some q → t.Parked q

structure CpuOk (t : State C) (c : C) : Prop where
  wf : (t.spc c).wf none
  busy : ∀ q, t.cur c = some q → t.spc c = .clearCpu q ∧ t.cpuProc c = some q ∧ (t.proc q).state = (t.ppc q).runState
  idle : t.cur c = none → t.cpuProc c = (t.spc c).current
  entering : ∀ q, t.cur c = none → (t.spc c).entering = some q → (t.proc q).state = .running

structure Moved (s t : State C) (c : C) : Prop where
  cur : ∀ d, d ≠ c → t.cur d = s.cur d
  spc : ∀ d, d ≠ c → t.spc d = s.spc d
  cpuProc : ∀ d, d ≠ c → t.cpuProc d = s.cpuProc d
  slot : ∀ q, Touched s t c q ∨
    SameSlot s t q ∧ (s.cur c = some q → t.cur c = some q) ∧ (s.claims c = some q → t.claims c = some q)
  claims : ∀ q, t.claims c = some q → ∀ d, d ≠ c → s.claims d ≠ some q

theorem Moved.claims_other (h : Moved s t c) (hd : d ≠ c) : t.claims d = s.claims d := by
  simp only [State.claims, h.cur d hd, h.spc d hd]

theorem Moved.same (h : Moved s t c) (hd : d ≠ c) (hq : s.claims d = some q) : SameSlot s t q := by
  rcases h.slot q with ht | hs
  · exact absurd hq (ht.off d hd)
  · exact hs.1

theorem Inv.making_same (h : Inv s) (hmk : ∀ r, (t.ppc r).making = (s.ppc r).making)
    (hmade : ∀ {p q st}, (s.ppc p).making = some (q, st) → t.Made q st) {st : Stage} (hp : (t.ppc p).making = some (q, st)) :
    t.Made q st ∧ ∀ p' st', (t.ppc p').making = some (q, st') → p = p' := by
  rw [hmk] at hp
  refine ⟨hmade hp, fun p' st' hp' => ?_⟩
  rw [hmk] at hp'
  exact h.maker hp hp'

variable [DecidableEq C]

theorem Moved.heldBy (h : Moved s t c) : t.heldBy = update s.heldBy c (t.heldBy c) := by
  funext d
  by_cases hd : d = c
  · rw [hd, update_self]
  · rw [update_of_ne hd]
    cases hq : s.cur d with
    | none => rw [heldBy_of_idle hq, heldBy_of_idle ((h.cur d hd).trans hq), h.spc d hd]
    | some q =>
      rw [heldBy_of_cur hq, heldBy_of_cur ((h.cur d hd).trans hq), (h.same hd (claims_of_cur hq)).ppc]

theorem Inv.moved (h : Inv s) (hm : Moved s t c) (cpu : CpuOk t c)
    (locks : Ledger t.lock (update s.heldBy c (t.heldBy c)))
    (making : ∀ {p q st}, (t.ppc p).making = some (q, st) →
      t.Made q st ∧ ∀ p' st', (t.ppc p').making = some (q, st') → p = p') : Inv t := by
  constructor
  · intro q
    rcases hm.slot q with ht | ⟨hs, -⟩
    · exact ht.wf
    · rw [hs.ppc]
      exact h.wfProc q
  · intro d
    by_cases hd : d = c
    · rw [hd]
      exact cpu.wf
    · rw [hm.spc d hd]
      exact h.wfSched d
  · rw [hm.heldBy]
    exact locks
  · intro d e q hd he
    by_cases hdc : d = c
    · by_cases hec : e = c
      · rw [hdc, hec]
      · rw [hm.claims_other hec] at he
        exact absurd he (hm.claims q (hdc ▸ hd) e hec)
    · rw [hm.claims_other hdc] at hd
      by_cases hec : e = c
      · exact absurd hd (hm.claims q (hec ▸ he) d hdc)
      · rw [hm.claims_other hec] at he
        exact h.uniq hd he
  · intro d q hd
    by_cases hdc : d = c
    · rw [hdc] at hd ⊢
      exact cpu.busy q hd
    · rw [hm.cur d hdc] at hd
      have hs := hm.same hdc (claims_of_cur hd)
      rw [hm.spc d hdc, hm.cpuProc d hdc, hs.state, hs.ppc]
      exact h.busy hd
  · intro d hd
    by_cases hdc : d = c
    · rw [hdc] at hd ⊢
      exact cpu.idle hd
    · rw [hm.cpuProc d hdc, hm.spc d hdc]
      exact h.idle (hm.cur d hdc ▸ hd)
  · intro d q hd he
    by_cases hdc : d = c
    · rw [hdc] at hd he
      exact cpu.entering q hd he
    · rw [hm.cur d hdc] at hd
      rw [hm.spc d hdc] at he
      rw [(hm.same hdc ((claims_of_idle hd).trans he)).state]
      exact h.entering hd he
  · intro q hq
    rcases hm.slot q with ht | ⟨hs, -, hclaim⟩
    · exact ⟨c, ht.running hq⟩
    · obtain ⟨d, hd⟩ := h.running (hs.state ▸ hq)
      by_cases hdc : d = c
      · exact ⟨c, hclaim (hdc ▸ hd)⟩
      · exact ⟨d, (hm.claims_other hdc).trans hd⟩
  · intro q hq
    rcases hm.slot q with ht | ⟨hs, hcur, -⟩
    · exact ht.parked (hq c)
    · refine hs.parked (h.parked fun d hd => ?_)
      by_cases hdc : d = c
      · exact hq c (hcur (hdc ▸ hd))
      · exact hq d ((hm.cur d hdc).trans hd)
  · intro q
    rcases hm.slot q with ht | ⟨hs, -⟩
    · exact ht.chan
    · rw [hs.chan, hs.ppc, h.chan q]
  · intro p q st hp
    exact (making hp).1
  · intro p p' q st st' hp hp'
    exact (making hp).2 p' st' hp'

theorem SameSlot.goto (h : SameSlot s t q) (hq : me ≠ some q) : SameSlot s (t.goto c me k) q :=
  ⟨by rw [goto_proc, h.state], by rw [goto_proc, h.chan], by rw [goto_ppc_ne hq, h.ppc], by rw [goto_saved, h.saved]⟩

theorem NewSlot.touched (h : NewSlot s t me q) (hq : me ≠ some q)
    (hrun : (t.proc q).state = .running → (t.goto c me k).claims c = some q) : Touched s (t.goto c me k) c q where
  off d _ := h.off d
  wf := by
    rw [goto_ppc_ne hq]
    exact h.wf
  chan := by
    rw [goto_proc, goto_ppc_ne hq]
    exact h.chan
  running hr := hrun (by rwa [goto_proc] at hr)
  parked _ := by simpa only [State.Parked, goto_proc, goto_saved, goto_ppc_ne hq] using h.parked

/-- A step of process `p` on CPU `c` up to its new control point `k`: its own slot follows `k`, every
other slot is as before or is one that only `p` works on. -/
theorem Inv.moveProc (h : Inv s) (hc : s.cur c = some p) (cur : t.cur = s.cur) (cpu : t.cpuProc = s.cpuProc)
    (spc : t.spc = s.spc) (state : (t.proc p).state = k.runState) (chan : (t.proc p).chan = k.chan p)
    (others : ∀ q, q ≠ p → SameSlot s t q ∨ NewSlot s t (some p) q ∧ (t.proc q).state ≠ .running)
    (wf : k.wf (some p))
    (locks : Ledger t.lock (update s.heldBy c (k.held (some p))))
    (making : ∀ q st, k.making = some (q, st) →
      q ≠ p ∧ t.Made q st ∧ ∀ p' st', p' ≠ p → (s.ppc p').making ≠ some (q, st')) :
    Inv (t.goto c (some p) k) := by
  have hp : s.claims c = some p := claims_of_cur hc
  have hcur : (t.goto c (some p) k).cur c = some p := by rw [goto_cur, cur, hc]
  have hclaims : (t.goto c (some p) k).claims c = some p := claims_of_cur hcur
  have hself : (t.goto c (some p) k).ppc p = k := by rw [goto_ppc, update_self]
  have hppc : ∀ {q}, q ≠ p → (t.goto c (some p) k).ppc q = t.ppc q := fun hq =>
    goto_ppc_ne fun he => hq (Option.some.inj he).symm
  have hmk : ∀ {q}, q ≠ p → ((t.goto c (some p) k).ppc q).making = (s.ppc q).making := by
    intro q hq
    rw [hppc hq]
    rcases others q hq with hs | ⟨hn, -⟩
    · rw [hs.ppc]
    · exact hn.making
  have hmoved : Moved s (t.goto c (some p) k) c := by
    refine ⟨fun d _ => by rw [goto_cur, cur], fun d _ => by rw [goto_spc, spc], fun d _ => by rw [goto_cpuProc, cpu],
      fun q => ?_, fun q hq d hd hcl => hd (h.uniq hcl ?_)⟩
    · by_cases hq : q = p
      · subst hq
        exact .inl ⟨fun d hd hcl => hd (h.uniq hcl hp), by rwa [hself], by rwa [goto_proc, hself], fun _ => hclaims,
          fun hn => absurd hcur hn⟩
      · have hne : some p ≠ some q := fun he => hq (Option.some.inj he).symm
        rcases others q hq with hs | ⟨hn, hrun⟩
        · refine .inr ⟨hs.goto hne, fun hcq => ?_, fun hcl => ?_⟩
          · exact absurd (hc.symm.trans hcq) hne
          · exact absurd (hp.symm.trans hcl) hne
        · exact .inl (hn.touched hne fun hr => absurd hr hrun)
    · rw [hp, ← hclaims, hq]
  refine h.moved hmoved ⟨?_, fun q hq => ?_, fun hn => ?_, fun q hn => ?_⟩ ?_ fun {p' q st} hm => ?_
  · rw [goto_spc, spc]
    exact h.wfSched c
  · obtain rfl := Option.some.inj (hcur.symm.trans hq)
    obtain ⟨h1, h2, -⟩ := h.busy hc
    rw [goto_spc, spc, goto_cpuProc, cpu, goto_proc, hself]
    exact ⟨h1, h2, state⟩
  · rw [hcur] at hn
    cases hn
  · rw [hcur] at hn
    cases hn
  · rwa [goto_lock, heldBy_of_cur hcur, hself]
  · by_cases hpp : p' = p
    · subst hpp
      rw [hself] at hm
      obtain ⟨hq, hmade, hone⟩ := making q st hm
      refine ⟨?_, fun p₂ st₂ h₂ => ?_⟩
      · cases st <;> simpa only [State.Made, goto_proc, goto_saved, hppc hq] using hmade
      · by_contra hne
        rw [hmk (Ne.symm hne)] at h₂
        exact hone p₂ st₂ (Ne.symm hne) h₂
    · rw [hmk hpp] at hm
      have hq : q ≠ p := by
        rintro rfl
        exact h.not_made hc hm
      have hmade : t.Made q st := by
        rcases others q hq with hs | ⟨hn, -⟩
        · exact hs.made (h.making hm)
        · exact absurd hm (hn.alone p' st fun he => hpp (Option.some.inj he))
      refine ⟨?_, fun p₂ st₂ h₂ => ?_⟩
      · cases st <;> simpa only [State.Made, goto_proc, goto_saved, hppc hq] using hmade
      · by_cases hp₂ : p₂ = p
        · rw [hp₂, hself] at h₂
          exact absurd hm ((making q st₂ h₂).2.2 p' st hpp)
        · rw [hmk hp₂] at h₂
          exact h.maker hm h₂

theorem Inv.moveSched (h : Inv s) (hc : s.cur c = none) (cur : t.cur = s.cur)
    (cpu : t.cpuProc = update s.cpuProc c k.current) (spc : t.spc = s.spc)
    (others : ∀ q, SameSlot s t q ∨ NewSlot s t none q ∧ ((t.proc q).state = .running → k.entering = some q))
    (wf : k.wf none) (locks : Ledger t.lock (update s.heldBy c (k.held none)))
    (leaves : ∀ q, (s.spc c).entering = some q → k.entering = some q)
    (enters : ∀ q, k.entering = some q → (t.proc q).state = .running ∧ ∀ d, d ≠ c → s.claims d ≠ some q) :
    Inv (t.goto c none k) := by
  have hcur : (t.goto c none k).cur c = none := by rw [goto_cur, cur, hc]
  have hspc : (t.goto c none k).spc c = k := by rw [goto_none_spc, update_self]
  have hclaim : (t.goto c none k).claims c = k.entering := by rw [claims_of_idle hcur, hspc]
  have hmk : ∀ q, ((t.goto c none k).ppc q).making = (s.ppc q).making := by
    intro q
    rw [goto_none_ppc]
    rcases others q with hs | ⟨hn, -⟩
    · rw [hs.ppc]
    · exact hn.making
  have hmoved : Moved s (t.goto c none k) c := by
    refine ⟨fun d _ => by rw [goto_cur, cur], fun d hd => by rw [goto_none_spc, update_of_ne hd, spc],
      fun d hd => by rw [goto_cpuProc, cpu, update_of_ne hd], fun q => ?_, fun q hq => (enters q (hclaim ▸ hq)).2⟩
    have hne : none ≠ some q := by rintro ⟨⟩
    rcases others q with hs | ⟨hn, hrun⟩
    · refine .inr ⟨hs.goto hne, fun hcq => absurd (hc.symm.trans hcq) hne, fun hcl => ?_⟩
      rw [hclaim]
      exact leaves q ((claims_of_idle hc).symm.trans hcl)
    · exact .inl (hn.touched hne fun hr => hclaim.trans (hrun hr))
  refine h.moved hmoved ⟨?_, fun q hq => ?_, fun _ => ?_, fun q _ he => ?_⟩ ?_ (h.making_same hmk fun {p q st} hm => ?_)
  · rwa [hspc]
  · rw [hcur] at hq
    cases hq
  · rw [goto_cpuProc, cpu, update_self, hspc]
  · rw [goto_proc]
    exact (enters q (hspc ▸ he)).1
  · rwa [goto_lock, heldBy_of_idle hcur, hspc]
  · have hmade : t.Made q st := by
      rcases others q with hs | ⟨hn, -⟩
      · exact hs.made (h.making hm)
      · exact absurd hm (hn.alone p st (by rintro ⟨⟩))
    cases st <;> exact hmade

theorem Inv.leave (h : Inv s) (hc : s.cur c = some p) (held : (s.ppc p).held (some p) = [.proc p])
    (run : (s.ppc p).runState ≠ .running) (wf : k.wf (some p)) (chan : k.chan p = (s.ppc p).chan p)
    (making : k.making = (s.ppc p).making)
    (parked : ∀ t : State C, (t.proc p).state = (s.ppc p).runState → t.ppc p = k → t.saved p = true → t.Parked p) :
    Inv ({ s with cur := update s.cur c none, saved := update s.saved p true }.goto c (some p) k) := by
  obtain ⟨hspc, hcpu, hstate⟩ := h.busy hc
  generalize ht : goto _ c (some p) k = t
  have hproc : t.proc = s.proc := by rw [← ht, goto_proc]
  have hlock : t.lock = s.lock := by rw [← ht, goto_lock]
  have htspc : t.spc = s.spc := by rw [← ht, goto_spc]
  have htcpu : t.cpuProc = s.cpuProc := by rw [← ht, goto_cpuProc]
  have hcur : t.cur = update s.cur c none := by rw [← ht, goto_cur]
  have hppc : t.ppc = update s.ppc p k := by rw [← ht, goto_ppc]
  have hsaved : t.saved = update s.saved p true := by rw [← ht, goto_saved]
  have hself : t.ppc p = k := by rw [hppc, update_self]
  have hidle : t.cur c = none := by rw [hcur, update_self]
  have hclaim : t.claims c = none := by rw [claims_of_idle hidle, htspc, hspc]; rfl
  have hother : ∀ {q}, q ≠ p → SameSlot s t q := fun hq =>
    ⟨by rw [hproc], by rw [hproc], by rw [hppc, update_of_ne hq], by rw [hsaved, update_of_ne hq]⟩
  have hmk : ∀ r, (t.ppc r).making = (s.ppc r).making := by
    intro r
    by_cases hr : r = p
    · rw [hr, hself, making]
    · rw [(hother hr).ppc]
  have hmoved : Moved s t c := by
    refine ⟨fun d hd => by rw [hcur, update_of_ne hd], fun d _ => by rw [htspc], fun d _ => by rw [htcpu], fun q => ?_,
      fun q hq => ?_⟩
    · by_cases hq : q = p
      · subst hq
        refine .inl ⟨fun d hd hcl => hd (h.uniq hcl (claims_of_cur hc)), by rwa [hself], ?_, fun hr => ?_,
          fun _ => parked t (by rw [hproc, hstate]) hself (by rw [hsaved, update_self])⟩
        · rw [hproc, hself, chan, h.chan q]
        · exact absurd (hstate.symm.trans (hproc ▸ hr)) run
      · have hne : some p ≠ some q := fun he => hq (Option.some.inj he).symm
        exact .inr ⟨hother hq, fun hcq => absurd (hc.symm.trans hcq) hne,
          fun hcl => absurd ((claims_of_cur hc).symm.trans hcl) hne⟩
    · rw [hclaim] at hq
      cases hq
  refine h.moved hmoved ⟨?_, fun q hq => ?_, fun _ => ?_, fun q _ he => ?_⟩ ?_ (h.making_same hmk fun {r q st} hm => ?_)
  · rw [htspc]
    exact h.wfSched c
  · rw [hidle] at hq
    cases hq
  · rw [htcpu, htspc, hcpu, hspc]
    rfl
  · rw [htspc, hspc] at he
    cases he
  · have hheld : t.heldBy c = s.heldBy c := by
      rw [heldBy_of_idle hidle, heldBy_of_cur hc, htspc, hspc, held]
      rfl
    rw [hlock, hheld, update_eq_self]
    exact h.locks
  · refine (hother ?_).made (h.making hm)
    rintro rfl
    exact h.not_made hc hm

theorem Inv.arrive (h : Inv s) (hc : s.cur c = none) (hpc : s.spc c = .enter q) :
    Inv ({ s with cur := update s.cur c (some q), saved := update s.saved q false }.goto
      c none (.clearCpu q)) := by
  have hrun : (s.proc q).state = .running := h.entering hc (by rw [hpc]; rfl)
  have hcq : s.claims c = some q := by rw [claims_of_idle hc, hpc]; rfl
  have hoff : ∀ d, s.cur d ≠ some q := by
    intro d hd
    obtain rfl := h.uniq (claims_of_cur hd) hcq
    rw [hc] at hd
    cases hd
  have hpark : (s.ppc q).resumable ∧ s.saved q = true := by
    have hp := h.parked hoff
    rwa [State.Parked, hrun] at hp
  generalize ht : goto _ c none (.clearCpu q) = t
  have hproc : t.proc = s.proc := by rw [← ht, goto_proc]
  have hlock : t.lock = s.lock := by rw [← ht, goto_lock]
  have hspc : t.spc = update s.spc c (.clearCpu q) := by rw [← ht, goto_none_spc]
  have hcpu : t.cpuProc = s.cpuProc := by rw [← ht, goto_cpuProc]
  have hcur : t.cur = update s.cur c (some q) := by rw [← ht, goto_cur]
  have hppc : t.ppc = s.ppc := by rw [← ht, goto_none_ppc]
  have hsaved : t.saved = update s.saved q false := by rw [← ht, goto_saved]
  have hcurc : t.cur c = some q := by rw [hcur, update_self]
  have hclaim : t.claims c = some q := claims_of_cur hcurc
  have hother : ∀ {r}, r ≠ q → SameSlot s t r := fun hr =>
    ⟨by rw [hproc], by rw [hproc], by rw [hppc], by rw [hsaved, update_of_ne hr]⟩
  have hmoved : Moved s t c := by
    refine ⟨fun d hd => by rw [hcur, update_of_ne hd], fun d hd => by rw [hspc, update_of_ne hd], fun d _ => by rw [hcpu],
      fun r => ?_, fun r hr d hd hcl => hd (h.uniq hcl (hcq.trans (hclaim.symm.trans hr)))⟩
    by_cases hr : r = q
    · subst hr
      refine .inl ⟨fun d hd hcl => hd (h.uniq hcl hcq), ?_, ?_, fun _ => hclaim, fun hn => absurd hcurc hn⟩
      · rw [hppc]
        exact h.wfProc r
      · rw [hproc, hppc]
        exact h.chan r
    · have hne : some q ≠ some r := fun he => hr (Option.some.inj he).symm
      refine .inr ⟨hother hr, fun hcr => ?_, fun hcl => absurd (hcq.symm.trans hcl) hne⟩
      rw [hc] at hcr
      cases hcr
  refine h.moved hmoved ⟨?_, fun r hr => ?_, fun hn => ?_, fun r hn => ?_⟩ ?_
    (h.making_same (fun r => by rw [hppc]) fun {r r' st} hm => ?_)
  · rw [hspc, update_self]
    rfl
  · obtain rfl := Option.some.inj (hcurc.symm.trans hr)
    rw [hspc, update_self, hcpu, h.idle hc, hpc, hproc, hppc, hrun, Pc.runState_of_resumable hpark.1]
    exact ⟨rfl, rfl, rfl⟩
  · rw [hcurc] at hn
    cases hn
  · rw [hcurc] at hn
    cases hn
  · have hheld : t.heldBy c = s.heldBy c := by
      rw [heldBy_of_cur hcurc, heldBy_of_idle hc, hppc, hpc, Pc.held_of_resumable (h.wfProc q) hpark.1]
      rfl
    rw [hlock, hheld, update_eq_self]
    exact h.locks
  · have hmade := h.making hm
    refine (hother ?_).made hmade
    rintro rfl
    cases st <;> simp [State.Made, hrun] at hmade

end Xv6.Smp
