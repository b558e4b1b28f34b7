import Mathlib.Data.List.TakeDrop
import Xv6.Lib.Ring
import Xv6.Smp.Pipes

namespace Xv6.Smp

open Locks Transition List Option Function

variable {C : Type*} {s t : State C} {me : Option Slot} {o n m : Nat} {pc k : Pc} {a : Act} {p q r : Slot}
  {c d : C} {l : Lock} {σ : Site}

/-! ### The bytes of a pipe -/

namespace Pipe

def buffered (x : Pipe) : List UInt8 := Ring.contents pipesize x.data x.nread x.nwrite

def sentBy (x : Pipe) (id : Nat) : List UInt8 := (x.sent.filter (·.1 = id)).map Prod.snd

def gotBy (x : Pipe) (id : Nat) : List UInt8 := (x.got.filter (·.1 = id)).map Prod.snd

/-- What was appended is what was consumed and what is buffered, in order. -/
structure Fifo (x : Pipe) : Prop where
  count : (x.nwrite - x.nread).toNat ≤ pipesize
  order : x.sent.map Prod.snd = x.got.map Prod.snd ++ x.buffered

variable {x : Pipe} {b : UInt8}

theorem count_ne_of_not_full (h : ¬ x.full) : (x.nwrite - x.nread).toNat ≠ pipesize := by
  intro he
  apply h
  have hsub : x.nwrite - x.nread = BitVec.ofNat 32 pipesize := BitVec.eq_of_toNat_eq he
  rw [Pipe.full, ← hsub, BitVec.add_comm, BitVec.sub_add_cancel]

theorem buffered_put (h : x.Fifo) (hf : ¬ x.full) : (x.put m b).buffered = x.buffered ++ [b] := by
  have hroom : (x.nwrite - x.nread).toNat < pipesize := Nat.lt_of_le_of_ne h.count (count_ne_of_not_full hf)
  exact Ring.contents_put (by decide) (by decide) hroom b

theorem Fifo.put (h : x.Fifo) (hf : ¬ x.full) : (x.put m b).Fifo where
  count := by
    have hlen := congrArg length (buffered_put (m := m) (b := b) h hf)
    have hle := Nat.lt_of_le_of_ne h.count (count_ne_of_not_full hf)
    rw [length_append, length_singleton] at hlen
    unfold Pipe.buffered at hlen
    rw [Ring.length_contents, Ring.length_contents] at hlen
    omega
  order := by
    rw [buffered_put h hf]
    simp [Pipe.put, h.order]

theorem Fifo.get (h : x.Fifo) (he : ¬ x.empty) : (x.get m).Fifo where
  count := by
    have hc := Ring.count_get (w := 32) he
    have hle := h.count
    change (x.nwrite - (x.nread + 1#32)).toNat ≤ pipesize
    omega
  order := by
    have hb : x.buffered = x.data (x.nread.toNat % pipesize) :: (x.get m).buffered :=
      Ring.contents_get (by decide) he
    change x.sent.map Prod.snd = (x.got ++ [(m, x.data (x.nread.toNat % pipesize))]).map Prod.snd ++ (x.get m).buffered
    rw [h.order, hb]
    simp

theorem Fifo.close (h : x.Fifo) (writable : Bool) : (x.close writable).Fifo := by
  cases writable <;> exact ⟨h.count, h.order⟩

theorem sentBy_put : (x.put n b).sentBy m = if n = m then x.sentBy m ++ [b] else x.sentBy m := by
  by_cases h : n = m <;> simp [Pipe.put, Pipe.sentBy, h]

theorem gotBy_get : (x.get n).gotBy m =
    if n = m then x.gotBy m ++ [x.data (x.nread.toNat % pipesize)] else x.gotBy m := by
  by_cases h : n = m <;> simp [Pipe.get, Pipe.gotBy, h]

end Pipe

/-! ### The calls of `pipewrite` and `piperead` -/

/-- Where a call is: a `pipewrite` before the test of its loop, in the loop or after it, a `piperead` before
its copy loop or from there on. -/
inductive Io
  | write (w : Write)
  | writing (w : Write)
  | wrote (w : Write)
  | wait (r : Read)
  | read (r : Read)
  deriving DecidableEq

def Io.id : Io → Nat
  | .write w | .writing w | .wrote w => w.id
  | .wait r | .read r => r.id

def Io.pi : Io → Nat
  | .write w | .writing w | .wrote w => w.pi
  | .wait r | .read r => r.pi

def Site.io : Site → Option Io
  | .pipewrite w => some (.writing w)
  | .piperead r => some (.wait r)
  | _ => none

/-- The call that a thread is in. At `readOut` the byte has been consumed and not counted yet. -/
def Pc.io : Pc → Option Io
  | .pipewrite w | .writeLoop w => some (.write w)
  | .writeFull w | .writePut w => some (.writing w)
  | .writeRel w => some (.wrote w)
  | .piperead r | .readWait r => some (.wait r)
  | .readLoop r | .readGet r | .readRel r => some (.read r)
  | .readOut r => some (.read { r with i := r.i + 1 })
  | .killedAcq σ | .killedRead σ | .killedRel σ _ | .sleepAcq σ | .sleepRel σ | .sleepChan σ | .sleepSet σ
  | .sleepSwtch σ | .sleepTidy σ | .sleepUnlock σ | .sleepLock σ => σ.io
  | .yieldAcq k | .yieldSet k | .yieldSwtch k | .yieldRel k
  | .notify _ k | .notifySet _ k | .notifyRel _ k
  | .wake _ _ k | .wakeTest _ _ k | .wakeRel _ _ k => k.io
  | _ => none

def State.IoOk (s : State C) : Io → Prop
  | .write w => (s.pipe w.pi).sentBy w.id = w.buf.take w.i ∧ w.i ≤ w.buf.length
  | .writing w => (s.pipe w.pi).sentBy w.id = w.buf.take w.i ∧ w.i < w.buf.length
  | .wrote w => (s.pipe w.pi).sentBy w.id = w.buf ∧ w.i = w.buf.length
  | .wait r => (s.pipe r.pi).gotBy r.id = [] ∧ r.i = 0
  | .read r => ((s.pipe r.pi).gotBy r.id).length = r.i

theorem Site.io_resume {io : Io} (h : σ.resume.io = some io) :
    ∃ io', σ.io = some io' ∧ io'.id = io.id ∧ (s.IoOk io' → s.IoOk io) := by
  cases σ with
  | pipewrite w =>
    cases h
    exact ⟨.writing w, rfl, rfl, fun hw => ⟨hw.1, Nat.le_of_lt hw.2⟩⟩
  | piperead r =>
    cases h
    exact ⟨.wait r, rfl, rfl, id⟩
  | _ => cases h

@[simp] theorem Site.io_alive (σ : Site) : σ.alive.io = σ.io := by cases σ <;> rfl

def Pc.copies : Pc → Prop
  | .writePut _ | .readOut _ => True
  | _ => False

def Pc.copying : Pc → Bool
  | .writePut _ | .readOut _ => true
  | _ => false

theorem Pc.copying_iff (pc : Pc) : pc.copying = true ↔ pc.copies := by
  cases pc <;> simp [Pc.copying, Pc.copies]

instance (pc : Pc) : Decidable pc.copies := decidable_of_iff (pc.copying = true) pc.copying_iff

def CopiesOk (s : State C) : Ev C → Prop
  | .run c o => (s.pc c).copies → o ≠ 0
  | _ => True

instance (s : State C) (e : Ev C) : Decidable (CopiesOk s e) :=
  match e with
  | .run c o => inferInstanceAs (Decidable ((s.pc c).copies → o ≠ 0))
  | .call _ _ | .timer _ | .intr _ _ => inferInstanceAs (Decidable True)

theorem next_io (h : next s me o pc = some (a, k)) (ho : pc.copies → o ≠ 0) (hd : a.dry) {io : Io}
    (hk : k.io = some io) : ∃ io', pc.io = some io' ∧ io'.id = io.id ∧ (s.IoOk io' → s.IoOk io) := by
  cases pc
  all_goals
    simp only [next] at h
    repeat' split at h
  all_goals
    simp only [some.injEq, Prod.mk.injEq, map_eq_some_iff, reduceCtorEq] at h
  all_goals first
    | obtain ⟨rfl, rfl⟩ := h
    | obtain ⟨_, rfl, rfl, rfl⟩ := h
  case writeLoop.isFalse w hlt =>
    cases hk
    refine ⟨.write w, rfl, rfl, ?_⟩
    rintro ⟨hs, hle⟩
    have hi : w.i = w.buf.length := by omega
    exact ⟨by rw [hs, hi, take_length], hi⟩
  case writeLoop.isTrue.isTrue w hlt _ =>
    cases hk
    refine ⟨.write w, rfl, rfl, ?_⟩
    rintro ⟨hs, -⟩
    exact ⟨hs, hlt⟩
  case readWait.isFalse r _ =>
    cases hk
    refine ⟨.wait r, rfl, rfl, ?_⟩
    rintro ⟨hg, hi⟩
    rw [State.IoOk, hg, hi]
    rfl
  all_goals first
    | (cases hk; done)
    | exact hd.elim
    | exact ⟨io, hk, rfl, id⟩
    | exact Site.io_resume hk
    | exact ⟨io, (Site.io_alive _).symm.trans hk, rfl, id⟩
    | exact absurd (ho trivial) (by assumption)

inductive IoReturn (s : State C) : Pc → Pc → Prop
  | wrote {w : Write} : IoReturn s (.writeRel w) (.ret w.i)
  | read {r : Read} : IoReturn s (.readRel r) (.ret r.i)
  | closed {w : Write} : (s.pipe w.pi).readopen = false → IoReturn s (.writeLoop w) (.fail (.pipe w.pi))
  | killed {σ : Site} : IoReturn s (.killedRel σ true) (.fail σ.lock)

theorem next_io_none (h : next s me o pc = some (a, k)) {io : Io} (hp : pc.io = some io) (hk : k.io = none) :
    IoReturn s pc k := by
  cases pc
  all_goals
    simp only [next] at h
    repeat' split at h
  all_goals
    simp only [some.injEq, Prod.mk.injEq, map_eq_some_iff, reduceCtorEq] at h
  all_goals first
    | obtain ⟨rfl, rfl⟩ := h
    | obtain ⟨_, rfl, rfl, rfl⟩ := h
  case killedRel.isTrue hb _ =>
    subst hb
    exact .killed
  case sleepLock σ =>
    cases σ with
    | pipewrite | piperead => cases hk
    | _ => cases hp
  all_goals first
    | (cases hp; done)
    | (cases hk; done)
    | cases hp.symm.trans hk
    | (rw [Site.io_alive] at hk; cases hp.symm.trans hk)
    | exact .wrote
    | exact .read
    | exact .closed (by simp_all)

structure FifoInv (s : State C) : Prop where
  ok : ∀ p, s.PipeOk (s.ppc p)
  fifo : ∀ pi, (s.pipe pi).Fifo
  sent : ∀ {pi e}, e ∈ (s.pipe pi).sent → e.1 < s.calls
  got : ∀ {pi e}, e ∈ (s.pipe pi).got → e.1 < s.calls
  call : ∀ {p io}, (s.ppc p).io = some io → io.id < s.calls
  uniq : ∀ {p p' io io'}, (s.ppc p).io = some io → (s.ppc p').io = some io' → io.id = io'.id → p = p'
  io : ∀ {p io}, (s.ppc p).io = some io → s.IoOk io

section
variable [DecidableEq C]

@[simp] theorem goto_calls : (s.goto c me k).calls = s.calls := by cases me <;> rfl

omit [DecidableEq C] in
theorem State.IoOk.congr {io : Io} (h : s.IoOk io)
    (hs : (t.pipe io.pi).sentBy io.id = (s.pipe io.pi).sentBy io.id)
    (hg : (t.pipe io.pi).gotBy io.id = (s.pipe io.pi).gotBy io.id) : t.IoOk io := by
  cases io with
  | write w | writing w | wrote w =>
    change (t.pipe w.pi).sentBy w.id = _ at hs
    rw [State.IoOk, hs]
    exact h
  | wait r | read r =>
    change (t.pipe r.pi).gotBy r.id = _ at hg
    rw [State.IoOk, hg]
    exact h

theorem io_before (hg : CopiesOk s (.run c o)) (ht : step s (.run c o) = some t)
    (hd : ∀ a k, next s (s.cur c) o (s.pc c) = some (a, k) → a.dry ∨ k.io = none) {io : Io} (hio : (t.ppc p).io = some io) :
    ∃ io', (s.ppc p).io = some io' ∧ io'.id = io.id ∧ (s.IoOk io' → s.IoOk io) := by
  by_cases hc : s.cur c = some p
  · obtain ⟨a, k, u, hn, -, -, rfl⟩ := step_proc hc ht
    have hcopy : (s.ppc p).copies → o ≠ 0 := State.pc_of_cur hc ▸ hg
    rcases hd a _ (by rw [hc, State.pc_of_cur hc, hn]) with hdry | hnone
    · exact next_io hn hcopy hdry hio
    · cases hnone.symm.trans hio
  · rcases ppc_of_ne ht hc with hpc | hpc
    · rw [hpc] at hio
      exact ⟨io, hio, rfl, id⟩
    · rw [hpc] at hio
      cases hio

theorem step_calls (ht : step s (.run c o) = some t) : t.calls = s.calls := by
  obtain ⟨a, k, u, hn, ha, rfl⟩ := step_run.mp ht
  rw [goto_calls]
  cases a with
  | acquire l =>
    simp only [Act.run] at ha
    split at ha <;> cases ha
    rfl
  | device d v => cases d <;> cases ha <;> rfl
  | swtch =>
    obtain ⟨p, -, rfl⟩ := map_eq_some_iff.mp ha
    rfl
  | _ => cases ha; rfl

namespace FifoInv

theorem keep_calm (h : FifoInv s) (hi : Inv s) (hg : CopiesOk s (.run c o)) (ht : step s (.run c o) = some t)
    (hd : ∀ a k, next s (s.cur c) o (s.pc c) = some (a, k) → a.dry ∨ k.io = none)
    (hfifo : ∀ pi, (t.pipe pi).Fifo) (hsent : ∀ pi, (t.pipe pi).sent = (s.pipe pi).sent)
    (hgot : ∀ pi, (t.pipe pi).got = (s.pipe pi).got) : FifoInv t := by
  have hcalls := step_calls ht
  refine ⟨keep_pipeOk hi h.ok ht, hfifo, ?_, ?_, ?_, ?_, ?_⟩
  · intro pi e he
    rw [hsent] at he
    rw [hcalls]
    exact h.sent he
  · intro pi e he
    rw [hgot] at he
    rw [hcalls]
    exact h.got he
  · intro p io hio
    obtain ⟨io', hio', hid, -⟩ := io_before hg ht hd hio
    rw [hcalls, ← hid]
    exact h.call hio'
  · intro p p' io io' hp hp' he
    obtain ⟨x, hx, hid, -⟩ := io_before hg ht hd hp
    obtain ⟨x', hx', hid', -⟩ := io_before hg ht hd hp'
    exact h.uniq hx hx' (by rw [hid, hid', he])
  · intro p io hio
    obtain ⟨io', hio', -, himp⟩ := io_before hg ht hd hio
    exact (himp (h.io hio')).congr (by rw [Pipe.sentBy, hsent, Pipe.sentBy]) (by rw [Pipe.gotBy, hgot, Pipe.gotBy])

theorem keep_effect (h : FifoInv s) (hi : Inv s) (ht : step s (.run c o) = some t) (hc : s.cur c = some p) {pi : Nat}
    {x : Pipe} (hpipe : t.pipe = update s.pipe pi x) (hx : x.Fifo)
    (hsent : ∀ e ∈ x.sent, e ∈ (s.pipe pi).sent ∨ e.1 = m) (hgot : ∀ e ∈ x.got, e ∈ (s.pipe pi).got ∨ e.1 = m)
    (hsentBy : ∀ n, n ≠ m → x.sentBy n = (s.pipe pi).sentBy n)
    (hgotBy : ∀ n, n ≠ m → x.gotBy n = (s.pipe pi).gotBy n)
    {io io' : Io} (hs : (s.ppc p).io = some io) (hid : io.id = m) (hk : (t.ppc p).io = some io') (hid' : io'.id = m)
    (hio : t.IoOk io') : FifoInv t := by
  have hcalls := step_calls ht
  have hlt : m < s.calls := hid ▸ h.call hs
  have hother : ∀ {q y}, q ≠ p → (t.ppc q).io = some y → (s.ppc q).io = some y := by
    intro q y hq hy
    have hcq : s.cur c ≠ some q := fun he => hq (some.inj (he.symm.trans hc))
    rcases ppc_of_ne ht hcq with hpc | hpc
    · rwa [hpc] at hy
    · rw [hpc] at hy
      cases hy
  have hne : ∀ {q y}, q ≠ p → (s.ppc q).io = some y → y.id ≠ m := fun hq hy he => hq (h.uniq hy hs (he.trans hid.symm))
  refine ⟨keep_pipeOk hi h.ok ht, fun pi' => ?_, ?_, ?_, ?_, ?_, ?_⟩
  · by_cases hp : pi' = pi
    · subst hp
      rw [hpipe, update_self]
      exact hx
    · rw [hpipe, update_of_ne hp]
      exact h.fifo pi'
  · intro pi' e he
    rw [hcalls]
    by_cases hp : pi' = pi
    · subst hp
      rw [hpipe, update_self] at he
      rcases hsent e he with he | he
      · exact h.sent he
      · rwa [he]
    · rw [hpipe, update_of_ne hp] at he
      exact h.sent he
  · intro pi' e he
    rw [hcalls]
    by_cases hp : pi' = pi
    · subst hp
      rw [hpipe, update_self] at he
      rcases hgot e he with he | he
      · exact h.got he
      · rwa [he]
    · rw [hpipe, update_of_ne hp] at he
      exact h.got he
  · intro q y hy
    rw [hcalls]
    by_cases hq : q = p
    · subst hq
      obtain rfl := some.inj (hk.symm.trans hy)
      rwa [hid']
    · exact h.call (hother hq hy)
  · intro q q' y y' hy hy' he
    by_cases hq : q = p <;> by_cases hq' : q' = p
    · rw [hq, hq']
    · subst hq
      obtain rfl := some.inj (hk.symm.trans hy)
      exact absurd (he.symm.trans hid') (hne hq' (hother hq' hy'))
    · subst hq'
      obtain rfl := some.inj (hk.symm.trans hy')
      exact absurd (he.trans hid') (hne hq (hother hq hy))
    · exact h.uniq (hother hq hy) (hother hq' hy') he
  · intro q y hy
    by_cases hq : q = p
    · subst hq
      obtain rfl := some.inj (hk.symm.trans hy)
      exact hio
    · have hyid := hne hq (hother hq hy)
      refine (h.io (hother hq hy)).congr ?_ ?_
      all_goals
        rw [hpipe]
        by_cases hp : y.pi = pi
        · rw [hp, update_self]
          first | exact hsentBy _ hyid | exact hgotBy _ hyid
        · rw [update_of_ne hp]

theorem keep_run (h : FifoInv s) (hi : Inv s) (hg : CopiesOk s (.run c o)) (ht : step s (.run c o) = some t) :
    FifoInv t := by
  obtain ⟨a, k, u, hn, ha, -, hpipe, -⟩ := step_stay ht
  rcases next_pipe hn with he | hdry
  · -- a scheduler does not get here
    have hw := hi.wf c
    cases hc : s.cur c with
    | none =>
      rw [hc] at hw
      generalize s.pc c = pc at he hw
      cases he <;> cases hw
    | some p =>
      obtain ⟨a', k', u', hn', -, -, hk⟩ := step_proc hc ht
      have hok := h.ok p
      have hio : ∀ io, (s.ppc p).io = some io → s.IoOk io := fun io hp => h.io hp
      have hs : ∀ {pc}, s.ppc p = pc → (s.ppc p).io = pc.io := fun he => by rw [he]
      rw [hc] at hn ha
      rw [State.pc_of_cur hc] at hn he
      obtain ⟨rfl, rfl⟩ := Prod.mk.inj (some.inj (hn.symm.trans hn'))
      generalize hpc : s.ppc p = pc at he hok hio
      cases he with
      | @put w =>
        cases ha
        obtain ⟨hsent, hlt⟩ := hio _ rfl
        have hpi : t.pipe w.pi = (s.pipe w.pi).put w.id (w.buf.getD w.i 0) := by rw [hpipe]; exact update_self ..
        have hdone : t.IoOk (.write { w with i := w.i + 1 }) := by
          refine ⟨?_, hlt⟩
          change (t.pipe w.pi).sentBy w.id = w.buf.take (w.i + 1)
          rw [hpi, Pipe.sentBy_put, if_pos rfl, hsent, take_add_one, getD_eq_getElem?_getD,
            getElem?_eq_getElem hlt]
          rfl
        have hnow : (t.ppc p).io = some (.write { w with i := w.i + 1 }) := by rw [hk]; rfl
        refine h.keep_effect (m := w.id) hi ht hc hpipe ((h.fifo w.pi).put hok.1) (fun e he => ?_) (fun e he => .inl he)
          (fun n hn => ?_) (fun _ _ => rfl) (hs hpc) rfl hnow rfl hdone
        · rcases mem_append.mp he with he | he
          · exact .inl he
          · exact .inr (by rw [mem_singleton.mp he])
        · rw [Pipe.sentBy_put, if_neg (Ne.symm hn)]
      | @get r =>
        cases ha
        have hgot : ((s.pipe r.pi).gotBy r.id).length = r.i := hio _ rfl
        have hpi : t.pipe r.pi = (s.pipe r.pi).get r.id := by rw [hpipe]; exact update_self ..
        have hdone : t.IoOk (.read { r with i := r.i + 1 }) := by
          change ((t.pipe r.pi).gotBy r.id).length = r.i + 1
          rw [hpi, Pipe.gotBy_get, if_pos rfl, length_append, hgot]
          rfl
        have hnow : (t.ppc p).io = some (.read { r with i := r.i + 1 }) := by rw [hk]; rfl
        refine h.keep_effect (m := r.id) hi ht hc hpipe ((h.fifo r.pi).get hok) (fun e he => .inl he) (fun e he => ?_)
          (fun _ _ => rfl) (fun n hn => ?_) (hs hpc) rfl hnow rfl hdone
        · rcases mem_append.mp he with he | he
          · exact .inl he
          · exact .inr (by rw [mem_singleton.mp he])
        · rw [Pipe.gotBy_get, if_neg (Ne.symm hn)]
      | @close pi b =>
        cases ha
        have hclosed : t.pipe = update s.pipe pi ((s.pipe pi).close b) := hpipe
        have hall : ∀ pi', (t.pipe pi').Fifo ∧ (t.pipe pi').sent = (s.pipe pi').sent ∧
            (t.pipe pi').got = (s.pipe pi').got := by
          intro pi'
          by_cases hp : pi' = pi
          · subst hp
            rw [hclosed, update_self]
            exact ⟨(h.fifo pi').close b, by cases b <;> rfl, by cases b <;> rfl⟩
          · rw [hclosed, update_of_ne hp]
            exact ⟨h.fifo pi', rfl, rfl⟩
        refine h.keep_calm hi hg ht (fun a' k' hn'' => .inr ?_) (fun pi' => (hall pi').1) (fun pi' => (hall pi').2.1)
          fun pi' => (hall pi').2.2
        rw [hc, State.pc_of_cur hc, hpc] at hn''
        cases hn''
        rfl
  · have hsame : t.pipe = s.pipe := by rw [hpipe, Act.run_dry hdry ha]
    refine h.keep_calm hi hg ht (fun a' k' hn' => .inl ?_) (fun pi => hsame ▸ h.fifo pi) (fun _ => by rw [hsame])
      fun _ => by rw [hsame]
    obtain ⟨rfl, rfl⟩ := Prod.mk.inj (some.inj (hn.symm.trans hn'))
    exact hdry

omit [DecidableEq C] in
theorem io_start (h : FifoInv s) {n : Nat} (hj : Jump s c n k) (hc : s.cur c = some p) {io : Io} (hk : k.io = some io) :
    (s.ppc p).io = some io ∨ n = s.calls + 1 ∧ io.id = s.calls ∧ s.IoOk io := by
  have hsent : ∀ pi, (s.pipe pi).sentBy s.calls = [] := by
    intro pi
    rw [Pipe.sentBy, map_eq_nil_iff, filter_eq_nil_iff]
    intro e he
    have hlt := h.sent he
    simp only [decide_eq_true_eq]
    omega
  have hgot : ∀ pi, (s.pipe pi).gotBy s.calls = [] := by
    intro pi
    rw [Pipe.gotBy, map_eq_nil_iff, filter_eq_nil_iff]
    intro e he
    have hlt := h.got he
    simp only [decide_eq_true_eq]
    omega
  cases hj with
  | call f =>
    cases f with
    | pipewrite pi buf =>
      cases hk
      exact .inr ⟨rfl, rfl, hsent pi, Nat.zero_le _⟩
    | piperead pi m =>
      cases hk
      exact .inr ⟨rfl, rfl, hgot pi, rfl⟩
    | _ => cases hk
  | timer | intr => exact .inl (State.pc_of_cur hc ▸ hk)

theorem jump (h : FifoInv s) {n : Nat} (hj : Jump s c n k) :
    FifoInv (State.goto { s with calls := n } c (s.cur c) k) := by
  have hle : s.calls ≤ n := by cases hj <;> omega
  -- the calls are those of before, and perhaps a new one of the process on the CPU
  have hio : ∀ {p io}, ((State.goto { s with calls := n } c (s.cur c) k).ppc p).io = some io →
      (s.ppc p).io = some io ∨ n = s.calls + 1 ∧ io.id = s.calls ∧ s.cur c = some p ∧ s.IoOk io := by
    intro p io hp
    rw [goto_ppc_apply] at hp
    split at hp
    next hc =>
      rcases h.io_start hj hc hp with hp | ⟨hn, hid, hok⟩
      · exact .inl hp
      · exact .inr ⟨hn, hid, hc, hok⟩
    next => exact .inl hp
  refine ⟨fun p => ?_, ?_, ?_, ?_, ?_, ?_, ?_⟩
  · rw [goto_ppc_apply]
    split
    · cases hj with
      | call f => cases f <;> trivial
      | _ => trivial
    · exact (h.ok p).congr (some p) fun pi _ => by rw [goto_pipe]
  · rw [goto_pipe]
    exact h.fifo
  · intro pi e he
    rw [goto_pipe] at he
    rw [goto_calls]
    exact Nat.lt_of_lt_of_le (h.sent he) hle
  · intro pi e he
    rw [goto_pipe] at he
    rw [goto_calls]
    exact Nat.lt_of_lt_of_le (h.got he) hle
  · intro p io hp
    rw [goto_calls]
    rcases hio hp with hp | ⟨hn, hid, -⟩
    · exact Nat.lt_of_lt_of_le (h.call hp) hle
    · change io.id < n
      omega
  · intro p p' io io' hp hp' he
    rcases hio hp with hp | ⟨-, hid, hc, -⟩ <;> rcases hio hp' with hp' | ⟨-, hid', hc', -⟩
    · exact h.uniq hp hp' he
    · have hlt := h.call hp
      omega
    · have hlt := h.call hp'
      omega
    · exact some.inj (hc.symm.trans hc')
  · intro p io hp
    rcases hio hp with hp | ⟨-, -, -, hok⟩
    · exact (h.io hp).congr (by rw [goto_pipe]) (by rw [goto_pipe])
    · exact hok.congr (by rw [goto_pipe]) (by rw [goto_pipe])

theorem keep (h : FifoInv s) (hi : Inv s) {e : Ev C} (hg : CopiesOk s e) (ht : step s e = some t) : FifoInv t := by
  rcases step_cases ht with ⟨c, o, rfl⟩ | ⟨c, k, n, hj, -, rfl⟩
  · exact h.keep_run hi hg ht
  · exact h.jump hj

omit [DecidableEq C] in
theorem at_boot : FifoInv (booted : State C) where
  ok p := by by_cases h0 : p = initproc <;> simp [booted, h0, State.PipeOk]
  fifo _ := ⟨by simp [booted, Pipe.fresh], by simp [booted, Pipe.fresh, Pipe.buffered, Ring.contents]⟩
  sent he := by cases he
  got he := by cases he
  call {p io} hio := by by_cases h0 : p = initproc <;> simp [booted, h0, Pc.io] at hio
  uniq {p p' io io'} hio := by by_cases h0 : p = initproc <;> simp [booted, h0, Pc.io] at hio
  io {p io} hio := by by_cases h0 : p = initproc <;> simp [booted, h0, Pc.io] at hio

end FifoInv

theorem run_fifoInv {evs : List (Ev C)} (h : Run (guarded step CopiesOk) booted evs s) : Inv s ∧ FifoInv s := by
  refine h.invariant (P := fun _ s => Inv s ∧ FifoInv s) ⟨Inv.at_boot, FifoInv.at_boot⟩ fun _ hi ht => ?_
  obtain ⟨hg, hs⟩ := guarded_eq_some.mp ht
  exact ⟨hi.1.keep hs, hi.2.keep hi.1 hg hs⟩

/-! ### Lossless pipes -/

/-- What the step from `s` to `t`, which ends the call `io` of process `p`, returns: `piperead` the number
of bytes it has consumed, or -1 and none; `pipewrite` the length of its buffer, which it has appended, or
-1 if the read end is closed or the process is killed. -/
def Returns (s t : State C) (p : Slot) : Io → Prop
  | .wait r | .read r =>
    t.ppc p = .ret ((s.pipe r.pi).gotBy r.id).length ∨
      t.ppc p = .fail (.pipe r.pi) ∧ (s.pipe r.pi).gotBy r.id = []
  | .write w | .writing w | .wrote w =>
    t.ppc p = .ret w.buf.length ∧ (s.pipe w.pi).sentBy w.id = w.buf ∨
      t.ppc p = .fail (.pipe w.pi) ∧ ((s.pipe w.pi).readopen = false ∨ s.ppc p = .killedRel (.pipewrite w) true)

structure Lossless (s : State C) : Prop where
  count : ∀ pi, ((s.pipe pi).nwrite - (s.pipe pi).nread).toNat ≤ pipesize
  order : ∀ pi, (s.pipe pi).sent.map Prod.snd = (s.pipe pi).got.map Prod.snd ++ (s.pipe pi).buffered
  /-- what a call has appended is the part of its buffer before its loop counter -/
  written : ∀ p w, (s.ppc p).io = some (.write w) → (s.pipe w.pi).sentBy w.id = w.buf.take w.i
  returns : ∀ c o t p io, guarded step CopiesOk s (.run c o) = some t → s.cur c = some p →
    (s.ppc p).io = some io → (t.ppc p).io = none → Returns s t p io

theorem FifoInv.returns (h : FifoInv s) (ht : step s (.run c o) = some t) (hc : s.cur c = some p) {io : Io}
    (hio : (s.ppc p).io = some io) (hend : (t.ppc p).io = none) : Returns s t p io := by
  obtain ⟨a, k, u, hn, -, -, rfl⟩ := step_proc hc ht
  have hret := next_io_none hn hio hend
  have hok := h.io hio
  rw [Returns.eq_def]
  generalize hk : t.ppc p = k at hret
  generalize hpc : s.ppc p = pc at hret hio
  cases hret with
  | wrote =>
    cases hio
    exact .inl ⟨by rw [hok.2], hok.1⟩
  | read =>
    cases hio
    exact .inl (by rw [show ((s.pipe _).gotBy _).length = _ from hok])
  | closed hclosed =>
    cases hio
    exact .inr ⟨rfl, .inl hclosed⟩
  | @killed σ =>
    cases σ with
    | pipewrite w =>
      cases hio
      exact .inr ⟨rfl, .inr rfl⟩
    | piperead r =>
      cases hio
      exact .inr ⟨rfl, hok.1⟩
    | _ => cases hio

/-- In every run in which the copies succeed every pipe is a lossless queue, however long the run. -/
theorem pipe_lossless {evs : List (Ev C)} (h : Run (guarded step CopiesOk) booted evs s) : Lossless s := by
  obtain ⟨-, hf⟩ := run_fifoInv h
  refine ⟨fun pi => (hf.fifo pi).count, fun pi => (hf.fifo pi).order, fun p w hio => (hf.io hio).1,
    fun c o t p io ht hc hio hend => ?_⟩
  obtain ⟨-, hs⟩ := guarded_eq_some.mp ht
  exact hf.returns hs hc hio hend

def writesReads : List (Ev Unit) :=
  initRuns () ++ .call () (.pipewrite 0 [5, 6]) :: runs () 207 ++ .call () (.piperead 0 1) :: runs () 199

theorem writesReads_lossless :
    ∃ s : State Unit, Run (guarded step CopiesOk) booted writesReads s ∧ s.ppc 0 = .user ∧
      (s.pipe 0).sent = [(0, 5), (0, 6)] ∧ (s.pipe 0).got = [(1, 5)] ∧ (s.pipe 0).buffered = [6] ∧ Lossless s := by
  have hstate : ((exec (guarded step CopiesOk) (booted : State Unit) writesReads).map fun s =>
      (s.ppc 0, (s.pipe 0).sent, (s.pipe 0).got, (s.pipe 0).buffered)) =
      some (.user, [(0, 5), (0, 6)], [(1, 5)], [6]) := by
    decide +kernel
  obtain ⟨s, hrun, heq⟩ := map_eq_some_iff.mp hstate
  simp only [Prod.mk.injEq] at heq
  obtain ⟨hpc, hs, hg, hb⟩ := heq
  exact ⟨s, run_of_exec hrun, hpc, hs, hg, hb, pipe_lossless (run_of_exec hrun)⟩

end

end Xv6.Smp
