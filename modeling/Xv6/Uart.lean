import Mathlib
import Xv6.Lib.Ring
import Xv6.Lib.Run

/-!
The transmit side of the UART, shared by any number of threads: processes in `uartputc` and interrupt handlers in
`uartintr`. What runs with `uart_tx_lock` held between two accesses to the device is one step. The device finishes
a byte, and `uartputc_sync`, which takes no lock, writes one, at any time.
-/

namespace Xv6.Uart

open Transition Ring Function

abbrev Byte := BitVec 8

/-- `UART_TX_BUF_SIZE`. -/
abbrev bufSize : Nat := 32

/-- A thread in `putc` or `intr` waits for the lock, in `start` or `thr` it is in the loop of `uartstart`. -/
inductive Pc
  | user
  | putc (c : Byte)
  | sleeping (c : Byte)
  | intr
  | start
  | thr (c : Byte)
  deriving DecidableEq

/-- `wakeup(&uart_tx_r)` -/
def Pc.wake : Pc → Pc
  | .sleeping c => .putc c
  | k => k

structure State (T : Type*) where
  buf : Nat → Byte
  w : BitVec 64
  r : BitVec 64
  lock : Option T
  pc : T → Pc
  /-- `LSR_TX_IDLE` -/
  idle : Bool
  /-- the transmit interrupt is pending -/
  irq : Bool
  /-- what `uartputc` has stored, and what `uartstart` has written to `THR` -/
  stored : List Byte
  sent : List Byte

inductive Ev (T : Type*)
  | uartputc (t : T) (c : Byte)
  | uartintr (t : T)
  | run (t : T)
  | uartputcSync
  | transmitted

variable {T : Type*}

def State.init : State T := ⟨fun _ => 0, 0, 0, none, fun _ => .user, true, false, [], []⟩

def State.waiting (s : State T) : List Byte := contents bufSize s.buf s.r s.w

variable [DecidableEq T]

def State.goto (s : State T) (t : T) (k : Pc) : State T := { s with pc := update s.pc t k }

/-- `uartputc` from `acquire` to `uartstart`. -/
def State.put (s : State T) (t : T) (c : Byte) : State T :=
  if s.w = s.r + 32 then s.goto t (.sleeping c)
  else { s.goto t .start with
    lock := some t, buf := update s.buf (s.w.toNat % bufSize) c, w := s.w + 1, stored := s.stored ++ [c] }

/-- A round of `uartstart` up to the write to `THR`, or its return and the `release` of its caller. -/
def State.start (s : State T) (t : T) : State T :=
  if s.w = s.r then { s.goto t .user with lock := none, irq := false }
  else if s.idle then
    { s with r := s.r + 1, pc := update (fun u => (s.pc u).wake) t (.thr (s.buf (s.r.toNat % bufSize))) }
  else { s.goto t .user with lock := none }

def step (s : State T) : Ev T → Option (State T)
  | .uartputc t c => if s.pc t = .user then some (s.goto t (.putc c)) else none
  | .uartintr t => if s.pc t = .user then some { s.goto t .intr with irq := false } else none
  | .uartputcSync => some { s with idle := false }
  | .transmitted => some { s with idle := true, irq := true }
  | .run t =>
    match s.pc t with
    | .user | .sleeping _ => none
    | .putc c => if s.lock = none then some (s.put t c) else none
    | .intr => if s.lock = none then some { s.goto t .start with lock := some t } else none
    | .start => some (s.start t)
    | .thr c => some { s.goto t .start with idle := false, sent := s.sent ++ [c] }

structure Inv (s : State T) : Prop where
  held : ∀ t, s.lock = some t ↔ s.pc t = .start ∨ ∃ c, s.pc t = .thr c
  order : (∀ t c, s.pc t ≠ .thr c) → s.sent ++ s.waiting = s.stored
  sending : ∀ t c, s.pc t = .thr c → s.sent ++ c :: s.waiting = s.stored
  room : (s.w - s.r).toNat ≤ bufSize
  asleep : ∀ t c, s.pc t = .sleeping c → s.w = s.r + 32
  armed : s.idle → s.w ≠ s.r → s.irq ∨ s.lock ≠ none ∨ ∃ t, s.pc t = .intr

variable {s s' : State T} {t : T} {c : Byte}

theorem Pc.wake_start {k : Pc} : k.wake = .start ↔ k = .start := by cases k <;> simp [wake]

theorem Pc.wake_thr {k : Pc} : k.wake = .thr c ↔ k = .thr c := by cases k <;> simp [wake]

theorem Pc.wake_ne {k : Pc} : k.wake ≠ .sleeping c := by cases k <;> simp [wake]

namespace Inv

omit [DecidableEq T] in
theorem at_init : Inv (State.init : State T) := by
  constructor <;> simp [State.init, State.waiting, contents]

omit [DecidableEq T] in
theorem alone (h : Inv s) (hl : s.lock ≠ some t) : s.pc t ≠ .start ∧ ∀ c, s.pc t ≠ .thr c :=
  ⟨fun he => hl ((h.held t).mpr (.inl he)), fun c he => hl ((h.held t).mpr (.inr ⟨c, he⟩))⟩

theorem put (h : Inv s) (hl : s.lock = none) (hpc : s.pc t = .putc c) : Inv (s.put t c) := by
  unfold State.put
  split
  next => constructor <;> simp only [State.goto, State.waiting, update_apply] <;> grind -linarith [Inv, State.waiting]
  next hfull =>
    have hlt : (s.w - s.r).toNat < bufSize := by
      have hroom := h.room
      simp only [bufSize] at *
      bv_omega
    have hput : contents bufSize (update s.buf (s.w.toNat % bufSize) c) s.r (s.w + 1) = s.waiting ++ [c] :=
      contents_put (by decide) (by decide) hlt c
    have hlen := congrArg List.length hput
    simp only [State.waiting, length_contents, List.length_append, List.length_singleton] at hlen
    have horder := h.order fun u c => (h.alone (by simp [hl])).2 c
    constructor <;> simp only [State.goto, State.waiting, hput, update_apply]
    · grind -linarith [Inv]
    · intro _
      rw [← List.append_assoc]
      exact congrArg (· ++ [c]) horder
    all_goals grind -linarith [Inv]

theorem start (h : Inv s) (hpc : s.pc t = .start) : Inv (s.start t) := by
  unfold State.start
  split
  next => constructor <;> simp only [State.goto, State.waiting, update_apply] <;> grind -linarith [Inv, State.waiting]
  next hne =>
    split
    next =>
      have hget : s.waiting = s.buf (s.r.toNat % bufSize) :: contents bufSize s.buf (s.r + 1) s.w :=
        contents_get (by decide) (Ne.symm hne)
      have hcount := count_get (Ne.symm hne)
      have hl := (h.held t).mpr (.inl hpc)
      have horder := h.order fun u c => by grind -linarith [Inv]
      constructor <;> simp only [State.waiting, update_apply]
      · grind -linarith [Inv, Pc.wake_start, Pc.wake_thr]
      · exact fun hn => absurd (if_pos rfl) (hn t _)
      · intro u c hu
        rw [← horder, hget]
        grind -linarith [Inv, Pc.wake_start, Pc.wake_thr]
      · grind -linarith [Inv]
      · grind -linarith [Pc.wake_ne]
      · simp [hl]
    next => constructor <;> simp only [State.goto, State.waiting, update_apply] <;> grind -linarith [Inv, State.waiting]

theorem keep {e : Ev T} (h : Inv s) (ht : step s e = some s') : Inv s' := by
  cases e with
  | uartputc t c | uartintr t =>
    obtain ⟨hu, hs⟩ := Option.ite_none_right_eq_some.mp ht
    cases hs
    constructor <;> simp only [State.goto, State.waiting, update_apply] <;> grind -linarith [Inv, State.waiting]
  | uartputcSync | transmitted =>
    cases ht
    exact { h with armed := by simp }
  | run t =>
    simp only [step] at ht
    split at ht
    · cases ht
    · cases ht
    · obtain ⟨hl, hs⟩ := Option.ite_none_right_eq_some.mp ht
      cases hs
      exact h.put hl ‹_›
    · obtain ⟨hl, hs⟩ := Option.ite_none_right_eq_some.mp ht
      cases hs
      constructor <;> simp only [State.goto, State.waiting, update_apply] <;> grind -linarith [Inv, State.waiting]
    · cases ht
      exact h.start ‹_›
    · cases ht
      constructor <;> simp only [State.goto, State.waiting, update_apply] <;> grind -linarith [Inv, State.waiting]

end Inv

/-- In every run the UART is sent the bytes of `uartputc` in their order, none twice and none left out; a writer
sleeps only while the buffer is full; and when the UART could take a byte that waits in the buffer, a thread is
about to look: it has the lock, or the interrupt is pending or being served. -/
theorem transmit_exact {evs : List (Ev T)} (h : Run step State.init evs s) :
    s.sent <+: s.stored ∧ (s.lock = none → s.sent ++ s.waiting = s.stored) ∧
      (∀ t c, s.pc t = .sleeping c → s.waiting.length = bufSize) ∧
      (s.idle → s.waiting ≠ [] → s.irq ∨ s.lock ≠ none ∨ ∃ t, s.pc t = .intr) := by
  have hi : Inv s := h.invariant (P := fun _ s => Inv s) Inv.at_init fun _ hi ht => hi.keep ht
  have hlen : s.waiting.length = (s.w - s.r).toNat := length_contents
  refine ⟨?_, fun hl => hi.order fun u c => (hi.alone (by simp [hl])).2 c, fun t c hs => ?_, fun hidle hne => ?_⟩
  · by_cases hthr : ∃ t c, s.pc t = .thr c
    · obtain ⟨t, c, hpc⟩ := hthr
      exact ⟨_, hi.sending t c hpc⟩
    · exact ⟨_, hi.order fun u c hpc => hthr ⟨u, c, hpc⟩⟩
  · rw [hlen, hi.asleep t c hs, BitVec.add_comm, BitVec.add_sub_cancel]
    rfl
  · refine hi.armed hidle fun he => hne (List.length_eq_zero_iff.mp ?_)
    rw [hlen, he, BitVec.sub_self]
    rfl

/-- One byte is on its way and the next 32 fill the buffer, so another writer sleeps. -/
def fullBuffer : List (Ev Bool) :=
  .uartputc false 97 :: List.replicate 4 (.run false) ++
    (List.replicate 32 [.uartputc false 98, .run false, .run false]).flatten ++ [.uartputc true 99, .run true]

theorem fullBuffer_transmit : ∃ s : State Bool, Run step State.init fullBuffer s ∧ s.sent = [97] ∧
    s.sent <+: s.stored ∧ s.waiting.length = bufSize := by
  have hstate : ((Transition.exec step (State.init : State Bool) fullBuffer).map fun s => (s.pc true, s.sent)) =
      some (.sleeping 99, [97]) := by
    decide +kernel
  obtain ⟨s, hrun, heq⟩ := Option.map_eq_some_iff.mp hstate
  simp only [Prod.mk.injEq] at heq
  obtain ⟨hpre, -, hfull, -⟩ := transmit_exact (run_of_exec hrun)
  exact ⟨s, run_of_exec hrun, heq.2, hpre, hfull true 99 heq.1⟩

end Xv6.Uart
