import Mathlib.Logic.Function.Basic
import Mathlib.Data.List.Basic
import Mathlib.Tactic.IntervalCases

namespace Xv6.Syscall

/-- `sys_name`; entry 0 has no initialiser. -/
def sysName : List (Option String) :=
  [none, some "fork", some "exit", some "wait", some "pipe", some "read", some "kill", some "exec",
    some "fstat", some "chdir", some "dup", some "getpid", some "sbrk", some "sleep", some "uptime",
    some "open", some "write", some "mknod", some "unlink", some "link", some "mkdir", some "close",
    some "hello", some "trace", some "sysinfo"]

/-- `NELEM(syscalls)`: the handler table has the same entries as `sys_name`. -/
def nelem : Int := sysName.length

inductive Status
  | unused
  | live
  | zombie
  deriving DecidableEq

structure Proc where
  status : Status
  pid : Nat
  parent : Option Nat
  traceMask : BitVec 32
  /-- `p->trapframe->a0` -/
  a0 : BitVec 64

structure Table where
  proc : Nat → Proc
  nextpid : Nat

def Table.set (s : Table) (p : Nat) (q : Proc) : Table := { s with proc := Function.update s.proc p q }

/-- A system call trap: the caller, its registers, the slot that `allocproc` or `wait` finds, and
what a handler that leaves the process table alone returns. -/
structure Trap where
  p : Nat
  a7 : BitVec 64
  a0 : BitVec 64
  pick : Option Nat
  ret : BitVec 64

/-- `int num = p->trapframe->a7`. -/
def Trap.num (t : Trap) : Int := (t.a7.setWidth 32).toInt

def minusOne : BitVec 64 := BitVec.allOnes 64

/-- `sys_trace`: a negative mask is refused. -/
def sysTrace (s : Table) (t : Trap) : Table × BitVec 64 :=
  let mask := t.a0.setWidth 32
  if mask.toInt < 0 then (s, minusOne)
  else (s.set t.p { s.proc t.p with traceMask := mask }, 0)

/-- `sys_fork`: the child inherits the mask; 0 comes back in the child. -/
def sysFork (s : Table) (t : Trap) : Table × BitVec 64 :=
  match t.pick with
  | none => (s, minusOne)
  | some c =>
    if (s.proc c).status = .unused ∧ c ≠ t.p then
      ({ s.set c ⟨.live, s.nextpid, some t.p, (s.proc t.p).traceMask, 0⟩ with nextpid := s.nextpid + 1 },
        BitVec.ofNat 64 s.nextpid)
    else (s, minusOne)

/-- `sys_wait`: `freeproc` clears the slot of the zombie it finds. -/
def sysWait (s : Table) (t : Trap) : Table × BitVec 64 :=
  match t.pick with
  | none => (s, minusOne)
  | some c =>
    if (s.proc c).status = .zombie ∧ (s.proc c).parent = some t.p ∧ c ≠ t.p then
      (s.set c ⟨.unused, 0, none, 0, (s.proc c).a0⟩, BitVec.ofNat 64 (s.proc c).pid)
    else (s, minusOne)

def Table.reparent (s : Table) (p : Nat) : Table where
  proc := fun q => if (s.proc q).parent = some p then { s.proc q with parent := some 0 } else s.proc q
  nextpid := s.nextpid

/-- `sys_exit` does not return; the children go to init, which itself panics here. -/
def sysExit (s : Table) (p : Nat) : Table :=
  if p = 0 then s
  else (s.reparent p).set p { (s.reparent p).proc p with status := .zombie }

/-- Handlers other than `sys_exit`, by number. -/
def handler (s : Table) (t : Trap) : Table × BitVec 64 :=
  if t.num = 1 then sysFork s t
  else if t.num = 3 then sysWait s t
  else if t.num = 23 then sysTrace s t
  else (s, t.ret)

/-- What the trace line at the end of `syscall` evaluates: the shift amount, and the index into
`sys_name` when the mask has the bit. -/
structure TraceLine where
  shift : Int
  index : Option Int

def known (num : Int) : Prop := 0 < num ∧ num < nelem

instance (num : Int) : Decidable (known num) := inferInstanceAs (Decidable (_ ∧ _))

/-- `p->trace_mask & (1 << num)`; the machine's shift takes the amount modulo 32. -/
def traced (mask : BitVec 32) (num : Int) : Bool := mask.getLsbD (num % 32).toNat

def traceLine (s : Table) (t : Trap) : TraceLine where
  shift := t.num
  index := if traced (s.proc t.p).traceMask t.num then some t.num else none

def Table.setA0 (s : Table) (p : Nat) (v : BitVec 64) : Table := s.set p { s.proc p with a0 := v }

/-- `syscall`, with the trace line it reaches; `sys_exit` never reaches it. -/
def syscall (s : Table) (t : Trap) : Table × Option TraceLine :=
  if (s.proc t.p).status ≠ .live then (s, none)
  else if known t.num then
    if t.num = 2 then (sysExit s t.p, none)
    else
      let r := handler s t
      let s := r.1.setA0 t.p r.2
      (s, some (traceLine s t))
  else
    let s := s.setA0 t.p minusOne
    (s, some (traceLine s t))

def after (s : Table) (ts : List Trap) : Table := ts.foldl (fun s t => (syscall s t).1) s

def booted : Table where
  proc := fun p => if p = 0 then ⟨.live, 1, none, 0, 0⟩ else ⟨.unused, 0, none, 0, 0⟩
  nextpid := 2

/-- The trace line of a call stays inside `sys_name` and the width of the mask, and an unknown number
is answered with -1 and not looked up. -/
def TraceSafe (s : Table) (t : Trap) : Prop :=
  ∀ l, (syscall s t).2 = some l → 0 ≤ l.shift ∧ l.shift < 32 ∧
    (∀ i, l.index = some i → 1 ≤ i ∧ i ≤ 24 ∧ ∃ name, sysName[i.toNat]? = some (some name)) ∧
    (¬ known t.num → ((syscall s t).1.proc t.p).a0 = minusOne ∧ l.index = none)

/-- The condition under which the trace line is harmless: the number is in the width of the mask, and
if no call has it, its bit in the caller's mask is clear. -/
def TraceFits (s : Table) (t : Trap) : Prop :=
  (s.proc t.p).status = .live → 0 ≤ t.num ∧ t.num < 32 ∧
    (t.num = 0 ∨ 25 ≤ t.num ∧ t.num ≤ 30 → (s.proc t.p).traceMask.getLsbD t.num.toNat = false)

theorem nelem_eq : nelem = 25 := rfl

theorem sysName_present {i : Int} (h : known i) : ∃ name, sysName[i.toNat]? = some (some name) := by
  obtain ⟨hpos, hlt⟩ := h
  rw [nelem_eq] at hlt
  obtain ⟨n, rfl⟩ := Int.eq_ofNat_of_zero_le hpos.le
  have hn : n < 25 := by omega
  have hn0 : 0 < n := by omega
  interval_cases n <;> exact ⟨_, rfl⟩

/-- `sys_trace` lets no mask with bit 31 in, and every other mask is a copy. -/
def MasksOk (s : Table) : Prop := ∀ p, (s.proc p).traceMask.msb = false

section
variable {s : Table} (h : MasksOk s)
include h

theorem MasksOk.set {p : Nat} {q : Proc} (hq : q.traceMask.msb = false) : MasksOk (s.set p q) := by
  intro r
  by_cases hr : r = p
  · subst r; simpa [Table.set] using hq
  · simpa [Table.set, Function.update_of_ne hr] using h r

theorem sysTrace_masksOk (t : Trap) : MasksOk (sysTrace s t).1 := by
  unfold sysTrace
  simp only
  split
  next => exact h
  next hneg => exact h.set (by simpa [BitVec.msb_eq_toInt] using hneg)

theorem sysFork_masksOk (t : Trap) : MasksOk (sysFork s t).1 := by
  unfold sysFork
  split
  next => exact h
  next c _ =>
    split
    next => exact h.set (h t.p)
    next => exact h

theorem sysWait_masksOk (t : Trap) : MasksOk (sysWait s t).1 := by
  unfold sysWait
  split
  next => exact h
  next c _ =>
    split
    next => exact h.set (by simp)
    next => exact h

theorem MasksOk.reparent (p : Nat) : MasksOk (s.reparent p) := by
  intro q
  unfold Table.reparent
  simp only
  split <;> exact h q

theorem sysExit_masksOk (p : Nat) : MasksOk (sysExit s p) := by
  unfold sysExit
  split
  next => exact h
  next => exact (h.reparent p).set (h.reparent p p)

theorem handler_masksOk (t : Trap) : MasksOk (handler s t).1 := by
  unfold handler
  split
  next => exact sysFork_masksOk h t
  next =>
    split
    next => exact sysWait_masksOk h t
    next =>
      split
      next => exact sysTrace_masksOk h t
      next => exact h

theorem syscall_masksOk (t : Trap) : MasksOk (syscall s t).1 := by
  unfold syscall
  split
  next => exact h
  next =>
    split
    next =>
      split
      next => exact sysExit_masksOk h t.p
      next =>
        have hh := handler_masksOk h t
        exact hh.set (hh t.p)
    next => exact h.set (h t.p)

theorem after_masksOk (ts : List Trap) : MasksOk (after s ts) := by
  induction ts generalizing s with
  | nil => exact h
  | cons t ts ih => exact ih (syscall_masksOk h t)

end

theorem booted_masksOk : MasksOk booted := by
  intro p
  unfold booted
  simp only
  split <;> rfl

theorem syscall_unknown {s : Table} {t : Trap} (hl : (s.proc t.p).status = .live) (hk : ¬ known t.num) :
    syscall s t = (s.setA0 t.p minusOne, some ⟨t.num, if traced (s.proc t.p).traceMask t.num then some t.num else none⟩) := by
  simp [syscall, hl, hk, traceLine, Table.setA0, Table.set]

theorem traced_eq {mask : BitVec 32} {num : Int} (h0 : 0 ≤ num) (h : num < 32) :
    traced mask num = mask.getLsbD num.toNat := by
  unfold traced
  rw [Int.emod_eq_of_lt h0 h]

theorem traceSafe_iff_unknown {s : Table} (hm : MasksOk s) {t : Trap} (hl : (s.proc t.p).status = .live)
    (hk : ¬ known t.num) : TraceSafe s t ↔ TraceFits s t := by
  have hk' : t.num ≤ 0 ∨ 25 ≤ t.num := by
    by_contra hne
    exact hk ⟨by omega, by rw [nelem_eq]; omega⟩
  have hcall := syscall_unknown hl hk
  constructor
  · intro hs _
    obtain ⟨h0, h32, _, hun⟩ := hs _ (congrArg Prod.snd hcall)
    refine ⟨h0, h32, fun _ => ?_⟩
    have hnone := (hun hk).2
    simpa [traced_eq h0 h32] using hnone
  · intro hf l hline
    obtain ⟨h0, h32, hbit⟩ := hf hl
    have hclear : traced (s.proc t.p).traceMask t.num = false := by
      rw [traced_eq h0 h32]
      by_cases h31 : t.num = 31
      · have := hm t.p
        rw [h31]
        simpa [BitVec.msb_eq_getLsbD_last] using this
      · exact hbit (by omega)
    rw [hcall] at hline ⊢
    cases Option.some.inj hline
    refine ⟨h0, h32, ?_, fun _ => ⟨by simp [Table.setA0, Table.set], by simp [hclear]⟩⟩
    intro i hi
    simp [hclear] at hi

theorem traceSafe_of_known {s : Table} {t : Trap} (hk : known t.num) : TraceSafe s t := by
  intro l hline
  have hline' : ∃ s', traceLine s' t = l := by
    unfold syscall at hline
    split at hline
    next => simp at hline
    next =>
      split at hline
      next => simp at hline
      next => exact ⟨_, Option.some.inj hline⟩
  have hk' := hk
  obtain ⟨hpos, hlt⟩ := hk
  rw [nelem_eq] at hlt
  obtain ⟨s', rfl⟩ := hline'
  refine ⟨by simp only [traceLine]; omega, by simp only [traceLine]; omega, ?_, fun hn => absurd hk' hn⟩
  intro i hi
  have he : t.num = i := by
    simp only [traceLine] at hi
    split at hi
    next => exact Option.some.inj hi
    next => simp at hi
  subst he
  exact ⟨by omega, by omega, sysName_present hk'⟩

theorem traceSafe_iff {s : Table} (hm : MasksOk s) (t : Trap) : TraceSafe s t ↔ TraceFits s t := by
  by_cases hl : (s.proc t.p).status = .live
  · by_cases hk : known t.num
    · refine ⟨fun _ _ => ?_, fun _ => traceSafe_of_known hk⟩
      obtain ⟨hpos, hlt⟩ := hk
      rw [nelem_eq] at hlt
      exact ⟨by omega, by omega, fun hh => by omega⟩
    · exact traceSafe_iff_unknown hm hl hk
  · refine ⟨fun _ hh => absurd hh hl, fun _ l hline => ?_⟩
    simp [syscall, hl] at hline

/-- In every sequence of system calls by any processes, each trace line is safe exactly when each
number no call has lies in the width of the mask and has its bit clear in the caller's mask. -/
theorem trace_safe_iff_fits (ts : List Trap) :
    (∀ before t rest, ts = before ++ t :: rest → TraceSafe (after booted before) t) ↔
      ∀ before t rest, ts = before ++ t :: rest → TraceFits (after booted before) t := by
  have hm := fun before => after_masksOk booted_masksOk before
  exact ⟨fun h before t rest split => (traceSafe_iff (hm before) t).mp (h before t rest split),
    fun h before t rest split => (traceSafe_iff (hm before) t).mpr (h before t rest split)⟩

/-- init calls `trace(1 << 25)` and then traps with number 25. -/
def traceThenUnknown : List Trap := [⟨0, 23, 0x2000000, none, 0⟩, ⟨0, 25, 0, none, 0⟩]

theorem traceThenUnknown_reads_past_sysName :
    ¬ ∀ before t rest, traceThenUnknown = before ++ t :: rest → TraceSafe (after booted before) t := by
  intro h
  have hs := h [⟨0, 23, 0x2000000, none, 0⟩] ⟨0, 25, 0, none, 0⟩ [] rfl
  have hline : (syscall (after booted [⟨0, 23, 0x2000000, none, 0⟩]) ⟨0, 25, 0, none, 0⟩).2 =
      some ⟨25, some 25⟩ := rfl
  obtain ⟨_, hle, _⟩ := (hs _ hline).2.2.1 25 rfl
  omega

end Xv6.Syscall
