import Mathlib

/-!
The assembly code of `trampoline.S`, `swtch.S` and `kernelvec.S`: what it does to the registers and the memory.
All accesses are to aligned doublewords, so the memory is a function of their addresses. `tr` translates a
virtual address with the page table that `satp` names.
-/

namespace Xv6.Trap

open Function

abbrev Word := BitVec 64

/-- The registers `x1` to `x31`, which is also their order in `struct trapframe`. -/
inductive Reg
  | ra | sp | gp | tp | t0 | t1 | t2 | s0 | s1 | a0 | a1 | a2 | a3 | a4 | a5 | a6 | a7
  | s2 | s3 | s4 | s5 | s6 | s7 | s8 | s9 | s10 | s11 | t3 | t4 | t5 | t6
  deriving DecidableEq

structure Cpu where
  reg : Reg → Word
  sscratch : Word
  satp : Word
  sepc : Word
  pc : Word
  mem : Word → Word

inductive Instr
  | sd (r : Reg) (off : Nat) (base : Reg)
  | ld (r : Reg) (off : Nat) (base : Reg)
  | li (r : Reg) (v : Word)
  | addi (r base : Reg) (imm : Word)
  | csrwSscratch (r : Reg)
  | csrrSscratch (r : Reg)
  | csrwSatp (r : Reg)
  | sfence
  | jr (r : Reg)
  | sret

/-- Where `off(base)` is. -/
def phys (tr : Word → Word → Word) (satp base : Word) (off : Nat) : Word := tr satp (base + .ofNat 64 off)

def Instr.exec (tr : Word → Word → Word) (s : Cpu) : Instr → Cpu
  | .sd r off b => { s with mem := update s.mem (phys tr s.satp (s.reg b) off) (s.reg r) }
  | .ld r off b => { s with reg := update s.reg r (s.mem (phys tr s.satp (s.reg b) off)) }
  | .li r v => { s with reg := update s.reg r v }
  | .addi r b imm => { s with reg := update s.reg r (s.reg b + imm) }
  | .csrwSscratch r => { s with sscratch := s.reg r }
  | .csrrSscratch r => { s with reg := update s.reg r s.sscratch }
  | .csrwSatp r => { s with satp := s.reg r }
  | .sfence => s
  | .jr r => { s with pc := s.reg r }
  | .sret => { s with pc := s.sepc }

def run (tr : Word → Word → Word) (code : List Instr) (s : Cpu) : Cpu := code.foldl (Instr.exec tr) s

def sds (base : Reg) (l : List (Reg × Nat)) : List Instr := l.map fun x => .sd x.1 x.2 base

def lds (base : Reg) (l : List (Reg × Nat)) : List Instr := l.map fun x => .ld x.1 x.2 base

/-- `MAXVA - 2 * PGSIZE` -/
def trapframe : Word := 0x3fffffe000

/-- What `uservec` saves and `userret` restores, in the order of the code. -/
def userFrame : List (Reg × Nat) :=
  [(.ra, 40), (.sp, 48), (.gp, 56), (.tp, 64), (.t0, 72), (.t1, 80), (.t2, 88), (.s0, 96), (.s1, 104), (.a1, 120),
    (.a2, 128), (.a3, 136), (.a4, 144), (.a5, 152), (.a6, 160), (.a7, 168), (.s2, 176), (.s3, 184), (.s4, 192),
    (.s5, 200), (.s6, 208), (.s7, 216), (.s8, 224), (.s9, 232), (.s10, 240), (.s11, 248), (.t3, 256), (.t4, 264),
    (.t5, 272), (.t6, 280)]

/-- `uservec` after the registers but `a0` are saved. -/
def uservecEnd : List Instr :=
  [.csrrSscratch .t0, .sd .t0 112 .a0, .ld .sp 8 .a0, .ld .tp 32 .a0, .ld .t0 16 .a0, .ld .t1 0 .a0, .sfence,
    .csrwSatp .t1, .sfence, .jr .t0]

def uservec : List Instr := [.csrwSscratch .a0, .li .a0 trapframe] ++ sds .a0 userFrame ++ uservecEnd

def userret : List Instr :=
  [.sfence, .csrwSatp .a0, .sfence, .li .a0 trapframe] ++ lds .a0 userFrame ++ [.ld .a0 112 .a0, .sret]

/-- `struct context` -/
def context : List (Reg × Nat) :=
  [(.ra, 0), (.sp, 8), (.s0, 16), (.s1, 24), (.s2, 32), (.s3, 40), (.s4, 48), (.s5, 56), (.s6, 64), (.s7, 72),
    (.s8, 80), (.s9, 88), (.s10, 96), (.s11, 104)]

def swtch : List Instr := sds .a0 context ++ lds .a1 context ++ [.jr .ra]

/-- The frame that `kernelvec` makes on the stack; `sp` is saved after it has moved. -/
def kernelFrame : List (Reg × Nat) :=
  [(.ra, 0), (.sp, 8), (.gp, 16), (.tp, 24), (.t0, 32), (.t1, 40), (.t2, 48), (.a0, 72), (.a1, 80), (.a2, 88),
    (.a3, 96), (.a4, 104), (.a5, 112), (.a6, 120), (.a7, 128), (.t3, 216), (.t4, 224), (.t5, 232), (.t6, 240)]

/-- `kernelvec` up to the call of `kerneltrap`. -/
def kernelvecSave : List Instr := .addi .sp .sp (-256) :: sds .sp kernelFrame

/-- `kernelvec` after the call, which does not restore `tp`. -/
def kernelvecRestore : List Instr := lds .sp (kernelFrame.filter fun x => x.1 ≠ .tp) ++ [.addi .sp .sp 256, .sret]

/-- The offset of a register in `struct trapframe`. -/
def Reg.field (r : Reg) : Nat := 40 + 8 * r.ctorIdx

variable {tr : Word → Word → Word} {s k u : Cpu} {satp tf : Word}

/-- Under the page table `satp` the trapframe page is the physical page at `tf`. -/
def Mapped (tr : Word → Word → Word) (satp tf : Word) : Prop :=
  ∀ o < 4096, phys tr satp trapframe o = tf + .ofNat 64 o

/-- What the kernel finds after `uservec`, from the user state `s`. -/
structure Saved (s e : Cpu) (tf : Word) : Prop where
  field : ∀ r : Reg, e.mem (tf + .ofNat 64 r.field) = s.reg r
  other : ∀ a, (∀ o, 40 ≤ o → o < 288 → a ≠ tf + .ofNat 64 o) → e.mem a = s.mem a
  satp : e.satp = s.mem tf
  stack : e.reg .sp = s.mem (tf + 8)
  pc : e.pc = s.mem (tf + 16)
  hartid : e.reg .tp = s.mem (tf + 32)

theorem uservec_saves (h : Mapped tr s.satp tf) : Saved s (run tr uservec s) tf := by
  -- the code is straight: it is executed with the symbolic state `s`
  obtain ⟨e, he⟩ : ∃ e, e = run tr uservec s := ⟨_, rfl⟩
  rw [← he]
  simp only [Mapped] at h
  simp [run, uservec, sds, userFrame, uservecEnd, Instr.exec, h] at he
  subst he
  refine ⟨fun r => ?_, fun a ha => ?_, rfl, rfl, rfl, rfl⟩
  · cases r <;> simp [Reg.field, Reg.ctorIdx]
  · simp [ha]

theorem userret_restores (h : Mapped tr (k.reg .a0) tf) :
    (∀ r : Reg, (run tr userret k).reg r = k.mem (tf + .ofNat 64 r.field)) ∧ (run tr userret k).mem = k.mem ∧
      (run tr userret k).satp = k.reg .a0 ∧ (run tr userret k).pc = k.sepc := by
  obtain ⟨e, he⟩ : ∃ e, e = run tr userret k := ⟨_, rfl⟩
  rw [← he]
  simp only [Mapped] at h
  simp [run, userret, lds, userFrame, Instr.exec, h] at he
  subst he
  refine ⟨fun r => ?_, rfl, rfl, rfl⟩
  cases r <;> simp [Reg.field, Reg.ctorIdx]

/-- A trap from user space and the return from it: `uservec` leaves all registers in the trapframe and enters the
kernel as `usertrapret` has asked, `userret` gives back what the trapframe has then. So the user program keeps
each register whose field the kernel has not changed, also when the trapframe is mapped by another page table. -/
theorem trap_keeps_registers (h : Mapped tr s.satp tf) (hk : Mapped tr (k.reg .a0) tf) :
    Saved s (run tr uservec s) tf ∧ (run tr userret k).mem = k.mem ∧ (run tr userret k).pc = k.sepc ∧
      (run tr userret k).satp = k.reg .a0 ∧
      ∀ r : Reg, (run tr userret k).reg r = k.mem (tf + .ofNat 64 r.field) ∧
        (k.mem (tf + .ofNat 64 r.field) = (run tr uservec s).mem (tf + .ofNat 64 r.field) →
          (run tr userret k).reg r = s.reg r) := by
  have hsave := uservec_saves h
  obtain ⟨hreg, hmem, hsatp, hpc⟩ := userret_restores hk
  refine ⟨hsave, hmem, hpc, hsatp, fun r => ⟨hreg r, fun hsame => ?_⟩⟩
  rw [hreg, hsame, hsave.field]

/-- All pages have the trapframe of one process at the address 4096. -/
def oneTrapframe (_ va : Word) : Word := va - trapframe + 4096

def someUser : Cpu := ⟨fun r => .ofNat 64 r.ctorIdx, 0, 7, 0, 0, fun _ => 0⟩

/-- The system call returns 99 and nothing else changes in the trapframe. -/
def afterCall : Cpu :=
  let e := run oneTrapframe uservec someUser
  { e with reg := update e.reg .a0 8, mem := update e.mem (4096 + 112) 99 }

theorem trap_keeps_registers_call : (run oneTrapframe userret afterCall).reg .s1 = 8 ∧
    (run oneTrapframe userret afterCall).reg .a0 = 99 := by
  have hmap : ∀ satp, Mapped oneTrapframe satp 4096 := fun satp o _ => by
    rw [phys, oneTrapframe, BitVec.add_comm trapframe, BitVec.add_sub_cancel, BitVec.add_comm]
  have hregs := (trap_keeps_registers (s := someUser) (k := afterCall) (hmap _) (hmap _)).2.2.2.2
  have hmem : afterCall.mem = update (run oneTrapframe uservec someUser).mem (4096 + 112) 99 := rfl
  refine ⟨(hregs .s1).2 ?_, (hregs .a0).1.trans ?_⟩
  · rw [hmem, update_of_ne (by decide)]
  · rw [hmem]
    exact update_self ..

/-! ### Switching between kernel threads, interrupts of the kernel -/

/-- The words of a frame of `n` bytes at `a` have different physical addresses. -/
def Apart (tr : Word → Word → Word) (satp a : Word) (n : Nat) : Prop :=
  ∀ o < n, ∀ o' < n, phys tr satp a o = phys tr satp a o' ↔ o = o'

/-- The thread that called `swtch` in state `s` goes on with what it had, when another thread calls `swtch` in
state `u` for the context that `s` has saved, if the context is as it was and is not the one that `u` saves. -/
theorem swtch_resumes (hnew : u.reg .a1 = s.reg .a0) (hsatp : u.satp = s.satp) (hapart : Apart tr s.satp (s.reg .a0) 112)
    (hother : ∀ o < 112, ∀ o' < 112, phys tr s.satp (s.reg .a0) o ≠ phys tr s.satp (u.reg .a0) o')
    (hkeep : ∀ o < 112, u.mem (phys tr s.satp (s.reg .a0) o) = (run tr swtch s).mem (phys tr s.satp (s.reg .a0) o)) :
    (run tr swtch u).pc = s.reg .ra ∧
      ∀ r, (run tr swtch u).reg r = if r ∈ context.map Prod.fst then s.reg r else u.reg r := by
  have hsaved : ∀ x ∈ context, u.mem (phys tr s.satp (s.reg .a0) x.2) = s.reg x.1 := by
    simp only [Apart] at hapart
    simp [run, swtch, sds, lds, context, Instr.exec, update_apply, hkeep, hapart]
  obtain ⟨e, he⟩ : ∃ e, e = run tr swtch u := ⟨_, rfl⟩
  rw [← he]
  simp [context] at hsaved
  simp [run, swtch, sds, lds, context, Instr.exec, hnew, hsatp, hother, hsaved] at he
  subst he
  refine ⟨rfl, fun r => ?_⟩
  cases r <;> simp [context]

theorem apart_id {a : Word} (n : Nat) (hn : n ≤ 4096) : Apart (fun _ va => va) satp a n := fun o ho o' ho' => by
  refine ⟨fun h => ?_, fun h => by rw [h]⟩
  have heq := congrArg BitVec.toNat (show BitVec.ofNat 64 o = .ofNat 64 o' by simpa [phys] using h)
  rw [BitVec.toNat_ofNat, BitVec.toNat_ofNat] at heq
  omega

/-- Two threads with contexts at 0 and 4096. -/
theorem swtch_resumes_two : ∃ s u : Cpu, s.reg .a0 = 0 ∧ u.reg .a0 = 4096 ∧ (run (fun _ va => va) swtch u).reg .s1 = 5 ∧
    (run (fun _ va => va) swtch u).pc = 7 := by
  let s : Cpu := ⟨update (update (fun _ => 0) .s1 5) .ra 7, 0, 0, 0, 0, fun _ => 0⟩
  let u : Cpu := ⟨update (fun _ => 0) .a0 4096, 0, 0, 0, 0, (run (fun _ va => va) swtch s).mem⟩
  have hmain := @swtch_resumes (fun _ va => va) s u rfl rfl (apart_id _ (by decide))
    (by simp only [phys]; decide +kernel) fun _ _ => rfl
  exact ⟨s, u, rfl, rfl, hmain.2 .s1, hmain.1⟩

/-- An interrupt of the kernel is transparent: if `kerneltrap` keeps to the calling convention, puts `sepc` back
and does not write to the frame of `kernelvec`, the interrupted code goes on with all its registers but `tp`, which
is that of the CPU it is on now. -/
theorem kernelvec_transparent {fp : Word} (hs : s.reg .sp = fp + 256) (hu : u.reg .sp = fp) (hapart : Apart tr s.satp fp 256)
    (hsatp : u.satp = s.satp) (hsepc : u.sepc = s.sepc) (hcallee : ∀ r, r ∉ kernelFrame.map Prod.fst → u.reg r = s.reg r)
    (hkeep : ∀ o < 256, u.mem (phys tr s.satp fp o) = (run tr kernelvecSave s).mem (phys tr s.satp fp o)) :
    (∀ r, r ≠ .tp → (run tr kernelvecRestore u).reg r = s.reg r) ∧ (run tr kernelvecRestore u).reg .tp = u.reg .tp ∧
      (run tr kernelvecRestore u).mem = u.mem ∧ (run tr kernelvecRestore u).pc = s.sepc := by
  have hmove : s.reg .sp + -256 = fp := by
    rw [hs, BitVec.add_assoc]
    exact BitVec.add_zero fp
  have hsaved : ∀ x ∈ kernelFrame, u.mem (phys tr s.satp fp x.2) = update s.reg .sp fp x.1 := by
    simp only [Apart] at hapart
    simp only [kernelvecSave, run, List.foldl_cons, Instr.exec, hmove] at hkeep
    simp [sds, kernelFrame, Instr.exec, update_apply, hkeep, hapart]
  obtain ⟨e, he⟩ : ∃ e, e = run tr kernelvecRestore u := ⟨_, rfl⟩
  rw [← he]
  simp [kernelFrame] at hsaved
  simp [run, kernelvecRestore, lds, kernelFrame, Instr.exec, hu, hsatp, hsaved] at he
  subst he
  refine ⟨fun r hr => ?_, rfl, rfl, hsepc⟩
  cases r
  all_goals first
    | exact absurd rfl hr
    | exact hcallee _ (by decide)
    | simp [hs]

/-- The code that is interrupted has the stack pointer 4096. -/
theorem kernelvec_transparent_idle : ∃ s u : Cpu, s.reg .sp = 4096 ∧ s.reg .a0 = 5 ∧ u.reg .a0 = 0 ∧
    (run (fun _ va => va) kernelvecRestore u).reg .a0 = 5 ∧ (run (fun _ va => va) kernelvecRestore u).pc = 9 := by
  let s : Cpu := ⟨update (update (fun _ => 0) .sp 4096) .a0 5, 0, 0, 9, 0, fun _ => 0⟩
  let u : Cpu := ⟨update (fun _ => 0) .sp 3840, 0, 0, 9, 0, (run (fun _ va => va) kernelvecSave s).mem⟩
  have hmain := @kernelvec_transparent (fun _ va => va) s u 3840 (by decide) rfl (apart_id _ (by decide)) rfl rfl
    (by intro r hr; cases r <;> first | rfl | exact absurd (by decide) hr) fun _ _ => rfl
  exact ⟨s, u, rfl, rfl, rfl, hmain.1 .a0 (by decide), hmain.2.2.2⟩

end Xv6.Trap
