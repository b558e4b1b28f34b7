import Xv6.PageOwnership

namespace Xv6

open Vm (Table npages)
open Transition

def rwx : BitVec 10 := Vm.pteR ||| Vm.pteW ||| Vm.pteX

/-- The page table of process `p` in the heap: which virtual pages have a valid leaf entry, what user
pages allow, and that the entries of the upper levels are the valid ones without permissions. -/
structure ExactSpace (s : Kernel) (p : Nat) : Prop where
  leaves : ∀ v < 512 * 512 * 512,
    (∃ e, leafEntry s.mem.heap (s.proc p).pagetable v = some e ∧ e.has Vm.pteV = true) ↔
      v < Vm.pgroundup (s.proc p).sz / Vm.pgsize ∨ v = Vm.trapframe / Vm.pgsize ∨ v = Vm.trampoline / Vm.pgsize
  user : ∀ v < Vm.pgroundup (s.proc p).sz / Vm.pgsize, ∀ e, leafEntry s.mem.heap (s.proc p).pagetable v = some e →
    e.has Vm.pteR = true ∧ ((s.proc p).guard ≠ some v → e.has Vm.pteU = true)
  top : ∀ i < 512, (s.mem.heap (s.proc p).pagetable i).has Vm.pteV = true →
    (s.mem.heap (s.proc p).pagetable i).has rwx = false
  middle : ∀ i < 512, ∀ c, child s.mem.heap (s.proc p).pagetable i = some c → ∀ j < 512,
    (s.mem.heap c j).has Vm.pteV = true → (s.mem.heap c j).has rwx = false
  bottom : ∀ v < 512 * 512 * 512, ∀ e, leafEntry s.mem.heap (s.proc p).pagetable v = some e →
    e.has Vm.pteV = true → e.has rwx = true

theorem interior_rwx (o : Option Nat) : (Vm.interior o).has rwx = false := by
  cases o with
  | none => decide
  | some c => exact Vm.interior_not_leaf c

theorem has_rwx_of_read {e : Vm.Pte} (h : e.has Vm.pteR = true) : e.has rwx = true := by
  simp only [Vm.Pte.has, decide_eq_true_eq] at h ⊢
  intro hzero
  apply h
  have hread : Vm.pteR = rwx &&& Vm.pteR := by decide
  rw [hread, ← BitVec.and_assoc, hzero]
  decide

variable {kp : Base} {T : Nat → Option Table} {d : Nat → ℤ} {s : Kernel} {p : Nat}

theorem leaf_cases {t : Table} {n tf tramp : Nat} {guard : Option Nat} (huser : t.User n guard) (hhigh : t.High tf tramp)
    (v : Nat) :
    v < n ∧ Vm.UserPte guard v (t.leaf v) ∨ v = Vm.userTop ∧ (t.leaf v).Leaf ∧ (t.leaf v).has rwx = true ∨
      v = Vm.userTop + 1 ∧ (t.leaf v).Leaf ∧ (t.leaf v).has rwx = true ∨
      (n ≤ v ∧ v ≠ Vm.userTop ∧ v ≠ Vm.userTop + 1) ∧ t.leaf v = .zero := by
  have hle := huser.le
  by_cases hlt : v < n
  · exact .inl ⟨hlt, huser.mapped v hlt⟩
  by_cases h0 : v = Vm.userTop
  · refine .inr (.inl ⟨h0, ?_⟩)
    rw [h0, hhigh.trapframe]
    exact ⟨Vm.leaf_trapframe tf, show decide ((Vm.pteR ||| Vm.pteW ||| Vm.pteV) &&& rwx ≠ 0) = true by decide⟩
  by_cases h1 : v = Vm.userTop + 1
  · refine .inr (.inr (.inl ⟨h1, ?_⟩))
    rw [h1, hhigh.trampoline]
    exact ⟨Vm.leaf_trampoline tramp, show decide ((Vm.pteR ||| Vm.pteX ||| Vm.pteV) &&& rwx ≠ 0) = true by decide⟩
  refine .inr (.inr (.inr ⟨⟨by omega, h0, h1⟩, ?_⟩))
  rcases Nat.lt_or_ge v Vm.userTop with hv | hv
  · exact huser.void v (by omega) hv
  · exact hhigh.void v (by omega)

theorem exactSpace (h : PagesAt kp T d s) (hp : p < nproc) (hne : (s.proc p).pagetable ≠ 0) : ExactSpace s p := by
  have hspace := h.space p hp
  cases ht : T p with
  | none =>
    rw [ht] at hspace
    exact absurd hspace hne
  | some t =>
    rw [ht] at hspace
    obtain ⟨hroot, huser, hhigh⟩ := hspace
    have hrepr := h.repr p hp t ht
    have hsize : Vm.pgroundup (s.proc p).sz / Vm.pgsize = npages (s.proc p).sz := by
      rw [Vm.pgroundup_eq le_rfl huser.le, Nat.mul_div_cancel_left _ (by decide)]
    have hle := huser.le
    have hentry : ∀ v < 512 * 512 * 512, ∀ e, leafEntry s.mem.heap t.root v = some e → e = t.leaf v := by
      intro v hv e he
      rw [leafEntry_eq hrepr hv] at he
      obtain ⟨-, -, rfl⟩ := Option.map_eq_some_iff.mp he
      rfl
    have hfound : ∀ v < 512 * 512 * 512, (t.leaf v).Leaf → leafEntry s.mem.heap t.root v = some (t.leaf v) := by
      intro v hv hleaf
      obtain ⟨c, hc⟩ := hrepr.low_of_leaf hleaf
      rw [leafEntry_eq hrepr hv, hc]
      rfl
    have htop := Vm.userTop_eq
    constructor
    · intro v hv
      rw [hroot, hsize, Vm.trapframe_div, Vm.trampoline_div]
      rcases leaf_cases huser hhigh v with ⟨hlt, he⟩ | ⟨h0, he, -⟩ | ⟨h1, he, -⟩ | ⟨⟨hge, h0, h1⟩, he⟩
      · exact ⟨fun _ => .inl hlt, fun _ => ⟨_, hfound v hv he.leaf, he.valid⟩⟩
      · exact ⟨fun _ => .inr (.inl h0), fun _ => ⟨_, hfound v hv he, he.1⟩⟩
      · exact ⟨fun _ => .inr (.inr h1), fun _ => ⟨_, hfound v hv he, he.1⟩⟩
      · refine ⟨?_, fun hc => ?_⟩
        · rintro ⟨e, hfind, hvalid⟩
          rw [hentry v hv e hfind, he, Vm.zero_not_valid] at hvalid
          exact absurd hvalid (by decide)
        · rcases hc with hc | hc | hc
          · omega
          · exact absurd hc h0
          · exact absurd hc h1
    · intro v hv e he
      rw [hsize] at hv
      rw [hroot] at he
      have hmapped := huser.mapped v hv
      rw [← hentry v (by omega) e he] at hmapped
      exact ⟨hmapped.read, hmapped.user⟩
    · intro i hi _
      rw [hroot, hrepr.top i hi]
      exact interior_rwx _
    · intro i hi c hc j hj _
      rw [hroot, child_root hrepr hi] at hc
      have hq : (512 * i + j) / 512 = i := by omega
      have hmid := hrepr.mid (512 * i + j) (by omega) c (hq.symm ▸ hc)
      rw [show (512 * i + j) % 512 = j by omega] at hmid
      rw [hmid]
      exact interior_rwx _
    · intro v hv e he hvalid
      rw [hroot] at he
      obtain rfl := hentry v hv e he
      rcases leaf_cases huser hhigh v with ⟨-, hu⟩ | ⟨-, -, hr⟩ | ⟨-, -, hr⟩ | ⟨-, hzero⟩
      · exact has_rwx_of_read hu.read
      · exact hr
      · exact hr
      · rw [hzero, Vm.zero_not_valid] at hvalid
        exact absurd hvalid (by decide)

variable {mc : Machine} {sb : Fs.Superblock} {disk : Fs.Disk} {pages : List (KernelUse × Nat)} {s0 : Kernel}
  {evs : List Ev}

/-- At every system-call boundary the page tables are exact, and no call of any process then panics in
the virtual-memory code. -/
theorem address_spaces_exact (hboot : boot mc.uses (mc.bare sb disk) = .ok (pages, s0)) (hrun : Run step s0 evs s) :
    (∀ p < nproc, (s.proc p).pagetable ≠ 0 → ExactSpace s p) ∧
      (∀ p, Running s p → (s.proc p).pagetable ≠ 0 ∧ ∀ c e, syscall p c s ≠ .error (.vm e)) := by
  obtain ⟨T, h⟩ := run_pages hboot hrun
  refine ⟨fun p hp hne => exactSpace h hp hne, fun p hp => ⟨?_, fun c e herr => ?_⟩⟩
  · obtain ⟨t, ht⟩ := h.running p hp.1 hp.2
    have hspace := h.space p hp.1
    rw [ht] at hspace
    rw [hspace.1]
    exact Vm.root_ne_zero (h.take hp.1 ht)
  · exact (syscall_pages ⟨T, h⟩ hp c).of_error herr

theorem smallMachine_address_spaces : ∃ pages s0 s, smallBoot = .ok (pages, s0) ∧ Run step s0 smallRun s ∧
    (s.proc 0).pagetable ≠ 0 ∧ ExactSpace s 0 := by
  obtain ⟨pages, s0, s, hboot, hrun, hrunning⟩ := exists_run smallRun_ok
  obtain ⟨hexact, hcalls⟩ := address_spaces_exact hboot hrun
  have htable := (hcalls 0 hrunning).1
  exact ⟨pages, s0, s, hboot, hrun, htable, hexact 0 (by decide) htable⟩

end Xv6
