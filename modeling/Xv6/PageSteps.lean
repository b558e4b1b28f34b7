import Xv6.Boot
import Xv6.ExecPages
import Xv6.Lib.Run

namespace Xv6

open Fs (put put_same put_ne put_eq_self)
open Vm (Mem Table Ledger Frame Owns Resize npages noFault)
open Count Prog

variable {kp : Base} {d : Nat → ℤ} {T : Nat → Option Table} {s : Kernel} {p : Nat} {mem : Mem}

theorem syscall_pages (h : PagesOk kp 0 s) (hrun : Running s p) (c : Call) :
    wp (syscall p c) (fun _ => PagesOk kp 0) otherFault s := by
  obtain ⟨T, hT⟩ := h
  obtain ⟨hp, hstate⟩ := hrun
  have hkeep : ∀ {m : K Int}, KeepsPages kp T 0 m → wp m (fun _ => PagesOk kp 0) otherFault s :=
    fun hm => (hm s hT).mono (fun _ _ ht => ⟨T, ht⟩) fun _ => id
  cases c with
  | «open» path omode => exact hkeep (sysOpen_pages p path omode)
  | write fd src n other => exact hkeep (sysWrite_pages p fd src n other)
  | link old new => exact hkeep (sysLink_pages p old new)
  | unlink path => exact hkeep (sysUnlink_pages p path)
  | mkdir path => exact hkeep (sysMkdir_pages p path)
  | mknod path major minor => exact hkeep (sysMknod_pages p path major minor)
  | chdir path => exact hkeep (sysChdir_pages p path)
  | close fd => exact hkeep (sysClose_pages p fd)
  | dup fd => exact hkeep (sysDup_pages p fd)
  | pipe fdarray =>
    obtain ⟨t, ht⟩ := hT.running p hp hstate
    exact hkeep (sysPipe_pages hp ht fdarray)
  | fork => exact sysFork_pages hT hp hstate
  | exec path argv ended => exact sysExec_pages hT hp hstate path argv ended
  | exit => exact sysExit_pages hT hp hstate
  | wait addr => exact sysWait_pages hT hp hstate addr
  | sbrk n => exact sysSbrk_pages hT hp hstate n

theorem userStore_step {t : Table} {rest : Nat → ℤ} {tf tramp : Nat}
    (h : Owns mem t rest) (hhigh : t.High tf tramp) (va i : Nat) (v : Vm.Pte) :
    wp (userStore t.root va i v) (fun _ mem' => Resize rest mem t mem' t) noFault mem := by
  unfold userStore
  split
  next hva =>
    have hn := Vm.vpn_lt hva
    rw [wp_bind, Vm.wp_walk_false h.repr hva]
    cases hc : t.low (va / Vm.pgsize / 512) with
    | none => exact wp_pure.mpr (.refl h)
    | some c =>
      simp only [Option.map_some, wp_bind, Vm.wp_pte, h.repr.low _ (hn.trans (by decide)) c hc]
      split
      next he =>
        obtain ⟨hvalid, hu, -⟩ := he
        have htop : va / Vm.pgsize < Vm.userTop := by
          by_contra hge
          rcases Nat.lt_or_ge Vm.userTop (va / Vm.pgsize) with hlt | hle
          · rcases Nat.lt_or_ge (Vm.userTop + 1) (va / Vm.pgsize) with hlt' | hle'
            · rw [hhigh.void _ hlt'] at hvalid
              exact absurd hvalid (by decide)
            · rw [show va / Vm.pgsize = Vm.userTop + 1 by omega, hhigh.trampoline] at hu
              exact absurd hu (by show decide ((Vm.pteR ||| Vm.pteX ||| Vm.pteV) &&& Vm.pteU ≠ 0) ≠ true; decide)
          · rw [show va / Vm.pgsize = Vm.userTop by omega, hhigh.trapframe] at hu
            exact absurd hu (by show decide ((Vm.pteR ||| Vm.pteW ||| Vm.pteV) &&& Vm.pteU ≠ 0) ≠ true; decide)
        -- the page is in use once, as this user page
        have hpage := holders_pos (h := t.leafPage) (Finset.mem_range.mpr htop) (if_pos hvalid)
        have hone := h.add_le_one (t.leaf (va / Vm.pgsize)).pa
        have hrest := h.nonneg (t.leaf (va / Vm.pgsize)).pa
        have hnodes := t.nodes_nonneg (t.leaf (va / Vm.pgsize)).pa
        simp only [Table.pages, Pi.add_apply] at hone
        rw [Vm.wp_setPte]
        refine ⟨⟨⟨h.repr.frame fun x hx => Vm.store_ne ?_, ?_, h.nonneg⟩, ⟨rfl, fun x hx => Vm.store_ne ?_⟩, rfl⟩,
          fun _ _ => rfl⟩
        · rintro rfl
          omega
        · exact ⟨h.ledger.total, h.ledger.nonneg, h.ledger.bounds⟩
        · rintro rfl
          omega
      next => exact wp_pure.mpr (.refl h)
  next => exact wp_pure.mpr (.refl h)

theorem userStore_pages (h : PagesOk kp 0 s) (hrun : Running s p) (va i : Nat) (v : Vm.Pte) :
    wp (onMem (userStore (s.proc p).pagetable va i v)) (fun _ => PagesOk kp 0) otherFault s := by
  obtain ⟨T, hT⟩ := h
  obtain ⟨hp, hstate⟩ := hrun
  obtain ⟨t, ht⟩ := hT.running p hp hstate
  have hspace := hT.space p hp
  rw [ht] at hspace
  rw [wp_onMem, hspace.1]
  refine (userStore_step (hT.take hp ht) hspace.2.2 va i v).mono ?_ fun _ => id
  intro _ mem hresize
  have := hT.resize (v := s.proc p) hp ht hresize hspace.2.1 rfl rfl rfl
  rw [put_eq_self] at this
  exact ⟨_, this⟩

theorem step_pages {s' : Kernel} {ev : Ev} (h : PagesOk kp 0 s) (hstep : step s ev = some s') : PagesOk kp 0 s' := by
  cases ev with
  | call p c =>
    simp only [step] at hstep
    split at hstep
    next hrun =>
      split at hstep
      next r s1 heq => exact Option.some.inj hstep ▸ (syscall_pages h hrun c).of_ok heq
      next => cases hstep
    next => cases hstep
  | store p va i v =>
    simp only [step] at hstep
    split at hstep
    next hrun =>
      split at hstep
      next r s1 heq => exact Option.some.inj hstep ▸ (userStore_pages h hrun.1 va i v).of_ok heq
      next => cases hstep
    next => cases hstep

section Boot

def unfreed (p x : Nat) : ℤ := if x % Vm.pgsize = 0 ∧ p ≤ x ∧ x < Vm.phystop then 1 else 0

theorem unfreed_succ {p : Nat} (hp : p % Vm.pgsize = 0) (hle : p + Vm.pgsize ≤ Vm.phystop) :
    unfreed p = unfreed (p + Vm.pgsize) + one p := by
  funext x
  simp only [unfreed, Pi.add_apply, one_apply]
  simp only [Vm.pgsize, Vm.phystop] at *
  by_cases hx : x = p
  · rw [if_pos (by omega), if_neg (by omega), if_pos hx]
    rfl
  · rw [if_neg hx, add_zero]
    by_cases hin : x % 4096 = 0 ∧ p ≤ x ∧ x < 0x88000000
    · rw [if_pos hin, if_pos (by omega)]
    · rw [if_neg hin, if_neg (by omega)]

theorem freerange_ledger (fuel p : Nat) (hp : p % Vm.pgsize = 0) (h : Ledger mem (unfreed p))
    (hfuel : Vm.phystop ≤ p + Vm.pgsize * fuel) :
    wp (freerange fuel p) (fun _ mem' => Ledger mem' 0 ∧ mem'.layout = mem.layout) noFault mem := by
  have hdone : Vm.phystop ≤ p → unfreed p = 0 := by
    intro hle
    funext x
    exact if_neg (by omega)
  induction fuel generalizing p mem with
  | zero =>
    refine wp_pure.mpr ⟨?_, rfl⟩
    rw [← hdone (by omega)]
    exact h
  | succ fuel ih =>
    rw [freerange]
    split
    next hle =>
      rw [unfreed_succ hp hle] at h
      refine (Vm.kfree_ledger h fun x => by unfold unfreed; split <;> decide).bind ?_
      rintro _ mem1 ⟨rfl, h1⟩
      refine ih (p + Vm.pgsize) (by simpa using hp) h1 ?_ ?_
      · rw [Nat.mul_succ] at hfuel
        omega
      · intro hle'
        funext x
        exact if_neg (by omega)
    next hgt =>
      refine wp_pure.mpr ⟨?_, rfl⟩
      rw [← hdone ?_]
      · exact h
      · simp only [Vm.pgsize, Vm.phystop] at *
        omega

theorem kinit_ledger (hempty : mem.freelist = []) (hlow : Vm.kernbase ≤ mem.kend) (hhigh : mem.kend ≤ Vm.phystop) :
    wp kinit (fun _ mem' => Ledger mem' 0 ∧ mem'.layout = mem.layout) noFault mem := by
  have hround : Vm.pgroundup mem.kend = (mem.kend + 4095) / 4096 * 4096 := by
    simp only [Vm.pgroundup, Vm.uint64, Vm.pgsize, Vm.phystop] at *
    omega
  unfold kinit
  rw [wp_bind, wp_get, hround]
  refine freerange_ledger _ _ (Nat.mul_mod_left _ _) ⟨fun x => ?_, fun x => ?_, hlow⟩ ?_
  · rw [hempty, List.count_nil, Nat.cast_zero, zero_add]
    simp only [unfreed, Mem.inRange, Vm.pgsize]
    by_cases hx : x % 4096 = 0 ∧ mem.kend ≤ x ∧ x < Vm.phystop
    · rw [if_pos hx, if_pos (by omega)]
    · rw [if_neg hx, if_neg (by omega)]
  · unfold unfreed
    split <;> decide
  · simp only [Vm.pgsize, Vm.phystop]
    omega

def usedPages (pages : List (KernelUse × Nat)) : Nat → ℤ := listPages (pages.map Prod.snd)

theorem takePages_ledger {use : Nat → ℤ} (uses : List KernelUse) (h : Ledger mem use) :
    wp (takePages uses) (fun pages mem' => Ledger mem' (use + usedPages pages) ∧ mem'.layout = mem.layout)
      (fun _ => True) mem := by
  induction uses generalizing mem use with
  | nil =>
    refine wp_pure.mpr ⟨?_, rfl⟩
    rw [show usedPages [] = 0 from rfl, add_zero]
    exact h
  | cons use1 uses ih =>
    rw [takePages]
    refine wp.bind ((Vm.kalloc_ledger h).mono (fun _ _ => id) fun _ => False.elim) ?_
    rintro r mem1 ⟨-, hframe, -, hsome⟩
    cases r with
    | none => exact wp_throw.mpr trivial
    | some pa =>
      refine (ih (hsome pa rfl)).bind ?_
      rintro pages mem2 ⟨h2, hlayout⟩
      refine wp_pure.mpr ⟨?_, hlayout.trans hframe.layout⟩
      have hcons : usedPages ((use1, pa) :: pages) = usedPages pages + one pa := listPages_cons pa _
      rw [hcons, add_comm (usedPages pages), ← add_assoc]
      exact h2

theorem userPte_first {guard : Option Nat} (v pa : Nat) :
    Vm.UserPte guard v (Vm.pa2pte pa (Vm.pteW ||| Vm.pteR ||| Vm.pteX ||| Vm.pteU ||| Vm.pteV)) where
  valid := show decide ((Vm.pteW ||| Vm.pteR ||| Vm.pteX ||| Vm.pteU ||| Vm.pteV) &&& Vm.pteV ≠ 0) = true by decide
  read := show decide ((Vm.pteW ||| Vm.pteR ||| Vm.pteX ||| Vm.pteU ||| Vm.pteV) &&& Vm.pteR ≠ 0) = true by decide
  user _ := show decide ((Vm.pteW ||| Vm.pteR ||| Vm.pteX ||| Vm.pteU ||| Vm.pteV) &&& Vm.pteU ≠ 0) = true by decide

theorem uvmfirst_user {t : Table} {rest : Nat → ℤ} {guard : Option Nat} (h : Owns mem t rest)
    (ht : t.User 0 guard) :
    wp (Vm.uvmfirst t.root) (fun _ mem' => ∃ t', Resize rest mem t mem' t' ∧ t'.User 1 guard) (fun _ => True) mem := by
  unfold Vm.uvmfirst
  refine wp.bind (h.kalloc.mono (fun _ _ => id) fun _ => False.elim) ?_
  rintro r mem1 ⟨hheap, hframe, hnone, hsome⟩
  cases r with
  | none => exact wp_throw.mpr trivial
  | some page =>
    have htop : 0 < Vm.userTop := by decide
    have hfree : (t.leaf 0).has Vm.pteV = false := by
      rw [ht.void 0 le_rfl htop, Vm.zero_not_valid]
    have hmap := Vm.mappages_user 0 page (Vm.pteW ||| Vm.pteR ||| Vm.pteX ||| Vm.pteU) (hsome page rfl) h.nonneg
      rfl htop hfree
    refine wp.bind (hmap.mono (fun _ _ => id) fun _ => False.elim) ?_
    rintro ok mem2 ⟨t', hroot, hframe2, hok, -⟩
    cases ok with
    | false => exact wp_throw.mpr trivial
    | true =>
      obtain ⟨howns, hleaf⟩ := hok rfl
      rw [Nat.zero_div] at hleaf
      refine wp_pure.mpr ⟨t', ⟨⟨howns, hframe.trans hframe2.of_add, hroot⟩, fun v hv => ?_⟩, ?_⟩
      · rw [hleaf]
        exact put_ne _ _ _ (by omega)
      · exact ht.put htop (userPte_first 0 page) hleaf

theorem userinit_pages (h : PagesAt kp T d s) : wp userinit (fun _ => PagesOk kp d) (fun _ => True) s := by
  unfold userinit
  refine wp.bind ((allocproc_pages h).mono (fun _ _ => id) fun _ _ => trivial) ?_
  rintro r s1 ⟨-, hsome⟩
  cases r with
  | none => exact wp_throw.mpr trivial
  | some np =>
    obtain ⟨u, hnew⟩ := hsome np rfl
    have hspace := hnew.pages.space np hnew.lt
    rw [put_same] at hspace
    have huser : u.User 0 (s1.proc np).guard := by
      have := hspace.2.1
      rwa [hnew.empty] at this
    simp only [wp_bind, wp_get, wp_onMem]
    have hfirst := uvmfirst_user (hnew.pages.take hnew.lt (put_same _ _ _)) huser
    rw [← hspace.1] at hfirst
    refine hfirst.mono ?_ fun _ => id
    rintro _ mem ⟨t', hresize, huser'⟩
    have hone : npages Vm.pgsize = 1 := by decide
    have hsized := hnew.pages.resize (v := { s1.proc np with sz := Vm.pgsize }) hnew.lt (put_same _ _ _) hresize
      (hone.symm ▸ huser') rfl rfl rfl
    rw [Fs.put_put] at hsized
    rw [wp_setProc, wp_onFs]
    refine wp_of_forall (fun r fs => ?_) fun _ => trivial
    cases r with
    | none => exact wp_throw.mpr trivial
    | some k =>
      simp only [wp_bind, wp_get, wp_setProc, put_same, Fs.put_put]
      let v : Proc := { s1.proc np with sz := Vm.pgsize, cwd := some k, state := .runnable }
      refine ⟨put T np (some t'), ?_⟩
      have hspace' := hsized.space np hnew.lt
      rw [put_same, put_same] at hspace'
      have hex := hsized.exchange (o := some t') (e := d) (v := v) hnew.lt
        (fun w hw => Option.some.inj hw ▸ hsized.repr np hnew.lt t' (put_same _ _ _)) h.held (by rw [put_same, put_same]; rfl)
      have := hsized.change hex hspace' (by rintro ⟨⟩) fun _ => ⟨t', rfl⟩
      rwa [Fs.put_put, Fs.put_put] at this

theorem boot_pages {mc : Machine} {sb : Fs.Superblock} {disk : Fs.Disk} {pages : List (KernelUse × Nat)} {s0 : Kernel}
    (hboot : boot mc.uses (mc.bare sb disk) = .ok (pages, s0)) : PagesOk ⟨mc.toLayout, usedPages pages⟩ 0 s0 := by
  have hwp : wp (boot mc.uses) (fun pages => PagesOk ⟨mc.toLayout, usedPages pages⟩ 0) (fun _ => True) (mc.bare sb disk) := by
    unfold boot
    rw [wp_bind, wp_onMem]
    refine (kinit_ledger rfl mc.loaded mc.fits).mono ?_ fun _ => False.elim
    rintro _ mem ⟨hledger, hlayout⟩
    rw [wp_bind, wp_onMem]
    refine (takePages_ledger mc.uses hledger).mono ?_ fun _ _ => trivial
    rintro pages mem1 ⟨hledger1, hlayout1⟩
    rw [zero_add] at hledger1
    have hstart : PagesAt ⟨mc.toLayout, usedPages pages⟩ (fun _ => none) 0 { mc.bare sb disk with mem := mem1 } := by
      refine ⟨⟨nofun, ?_, hlayout1.trans hlayout, listPages_nonneg _, fun _ => le_rfl⟩, fun p _ => rfl, fun p _ _ => ⟨rfl, rfl, rfl⟩, nofun⟩
      have htables : tablePages (fun _ => none) = 0 := Finset.sum_eq_zero fun _ _ => rfl
      have htraps : holders (Finset.range nproc) (fun p => trapframePage ((mc.bare sb disk).proc p)) = 0 :=
        holders_none fun _ _ => rfl
      have hpipes : pipePages (mc.bare sb disk).pipe = 0 := rfl
      have huse : inUse ⟨mc.toLayout, usedPages pages⟩ (fun _ => none) (mc.bare sb disk).pipe (mc.bare sb disk).proc 0 =
        usedPages pages := by
        rw [inUse, htables, htraps, hpipes]
        simp only [zero_add, add_zero]
      show Ledger mem1 (inUse _ _ (mc.bare sb disk).pipe (mc.bare sb disk).proc 0)
      rw [huse]
      exact hledger1
    exact (userinit_pages hstart).bind fun _ s1 h1 => wp_pure.mpr h1
  exact hwp.of_ok hboot

end Boot

end Xv6
