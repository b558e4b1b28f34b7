import Xv6.ProcessPages

namespace Xv6

open Fs (put put_same put_ne put_eq_self)
open Vm (Mem Table Ledger Frame Owns Resize npages noFault)
open Count Prog

variable {kp : Base} {d : Nat → ℤ} {T : Nat → Option Table} {s : Kernel} {p root sz : Nat} {guard : Option Nat}

def Holds (kp : Base) (T : Nat → Option Table) (d : Nat → ℤ) (p root sz : Nat) (guard : Option Nat) (s : Kernel) :
    Prop :=
  ∃ t : Table, t.root = root ∧ PagesAt kp T (d + t.pages) s ∧ Vm.Repr s.mem.heap t ∧ t.User (npages sz) guard ∧
    t.High (s.proc p).trapframe kp.layout.tramp

theorem holds_resize {t t' : Table} {mem : Mem} {sz' : Nat} {guard' : Option Nat} (hd : ∀ x, 0 ≤ d x)
    (hpages : PagesAt kp T (d + t.pages) s) (hroot : t.root = root) (hhigh : t.High (s.proc p).trapframe kp.layout.tramp)
    (hresize : Resize (inUse kp T s.pipe s.proc d) s.mem t mem t') (huser : t'.User (npages sz') guard') :
    Holds kp T d p root sz' guard' { s with mem := mem } := by
  exact ⟨t', hresize.root.trans hroot, hpages.keep (hpages.of_owns hresize.owns hresize.frame hd), hresize.owns.repr, huser,
    hhigh.of_same hresize.high⟩

theorem holds_onFs {α : Type} (m : Fs.M α) : Preserves (Holds kp T d p root sz guard) otherFault (onFs m) :=
  fun _ hs => wp_onFs.mpr (wp_of_forall (fun _ _ => hs) fun _ => trivial)

theorem uvmalloc_holds (hd : ∀ x, 0 ≤ d x) (newsz : Nat) (xperm : BitVec 10) (h : Holds kp T d p root sz guard s) :
    wp (onMem (Vm.uvmalloc root sz newsz xperm)) (fun r s' =>
      r = max sz newsz ∧ Holds kp T d p root r guard s' ∨ r = 0 ∧ Holds kp T d p root sz guard s') otherFault s := by
  obtain ⟨t, rfl, hpages, hrepr, huser, hhigh⟩ := h
  rw [wp_onMem]
  refine (Vm.uvmalloc_user _ _ (hpages.owns hrepr hd) huser).mono ?_ fun _ => id
  rintro r mem ⟨t', hresize, ⟨hr, huser'⟩ | ⟨hr, huser'⟩⟩
  · exact .inl ⟨hr, holds_resize hd hpages rfl hhigh hresize huser'⟩
  · exact .inr ⟨hr, holds_resize hd hpages rfl hhigh hresize huser'⟩

theorem copyout_holds (dstva len : Nat) :
    Preserves (Holds kp T d p root sz guard) otherFault (onMem (Vm.copyout root dstva len)) := by
  rintro s ⟨t, rfl, hpages, hrepr, huser, hhigh⟩
  rw [wp_onMem]
  refine (Vm.copyout_keeps hrepr dstva len).mono ?_ fun _ => id
  rintro _ _ rfl
  exact ⟨t, rfl, hpages, hrepr, huser, hhigh⟩

theorem loadseg_holds {va k offset len : Nat} (hd : ∀ x, 0 ≤ d x) (hlen : va + len ≤ sz) (fuel i : Nat) :
    Preserves (Holds kp T d p root sz none) otherFault (loadseg root va k offset len fuel i) := by
  induction fuel generalizing i with
  | zero => exact .pure _
  | succ fuel ih =>
    rw [loadseg]
    refine .ite_of (fun hi => ?_) fun _ => .pure _
    rintro s ⟨t, rfl, hpages, hrepr, huser, hhigh⟩
    have hmapped : Vm.uint64 (va + i) / Vm.pgsize < npages sz := by
      have hle := huser.le
      rw [Vm.userTop_eq] at hle
      simp only [Vm.uint64, npages, Vm.pgsize] at *
      omega
    rw [wp_bind, wp_onMem]
    refine (Vm.walkaddr_user (hpages.owns hrepr hd) huser).mono ?_ fun _ => id
    rintro pa _ ⟨rfl, hpa⟩
    have hs : Holds kp T d p t.root sz none s := ⟨t, rfl, hpages, hrepr, huser, hhigh⟩
    rw [if_neg (hpa hmapped)]
    refine ((holds_onFs _).bind fun r => ?_) s hs
    exact .ite (.pure _) (ih _)

theorem loadLoop_holds {k : Nat} (hd : ∀ x, 0 ≤ d x) (count off : Nat) (h : Holds kp T d p root sz none s) :
    wp (loadLoop root k count off sz) (fun r => Holds kp T d p root r.2 none) otherFault s := by
  induction count generalizing off sz s with
  | zero => exact wp_pure.mpr h
  | succ count ih =>
    rw [loadLoop]
    refine (holds_onFs _ s h).bind ?_
    intro r s1 h1
    dsimp only
    split
    next => exact wp_pure.mpr h1
    next =>
      split
      next => exact ih _ h1
      next =>
        split
        next => exact wp_pure.mpr h1
        next hmem =>
          split
          next => exact wp_pure.mpr h1
          next =>
            split
            next => exact wp_pure.mpr h1
            next =>
              refine (uvmalloc_holds hd _ _ h1).bind ?_
              intro sz1 s2 h2
              cases sz1 with
              | zero =>
                refine wp_pure.mpr ?_
                rcases h2 with ⟨hmax, h2⟩ | ⟨-, h2⟩
                · rwa [show sz = 0 by omega]
                · exact h2
              | succ sz1 =>
                rcases h2 with ⟨hmax, h2⟩ | ⟨hzero, -⟩
                · have hfit : (proghdrOf r.2).vaddr + Fs.uint (proghdrOf r.2).filesz ≤ sz1 + 1 := by
                    have : Fs.uint (proghdrOf r.2).filesz ≤ (proghdrOf r.2).filesz := Nat.mod_le _ _
                    omega
                  refine (loadseg_holds hd hfit _ 0 s2 h2).bind ?_
                  intro ok s3 h3
                  split
                  next => exact ih _ h3
                  next => exact wp_pure.mpr h3
                · exact absurd hzero (Nat.succ_ne_zero sz1)

theorem pushArgs_holds (stackbase : Nat) (args : List Nat) (sp : Nat) :
    Preserves (Holds kp T d p root sz guard) otherFault (pushArgs root stackbase args sp) := by
  induction args generalizing sp with
  | nil => exact .pure _
  | cons n args ih =>
    rw [pushArgs]
    refine .ite (.pure _) ((copyout_holds _ _).bind fun ok => .ite (ih _) (.pure _))

theorem buildStack_holds (hd : ∀ x, 0 ≤ d x) (args : List Nat) (h : Holds kp T d p root sz none s) :
    wp (buildStack root sz args) (fun r s' => ∃ guard, Holds kp T d p root r.2 guard s' ∧
      (r.1 = true → guard = some (r.2 / Vm.pgsize - 2))) otherFault s := by
  have hround : Vm.pgroundup sz = Vm.pgsize * npages sz := by
    obtain ⟨t, -, -, -, huser, -⟩ := h
    exact Vm.pgroundup_eq le_rfl huser.le
  have h' : Holds kp T d p root (Vm.pgsize * npages sz) none s := by
    obtain ⟨t, hroot, hpages, hrepr, huser, hhigh⟩ := h
    exact ⟨t, hroot, hpages, hrepr, by rwa [Vm.npages_mul], hhigh⟩
  unfold buildStack
  simp only [hround]
  refine (uvmalloc_holds hd _ _ h').bind ?_
  intro sz1 s1 h1
  cases sz1 with
  | zero =>
    refine wp_pure.mpr ⟨none, ?_, nofun⟩
    rcases h1 with ⟨hmax, -⟩ | ⟨-, h1⟩
    · simp only [Vm.pgsize] at hmax
      omega
    · exact h1
  | succ sz1 =>
    rcases h1 with ⟨hmax, h1⟩ | ⟨hzero, -⟩
    · have hsz : sz1 + 1 = Vm.pgsize * (npages sz + 2) := by
        rw [hmax, Nat.mul_add, Nat.mul_comm 2]
        exact max_eq_right (Nat.le_add_right _ _)
      have hguard : sz1 + 1 - 2 * Vm.pgsize = Vm.pgsize * npages sz := by
        rw [hsz]
        simp only [Vm.pgsize]
        omega
      have hlast : npages sz = (sz1 + 1) / Vm.pgsize - 2 := by
        rw [hsz, Nat.mul_div_cancel_left _ (by decide)]
        rfl
      dsimp only
      rw [hguard, wp_bind]
      obtain ⟨t, rfl, hpages, hrepr, huser, hhigh⟩ := h1
      rw [wp_onMem]
      refine (Vm.uvmclear_user (v := npages sz) (hpages.owns hrepr hd) huser ?_).mono ?_ fun _ => id
      · rw [hsz, Vm.npages_mul]
        omega
      · rintro _ mem ⟨t', hresize, huser'⟩
        have h2 := holds_resize hd hpages rfl hhigh hresize huser'
        refine (pushArgs_holds _ args _ _ h2).bind ?_
        intro sp s3 h3
        cases sp with
        | none => exact wp_pure.mpr ⟨_, h3, nofun⟩
        | some sp =>
          dsimp only
          split
          next => exact wp_pure.mpr ⟨_, h3, nofun⟩
          next =>
            refine (copyout_holds _ _ s3 h3).bind ?_
            intro ok s4 h4
            exact wp_pure.mpr ⟨_, h4, fun _ => congrArg some hlast⟩
    · exact absurd hzero (Nat.succ_ne_zero sz1)

theorem procFreepagetable_holds (hd : ∀ x, 0 ≤ d x) (h : Holds kp T d p root sz guard s) :
    wp (onMem (Vm.procFreepagetable root sz)) (fun _ => PagesAt kp T d) otherFault s := by
  obtain ⟨t, rfl, hpages, hrepr, huser, hhigh⟩ := h
  rw [wp_onMem]
  refine (Vm.procFreepagetable_user (hpages.owns hrepr hd) huser hhigh).mono ?_ fun _ => id
  rintro _ mem ⟨hledger, hframe⟩
  exact hpages.keep (hpages.of_ledger hledger hframe (tablePages_le_inUse hpages.kernel hd) hd)

theorem procPagetable_holds (h : PagesAt kp T d s) :
    wp (onMem (Vm.procPagetable (s.proc p).trapframe)) (fun r s' => (r = none → PagesAt kp T d s') ∧
      ∀ root, r = some root → Holds kp T d p root 0 none s') otherFault s := by
  rw [wp_onMem]
  refine (Vm.procPagetable_new none h.ledger).mono ?_ fun _ => id
  rintro r mem ⟨hframe, hnone, hsome⟩
  refine ⟨fun hr => ?_, fun root hr => ?_⟩
  · exact h.keep (h.of_ledger (hnone hr) hframe (tablePages_le_inUse h.kernel h.held) h.held)
  · obtain ⟨t, hroot, howns, huser, hhigh⟩ := hsome root hr
    have htramp : mem.tramp = kp.layout.tramp := congrArg Vm.Layout.tramp (hframe.layout.trans h.layout)
    exact ⟨t, hroot, h.keep (h.of_owns howns hframe h.held), howns.repr, huser, htramp ▸ hhigh⟩

theorem exec_pages (h : PagesAt kp T d s) (hp : p < nproc) (hrun : ∃ t, T p = some t) (path : List Fs.Byte)
    (args : List Nat) : wp (exec p path args) (fun _ => PagesOk kp d) otherFault s := by
  obtain ⟨told, htold⟩ := hrun
  have hok : ∀ {s}, PagesAt kp T d s → PagesOk kp d s := fun h => ⟨T, h⟩
  unfold exec
  refine (keepsPages_onFs _ s h).bind fun _ s1 h1 => (cwd_pages p s1 h1).bind fun dir s2 h2 => ?_
  refine (keepsPages_onFs _ s2 h2).bind fun r s3 h3 => ?_
  cases r with
  | none => exact (keepsPages_onFs _ s3 h3).bind fun _ s4 h4 => wp_pure.mpr (hok h4)
  | some k =>
    have hunlock : ∀ (a : Int), KeepsPages kp T d (do
        (do onFs (Fs.iunlockput k); onFs Fs.endOp)
        return a) :=
      fun a => ((keepsPages_onFs _).bind fun _ => keepsPages_onFs _).bind fun _ => .pure a
    refine (keepsPages_onFs _ s3 h3).bind fun _ s4 h4 => (keepsPages_onFs _ s4 h4).bind fun elf s5 h5 => ?_
    dsimp only
    split
    next => exact (hunlock _ s5 h5).mono (fun _ _ => hok) fun _ => id
    next =>
      rw [wp_bind, wp_get]
      refine (procPagetable_holds h5).bind ?_
      rintro r s6 ⟨hnone, hsome⟩
      cases r with
      | none => exact (hunlock _ s6 (hnone rfl)).mono (fun _ _ => hok) fun _ => id
      | some root =>
        refine (loadLoop_holds h.held _ _ (hsome root rfl)).bind ?_
        rintro ⟨loaded, sz⟩ s7 h7
        dsimp only
        split
        next =>
          refine (procFreepagetable_holds h.held h7).bind fun _ s8 h8 => ?_
          exact (hunlock _ s8 h8).mono (fun _ _ => hok) fun _ => id
        next =>
          refine (((holds_onFs _).bind fun _ => holds_onFs _) s7 h7).bind fun _ s8 h8 => ?_
          refine (buildStack_holds h.held args h8).bind ?_
          rintro ⟨built, sz'⟩ s9 ⟨guard, h9, hguard⟩
          dsimp only
          split
          next => exact (procFreepagetable_holds h.held h9).bind fun _ s10 h10 => wp_pure.mpr (hok h10)
          next hbuilt =>
            obtain rfl := hguard (by simpa using hbuilt)
            obtain ⟨t, rfl, hpages, hrepr, huser, hhigh⟩ := h9
            have hspace := hpages.space p hp
            rw [htold] at hspace
            simp only [wp_bind, wp_get, wp_setProc]
            let v : Proc := { s9.proc p with pagetable := t.root, sz := sz', guard := some (sz' / Vm.pgsize - 2) }
            -- the new table becomes the process's, and the old one is what is held
            have hsum : d + told.pages + (t.pages + mark (trapframePage (s9.proc p))) =
                told.pages + mark (trapframePage (s9.proc p)) + (d + t.pages) := by abel
            have hnew : PageInv kp (put T p (some t)) (d + told.pages) s9.mem s9.pipe (put s9.proc p v) := by
              refine hpages.change ?_ ⟨rfl, huser, hhigh⟩ ?_ fun _ => ⟨t, rfl⟩
              · refine hpages.exchange hp (fun w hw => Option.some.inj hw ▸ hrepr)
                  (fun x => add_nonneg (h.held x) (told.pages_nonneg x)) ?_
                rw [htold]
                show t.pages + mark (trapframePage (s9.proc p)) + (d + told.pages) = _
                rw [add_comm, hsum]
                rfl
              · intro hun
                have hnone := (hpages.unused p hp hun).1
                rw [htold] at hnone
                exact absurd hnone (Option.some_ne_none told)
            have hold : Holds kp (put T p (some t)) d p (s9.proc p).pagetable (s9.proc p).sz (s9.proc p).guard
                { s9 with proc := put s9.proc p v } := by
              refine ⟨told, hspace.1.symm, hnew, hpages.repr p hp told htold, hspace.2.1, ?_⟩
              show told.High (put s9.proc p _ p).trapframe kp.layout.tramp
              rw [put_same]
              exact hspace.2.2
            exact (procFreepagetable_holds h.held hold).mono (fun _ s10 h10 => wp_pure.mpr ⟨_, h10⟩) fun _ => id

def listPages (pages : List Nat) (x : Nat) : ℤ := pages.count x

theorem listPages_nonneg (pages : List Nat) (x : Nat) : 0 ≤ listPages pages x := Int.natCast_nonneg _

theorem listPages_append (pages : List Nat) (page : Nat) : listPages (pages ++ [page]) = listPages pages + one page := by
  funext x
  simp only [listPages, List.count_append, List.count_singleton, Pi.add_apply, one_apply, beq_iff_eq]
  by_cases hx : x = page
  · simp [hx]
  · simp [hx, Ne.symm hx]

theorem listPages_cons (page : Nat) (pages : List Nat) : listPages (page :: pages) = listPages pages + one page := by
  funext x
  simp only [listPages, List.count_cons, Pi.add_apply, one_apply, beq_iff_eq]
  by_cases hx : x = page
  · simp [hx]
  · simp [hx, Ne.symm hx]

theorem fetchArgs_pages (ended : Bool) (slots : Nat) (args : List (Option Nat)) (pages : List Nat)
    (h : PagesAt kp T (d + listPages pages) s) :
    wp (fetchArgs ended slots args pages) (fun r => PagesAt kp T (d + listPages r.2)) otherFault s := by
  induction slots generalizing args pages s with
  | zero => exact wp_pure.mpr h
  | succ slots ih =>
    cases args with
    | nil => exact wp_pure.mpr h
    | cons arg args =>
      rw [fetchArgs, wp_bind, wp_onMem]
      refine h.kalloc.mono ?_ fun _ => id
      rintro r mem ⟨hnone, hsome⟩
      cases r with
      | none => exact wp_pure.mpr (hnone rfl)
      | some page =>
        have h1 : PagesAt kp T (d + listPages (pages ++ [page])) { s with mem := mem } := by
          rw [listPages_append, ← add_assoc]
          exact hsome page rfl
        dsimp only
        split
        next => exact wp_pure.mpr h1
        next => exact ih args _ h1

theorem freeArgs_pages (hd : ∀ x, 0 ≤ d x) (pages : List Nat) (h : PagesAt kp T (d + listPages pages) s) :
    wp (pages.forM fun page => onMem (Vm.kfree page)) (fun _ => PagesAt kp T d) otherFault s := by
  induction pages generalizing s with
  | nil =>
    refine wp_pure.mpr ?_
    have hzero : listPages [] = 0 := rfl
    rwa [hzero, add_zero] at h
  | cons page pages ih =>
    show wp (onMem (Vm.kfree page) >>= fun _ => pages.forM fun page => onMem (Vm.kfree page)) _ _ s
    rw [listPages_cons, ← add_assoc] at h
    rw [wp_bind, wp_onMem]
    refine (h.kfree fun x => add_nonneg (hd x) (listPages_nonneg pages x)).mono ?_ fun _ => id
    intro _ mem h1
    exact ih h1

theorem sysExec_pages (h : PagesAt kp T d s) (hp : p < nproc) (hrun : (s.proc p).state = .runnable)
    (path : Option (List Fs.Byte)) (argv : List (Option Nat)) (ended : Bool) :
    wp (sysExec p path argv ended) (fun _ => PagesOk kp d) otherFault s := by
  have hT := h.running p hp hrun
  cases path with
  | none => exact wp_pure.mpr ⟨T, h⟩
  | some path =>
    unfold sysExec
    have h0 : PagesAt kp T (d + listPages []) s := by rwa [show listPages [] = 0 from rfl, add_zero]
    refine (fetchArgs_pages ended 32 argv [] h0).bind ?_
    rintro ⟨fetched, pages⟩ s1 h1
    have hfree : ∀ (a : Int) (t : Kernel), PagesOk kp (d + listPages pages) t →
        wp (do pages.forM fun page => onMem (Vm.kfree page); return a) (fun _ => PagesOk kp d) otherFault t := by
      rintro a t ⟨T', ht⟩
      exact (freeArgs_pages h.held pages ht).bind fun _ u hu => wp_pure.mpr ⟨T', hu⟩
    dsimp only
    split
    next => exact (exec_pages h1 hp hT path _).bind fun a t ht => hfree a t ht
    next => exact hfree (-1) s1 ⟨T, h1⟩

end Xv6
