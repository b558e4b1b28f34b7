import Xv6.FileRefs
import Xv6.PageOwnership

namespace Xv6

open Fs (put put_same put_ne put_eq_self)
open Vm (Table noFault)
open Count Prog

abbrev RefsOk (s : Kernel) : Prop := RefsAt 0 0 0 s

section Descriptors

variable {s : Kernel} {p : Nat}

theorem sysDup_refs (h : RefsOk s) (hp : p < nproc) (hrun : (s.proc p).state = .runnable) (fd : Int) :
    wp (sysDup p fd) (fun _ => RefsOk) countFault s := by
  refine (argfd_refs p fd).bind ?_
  rintro r s1 ⟨rfl, hsome⟩
  cases r with
  | none => exact wp_pure.mpr h
  | some x =>
    obtain ⟨hfd, hf⟩ := hsome x rfl
    have hpos := h.ref_pos_of_fd le_rfl hp hfd hf
    refine (fdalloc_refs h hp hrun).bind ?_
    rintro r s2 ⟨hnone, hsome2⟩
    cases r with
    | none =>
      obtain rfl := hnone rfl
      exact wp_pure.mpr h
    | some fd' =>
      obtain ⟨h2, -, hset⟩ := hsome2 fd' rfl
      refine (filedup_refs h2 (hset.file ▸ hpos)).bind ?_
      rintro _ s3 ⟨h3, -⟩
      rw [sub_add_cancel] at h3
      exact wp_pure.mpr h3

theorem sysClose_refs (h : RefsOk s) (hp : p < nproc) (fd : Int) : wp (sysClose p fd) (fun _ => RefsOk) countFault s := by
  refine (argfd_refs p fd).bind ?_
  rintro r s1 ⟨rfl, hsome⟩
  cases r with
  | none => exact wp_pure.mpr h
  | some x =>
    obtain ⟨hfd, hf⟩ := hsome x rfl
    refine (clearFd_refs h hp hfd hf).bind ?_
    rintro _ s2 ⟨h2, -⟩
    refine (fileclose_refs h2 (h2.ref_pos_of_held (by simp))).bind ?_
    rintro _ s3 ⟨h3, -⟩
    exact wp_pure.mpr h3

theorem closeTwo_refs {f g : Nat} {a : Int} (h : RefsAt (one g + one f) 0 0 s) :
    wp (do fileclose f; fileclose g; return a) (fun _ => RefsOk) countFault s := by
  have hf : 1 ≤ (one g + one f) f := by
    have := Vm.one_nonneg g f
    simp only [Pi.add_apply, Pi.single_eq_same]
    omega
  refine (fileclose_refs h (h.ref_pos_of_held hf)).bind ?_
  rintro _ s1 ⟨h1, -⟩
  rw [← zero_add (one g)] at h1
  refine (fileclose_refs h1 (h1.ref_pos_of_held (by simp))).bind ?_
  rintro _ s2 ⟨h2, -⟩
  exact wp_pure.mpr h2

theorem sysPipe_refs {kp : Base} {T : Nat → Option Table} (h : RefsOk s) (hpages : PagesAt kp T 0 s) (hp : p < nproc)
    (hrun : (s.proc p).state = .runnable) (fdarray : Nat) : wp (sysPipe p fdarray) (fun _ => RefsOk) countFault s := by
  refine (pipealloc_refs h hpages fun _ => le_rfl).bind ?_
  rintro r s1 ⟨hproc, hnone, hsome⟩
  cases r with
  | none => exact wp_pure.mpr (hnone rfl)
  | some x =>
    have h1 := hsome x rfl
    rw [zero_add] at h1
    refine (fdalloc_refs h1 hp (hproc ▸ hrun)).bind ?_
    rintro r s2 ⟨hnone2, hsome2⟩
    cases r with
    | none =>
      obtain rfl := hnone2 rfl
      exact closeTwo_refs h1
    | some fd0 =>
      obtain ⟨h2, -, hset0⟩ := hsome2 fd0 rfl
      rw [add_sub_cancel_right] at h2
      have hfd0 : (s2.proc p).ofile fd0 = some x.1 := by rw [hset0.ofile, put_same]
      refine (fdalloc_refs h2 hp (hset0.state.trans (hproc ▸ hrun))).bind ?_
      rintro r s3 ⟨hnone3, hsome3⟩
      cases r with
      | none =>
        obtain rfl := hnone3 rfl
        refine (clearFd_refs h2 hp hset0.lt hfd0).bind ?_
        rintro _ s4 ⟨h4, -⟩
        exact closeTwo_refs h4
      | some fd1 =>
        obtain ⟨h3, hfree, hset1⟩ := hsome3 fd1 rfl
        rw [sub_self] at h3
        have hne : fd0 ≠ fd1 := by
          rintro rfl
          rw [hfd0] at hfree
          exact absurd hfree (Option.some_ne_none _)
        have hfd0' : (s3.proc p).ofile fd0 = some x.1 := by rw [hset1.ofile, put_ne _ _ _ hne, hfd0]
        have hfd1 : (s3.proc p).ofile fd1 = some x.2 := by rw [hset1.ofile, put_same]
        rw [wp_bind, wp_get]
        refine (onMem_refs h3).bind ?_
        rintro copied s4 ⟨h4, -, hproc4⟩
        rw [← hproc4] at hfd0' hfd1
        split
        next => exact wp_pure.mpr h4
        next =>
          refine (clearFd_refs h4 hp hset0.lt hfd0').bind ?_
          rintro _ s5 ⟨h5, hclear⟩
          have hfd1' : (s5.proc p).ofile fd1 = some x.2 := by
            rw [hclear.ofile, put_ne _ _ _ (Ne.symm hne)]
            exact hfd1
          refine (clearFd_refs h5 hp hset1.lt hfd1').bind ?_
          rintro _ s6 ⟨h6, -⟩
          rw [zero_add, add_comm] at h6
          exact closeTwo_refs h6

end Descriptors

section FileCalls

variable {s : Kernel} {p : Nat}

theorem fsCall_refs {m : Nat → Fs.M Bool} (h : RefsOk s) (hp : p < nproc) (hrun : (s.proc p).state = .runnable)
    (hm : ∀ dir, Fs.KeepsRefs (m dir)) :
    wp (do let dir ← cwd p; if ← onFs (m dir) then return (0 : Int) else return -1) (fun _ => RefsOk) countFault s := by
  refine (cwd_refs h hp hrun).bind ?_
  rintro dir s1 ⟨rfl, -⟩
  refine (onFs_refs h (hm dir 0)).bind ?_
  rintro b s2 ⟨h2, -⟩
  split
  next => exact wp_pure.mpr h2
  next => exact wp_pure.mpr h2

section
variable (h : RefsOk s) (hp : p < nproc) (hrun : (s.proc p).state = .runnable)
include h hp hrun

theorem sysLink_refs (old new : Option (List Fs.Byte)) : wp (sysLink p old new) (fun _ => RefsOk) countFault s := by
  unfold sysLink
  split
  next old new => exact fsCall_refs h hp hrun fun dir => Fs.link_refs dir old new
  next => exact wp_pure.mpr h

theorem sysUnlink_refs (path : Option (List Fs.Byte)) : wp (sysUnlink p path) (fun _ => RefsOk) countFault s := by
  unfold sysUnlink
  split
  next => exact wp_pure.mpr h
  next path => exact fsCall_refs h hp hrun fun dir => Fs.unlink_refs dir path

theorem openInode_refs (path : List Fs.Byte) (omode : BitVec 32) :
    wp (openInode p path omode) (fun r t => RefsAt 0 (Fs.held 0 r) 0 t ∧ t.proc = s.proc) countFault s := by
  refine (cwd_refs h hp hrun).bind ?_
  rintro dir s1 ⟨rfl, -⟩
  refine (onFs_refs h (?_ : Fs.Refs 0 _ (Fs.held 0))).mono ?_ fun _ => id
  · refine .ite (Fs.create_refs dir path Fs.tFile 0 0 0) ((Fs.namei_refs dir path 0).bind fun r => ?_)
    cases r with
    | none => exact .pure rfl
    | some k =>
      refine (Fs.ilock_refs k _).bind fun _ => (Fs.inode_refs k _).bind fun ip => ?_
      split
      next => exact (Fs.iunlockput_refs k _).bind fun _ => .pure (add_sub_cancel_right _ _)
      next => exact .pure rfl
  · rintro r t ⟨ht, -, hproc⟩
    exact ⟨ht, hproc⟩

end

theorem dropEnd_refs {k : Nat} {a : Int} (h : RefsAt 0 (0 + one k) 0 s) :
    wp (do onFs (Fs.iunlockput k); onFs Fs.endOp; return a) (fun _ => RefsOk) countFault s := by
  refine (onFs_refs h (Fs.iunlockput_refs k _)).bind ?_
  rintro _ s1 ⟨h1, -⟩
  rw [add_sub_cancel_right] at h1
  refine (onFs_refs h1 (Fs.endOp_refs 0)).bind ?_
  rintro _ s2 ⟨h2, -⟩
  exact wp_pure.mpr h2

section
variable (h : RefsOk s) (hp : p < nproc) (hrun : (s.proc p).state = .runnable) (path : Option (List Fs.Byte))
include h hp hrun path

theorem sysOpen_refs (omode : BitVec 32) : wp (sysOpen p path omode) (fun _ => RefsOk) countFault s := by
  cases path with
  | none => exact wp_pure.mpr h
  | some path =>
    refine (onFs_refs h (Fs.beginOp_refs 0)).bind ?_
    rintro _ s1 ⟨h1, -, hproc1⟩
    refine (openInode_refs h1 hp (hproc1 ▸ hrun) path omode).bind ?_
    rintro r s2 ⟨h2, hproc2⟩
    cases r with
    | none =>
      refine (onFs_refs h2 (Fs.endOp_refs _)).bind ?_
      rintro _ s3 ⟨h3, -⟩
      exact wp_pure.mpr h3
    | some k =>
      refine (onFs_refs h2 (Fs.inode_refs k _)).bind ?_
      rintro ip s3 ⟨h3, -, hproc3⟩
      dsimp only
      split
      next => exact dropEnd_refs h3
      next =>
        refine (filealloc_refs h3).bind ?_
        rintro r s4 ⟨hnone, hsome⟩
        cases r with
        | none =>
          obtain rfl := hnone rfl
          exact dropEnd_refs h3
        | some f =>
          obtain ⟨h4, hnew⟩ := hsome f rfl
          have hproc4 : s4.proc = s.proc := hnew.proc.trans (hproc3.trans (hproc2.trans hproc1))
          refine (fdalloc_refs h4 hp (hproc4 ▸ hrun)).bind ?_
          rintro r s5 ⟨hnone5, hsome5⟩
          cases r with
          | none =>
            obtain rfl := hnone5 rfl
            refine (fileclose_refs h4 hnew.ref.ge).bind ?_
            rintro _ s6 ⟨h6, -⟩
            exact dropEnd_refs h6
          | some fd =>
            obtain ⟨h5, -, hset⟩ := hsome5 fd rfl
            rw [add_sub_cancel_right] at h5
            have hend : Preserves RefsOk countFault (do onFs (Fs.iunlock k); onFs Fs.endOp; return (fd : Int)) :=
              (keepsRefs_onFs (Fs.iunlock_refs k)).bind fun _ => (keepsRefs_onFs Fs.endOp_refs).bind fun _ => .pure _
            have hfile : s5.file f = s4.file f := congrFun hset.file f
            rw [wp_bind, wp_get, wp_bind, wp_setFile]
            have h6 := h5.setInode (f := f) (v := { (if ip.din.type = Fs.tDevice then
                { s5.file f with type := FileType.device, major := ip.din.major }
              else { s5.file f with type := FileType.inode, off := 0 }) with
                ip := k, readable := omode &&& oWronly = 0, writable := omode &&& oWronly ≠ 0 ∨ omode &&& oRdwr ≠ 0 })
              hnew.lt (hfile ▸ hnew.type) ?_ ?_ ?_ rfl
            · split
              next => exact ((keepsRefs_onFs (Fs.itrunc_refs k)).bind fun _ => hend) _ h6
              next => exact hend _ h6
            · dsimp only
              split <;> rfl
            · dsimp only
              split <;> exact hfile ▸ hnew.ref.ge
            · dsimp only
              split
              next => exact .inr rfl
              next => exact .inl rfl

theorem sysChdir_refs : wp (sysChdir p path) (fun _ => RefsOk) countFault s := by
  refine (onFs_refs h (Fs.beginOp_refs 0)).bind ?_
  rintro _ s1 ⟨h1, -, hproc1⟩
  have hfail : Preserves RefsOk countFault (do onFs Fs.endOp; return (-1 : Int)) :=
    (keepsRefs_onFs Fs.endOp_refs).bind fun _ => .pure _
  cases path with
  | none => exact hfail _ h1
  | some path =>
    refine (cwd_refs h1 hp (hproc1 ▸ hrun)).bind ?_
    rintro dir s1 ⟨rfl, hdir⟩
    refine (onFs_refs h1 (Fs.namei_refs dir path 0)).bind ?_
    rintro r s2 ⟨h2, -, hproc2⟩
    cases r with
    | none => exact hfail _ h2
    | some k =>
      refine (onFs_refs h2 (Fs.ilock_refs k _)).bind ?_
      rintro _ s3 ⟨h3, -, hproc3⟩
      refine (onFs_refs h3 (Fs.inode_refs k _)).bind ?_
      rintro ip s4 ⟨h4, -, hproc4⟩
      dsimp only
      split
      next => exact dropEnd_refs h4
      next =>
        refine (onFs_refs h4 (Fs.iunlock_refs k _)).bind ?_
        rintro _ s5 ⟨h5, -, hproc5⟩
        refine (onFs_refs h5 (Fs.iput_refs dir _)).bind ?_
        rintro _ s6 ⟨h6, -, hproc6⟩
        refine (onFs_refs h6 (Fs.endOp_refs _)).bind ?_
        rintro _ s7 ⟨h7, -, hproc7⟩
        have hproc : s7.proc = s1.proc :=
          hproc7.trans (hproc6.trans (hproc5.trans (hproc4.trans (hproc3.trans hproc2))))
        rw [wp_bind, wp_get, wp_bind, wp_setProc, wp_pure]
        have h8 := h7.setProc (v := { s7.proc p with cwd := some k }) hp rfl (fun _ => rfl) fun hidle => by
          simp [hproc, hproc1, hrun] at hidle
        -- the reference to the old directory is gone, the one to the new belongs to the process
        have hheld : (Fs.held 0 (some k) - one dir + mark (s7.proc p).cwd - mark (some k) : Nat → ℤ) = 0 := by
          rw [hproc, hdir, mark_some, mark_some]
          show 0 + one k - one dir + one dir - one k = 0
          abel
        rwa [hheld] at h8

end

theorem setOff_refs {f off : Nat} (h : RefsOk s) : RefsOk { s with file := put s.file f { s.file f with off := off } } := by
  have hsame : ∀ g, inodeOf (put s.file f { s.file f with off := off } g) = inodeOf (s.file g) ∧
      (∀ w, endOf w (put s.file f { s.file f with off := off } g) = endOf w (s.file g)) ∧
      (put s.file f { s.file f with off := off } g).ref = (s.file g).ref ∧
      (put s.file f { s.file f with off := off } g).type = (s.file g).type := by
    intro g
    by_cases hg : g = f
    · subst hg
      rw [put_same]
      exact ⟨rfl, fun _ => rfl, rfl, rfl⟩
    · rw [put_ne _ _ _ hg]
      exact ⟨rfl, fun _ => rfl, rfl, rfl⟩
  refine { h with files := ?_, inodes := ?_, ends := fun w => ?_, free := fun g => ?_, bound := fun g => ?_ }
  · simp only [(hsame _).2.2.1]
    exact h.files
  · simp only [inodeUses, (hsame _).1]
    exact h.inodes
  · simp only [endUses, (hsame _).2.1]
    exact h.ends w
  · rw [(hsame g).2.2.1, (hsame g).2.2.2]
    exact h.free g
  · rw [(hsame g).2.2.1]
    exact h.bound g

theorem writeChunks_refs (f : Nat) (src : Nat → Fs.Source) (n fuel i : Nat) :
    Preserves RefsOk countFault (writeChunks f src n fuel i) := by
  induction fuel generalizing i with
  | zero => exact .pure _
  | succ fuel ih =>
    rw [writeChunks]
    refine .ite ?_ (.pure _)
    refine (keepsRefs_onFs Fs.beginOp_refs).bind fun _ => .get fun s => ?_
    refine (keepsRefs_onFs (Fs.ilock_refs _)).bind fun _ => (keepsRefs_onFs (Fs.writei_refs _ _ _ _)).bind fun r => ?_
    have hend : Preserves RefsOk countFault (do
        onFs (Fs.iunlock (s.file f).ip)
        onFs Fs.endOp
        if r ≠ ((min (n - i) 3072 : Nat) : Int) then return i else writeChunks f src n fuel (i + min (n - i) 3072)) :=
      (keepsRefs_onFs (Fs.iunlock_refs _)).bind fun _ => (keepsRefs_onFs Fs.endOp_refs).bind fun _ => .ite (.pure _) (ih _)
    dsimp only
    split
    next =>
      intro t ht
      rw [wp_bind, wp_get, wp_bind, wp_setFile]
      exact hend _ (setOff_refs ht)
    next => exact hend

theorem sysWrite_refs (p : Nat) (fd : Int) (src : Nat → Fs.Source) (n other : Int) :
    Preserves RefsOk countFault (sysWrite p fd src n other) := by
  have hargfd : Preserves RefsOk countFault (argfd p fd) := .ite (.pure _) (.get fun _ => .pure _)
  refine hargfd.bind fun r => ?_
  cases r with
  | none => exact .pure _
  | some x =>
    refine .get fun s => .ite (.pure _) ?_
    split
    next => exact .pure _
    next => exact .pure _
    next => exact .throw (by decide : "filewrite" ∉ ["filedup", "fileclose", "pipeclose", "cwd"])
    next => exact (writeChunks_refs x.2 src _ _ _).bind fun _ => .pure _

end FileCalls

section Processes

variable {d e : Nat → ℤ} {s : Kernel} {p : Nat} {np : Nat}

def Bare (v : Proc) : Prop := (∀ fd < nofile, v.ofile fd = none) ∧ v.cwd = none

theorem freeproc_refs (h : RefsAt d e 0 s) (hp : p < nproc) (hbare : Bare (s.proc p)) :
    wp (freeproc p) (fun _ => RefsAt d e 0) countFault s := by
  have hset : ∀ t : Kernel, RefsAt d e 0 t ∧ t.file = s.file ∧ t.proc = s.proc →
      wp (setProc p { s.proc p with trapframe := 0, pagetable := 0, sz := 0, pid := 0, parent := none, state := .unused })
        (fun _ => RefsAt d e 0) countFault t := by
    rintro t ⟨ht, -, hproc⟩
    rw [wp_setProc]
    exact ht.keepProc hp (by rw [hproc]) (by rw [hproc]) nofun fun _ => hbare
  have htable : ∀ t : Kernel, RefsAt d e 0 t ∧ t.file = s.file ∧ t.proc = s.proc →
      wp (do
        if (s.proc p).pagetable ≠ 0 then onMem (Vm.procFreepagetable (s.proc p).pagetable (s.proc p).sz)
        setProc p { s.proc p with trapframe := 0, pagetable := 0, sz := 0, pid := 0, parent := none, state := .unused })
        (fun _ => RefsAt d e 0) countFault t := by
    rintro t ⟨ht, hfile, hproc⟩
    split
    next =>
      refine (onMem_refs ht).bind ?_
      rintro _ t' ⟨ht', hfile', hproc'⟩
      exact hset t' ⟨ht', hfile'.trans hfile, hproc'.trans hproc⟩
    next => exact hset t ⟨ht, hfile, hproc⟩
  unfold freeproc
  rw [wp_bind, wp_get]
  dsimp only
  split
  next => exact (onMem_refs h).bind fun _ t ht => htable t ht
  next => exact htable s ⟨h, rfl, rfl⟩

structure BareProc (np : Nat) (proc proc' : Nat → Proc) : Prop where
  lt : np < nproc
  unused : (proc np).state = .unused
  used : (proc' np).state = .used
  bare : Bare (proc' np)
  others : ∀ q, q ≠ np → proc' q = proc q

theorem BareProc.set {t : Kernel} {v : Proc} (h : RefsAt d e 0 t ∧ BareProc np s.proc t.proc)
    (hofile : v.ofile = (t.proc np).ofile) (hcwd : v.cwd = (t.proc np).cwd) (hstate : v.state = .used) :
    RefsAt d e 0 { t with proc := put t.proc np v } ∧ BareProc np s.proc (put t.proc np v) := by
  obtain ⟨hrefs, hnew⟩ := h
  have hbare : Bare v := by
    rw [Bare, hofile, hcwd]
    exact hnew.bare
  refine ⟨hrefs.keepProc hnew.lt hofile hcwd (by simp [hstate]) fun _ => hbare, hnew.lt, hnew.unused, ?_, ?_, fun q hq => ?_⟩
  · rw [put_same, hstate]
  · rw [put_same]
    exact hbare
  · rw [put_ne _ _ _ hq]
    exact hnew.others q hq

theorem onMem_bareProc {α : Type} (m : Vm.M α) :
    Preserves (fun t => RefsAt d e 0 t ∧ BareProc np s.proc t.proc) countFault (onMem m) :=
  fun _ ht => wp_onMem.mpr (wp_of_forall (fun _ _ => ht) fun _ => trivial)

theorem allocproc_refs (h : RefsAt d e 0 s) :
    wp allocproc (fun r t => (r = none → RefsAt d e 0 t) ∧
      ∀ np, r = some np → RefsAt d e 0 t ∧ BareProc np s.proc t.proc) countFault s := by
  unfold allocproc
  rw [wp_bind, wp_get]
  split
  next => exact wp_pure.mpr ⟨fun _ => h, nofun⟩
  next np hfind =>
    have hp : np < nproc := List.mem_range.mp (List.mem_of_find?_eq_some hfind)
    have hunused : (s.proc np).state = .unused := by simpa using List.find?_some hfind
    have hbare := h.idle np hp (.inl hunused)
    let v : Proc := { s.proc np with pid := s.nextpid, state := .used }
    have h0 : RefsAt d e 0 { s with proc := put s.proc np v, nextpid := s.nextpid + 1 } :=
      h.keepProc hp rfl rfl nofun fun _ => hbare
    have hnew0 : BareProc np s.proc (put s.proc np v) := by
      refine ⟨hp, hunused, ?_, ?_, fun q hq => put_ne _ _ _ hq⟩
      · rw [put_same]
      · rw [put_same]
        exact hbare
    have hfail : ∀ t : Kernel, RefsAt d e 0 t ∧ BareProc np s.proc t.proc → wp (do freeproc np; return none)
        (fun r t => (r = none → RefsAt d e 0 t) ∧ ∀ np, r = some np → RefsAt d e 0 t ∧ BareProc np s.proc t.proc)
        countFault t :=
      fun t ht => (freeproc_refs ht.1 hp ht.2.bare).bind fun _ t' ht' => wp_pure.mpr ⟨fun _ => ht', nofun⟩
    rw [wp_bind, wp_setProc, wp_bind, wp_modify]
    refine (onMem_bareProc _ _ ⟨h0, hnew0⟩).bind ?_
    intro r t ht
    cases r with
    | none =>
      rw [wp_bind, wp_get, wp_bind, wp_setProc]
      exact hfail _ (BareProc.set ht rfl rfl ht.2.used)
    | some tf =>
      rw [wp_bind, wp_get, wp_bind, wp_setProc]
      refine (onMem_bareProc _ _ (BareProc.set (v := { t.proc np with trapframe := tf }) ht rfl rfl ht.2.used)).bind ?_
      intro r t2 ht2
      cases r with
      | none =>
        rw [wp_bind, wp_get, wp_bind, wp_setProc]
        exact hfail _ (BareProc.set ht2 rfl rfl ht2.2.used)
      | some pagetable =>
        rw [wp_bind, wp_get, wp_bind, wp_setProc, wp_pure]
        refine ⟨nofun, fun np' hnp' => ?_⟩
        obtain rfl := Option.some.inj hnp'
        exact BareProc.set ht2 rfl rfl ht2.2.used

/-- In round `fd` of `fork` the child holds what the descriptors below `fd` of its parent hold. -/
structure Dup (p np : Nat) (parent : Proc) (fd : Nat) (t : Kernel) : Prop where
  refs : RefsAt 0 0 0 t
  parent : t.proc p = parent
  used : (t.proc np).state = .used
  rest : ∀ i, fd ≤ i → i < nofile → (t.proc np).ofile i = none
  cwd : (t.proc np).cwd = none

theorem dupLoop_refs {parent : Proc} (h : Dup p np parent 0 s) (hp : p < nproc) (hnp : np < nproc) (hne : p ≠ np) :
    wp (dupLoop p np) (fun _ => Dup p np parent nofile) countFault s := by
  refine wp_forM_range h fun fd hfd t ht => ?_
  rw [wp_bind, wp_get]
  split
  next => exact wp_pure.mpr { ht with rest := fun i hi => ht.rest i (by omega) }
  next f hf =>
    refine (filedup_refs ht.refs (ht.refs.ref_pos_of_fd le_rfl hp hfd hf)).bind ?_
    rintro _ t1 ⟨h1, hproc⟩
    have hset := h1.setFd (o := some f) hnp hfd (.inr (.inl (hproc ▸ ht.used)))
    rw [hproc, ht.rest fd le_rfl hfd, mark_none, mark_some, add_zero, add_sub_cancel_right] at hset
    rw [wp_setFd, hproc]
    refine ⟨hset, ?_, ?_, fun i hi hlt => ?_, ?_⟩
    · exact (put_ne _ _ _ hne).trans ht.parent
    · simp only [put_same]
      exact ht.used
    · simp only [put_same]
      rw [put_ne _ _ _ (by omega)]
      exact ht.rest i (by omega) hlt
    · simp only [put_same]
      exact ht.cwd

theorem sysFork_refs (h : RefsOk s) (hp : p < nproc) (hrun : (s.proc p).state = .runnable) :
    wp (sysFork p) (fun _ => RefsOk) countFault s := by
  refine (allocproc_refs h).bind ?_
  rintro r s1 ⟨hnone, hsome⟩
  cases r with
  | none => exact wp_pure.mpr (hnone rfl)
  | some np =>
    have h1 := hsome np rfl
    have hne : p ≠ np := by
      rintro rfl
      have := h1.2.unused
      rw [hrun] at this
      exact absurd this (by decide)
    have hparent : s1.proc p = s.proc p := h1.2.others p hne
    rw [wp_bind, wp_get]
    refine (onMem_bareProc _ _ h1).bind ?_
    intro copied s2 h2
    split
    next =>
      rw [wp_bind, wp_get, wp_bind, wp_setProc]
      have h3 := BareProc.set (v := { s2.proc np with sz := (s2.proc p).sz, guard := (s2.proc p).guard }) h2 rfl rfl h2.2.used
      have hstart : Dup p np (s.proc p) 0 { s2 with
          proc := put s2.proc np { s2.proc np with sz := (s2.proc p).sz, guard := (s2.proc p).guard } } := by
        refine ⟨h3.1, h3.2.others p hne, h3.2.used, fun i _ => h3.2.bare.1 i, h3.2.bare.2⟩
      refine (dupLoop_refs hstart hp h2.2.lt hne).bind ?_
      intro _ s4 h4
      refine (cwd_refs h4.refs hp (h4.parent ▸ hrun)).bind ?_
      rintro dir s4 ⟨rfl, hdir⟩
      refine (onFs_refs h4.refs (Fs.idup_refs dir 0)).bind ?_
      rintro k s5 ⟨h5, -, hproc5⟩
      rw [wp_bind, wp_get, wp_bind, wp_setProc, wp_pure]
      have h6 := h5.setProc (v := { s5.proc np with cwd := some k, parent := some p, state := .runnable }) h2.2.lt rfl
        (fun _ => rfl) nofun
      have hheld : (0 + one k + mark (s5.proc np).cwd - mark (some k) : Nat → ℤ) = 0 := by
        rw [hproc5, h4.cwd, mark_none, mark_some, add_zero, zero_add, sub_self]
      rwa [hheld] at h6
    next => exact (freeproc_refs h2.1 h2.2.lt h2.2.bare).bind fun _ s3 h3 => wp_pure.mpr h3

structure Closing (p : Nat) (dir : Option Nat) (fd : Nat) (t : Kernel) : Prop where
  refs : RefsAt 0 0 0 t
  state : (t.proc p).state = .runnable
  closed : ∀ i < fd, (t.proc p).ofile i = none
  cwd : (t.proc p).cwd = dir

theorem closeLoop_refs {dir : Option Nat} (h : Closing p dir 0 s) (hp : p < nproc) :
    wp ((List.range nofile).forM fun fd => do
      match ((← get).proc p).ofile fd with
      | none => return
      | some f =>
        fileclose f
        setFd p fd none) (fun _ => Closing p dir nofile) countFault s := by
  refine wp_forM_range h fun fd hfd t ht => ?_
  rw [wp_bind, wp_get]
  split
  next hnone =>
    refine wp_pure.mpr { ht with closed := fun i hi => ?_ }
    rcases Nat.lt_succ_iff_lt_or_eq.mp hi with hlt | rfl
    · exact ht.closed i hlt
    · exact hnone
  next f hf =>
    -- the reference goes before the descriptor that it belongs to
    have hpos := ht.refs.ref_pos_of_fd le_rfl hp hfd hf
    have hgive : RefsAt (-one f + one f) 0 0 t := (neg_add_cancel (one f)).symm ▸ ht.refs
    refine (fileclose_refs hgive hpos).bind ?_
    rintro _ t1 ⟨h1, hproc⟩
    refine (clearFd_refs h1 hp hfd (hproc ▸ hf)).mono ?_ fun _ => id
    rintro _ t2 ⟨h2, hclear⟩
    rw [neg_add_cancel] at h2
    refine ⟨h2, hclear.state.trans (hproc ▸ ht.state), fun i hi => ?_, hclear.cwd.trans (hproc ▸ ht.cwd)⟩
    rw [hclear.ofile, hproc]
    by_cases hifd : i = fd
    · rw [hifd, put_same]
    · rw [put_ne _ _ _ hifd]
      exact ht.closed i (by omega)

theorem sysExit_refs (h : RefsOk s) (hp : p < nproc) (hrun : (s.proc p).state = .runnable) :
    wp (sysExit p) (fun _ => RefsOk) countFault s := by
  unfold sysExit
  split
  next =>
    exact wp_bind.mpr (wp_panic.mpr (by decide : "init exiting" ∉ ["filedup", "fileclose", "pipeclose", "cwd"]))
  next =>
    have hstart : Closing p (s.proc p).cwd 0 s := ⟨h, hrun, nofun, rfl⟩
    refine (closeLoop_refs hstart hp).bind ?_
    intro _ s1 h1
    refine (onFs_refs h1.refs (Fs.beginOp_refs 0)).bind ?_
    rintro _ s2 ⟨h2, -, hproc2⟩
    refine (cwd_refs h2 hp (hproc2 ▸ h1.state)).bind ?_
    rintro dir s2 ⟨rfl, hdir⟩
    refine (onFs_refs h2 (Fs.iput_refs dir 0)).bind ?_
    rintro _ s3 ⟨h3, -, hproc3⟩
    refine (onFs_refs h3 (Fs.endOp_refs _)).bind ?_
    rintro _ s4 ⟨h4, -, hproc4⟩
    have hproc : s4.proc = s2.proc := hproc4.trans hproc3
    rw [wp_bind, wp_modify, wp_bind, wp_get, wp_bind, wp_setProc, wp_pure]
    let reparent : Nat → Proc := fun q =>
      if (s4.proc q).parent = some p then { s4.proc q with parent := some initproc } else s4.proc q
    have hsame : ∀ q, (reparent q).ofile = (s4.proc q).ofile ∧ (reparent q).cwd = (s4.proc q).cwd ∧
        (reparent q).state = (s4.proc q).state := by
      intro q
      simp only [reparent]
      split <;> exact ⟨rfl, rfl, rfl⟩
    have h5 : RefInv 0 (0 - one dir) 0 (Fs.refs s4.fs) s4.file s4.pipe reparent := h4.congr hsame
    have hclosed : ∀ fd < nofile, (reparent p).ofile fd = none := by
      intro fd hfd
      rw [(hsame p).1, hproc, hproc2]
      exact h1.closed fd hfd
    have h6 := h5.setProc (v := { reparent p with cwd := none, state := .zombie }) hp rfl nofun fun _ => ⟨hclosed, rfl⟩
    have hheld : (0 - one dir + mark (reparent p).cwd - mark none : Nat → ℤ) = 0 := by
      rw [(hsame p).2.1, hproc, hdir, mark_some, mark_none, sub_zero, sub_add_cancel]
    rwa [hheld] at h6

theorem sysWait_refs (h : RefsOk s) (addr : Nat) : wp (sysWait p addr) (fun _ => RefsOk) countFault s := by
  unfold sysWait
  rw [wp_bind, wp_get]
  split
  next q hfind =>
    have hq : q < nproc := List.mem_range.mp (List.mem_of_find?_eq_some hfind)
    have hstate : (s.proc q).state = .zombie := by
      have := List.find?_some hfind
      simp only [decide_eq_true_eq] at this
      exact this.2
    have hfree : ∀ t : Kernel, RefsOk t → t.proc = s.proc → wp (do freeproc q; return ((s.proc q).pid : Int))
        (fun _ => RefsOk) countFault t := fun t ht hproc =>
      (freeproc_refs ht hq (ht.idle q hq (.inr (hproc ▸ hstate)))).bind fun _ t' ht' => wp_pure.mpr ht'
    dsimp only
    split
    next =>
      refine wp_bind.mpr ((onMem_refs h).mono ?_ fun _ => id)
      rintro copied t ⟨ht, -, hproc⟩
      split
      next => exact wp_pure.mpr ht
      next => exact hfree t ht hproc
    next => exact hfree s h rfl
  next =>
    split
    next => exact wp_throw.mpr trivial
    next => exact wp_pure.mpr h

theorem sysSbrk_refs (h : RefsOk s) (n : Int) : wp (sysSbrk p n) (fun _ => RefsOk) countFault s := by
  have hset : ∀ (sz : Nat) (t : Kernel), RefsOk t → t.proc = s.proc →
      wp (do setProc p { s.proc p with sz := sz }; return ((s.proc p).sz : Int)) (fun _ => RefsOk) countFault t := by
    intro sz t ht hproc
    rw [wp_bind, wp_setProc, wp_pure]
    exact ht.congr_put (by simp only [hproc, and_self])
  unfold sysSbrk
  rw [wp_bind, wp_get]
  dsimp only
  split
  next =>
    refine wp_bind.mpr ((onMem_refs h).mono ?_ fun _ => id)
    rintro sz t ⟨ht, -, hproc⟩
    split
    next => exact wp_pure.mpr ht
    next => exact hset _ t ht hproc
  next =>
    split
    next =>
      refine wp_bind.mpr ((onMem_refs h).mono ?_ fun _ => id)
      rintro sz t ⟨ht, -, hproc⟩
      exact hset sz t ht hproc
    next => exact wp_pure.mpr h

end Processes

section ExecCall

variable {e : Nat → ℤ} {s : Kernel} {p : Nat}

theorem loadseg_refs (pagetable va k offset sz fuel i : Nat) :
    Preserves (RefsAt 0 e 0) countFault (loadseg pagetable va k offset sz fuel i) := by
  induction fuel generalizing i with
  | zero => exact .pure _
  | succ fuel ih =>
    rw [loadseg]
    refine .ite ((keepsRefs_onMem _).bind fun pa => ?_) (.pure _)
    dsimp only
    split
    on_goal 1 =>
      refine Preserves.bind
        (.throw (by decide : "loadseg: address should exist" ∉ ["filedup", "fileclose", "pipeclose", "cwd"])) fun _ => ?_
    all_goals exact (keepsRefs_onFs (Fs.readi_refs _ _ _)).bind fun x => .ite (.pure _) (ih _)

theorem loadLoop_refs (pagetable k count off sz : Nat) :
    Preserves (RefsAt 0 e 0) countFault (loadLoop pagetable k count off sz) := by
  induction count generalizing off sz with
  | zero => exact .pure _
  | succ count ih =>
    rw [loadLoop]
    refine (keepsRefs_onFs (Fs.readi_refs _ _ _)).bind fun x => .ite (.pure _) ?_
    refine .ite (ih _ _) (.ite (.pure _) (.ite (.pure _) (.ite (.pure _) ?_)))
    refine (keepsRefs_onMem _).bind fun r => ?_
    cases r with
    | zero => exact .pure _
    | succ sz' =>
      refine (loadseg_refs _ _ _ _ _ _ _).bind fun ok => ?_
      split
      next => exact ih _ _
      next => exact .pure _

theorem pushArgs_refs (pagetable stackbase : Nat) (args : List Nat) (sp : Nat) :
    Preserves (RefsAt 0 e 0) countFault (pushArgs pagetable stackbase args sp) := by
  induction args generalizing sp with
  | nil => exact .pure _
  | cons n args ih =>
    rw [pushArgs]
    refine .ite (.pure _) ((keepsRefs_onMem _).bind fun ok => ?_)
    split
    next => exact ih _
    next => exact .pure _

theorem buildStack_refs (pagetable sz : Nat) (args : List Nat) :
    Preserves (RefsAt 0 e 0) countFault (buildStack pagetable sz args) := by
  unfold buildStack
  refine (keepsRefs_onMem _).bind fun r => ?_
  cases r with
  | zero => exact .pure _
  | succ sz' =>
    refine (keepsRefs_onMem _).bind fun _ => (pushArgs_refs _ _ _ _).bind fun r => ?_
    cases r with
    | none => exact .pure _
    | some sp => exact .ite (.pure _) ((keepsRefs_onMem _).bind fun _ => .pure _)

theorem exec_refs (h : RefsOk s) (hp : p < nproc) (hrun : (s.proc p).state = .runnable) (path : List Fs.Byte) (args : List Nat) :
    wp (Xv6.exec p path args) (fun _ => RefsOk) countFault s := by
  refine (onFs_refs h (Fs.beginOp_refs 0)).bind ?_
  rintro _ s1 ⟨h1, -, hproc1⟩
  refine (cwd_refs h1 hp (hproc1 ▸ hrun)).bind ?_
  rintro dir s1 ⟨rfl, -⟩
  refine (onFs_refs h1 (Fs.namei_refs dir path 0)).bind ?_
  rintro r s2 ⟨h2, -⟩
  cases r with
  | none => exact ((keepsRefs_onFs Fs.endOp_refs).bind fun _ => .pure _) _ h2
  | some k =>
    refine (keepsRefs_onFs (Fs.ilock_refs k) _ h2).bind ?_
    intro _ s3 h3
    refine (keepsRefs_onFs (Fs.readi_refs k 0 64) _ h3).bind ?_
    rintro ⟨n, elf⟩ s4 h4
    have hunlock : ∀ t, RefsAt 0 (0 + one k) 0 t → wp (do onFs (Fs.iunlockput k); onFs Fs.endOp) (fun _ => RefsOk) countFault t := by
      intro t ht
      refine (onFs_refs ht (Fs.iunlockput_refs k _)).bind ?_
      rintro _ t1 ⟨h1, -⟩
      rw [add_sub_cancel_right] at h1
      exact keepsRefs_onFs Fs.endOp_refs _ h1
    dsimp only
    split
    next => exact (hunlock _ h4).bind fun _ _ h5 => wp_pure.mpr h5
    next =>
      rw [wp_bind, wp_get]
      refine (keepsRefs_onMem _ _ h4).bind ?_
      intro r s5 h5
      cases r with
      | none => exact (hunlock _ h5).bind fun _ _ h6 => wp_pure.mpr h6
      | some pagetable =>
        refine (loadLoop_refs _ _ _ _ _ _ h5).bind ?_
        rintro ⟨loaded, sz⟩ s6 h6
        dsimp only
        split
        next =>
          refine (keepsRefs_onMem _ _ h6).bind fun _ s7 h7 => ?_
          exact (hunlock _ h7).bind fun _ _ h8 => wp_pure.mpr h8
        next =>
          refine (hunlock _ h6).bind fun _ s7 h7 => ?_
          refine (buildStack_refs _ _ _ _ h7).bind ?_
          rintro ⟨built, sz'⟩ s8 h8
          dsimp only
          split
          next => exact (keepsRefs_onMem _ _ h8).bind fun _ _ h9 => wp_pure.mpr h9
          next =>
            rw [wp_bind, wp_get, wp_bind, wp_setProc]
            exact ((keepsRefs_onMem _).bind fun _ => .pure _) _ (h8.congr_put ⟨rfl, rfl, rfl⟩)

theorem fetchArgs_refs (ended : Bool) (slots : Nat) (args : List (Option Nat)) (pages : List Nat) :
    Preserves (fun t => RefsOk t ∧ t.proc = s.proc) countFault (fetchArgs ended slots args pages) := by
  induction slots generalizing args pages with
  | zero => exact .pure _
  | succ slots ih =>
    cases args with
    | nil => exact .pure _
    | cons arg args =>
      rw [fetchArgs]
      have hkalloc : Preserves (fun t : Kernel => RefsOk t ∧ t.proc = s.proc) countFault (onMem Vm.kalloc) :=
        fun _ h => wp_onMem.mpr (wp_of_forall (fun _ _ => h) fun _ => trivial)
      refine hkalloc.bind fun r => ?_
      cases r with
      | none => exact .pure _
      | some page => exact .ite (.pure _) (ih _ _)

theorem sysExec_refs (h : RefsOk s) (hp : p < nproc) (hrun : (s.proc p).state = .runnable) (path : Option (List Fs.Byte))
    (argv : List (Option Nat)) (ended : Bool) : wp (sysExec p path argv ended) (fun _ => RefsOk) countFault s := by
  cases path with
  | none => exact wp_pure.mpr h
  | some path =>
    refine (fetchArgs_refs ended 32 argv [] s ⟨h, rfl⟩).bind ?_
    rintro ⟨fetched, pages⟩ s1 ⟨h1, hproc⟩
    have hfree : ∀ ret : Int, Preserves RefsOk countFault (do pages.forM fun page => onMem (Vm.kfree page); return ret) :=
      fun ret => (Preserves.forM fun _ _ => keepsRefs_onMem _).bind fun _ => .pure _
    dsimp only
    split
    next => exact (exec_refs h1 hp (hproc ▸ hrun) path _).bind fun ret s2 h2 => hfree ret s2 h2
    next => exact wp_bind.mpr (wp_pure.mpr (hfree _ s1 h1))

end ExecCall

end Xv6
