import Xv6.CallRefs

namespace Xv6

open Fs (put put_same put_ne put_eq_self)
open Vm (Table noFault)
open Count Prog Transition

section Steps

variable {kp : Base} {s : Kernel} {p : Nat}

theorem syscall_refs (h : RefsOk s) (hpages : PagesOk kp 0 s) (hrun : Running s p) (c : Call) :
    wp (syscall p c) (fun _ => RefsOk) countFault s := by
  obtain ⟨T, hT⟩ := hpages
  obtain ⟨hp, hstate⟩ := hrun
  cases c with
  | «open» path omode => exact sysOpen_refs h hp hstate path omode
  | write fd src n other => exact sysWrite_refs p fd src n other s h
  | link old new => exact sysLink_refs h hp hstate old new
  | unlink path => exact sysUnlink_refs h hp hstate path
  | mkdir path => exact fsCall_refs h hp hstate fun dir => Fs.mknod_refs dir path Fs.tDir 0 0
  | mknod path major minor => exact fsCall_refs h hp hstate fun dir => Fs.mknod_refs dir path Fs.tDevice major minor
  | chdir path => exact sysChdir_refs h hp hstate path
  | close fd => exact sysClose_refs h hp fd
  | dup fd => exact sysDup_refs h hp hstate fd
  | pipe fdarray => exact sysPipe_refs h hT hp hstate fdarray
  | fork => exact sysFork_refs h hp hstate
  | exec path argv ended => exact sysExec_refs h hp hstate path argv ended
  | exit => exact sysExit_refs h hp hstate
  | wait addr => exact sysWait_refs h addr
  | sbrk n => exact sysSbrk_refs h n

theorem step_refs {s' : Kernel} {ev : Ev} (h : RefsOk s) (hpages : PagesOk kp 0 s) (hstep : step s ev = some s') :
    RefsOk s' := by
  cases ev with
  | call p c =>
    simp only [step] at hstep
    split at hstep
    next hrun =>
      split at hstep
      next r s1 heq => exact Option.some.inj hstep ▸ (syscall_refs h hpages hrun c).of_ok heq
      next => cases hstep
    next => cases hstep
  | store p va i v =>
    simp only [step] at hstep
    split at hstep
    next =>
      split at hstep
      next r s1 heq => exact Option.some.inj hstep ▸ (keepsRefs_onMem _ s h).of_ok heq
      next => cases hstep
    next => cases hstep

theorem userinit_refs (h : RefsOk s) : wp userinit (fun _ => RefsOk) (fun _ => True) s := by
  unfold userinit
  refine wp.bind ((allocproc_refs h).mono (fun _ _ => id) fun _ _ => trivial) ?_
  rintro r s1 ⟨-, hsome⟩
  cases r with
  | none => exact wp_throw.mpr trivial
  | some np =>
    have h1 := hsome np rfl
    have h2 := BareProc.set (v := { s1.proc np with sz := Vm.pgsize }) h1 rfl rfl h1.2.used
    rw [wp_bind, wp_get, wp_bind, wp_onMem]
    refine wp_of_forall (fun _ mem => ?_) fun _ => trivial
    rw [wp_bind, wp_setProc]
    refine wp.bind ((onFs_refs (s := { s1 with mem := mem, proc := put s1.proc np { s1.proc np with sz := Vm.pgsize } })
      h2.1 (Fs.namei_refs 0 [47] 0)).mono (fun _ _ => id) fun _ _ => trivial) ?_
    rintro r s3 ⟨h3, -, hproc⟩
    cases r with
    | none => exact wp_throw.mpr trivial
    | some k =>
      rw [wp_bind, wp_get, wp_setProc]
      have h4 := h3.setProc (v := { s3.proc np with cwd := some k, state := .runnable }) h1.2.lt rfl (fun _ => rfl) nofun
      have hheld : (Fs.held 0 (some k) + mark (s3.proc np).cwd - mark (some k) : Nat → ℤ) = 0 := by
        rw [hproc, h2.2.bare.2, mark_none, mark_some]
        show 0 + one k + 0 - one k = 0
        abel
      rwa [hheld] at h4

theorem bare_refs (mc : Machine) (sb : Fs.Superblock) (disk : Fs.Disk) : RefsOk (mc.bare sb disk) where
  files := by
    have hfds : fdUses (mc.bare sb disk).proc = 0 := holders_none fun _ _ => rfl
    rw [hfds]
    rfl
  inodes := by
    have hinodes : inodeUses (mc.bare sb disk).file = 0 := holders_none fun _ _ => rfl
    have hcwds : cwdUses (mc.bare sb disk).proc = 0 := holders_none fun _ _ => rfl
    rw [hinodes, hcwds]
    rfl
  ends w := by
    have hends : endUses (mc.bare sb disk).file w = 0 := holders_none fun _ _ => rfl
    rw [hends]
    rfl
  live := nofun
  free _ _ := rfl
  bound _ h := absurd rfl h
  running _ _ := nofun
  idle _ _ _ := ⟨fun _ _ => rfl, rfl⟩

theorem boot_refs {mc : Machine} {sb : Fs.Superblock} {disk : Fs.Disk} {pages : List (KernelUse × Nat)} {s0 : Kernel}
    (hboot : boot mc.uses (mc.bare sb disk) = .ok (pages, s0)) : RefsOk s0 := by
  have hmem : ∀ {α : Type} (m : Vm.M α), Preserves RefsOk (fun _ => True) (onMem m) := fun m s hs =>
    (keepsRefs_onMem m s hs).mono (fun _ _ => id) fun _ _ => trivial
  have hwp : Preserves RefsOk (fun _ => True) (boot mc.uses) :=
    (hmem _).bind fun _ => (hmem _).bind fun _ => Preserves.bind (fun _ => userinit_refs) fun _ => .pure _
  exact (hwp _ (bare_refs mc sb disk)).of_ok hboot

end Steps

/-- An open file that is the write end, or the read end, of the pipe in page `pa`. -/
def PipeEnd (s : Kernel) (pa : Nat) (w : Bool) (f : Nat) : Prop :=
  f < nfile ∧ 0 < (s.file f).ref ∧ (s.file f).type = .pipe ∧ (s.file f).writable = w ∧ (s.file f).pipe = pa

/-- The reference counts say how often each object is in use. -/
structure ExactCounts (s : Kernel) : Prop where
  /-- a file is referred to by the descriptors of all processes -/
  files : ∀ f < nfile, (s.file f).ref = fdUses s.proc f
  /-- an inode is referred to by the open files and the current directories -/
  inodes : ∀ k, (s.fs.itable k).ref = inodeUses s.file k + cwdUses s.proc k
  pipes : ∀ pa, (s.pipe pa).isSome ↔ ∃ w f, PipeEnd s pa w f
  ends : ∀ pa pi, s.pipe pa = some pi → ∀ w, pi.isOpen w = true ↔ ∃ f, PipeEnd s pa w f
  /-- each end of a pipe is one file -/
  single : ∀ pa w f g, PipeEnd s pa w f → PipeEnd s pa w g → f = g
  /-- the page of a pipe is not free -/
  held : ∀ pa, (s.pipe pa).isSome → pa ∉ s.mem.freelist

theorem endOf_eq_some {v : File} {w : Bool} {pa : Nat} :
    endOf w v = some pa ↔ 0 < v.ref ∧ v.type = .pipe ∧ v.writable = w ∧ v.pipe = pa := by
  simp only [endOf, Option.ite_none_right_eq_some, Option.some.injEq, and_assoc]

theorem RefInv.isOpen_iff {s : Kernel} (h : RefsOk s) (pa : Nat) (w : Bool) :
    (s.pipe pa).any (·.isOpen w) = true ↔ ∃ f, PipeEnd s pa w f := by
  have hend := congrFun (h.ends w) pa
  simp only [openEnds, Pi.zero_apply, add_zero, endUses] at hend
  constructor
  · intro hopen
    rw [if_pos hopen] at hend
    obtain ⟨f, hf, hx⟩ := exists_of_holders_pos (hend ▸ Int.one_pos)
    exact ⟨f, Finset.mem_range.mp hf, endOf_eq_some.mp hx⟩
  · rintro ⟨f, hf, hx⟩
    have hpos := holders_pos (h := fun f => endOf w (s.file f)) (Finset.mem_range.mpr hf) (endOf_eq_some.mpr hx)
    by_contra hclosed
    rw [if_neg hclosed] at hend
    omega

theorem exactCounts {kp : Base} {s : Kernel} (h : RefsOk s) (hpages : PagesOk kp 0 s) : ExactCounts s where
  files f _ := by
    have hf := congrFun h.files f
    rwa [add_zero] at hf
  inodes k := by
    have hk := congrFun h.inodes k
    rwa [add_zero] at hk
  pipes pa := by
    constructor
    · intro hsome
      obtain ⟨pi, hpi⟩ := Option.isSome_iff_exists.mp hsome
      rcases h.live pa pi hpi with hr | hw
      · exact ⟨false, (RefInv.isOpen_iff h pa false).mp (by rw [hpi]; exact hr)⟩
      · exact ⟨true, (RefInv.isOpen_iff h pa true).mp (by rw [hpi]; exact hw)⟩
    · rintro ⟨w, hf⟩
      have hany := (RefInv.isOpen_iff h pa w).mpr hf
      cases hpi : s.pipe pa with
      | none => simp [hpi] at hany
      | some pi => rfl
  ends pa pi hpi w := by
    have hiff := RefInv.isOpen_iff h pa w
    rwa [hpi, Option.any_some] at hiff
  single pa w f g hf hg := by
    have hend := congrFun (h.ends w) pa
    simp only [openEnds, Pi.zero_apply, add_zero, endUses] at hend
    refine holders_eq_of_le_one (h := fun f => endOf w (s.file f)) ?_
      (Finset.mem_range.mpr hf.1) (Finset.mem_range.mpr hg.1) (endOf_eq_some.mpr hf.2)
      (endOf_eq_some.mpr hg.2)
    rw [← hend]
    split <;> decide
  held pa hsome hfree := by
    obtain ⟨T, hT⟩ := hpages
    have htotal := hT.ledger.total pa
    have hle := s.mem.inRange_le_one pa
    have hcount : 0 < s.mem.freelist.count pa := List.count_pos_iff.mpr hfree
    have h1 := tablePages_nonneg T pa
    have h2 := holders_nonneg (Finset.range nproc) (fun p => trapframePage (s.proc p)) pa
    have h3 := hT.kernel pa
    simp only [inUse, Pi.add_apply, Pi.zero_apply, pipePages, hsome, if_true] at htotal
    omega

variable {mc : Machine} {sb : Fs.Superblock} {disk : Fs.Disk} {pages : List (KernelUse × Nat)} {s0 s : Kernel}
  {evs : List Ev}

/-- At every system-call boundary the reference counts are exact, and no call of any process then panics
on a count or uses a pipe that is already freed. -/
theorem reference_counts_exact (hboot : boot mc.uses (mc.bare sb disk) = .ok (pages, s0)) (hrun : Run step s0 evs s) :
    ExactCounts s ∧ ∀ p c msg, Running s p → syscall p c s = .error (.kernel (.panic msg)) →
      msg ∉ ["filedup", "fileclose", "pipeclose", "cwd"] := by
  have hpages := run_pages hboot hrun
  have h : RefsOk s := Run.invariant (P := fun _ s => RefsOk s) (boot_refs hboot)
    (fun hprev h hstep => step_refs h (run_pages hboot hprev) hstep) hrun
  exact ⟨exactCounts h hpages, fun p c msg hp herr => (syscall_refs h hpages hp c).of_error herr⟩

theorem smallMachine_reference_counts : ∃ pages s0 s, smallBoot = .ok (pages, s0) ∧ Run step s0 smallRun s ∧
    ExactCounts s := by
  obtain ⟨pages, s0, s, hboot, hrun, -⟩ := exists_run smallRun_ok
  exact ⟨pages, s0, s, hboot, hrun, (reference_counts_exact hboot hrun).1⟩

/-! ### sysinfo -/

/-- `struct sysinfo` -/
structure Sysinfo where
  freemem : Int
  nproc : Nat
  nopenfiles : Nat

/-- `nproc()`: the slots that are not `UNUSED`. -/
def Kernel.nproc (s : Kernel) : Nat := (List.range Xv6.nproc).countP fun p => (s.proc p).state ≠ .unused

def Kernel.fileopencount (s : Kernel) : Nat := (List.range nfile).countP fun f => 0 < (s.file f).ref

/-- The `info` that `sysinfo` copies out. -/
def Kernel.sysinfo (s : Kernel) : Sysinfo := ⟨Vm.freemem s.mem, s.nproc, s.fileopencount⟩

theorem countP_range_eq_ncard {n : Nat} {p : Nat → Bool} : (List.range n).countP p = {x | x < n ∧ p x = true}.ncard := by
  have hset : {x | x < n ∧ p x = true} = ((List.range n).filter p).toFinset := by
    ext x
    simp
  rw [hset, Set.ncard_coe_finset, List.toFinset_card_of_nodup (List.nodup_range.filter p), List.countP_eq_length_filter]

theorem RefInv.referenced_iff {s : Kernel} (h : RefsOk s) (f : Nat) :
    (∃ p < nproc, ∃ fd < nofile, (s.proc p).ofile fd = some f) ↔ f < nfile ∧ 0 < (s.file f).ref := by
  have hf := congrFun h.files f
  rw [add_zero] at hf
  constructor
  · rintro ⟨p, hp, fd, hfd, hx⟩
    have hpos : 0 < (s.file f).ref := hf ▸ holders_pos (h := fun i : Nat × Nat => (s.proc i.1).ofile i.2)
      (i := (p, fd)) (mem_grid.mpr ⟨hp, hfd⟩) hx
    exact ⟨h.bound f hpos.ne', hpos⟩
  · rintro ⟨-, hpos⟩
    rw [hf] at hpos
    obtain ⟨i, hi, hx⟩ := exists_of_holders_pos hpos
    exact ⟨i.1, (mem_grid.mp hi).1, i.2, (mem_grid.mp hi).2, hx⟩

/-- At every system-call boundary `sysinfo` reports the bytes on the free list, without overflow, the number of
processes, and the number of files that some descriptor of some process refers to. -/
theorem sysinfo_exact (hboot : boot mc.uses (mc.bare sb disk) = .ok (pages, s0)) (hrun : Run step s0 evs s) :
    s.sysinfo.freemem = 4096 * s.mem.freelist.length ∧
      s.sysinfo.nproc = {p | p < nproc ∧ (s.proc p).state ≠ .unused}.ncard ∧
      s.sysinfo.nopenfiles = {f | ∃ p < nproc, ∃ fd < nofile, (s.proc p).ofile fd = some f}.ncard := by
  obtain ⟨T, hT⟩ := run_pages hboot hrun
  refine ⟨by simp only [Kernel.sysinfo, freemem_eq hT], by simp [Kernel.sysinfo, Kernel.nproc, countP_range_eq_ncard], ?_⟩
  have hrefs : RefsOk s := Run.invariant (P := fun _ s => RefsOk s) (boot_refs hboot)
    (fun hprev h hstep => step_refs h (run_pages hboot hprev) hstep) hrun
  simp only [RefInv.referenced_iff hrefs]
  simp [Kernel.sysinfo, Kernel.fileopencount, countP_range_eq_ncard]

theorem smallMachine_sysinfo : ∃ pages s0 s, smallBoot = .ok (pages, s0) ∧ Run step s0 smallRun s ∧
    s.sysinfo.nopenfiles = {f | ∃ p < nproc, ∃ fd < nofile, (s.proc p).ofile fd = some f}.ncard := by
  obtain ⟨pages, s0, s, hboot, hrun, -⟩ := exists_run smallRun_ok
  exact ⟨pages, s0, s, hboot, hrun, (sysinfo_exact hboot hrun).2.2⟩

end Xv6
