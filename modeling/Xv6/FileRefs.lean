import Xv6.InodeRefs
import Xv6.KernelPages

namespace Xv6

open Fs (put put_same put_ne put_eq_self)
open Vm (Table noFault)
open Count Prog Option

def inodeOf (v : File) : Option Nat := if 0 < v.ref ∧ (v.type = .inode ∨ v.type = .device) then some v.ip else none

def endOf (w : Bool) (v : File) : Option Nat := if 0 < v.ref ∧ v.type = .pipe ∧ v.writable = w then some v.pipe else none

def Pipe.isOpen (pi : Pipe) (w : Bool) : Bool := if w then pi.writeopen else pi.readopen

def fdUses (proc : Nat → Proc) : Nat → ℤ := holders (grid nproc nofile) fun i => (proc i.1).ofile i.2

def cwdUses (proc : Nat → Proc) : Nat → ℤ := holders (Finset.range nproc) fun p => (proc p).cwd

def inodeUses (file : Nat → File) : Nat → ℤ := holders (Finset.range nfile) fun f => inodeOf (file f)

def endUses (file : Nat → File) (w : Bool) : Nat → ℤ := holders (Finset.range nfile) fun f => endOf w (file f)

def openEnds (pipe : Nat → Option Pipe) (w : Bool) (pa : Nat) : ℤ := if (pipe pa).any (·.isOpen w) then 1 else 0

/-- Every reference is counted. The call in progress holds the references `d` to files and `e` to
inodes, and the ends `c` of pipes; a negative number is a reference that it has given up while its
slot still names the object. -/
structure RefInv (d e : Nat → ℤ) (c : Bool → Nat → ℤ) (refs : Nat → ℤ) (file : Nat → File) (pipe : Nat → Option Pipe)
    (proc : Nat → Proc) : Prop where
  files : (fun f => (file f).ref) = fdUses proc + d
  inodes : refs = inodeUses file + cwdUses proc + e
  ends : ∀ w, openEnds pipe w = endUses file w + c w
  live : ∀ pa pi, pipe pa = some pi → pi.readopen ∨ pi.writeopen
  free : ∀ f, (file f).ref = 0 → (file f).type = .none
  bound : ∀ f, (file f).ref ≠ 0 → f < nfile
  running : ∀ p < nproc, (proc p).state = .runnable → (proc p).cwd.isSome
  idle : ∀ p < nproc, (proc p).state = .unused ∨ (proc p).state = .zombie →
    (∀ fd < nofile, (proc p).ofile fd = none) ∧ (proc p).cwd = none

abbrev RefsAt (d e : Nat → ℤ) (c : Bool → Nat → ℤ) (s : Kernel) : Prop :=
  RefInv d e c (Fs.refs s.fs) s.file s.pipe s.proc

/-- Faults other than those of a wrong reference count: the panics of `filedup` and `fileclose`, a
pipe that is already freed, a running process without a directory. -/
def countFault : KFault → Prop
  | .kernel (.panic msg) => msg ∉ ["filedup", "fileclose", "pipeclose", "cwd"]
  | _ => True

section Tables

variable {d e refs : Nat → ℤ} {c : Bool → Nat → ℤ} {file : Nat → File} {pipe : Nat → Option Pipe} {proc : Nat → Proc}
  {p f fd : Nat} {proc' : Nat → Proc} {v : Proc}

theorem inodeOf_none {v : File} (h : v.type = .none) : inodeOf v = none := by simp [inodeOf, h]

theorem endOf_none {v : File} (w : Bool) (h : v.type = .none) : endOf w v = none := by simp [endOf, h]

theorem fdUses_put {o : Option Nat} (hp : p < nproc) (hfd : fd < nofile)
    (hv : v.ofile = put (proc p).ofile fd o) :
    fdUses (put proc p v) = fdUses proc - mark ((proc p).ofile fd) + mark o := by
  have hchange := holders_change (h := fun i : Nat × Nat => (proc i.1).ofile i.2)
    (g := fun i => (put proc p v i.1).ofile i.2) (mem_grid.mpr ⟨hp, hfd⟩) ?_
  · simp only [put_same, hv] at hchange
    exact hchange
  · rintro ⟨q, fd'⟩ - hne
    by_cases hq : q = p
    · subst hq
      have hfd' : fd' ≠ fd := fun heq => hne (heq ▸ rfl)
      simp only [put_same, hv, put_ne _ _ _ hfd']
    · simp only [put_ne _ _ _ hq]

theorem fdUses_congr (h : ∀ p, (proc' p).ofile = (proc p).ofile) :
    fdUses proc' = fdUses proc := holders_congr fun i _ => by simp only [h i.1]

theorem cwdUses_congr (h : ∀ p, (proc' p).cwd = (proc p).cwd) :
    cwdUses proc' = cwdUses proc := holders_congr fun p _ => h p

theorem cwdUses_put (hp : p < nproc) :
    cwdUses (put proc p v) = cwdUses proc - mark (proc p).cwd + mark v.cwd := by
  have hchange := holders_change (h := fun q => (proc q).cwd) (g := fun q => (put proc p v q).cwd)
    (Finset.mem_range.mpr hp) fun q _ hq => by simp only [put_ne _ _ _ hq]
  simp only [put_same] at hchange
  exact hchange

theorem fileUses_put {g : File → Option Nat} {v : File} (hf : f < nfile) :
    (holders (Finset.range nfile) fun i => g (put file f v i)) =
      (holders (Finset.range nfile) fun i => g (file i)) - mark (g (file f)) + mark (g v) := by
  have hchange := holders_change (h := fun i => g (file i)) (g := fun i => g (put file f v i))
    (Finset.mem_range.mpr hf) fun i _ hi => by simp only [put_ne _ _ _ hi]
  simp only [put_same] at hchange
  exact hchange

theorem forall_put {α : Type} {F : Nat → α} {k n : Nat} {v : α} {P : α → Prop} (h : ∀ i < n, P (F i)) (hv : P v) :
    ∀ i < n, P (put F k v i) := by
  intro i hi
  by_cases hik : i = k
  · rwa [hik, put_same]
  · rw [put_ne _ _ _ hik]
    exact h i hi

theorem RefInv.setFile {v : File} (h : RefInv d e c refs file pipe proc) (hf : f < nfile)
    (hfree : v.ref = 0 → v.type = .none) :
    RefInv (d + Pi.single f (v.ref - (file f).ref)) (e + mark (inodeOf (file f)) - mark (inodeOf v))
      (fun w => c w + mark (endOf w (file f)) - mark (endOf w v)) refs (put file f v) pipe proc where
  files := by
    funext g
    have hg := congrFun h.files g
    simp only [Pi.add_apply] at hg ⊢
    by_cases hgf : g = f
    · subst hgf
      simp only [put_same, Pi.single_eq_same]
      omega
    · simp only [put_ne _ _ _ hgf, Pi.single_eq_of_ne hgf]
      omega
  inodes := by
    rw [h.inodes, inodeUses, inodeUses, fileUses_put hf]
    abel
  ends w := by
    rw [h.ends, endUses, endUses, fileUses_put hf]
    abel
  live := h.live
  free g := by
    by_cases hgf : g = f
    · rwa [hgf, put_same]
    · rw [put_ne _ _ _ hgf]
      exact h.free g
  bound g := by
    by_cases hgf : g = f
    · exact fun _ => hgf ▸ hf
    · rw [put_ne _ _ _ hgf]
      exact h.bound g
  running := h.running
  idle := h.idle

theorem RefInv.setFd {o : Option Nat} (h : RefInv d e c refs file pipe proc) (hp : p < nproc) (hfd : fd < nofile)
    (hbusy : o = none ∨ (proc p).state = .used ∨ (proc p).state = .runnable) :
    RefInv (d + mark ((proc p).ofile fd) - mark o) e c refs file pipe
      (put proc p { proc p with ofile := put (proc p).ofile fd o }) where
  files := by
    rw [h.files, fdUses_put hp hfd rfl]
    abel
  inodes := by
    rw [h.inodes, cwdUses_put hp]
    abel
  ends := h.ends
  live := h.live
  free := h.free
  bound := h.bound
  running := forall_put (P := fun v : Proc => v.state = .runnable → v.cwd.isSome) h.running (h.running p hp)
  idle := by
    refine forall_put (P := fun v : Proc => v.state = .unused ∨ v.state = .zombie →
      (∀ fd < nofile, v.ofile fd = none) ∧ v.cwd = none) h.idle fun hstate => ?_
    obtain ⟨hfds, hdir⟩ := h.idle p hp hstate
    refine ⟨forall_put (P := fun o => o = none) hfds ?_, hdir⟩
    rcases hbusy with rfl | hused | hrun
    · rfl
    · simp [hused] at hstate
    · simp [hrun] at hstate

section
variable {v : Proc} (h : RefInv d e c refs file pipe proc) (hp : p < nproc) (hofile : v.ofile = (proc p).ofile)
include h hp hofile

theorem RefInv.setProc (hrun : v.state = .runnable → v.cwd.isSome)
    (hidle : v.state = .unused ∨ v.state = .zombie → (∀ fd < nofile, v.ofile fd = none) ∧ v.cwd = none) :
    RefInv d (e + mark (proc p).cwd - mark v.cwd) c refs file pipe (put proc p v) where
  files := by
    rw [h.files, fdUses_congr]
    intro q
    by_cases hq : q = p
    · rw [hq, put_same, hofile]
    · rw [put_ne _ _ _ hq]
  inodes := by
    rw [h.inodes, cwdUses_put hp]
    abel
  ends := h.ends
  live := h.live
  free := h.free
  bound := h.bound
  running := forall_put (P := fun v : Proc => v.state = .runnable → v.cwd.isSome) h.running hrun
  idle := forall_put (P := fun v : Proc => v.state = .unused ∨ v.state = .zombie →
      (∀ fd < nofile, v.ofile fd = none) ∧ v.cwd = none) h.idle hidle

theorem RefInv.keepProc (hcwd : v.cwd = (proc p).cwd) (hrun : v.state = .runnable → v.cwd.isSome)
    (hidle : v.state = .unused ∨ v.state = .zombie → (∀ fd < nofile, v.ofile fd = none) ∧ v.cwd = none) :
    RefInv d e c refs file pipe (put proc p v) := by
  have hset := h.setProc hp hofile hrun hidle
  rwa [hcwd, add_sub_cancel_right] at hset

end

section
variable (h : RefInv d e c refs file pipe proc)
include h

theorem RefInv.congr
    (hsame : ∀ q, (proc' q).ofile = (proc q).ofile ∧ (proc' q).cwd = (proc q).cwd ∧ (proc' q).state = (proc q).state) :
    RefInv d e c refs file pipe proc' where
  files := by rw [h.files, fdUses_congr fun q => (hsame q).1]
  inodes := by rw [h.inodes, cwdUses_congr fun q => (hsame q).2.1]
  ends := h.ends
  live := h.live
  free := h.free
  bound := h.bound
  running q hq := by
    rw [(hsame q).2.1, (hsame q).2.2]
    exact h.running q hq
  idle q hq := by
    rw [(hsame q).1, (hsame q).2.1, (hsame q).2.2]
    exact h.idle q hq

theorem RefInv.congr_put
    (hsame : v.ofile = (proc p).ofile ∧ v.cwd = (proc p).cwd ∧ v.state = (proc p).state) :
    RefInv d e c refs file pipe (put proc p v) := by
  refine h.congr fun q => ?_
  by_cases hq : q = p
  · rwa [hq, put_same]
  · rw [put_ne _ _ _ hq]
    exact ⟨rfl, rfl, rfl⟩

theorem RefInv.ref_pos_of_fd (hd : 0 ≤ d f) (hp : p < nproc) (hfd : fd < nofile)
    (hf : (proc p).ofile fd = some f) : 1 ≤ (file f).ref := by
  have huse := holders_pos (h := fun i : Nat × Nat => (proc i.1).ofile i.2) (mem_grid.mpr ⟨hp, hfd⟩) hf
  have hfile := congrFun h.files f
  simp only [Pi.add_apply, fdUses] at hfile
  omega

theorem RefInv.ref_pos_of_held (hd : 1 ≤ d f) : 1 ≤ (file f).ref := by
  have huse := holders_nonneg (grid nproc nofile) (fun i => (proc i.1).ofile i.2) f
  have hfile := congrFun h.files f
  simp only [Pi.add_apply, fdUses] at hfile
  omega

end

end Tables

section Files

variable {d e : Nat → ℤ} {c : Bool → Nat → ℤ} {s : Kernel} {p f fd : Nat} {pipe : Nat → Option Pipe} {pa : Nat} {w : Bool} {n : ℤ}

theorem onFs_refs {α : Type} {m : Fs.M α} {g : α → Nat → ℤ} (h : RefsAt d e c s) (hm : Fs.Refs e m g) :
    wp (onFs m) (fun a t => RefsAt d (g a) c t ∧ t.file = s.file ∧ t.proc = s.proc) countFault s := by
  rw [wp_onFs]
  refine (hm _ _ h.inodes).mono (fun a fs hfs => ⟨?_, rfl, rfl⟩) fun _ _ => trivial
  exact { h with inodes := hfs }

theorem onMem_refs {α : Type} {m : Vm.M α} (h : RefsAt d e c s) :
    wp (onMem m) (fun _ t => RefsAt d e c t ∧ t.file = s.file ∧ t.proc = s.proc) countFault s :=
  wp_onMem.mpr (wp_of_forall (fun _ _ => ⟨h, rfl, rfl⟩) fun _ => trivial)

structure NewFile (f : Nat) (s t : Kernel) : Prop where
  lt : f < nfile
  closed : (s.file f).ref = 0
  ref : (t.file f).ref = 1
  type : (t.file f).type = .none
  others : ∀ g, g ≠ f → t.file g = s.file g
  mem : t.mem = s.mem
  pipe : t.pipe = s.pipe
  proc : t.proc = s.proc

theorem keepsRefs_onFs {α : Type} {m : Fs.M α} (hm : Fs.KeepsRefs m) : Preserves (RefsAt d e c) countFault (onFs m) :=
  fun _ h => (onFs_refs h (hm e)).mono (fun _ _ ht => ht.1) fun _ => id

theorem keepsRefs_onMem {α : Type} (m : Vm.M α) : Preserves (RefsAt d e c) countFault (onMem m) :=
  fun _ h => (onMem_refs h).mono (fun _ _ ht => ht.1) fun _ => id

theorem filealloc_refs (h : RefsAt d e c s) :
    wp filealloc (fun r t => (r = none → t = s) ∧ ∀ f, r = some f → RefsAt (d + one f) e c t ∧ NewFile f s t)
      countFault s := by
  unfold filealloc
  rw [wp_bind, wp_get]
  split
  next => exact wp_pure.mpr ⟨fun _ => rfl, (by rintro _ ⟨⟩)⟩
  next f hfind =>
    have hf : f < nfile := List.mem_range.mp (List.mem_of_find?_eq_some hfind)
    have hzero : (s.file f).ref = 0 := by simpa using List.find?_some hfind
    have htype := h.free f hzero
    rw [wp_bind, wp_setFile, wp_pure]
    refine ⟨(by rintro ⟨⟩), fun g hg => ?_⟩
    obtain rfl := some.inj hg
    refine ⟨?_, hf, hzero, by simp, by simpa using htype, fun g hg => put_ne _ _ _ hg, rfl, rfl, rfl⟩
    have hset := h.setFile (v := { s.file f with ref := 1 }) hf (by simp)
    rw [inodeOf_none htype, inodeOf_none (by exact htype)] at hset
    simp only [endOf_none _ htype, endOf_none (v := { s.file f with ref := 1 }) _ htype, hzero] at hset
    simpa using hset

theorem inodeOf_ref {v : File} (hv : 1 ≤ v.ref) (hn : 1 ≤ n) : inodeOf { v with ref := n } = inodeOf v := by
  have h1 : 0 < v.ref := hv
  have h2 : 0 < n := hn
  simp only [inodeOf, h1, h2, true_and]

theorem endOf_ref {v : File} (w : Bool) (hv : 1 ≤ v.ref) (hn : 1 ≤ n) : endOf w { v with ref := n } = endOf w v := by
  have h1 : 0 < v.ref := hv
  have h2 : 0 < n := hn
  simp only [endOf, h1, h2, true_and]

theorem RefInv.setRef {refs : Nat → ℤ} {file : Nat → File} {proc : Nat → Proc}
    (h : RefInv d e c refs file pipe proc) (hpos : 1 ≤ (file f).ref) (hn : 1 ≤ n) :
    RefInv (d + Pi.single f (n - (file f).ref)) e c refs (put file f { file f with ref := n }) pipe proc := by
  have hset := h.setFile (v := { file f with ref := n }) (h.bound f (by omega)) fun h0 => by
    have h0 : n = 0 := h0
    omega
  rw [inodeOf_ref hpos hn] at hset
  simp only [endOf_ref _ hpos hn] at hset
  simpa using hset

theorem filedup_refs (h : RefsAt d e c s) (hpos : 1 ≤ (s.file f).ref) :
    wp (filedup f) (fun _ t => RefsAt (d + one f) e c t ∧ t.proc = s.proc) countFault s := by
  unfold filedup
  rw [wp_bind, wp_get, if_neg (by omega), wp_setFile]
  refine ⟨?_, rfl⟩
  have hset := h.setRef (n := (s.file f).ref + 1) hpos (by omega)
  simpa using hset

def oneEnd (w : Bool) (pa : Nat) (w' : Bool) : Nat → ℤ := if w' = w then one pa else 0

theorem Pipe.isOpen_closeEnd (pi : Pipe) (w w' : Bool) : (pi.closeEnd w).isOpen w' = (pi.isOpen w' && w' != w) := by
  cases w <;> cases w' <;> simp [Pipe.isOpen, Pipe.closeEnd]

theorem openEnds_close {pi : Pipe} {o : Option Pipe} (hpi : pipe pa = some pi)
    (hopen : pi.isOpen w) (ho : ∀ w', o.any (·.isOpen w') = (pi.isOpen w' && w' != w)) (w' : Bool) :
    openEnds (put pipe pa o) w' + oneEnd w pa w' = openEnds pipe w' := by
  funext x
  simp only [openEnds, oneEnd, Pi.add_apply]
  by_cases hx : x = pa
  · subst hx
    rw [put_same, ho, hpi]
    by_cases hw : w' = w
    · subst hw
      simp [hopen]
    · simp [hw]
  · rw [put_ne _ _ _ hx]
    by_cases hw : w' = w <;> simp [hw, hx]

theorem pipeclose_refs (h : RefsAt d e (oneEnd w pa) s) :
    wp (pipeclose pa w) (fun _ t => RefsAt d e 0 t ∧ t.proc = s.proc ∧ t.file = s.file) countFault s := by
  obtain ⟨pi, hpi, hopen⟩ : ∃ pi, s.pipe pa = some pi ∧ pi.isOpen w := by
    have hend := congrFun (h.ends w) pa
    have hnn := holders_nonneg (Finset.range nfile) (fun f => endOf w (s.file f)) pa
    simp only [Pi.add_apply, openEnds, oneEnd, if_true, endUses, one_apply] at hend
    cases hpipe : s.pipe pa with
    | none =>
      simp only [hpipe, any_none] at hend
      exact absurd hend (by simp; omega)
    | some pi =>
      refine ⟨pi, rfl, ?_⟩
      by_contra hclosed
      simp only [hpipe, any_some, if_neg hclosed] at hend
      omega
  have hends : ∀ o : Option Pipe, (∀ w', o.any (·.isOpen w') = (pi.isOpen w' && w' != w)) → ∀ w',
      openEnds (put s.pipe pa o) w' = endUses s.file w' + (0 : Bool → Nat → ℤ) w' := by
    intro o ho w'
    have hclose := openEnds_close hpi hopen ho w'
    rw [h.ends w'] at hclose
    rw [Pi.zero_apply, add_zero]
    exact add_right_cancel hclose
  unfold pipeclose
  rw [wp_bind, wp_get]
  simp only [hpi]
  split
  next hdead =>
    rw [wp_bind, wp_setPipe]
    have h' : RefsAt d e 0 { s with pipe := put s.pipe pa none } := by
      refine { h with ends := hends none fun w' => ?_, live := fun x v hv => ?_ }
      · rw [← Pipe.isOpen_closeEnd]
        simp only [Bool.not_eq_true', Pipe.isOpen] at hdead ⊢
        cases w' <;> simp [hdead]
      · by_cases hx : x = pa
        · simp [hx] at hv
        · exact h.live x v ((put_ne _ _ _ hx).symm.trans hv)
    refine (onMem_refs h').mono ?_ fun _ => id
    rintro _ t ⟨ht, hfile, hproc⟩
    exact ⟨ht, hproc, hfile⟩
  next hlive =>
    rw [wp_setPipe]
    refine ⟨{ h with ends := hends _ fun w' => ?_, live := fun x v hv => ?_ }, rfl, rfl⟩
    · rw [any_some, Pipe.isOpen_closeEnd]
    · by_cases hx : x = pa
      · have hv : some (pi.closeEnd w) = some v := by simpa only [hx, put_same] using hv
        rw [← some.inj hv]
        by_contra hnone
        exact hlive (by simpa using hnone)
      · exact h.live x v ((put_ne _ _ _ hx).symm.trans hv)

theorem onFs_bind {α β : Type} (m : Fs.M α) (g : α → Fs.M β) : onFs (m >>= g) = onFs m >>= fun a => onFs (g a) := by
  funext s
  show onFs (StateT.bind m g) s = StateT.bind (onFs m) (fun a => onFs (g a)) s
  unfold onFs StateT.bind
  cases hm : m s.fs <;> simp only [hm] <;> rfl

theorem dropInode_refs {k : Nat} (h : RefsAt d (e + one k) c s) :
    wp (do onFs Fs.beginOp; onFs (Fs.iput k); onFs Fs.endOp) (fun _ t => RefsAt d e c t ∧ t.file = s.file ∧ t.proc = s.proc)
      countFault s := by
  have hm : Fs.Refs (e + one k) (do Fs.beginOp; Fs.iput k; Fs.endOp) fun _ => e := by
    refine (Fs.beginOp_refs _).bind fun _ => (Fs.iput_refs k _).bind fun _ => ?_
    rw [add_sub_cancel_right]
    exact Fs.endOp_refs e
  have hone := onFs_refs h hm
  simpa only [onFs_bind] using hone

theorem fileclose_refs (h : RefsAt (d + one f) e 0 s) (hpos : 1 ≤ (s.file f).ref) :
    wp (fileclose f) (fun _ t => RefsAt d e 0 t ∧ t.proc = s.proc) countFault s := by
  unfold fileclose
  rw [wp_bind, wp_get]
  simp only
  rw [if_neg (by omega)]
  split
  next hmore =>
    rw [wp_setFile]
    have hset := h.setRef (n := (s.file f).ref - 1) hpos (by omega)
    refine ⟨?_, rfl⟩
    have hd : d + one f + Pi.single f ((s.file f).ref - 1 - (s.file f).ref) = d := by
      rw [show (s.file f).ref - 1 - (s.file f).ref = -1 by omega, Pi.single_neg]
      exact add_neg_cancel_right d _
    rwa [hd] at hset
  next hlast =>
    have href : (s.file f).ref = 1 := by omega
    rw [wp_bind, wp_setFile]
    have hset := h.setFile (v := { s.file f with ref := 0, type := .none }) (h.bound f (by omega)) fun _ => rfl
    have hd : d + one f + Pi.single f (0 - (s.file f).ref) = d := by
      rw [href, show (0 : ℤ) - 1 = -1 by omega, Pi.single_neg]
      exact add_neg_cancel_right d _
    simp only [inodeOf_none (v := { s.file f with ref := 0, type := .none }) rfl,
      endOf_none (v := { s.file f with ref := 0, type := .none }) _ rfl, mark_none, sub_zero, Pi.zero_apply, zero_add] at hset
    rw [hd] at hset
    cases htype : (s.file f).type with
    | none =>
      rw [inodeOf_none htype] at hset
      simp only [endOf_none _ htype, mark_none, add_zero] at hset
      exact wp_pure.mpr ⟨hset, rfl⟩
    | pipe =>
      have hino : inodeOf (s.file f) = none := by simp [inodeOf, htype]
      have hend : (fun w => mark (endOf w (s.file f))) = oneEnd (s.file f).writable (s.file f).pipe := by
        funext w
        simp only [endOf, href, htype, oneEnd]
        by_cases hw : w = (s.file f).writable
        · simp [hw]
        · simp [hw, Ne.symm hw]
      rw [hino, hend, mark_none, add_zero] at hset
      exact (pipeclose_refs hset).mono (fun _ t ht => ⟨ht.1, ht.2.1⟩) fun _ => id
    | inode | device =>
      have hino : inodeOf (s.file f) = some (s.file f).ip := by simp [inodeOf, href, htype]
      have hend : ∀ w, endOf w (s.file f) = none := fun w => by simp [endOf, htype]
      simp only [hino, hend, mark_some, mark_none] at hset
      refine (dropInode_refs hset).mono ?_ fun _ => id
      rintro _ t ⟨ht, -, hproc⟩
      exact ⟨ht, hproc⟩

section
variable {refs : Nat → ℤ} {file : Nat → File} {pipe : Nat → Option Pipe} {proc : Nat → Proc} {v : File}

theorem RefInv.setEnd
    (h : RefInv d e (c + oneEnd w pa) refs file pipe proc) (hf : f < nfile) (hclosed : (file f).type = .none)
    (href : v.ref = (file f).ref) (hpos : 1 ≤ v.ref) (hv : v.type = .pipe) (hw : v.writable = w) (hpa : v.pipe = pa) :
    RefInv d e c refs (put file f v) pipe proc := by
  have hset := h.setFile (v := v) hf fun h0 => by omega
  have hino : inodeOf v = none := by simp [inodeOf, hv]
  have hpos' : 0 < v.ref := hpos
  have hends : (fun w' => (c + oneEnd w pa) w' + mark (endOf w' (file f)) - mark (endOf w' v)) = c := by
    funext w'
    rw [endOf_none w' hclosed]
    simp only [Pi.add_apply, oneEnd, endOf, hpos', hv, hw, hpa, true_and, mark_none, add_zero]
    by_cases hww : w' = w
    · simp [hww]
    · simp [hww, Ne.symm hww]
  rw [hino, inodeOf_none hclosed, hends, href, sub_self, Pi.single_zero] at hset
  simpa using hset

theorem RefInv.setInode {k : Nat}
    (h : RefInv d (e + one k) c refs file pipe proc) (hf : f < nfile) (hclosed : (file f).type = .none)
    (href : v.ref = (file f).ref) (hpos : 1 ≤ v.ref) (hv : v.type = .inode ∨ v.type = .device) (hip : v.ip = k) :
    RefInv d e c refs (put file f v) pipe proc := by
  have hset := h.setFile (v := v) hf fun h0 => by omega
  have hino : inodeOf v = some k := by rw [inodeOf, if_pos ⟨hpos, hv⟩, hip]
  have hends : ∀ w, endOf w v = none := fun w => by rcases hv with hv | hv <;> simp [endOf, hv]
  simp only [hino, hends, inodeOf_none hclosed, endOf_none _ hclosed, href, sub_self, Pi.single_zero, mark_none,
    mark_some, add_zero, sub_zero, add_sub_cancel_right] at hset
  exact hset

end

theorem openEnds_open (hpi : pipe pa = none) (w : Bool) :
    openEnds (put pipe pa (some ⟨true, true⟩)) w = openEnds pipe w + one pa := by
  funext x
  simp only [openEnds, Pi.add_apply]
  by_cases hx : x = pa
  · subst hx
    cases w <;> simp [hpi, Pipe.isOpen]
  · simp [hx]

theorem pipealloc_refs {kp : Base} {T : Nat → Option Table} (h : RefsAt d e 0 s) (hpages : PagesAt kp T 0 s)
    (hd : ∀ x, 0 ≤ d x) :
    wp pipealloc (fun r t => t.proc = s.proc ∧ (r = none → RefsAt d e 0 t) ∧
      ∀ x, r = some x → RefsAt (d + one x.2 + one x.1) e 0 t) countFault s := by
  unfold pipealloc
  refine (filealloc_refs h).bind ?_
  rintro r0 s0 ⟨hnone0, hsome0⟩
  cases r0 with
  | none =>
    obtain rfl := hnone0 rfl
    exact wp_pure.mpr ⟨rfl, fun _ => h, (by rintro _ ⟨⟩)⟩
  | some f0 =>
    obtain ⟨h0, hnew0⟩ := hsome0 f0 rfl
    refine (filealloc_refs h0).bind ?_
    rintro r1 s1 ⟨hnone1, hsome1⟩
    cases r1 with
    | none =>
      obtain rfl := hnone1 rfl
      refine (fileclose_refs h0 hnew0.ref.ge).bind ?_
      rintro _ s1 ⟨h1, hproc⟩
      exact wp_pure.mpr ⟨hproc.trans hnew0.proc, fun _ => h1, (by rintro _ ⟨⟩)⟩
    | some f1 =>
      obtain ⟨h1, hnew1⟩ := hsome1 f1 rfl
      rw [add_right_comm] at h1
      have hne : f0 ≠ f1 := by
        rintro rfl
        have := hnew0.ref.symm.trans hnew1.closed
        omega
      have hfile0 := hnew1.others f0 hne
      have hpages1 : PagesAt kp T 0 s1 := by
        rw [PagesAt, hnew1.mem, hnew1.pipe, hnew1.proc, hnew0.mem, hnew0.pipe, hnew0.proc]
        exact hpages
      have hproc1 : s1.proc = s.proc := hnew1.proc.trans hnew0.proc
      rw [wp_bind, wp_onMem]
      refine hpages1.kalloc.mono ?_ fun _ => False.elim
      rintro r mem ⟨-, hsome⟩
      cases r with
      | none =>
        refine (fileclose_refs (s := { s1 with mem := mem }) h1 (hfile0 ▸ hnew0.ref.ge)).bind ?_
        rintro _ s2 ⟨h2, hproc2⟩
        have hpos : 1 ≤ (d + one f1) f1 := by
          have := hd f1
          simp only [Pi.add_apply, Pi.single_eq_same]
          omega
        refine (fileclose_refs h2 (h2.ref_pos_of_held hpos)).bind ?_
        rintro _ s3 ⟨h3, hproc3⟩
        exact wp_pure.mpr ⟨hproc3.trans (hproc2.trans hproc1), fun _ => h3, (by rintro _ ⟨⟩)⟩
      | some pa =>
        have hpi := (hsome pa rfl).pipe_eq_none hpages.held
        simp only [wp_bind, wp_setPipe, wp_get, wp_setFile, wp_pure]
        refine ⟨hproc1, (by rintro ⟨⟩), ?_⟩
        rintro x hx
        obtain rfl := some.inj hx
        have hopen : RefInv (d + one f1 + one f0) e (0 + oneEnd true pa + oneEnd false pa) (Fs.refs s1.fs) s1.file
            (put s1.pipe pa (some ⟨true, true⟩)) s1.proc := by
          refine { h1 with ends := fun w => ?_, live := fun x v hv => ?_ }
          · rw [openEnds_open hpi, h1.ends]
            cases w <;> simp [oneEnd]
          · by_cases hx : x = pa
            · have hv : some (⟨true, true⟩ : Pipe) = some v := by simpa only [hx, put_same] using hv
              exact some.inj hv ▸ .inl rfl
            · exact h1.live x v ((put_ne _ _ _ hx).symm.trans hv)
        have hread := hopen.setEnd (v := { s1.file f0 with type := .pipe, readable := true, writable := false, pipe := pa })
          hnew0.lt (hfile0 ▸ hnew0.type) rfl (hfile0 ▸ hnew0.ref.ge) rfl rfl rfl
        have hf1 := put_ne s1.file f0
          { s1.file f0 with type := .pipe, readable := true, writable := false, pipe := pa } (Ne.symm hne)
        exact hread.setEnd hnew1.lt (hf1 ▸ hnew1.type) rfl (hf1 ▸ hnew1.ref.ge) rfl rfl rfl

theorem argfd_refs (p : Nat) (fd : Int) : wp (argfd p fd) (fun r t => t = s ∧ ∀ x, r = some x →
    x.1 < nofile ∧ (s.proc p).ofile x.1 = some x.2) countFault s := by
  unfold argfd
  split
  next => exact wp_pure.mpr ⟨rfl, nofun⟩
  next hfd =>
    rw [wp_bind, wp_get, wp_pure]
    refine ⟨rfl, fun x hx => ?_⟩
    obtain ⟨f, hf, rfl⟩ := map_eq_some_iff.mp hx
    exact ⟨by omega, hf⟩

structure FdChange (p fd : Nat) (o : Option Nat) (s t : Kernel) : Prop where
  lt : fd < nofile
  ofile : (t.proc p).ofile = put (s.proc p).ofile fd o
  state : (t.proc p).state = (s.proc p).state
  cwd : (t.proc p).cwd = (s.proc p).cwd
  others : ∀ q, q ≠ p → t.proc q = s.proc q
  file : t.file = s.file

theorem setFd_change (hfd : fd < nofile) (o : Option Nat) : FdChange p fd o s
    { s with proc := put s.proc p { s.proc p with ofile := put (s.proc p).ofile fd o } } := by
  refine ⟨hfd, ?_, ?_, ?_, fun q hq => put_ne _ _ _ hq, rfl⟩ <;> simp only [put_same]

section
variable (h : RefsAt d e c s) (hp : p < nproc)
include h hp

theorem fdalloc_refs (hrun : (s.proc p).state = .runnable) :
    wp (fdalloc p f) (fun r t => (r = none → t = s) ∧ ∀ fd, r = some fd →
      RefsAt (d - one f) e c t ∧ (s.proc p).ofile fd = none ∧ FdChange p fd (some f) s t) countFault s := by
  unfold fdalloc
  rw [wp_bind, wp_get]
  split
  next => exact wp_pure.mpr ⟨fun _ => rfl, (by rintro _ ⟨⟩)⟩
  next fd hfind =>
    have hfd : fd < nofile := List.mem_range.mp (List.mem_of_find?_eq_some hfind)
    have hfree : (s.proc p).ofile fd = none := by simpa using List.find?_some hfind
    rw [wp_bind, wp_setFd, wp_pure]
    refine ⟨(by rintro ⟨⟩), fun fd' hfd' => ?_⟩
    obtain rfl := some.inj hfd'
    refine ⟨?_, hfree, setFd_change hfd _⟩
    have hset := h.setFd (o := some f) hp hfd (.inr (.inr hrun))
    simpa only [hfree, mark_none, add_zero, mark_some] using hset

theorem cwd_refs (hrun : (s.proc p).state = .runnable) :
    wp (cwd p) (fun k t => t = s ∧ (s.proc p).cwd = some k) countFault s := by
  obtain ⟨k, hk⟩ := isSome_iff_exists.mp (h.running p hp hrun)
  unfold cwd
  rw [wp_bind, wp_get, hk]
  exact wp_pure.mpr ⟨rfl, rfl⟩

theorem clearFd_refs (hfd : fd < nofile) (hf : (s.proc p).ofile fd = some f) :
    wp (setFd p fd none) (fun _ t => RefsAt (d + one f) e c t ∧ FdChange p fd none s t) countFault s := by
  have hset := h.setFd (o := none) hp hfd (.inl rfl)
  rw [hf, mark_some, mark_none, sub_zero] at hset
  exact wp_setFd.mpr ⟨hset, setFd_change hfd none⟩

end

end Files

end Xv6
