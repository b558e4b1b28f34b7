import Mathlib.Algebra.BigOperators.Pi
import Xv6.Exec
import Xv6.UserSpace

namespace Xv6

open Fs (put put_same put_ne put_eq_self)
open Vm (Mem Table Ledger Frame Owns Resize npages noFault)
open Count Prog Finset

def pagesOf (o : Option Table) : Nat → ℤ := o.elim 0 Table.pages

def tablePages (T : Nat → Option Table) : Nat → ℤ := ∑ p ∈ range nproc, pagesOf (T p)

def trapframePage (v : Proc) : Option Nat := if v.trapframe = 0 then none else some v.trapframe

def pipePages (pipe : Nat → Option Pipe) (x : Nat) : ℤ := if (pipe x).isSome then 1 else 0

/-- What no call changes: the layout of memory and the pages of the kernel itself. -/
structure Base where
  layout : Vm.Layout
  pages : Nat → ℤ

/-- The pages in use: the processes' tables with their user pages, the trapframes, the pipes, the
kernel's own pages, and the pages `d` that the call in progress holds. -/
def inUse (kp : Base) (T : Nat → Option Table) (pipe : Nat → Option Pipe) (proc : Nat → Proc) (d : Nat → ℤ) :
    Nat → ℤ :=
  tablePages T + holders (range nproc) (fun p => trapframePage (proc p)) + pipePages pipe + kp.pages + d

/-- The heap holds the tables of the processes, and every managed page is free or in use, once. -/
structure Pages (kp : Base) (T : Nat → Option Table) (d : Nat → ℤ) (mem : Mem) (pipe : Nat → Option Pipe)
    (proc : Nat → Proc) : Prop where
  repr : ∀ p < nproc, ∀ t, T p = some t → Vm.Repr mem.heap t
  ledger : Ledger mem (inUse kp T pipe proc d)
  layout : mem.layout = kp.layout
  kernel : ∀ x, 0 ≤ kp.pages x
  held : ∀ x, 0 ≤ d x

def Space (tramp : Nat) (v : Proc) : Option Table → Prop
  | none => v.pagetable = 0
  | some t => v.pagetable = t.root ∧ t.User (npages v.sz) v.guard ∧ t.High v.trapframe tramp

structure PageInv (kp : Base) (T : Nat → Option Table) (d : Nat → ℤ) (mem : Mem) (pipe : Nat → Option Pipe)
    (proc : Nat → Proc) : Prop extends Pages kp T d mem pipe proc where
  space : ∀ p < nproc, Space kp.layout.tramp (proc p) (T p)
  unused : ∀ p < nproc, (proc p).state = .unused → T p = none ∧ (proc p).trapframe = 0 ∧ (proc p).sz = 0
  running : ∀ p < nproc, (proc p).state = .runnable → ∃ t, T p = some t

section Sums

variable {kp : Base} {d e : Nat → ℤ} {T : Nat → Option Table} {mem mem' : Mem} {pipe : Nat → Option Pipe} {proc : Nat → Proc}
  {p : Nat} {t : Table}

theorem pagesOf_nonneg (o : Option Table) (x : Nat) : 0 ≤ pagesOf o x := by
  cases o with
  | none => exact le_rfl
  | some t => exact t.pages_nonneg x

theorem pipePages_nonneg (pipe : Nat → Option Pipe) (x : Nat) : 0 ≤ pipePages pipe x := by
  unfold pipePages
  split <;> decide

theorem tablePages_nonneg (T : Nat → Option Table) (x : Nat) : 0 ≤ tablePages T x := by
  rw [tablePages, Finset.sum_apply]
  exact Finset.sum_nonneg fun p _ => pagesOf_nonneg (T p) x

theorem tablePages_put (o : Option Table) (hp : p < nproc) :
    tablePages (put T p o) = tablePages T - pagesOf (T p) + pagesOf o := by
  have hold := add_sum_erase (range nproc) (fun q => pagesOf (T q)) (mem_range.mpr hp)
  have hnew := add_sum_erase (range nproc) (fun q => pagesOf (put T p o q)) (mem_range.mpr hp)
  have hrest : ∑ q ∈ (range nproc).erase p, pagesOf (put T p o q) =
      ∑ q ∈ (range nproc).erase p, pagesOf (T q) :=
    sum_congr rfl fun q hq => by rw [put_ne _ _ _ (ne_of_mem_erase hq)]
  rw [hrest, put_same] at hnew
  rw [tablePages, tablePages, ← hnew, ← hold]
  abel

theorem nodes_le_tablePages (hp : p < nproc) (ht : T p = some t) (x : Nat) : t.nodes x ≤ tablePages T x := by
  have hle := Finset.single_le_sum (f := fun q => pagesOf (T q) x) (fun q _ => pagesOf_nonneg (T q) x)
    (Finset.mem_range.mpr hp)
  rw [tablePages, Finset.sum_apply]
  rw [ht] at hle
  exact (t.nodes_le_pages x).trans hle

theorem tablePages_le_inUse (hkp : ∀ x, 0 ≤ kp.pages x) (hd : ∀ x, 0 ≤ d x) (x : Nat) :
    tablePages T x ≤ inUse kp T pipe proc d x := by
  have h1 := hkp x
  have h2 := hd x
  have h3 := pipePages_nonneg pipe x
  have h4 := holders_nonneg (range nproc) (fun p => trapframePage (proc p)) x
  simp only [inUse, Pi.add_apply]
  omega

theorem inUse_nonneg (hkp : ∀ x, 0 ≤ kp.pages x) (hd : ∀ x, 0 ≤ d x) (x : Nat) : 0 ≤ inUse kp T pipe proc d x :=
  (tablePages_nonneg T x).trans (tablePages_le_inUse hkp hd x)

theorem inUse_add (d e : Nat → ℤ) : inUse kp T pipe proc (d + e) = inUse kp T pipe proc d + e := by
  unfold inUse
  abel

theorem inUse_put_table (o : Option Table) (hp : p < nproc) :
    inUse kp (put T p o) pipe proc d = inUse kp T pipe proc d - pagesOf (T p) + pagesOf o := by
  unfold inUse
  rw [tablePages_put o hp]
  abel

theorem inUse_put_proc (v : Proc) (hp : p < nproc) :
    inUse kp T pipe (put proc p v) d =
      inUse kp T pipe proc d - mark (trapframePage (proc p)) + mark (trapframePage v) := by
  have hchange : holders (range nproc) (fun q => trapframePage (put proc p v q)) = _ :=
    holders_change (h := fun q => trapframePage (proc q)) (mem_range.mpr hp) fun q _ hq => by
      rw [put_ne _ _ _ hq]
  simp only [put_same] at hchange
  unfold inUse
  rw [hchange]
  abel

theorem Pages.of_ledger {rest : Nat → ℤ} (h : Pages kp T d mem pipe proc) (hledger : Ledger mem' (inUse kp T pipe proc e))
    (hframe : Frame rest mem mem') (hrest : ∀ x, tablePages T x ≤ rest x) (hd : ∀ x, 0 ≤ e x) :
    Pages kp T e mem' pipe proc where
  repr p hp t ht := (h.repr p hp t ht).frame fun x hx =>
    hframe.heap x ((hx.trans (nodes_le_tablePages hp ht x)).trans (hrest x))
  ledger := hledger
  layout := hframe.layout.trans h.layout
  kernel := h.kernel
  held := hd

theorem Pages.owns (h : Pages kp T (d + t.pages) mem pipe proc) (hrepr : Vm.Repr mem.heap t) (hd : ∀ x, 0 ≤ d x) :
    Owns mem t (inUse kp T pipe proc d) where
  repr := hrepr
  ledger := by
    rw [add_comm, ← inUse_add]
    exact h.ledger
  nonneg := inUse_nonneg h.kernel hd

theorem Pages.of_owns {d0 : Nat → ℤ} (h : Pages kp T d0 mem pipe proc) (howns : Owns mem' t (inUse kp T pipe proc d))
    (hframe : Frame (inUse kp T pipe proc d) mem mem') (hd : ∀ x, 0 ≤ d x) : Pages kp T (d + t.pages) mem' pipe proc := by
  refine h.of_ledger ?_ hframe (tablePages_le_inUse h.kernel hd) fun x => add_nonneg (hd x) (t.pages_nonneg x)
  rw [inUse_add, add_comm]
  exact howns.ledger

section
variable (h : Pages kp T d mem pipe proc)
include h

theorem Pages.take (hp : p < nproc) (ht : T p = some t) :
    Owns mem t (inUse kp (put T p none) pipe proc d) where
  repr := h.repr p hp t ht
  ledger := by
    have heq : t.pages + inUse kp (put T p none) pipe proc d = inUse kp T pipe proc d := by
      rw [inUse_put_table none hp, ht]
      show t.pages + (_ - t.pages + 0) = _
      abel
    rw [heq]
    exact h.ledger
  nonneg := inUse_nonneg h.kernel h.held

theorem Pages.give (hp : p < nproc)
    (howns : Owns mem' t (inUse kp (put T p none) pipe proc d))
    (hframe : Frame (inUse kp (put T p none) pipe proc d) mem mem') : Pages kp (put T p (some t)) d mem' pipe proc where
  repr q hq u hu := by
    by_cases hqp : q = p
    · rw [hqp, put_same] at hu
      obtain rfl := Option.some.inj hu
      exact howns.repr
    · have hu' : T q = some u := (put_ne _ _ _ hqp).symm.trans hu
      refine (h.repr q hq u hu').frame fun x hx => hframe.heap x (hx.trans ?_)
      refine (nodes_le_tablePages hq ?_ x).trans (tablePages_le_inUse h.kernel h.held x)
      rw [put_ne _ _ _ hqp, hu']
  ledger := by
    have heq : inUse kp (put T p (some t)) pipe proc d = t.pages + inUse kp (put T p none) pipe proc d := by
      rw [inUse_put_table (some t) hp, inUse_put_table none hp]
      show _ + t.pages = t.pages + (_ + 0)
      abel
    rw [heq]
    exact howns.ledger
  layout := hframe.layout.trans h.layout
  kernel := h.kernel
  held := h.held

theorem Pages.exchange {o : Option Table} {v : Proc} (hp : p < nproc)
    (hrepr : ∀ u, o = some u → Vm.Repr mem.heap u) (hd : ∀ x, 0 ≤ e x)
    (hsum : pagesOf o + mark (trapframePage v) + e = pagesOf (T p) + mark (trapframePage (proc p)) + d) :
    Pages kp (put T p o) e mem pipe (put proc p v) where
  repr q hq u hu := by
    by_cases hqp : q = p
    · rw [hqp, put_same] at hu
      exact hrepr u hu
    · exact h.repr q hq u ((put_ne _ _ _ hqp).symm.trans hu)
  ledger := by
    have hd' : e = pagesOf (T p) + mark (trapframePage (proc p)) + d - (pagesOf o + mark (trapframePage v)) :=
      eq_sub_of_add_eq' hsum
    have heq : inUse kp (put T p o) pipe (put proc p v) e = inUse kp T pipe proc d := by
      rw [inUse_put_proc v hp, inUse_put_table o hp, hd']
      unfold inUse
      abel
    rw [heq]
    exact h.ledger
  layout := h.layout
  kernel := h.kernel
  held := hd

end

end Sums

section Invariant

variable {kp : Base} {d e : Nat → ℤ} {T : Nat → Option Table} {mem mem' : Mem} {pipe pipe' : Nat → Option Pipe}
  {proc proc' : Nat → Proc} {p : Nat} {t : Table} {pa : Nat}

theorem PageInv.keep (h : PageInv kp T d mem pipe proc) (hpages : Pages kp T e mem' pipe' proc) :
    PageInv kp T e mem' pipe' proc := ⟨hpages, h.space, h.unused, h.running⟩

theorem PageInv.change {o : Option Table} {v : Proc} (h : PageInv kp T d mem pipe proc)
    (hpages : Pages kp (put T p o) e mem' pipe' (put proc p v)) (hspace : Space kp.layout.tramp v o)
    (hunused : v.state = .unused → o = none ∧ v.trapframe = 0 ∧ v.sz = 0)
    (hrunning : v.state = .runnable → ∃ t, o = some t) : PageInv kp (put T p o) e mem' pipe' (put proc p v) := by
  refine ⟨hpages, fun q hq => ?_, fun q hq => ?_, fun q hq => ?_⟩
  all_goals
    by_cases hqp : q = p
    · rw [hqp, put_same, put_same]
      assumption
    · rw [put_ne _ _ _ hqp, put_ne _ _ _ hqp]
      first | exact h.space q hq | exact h.unused q hq | exact h.running q hq

/-- The fields that the page invariant reads. -/
def Proc.core (v : Proc) : ProcState × Nat × Nat × Nat × Option Nat := (v.state, v.pagetable, v.trapframe, v.sz, v.guard)

theorem Proc.core_eq {v w : Proc} (h : v.core = w.core) :
    v.state = w.state ∧ v.pagetable = w.pagetable ∧ v.trapframe = w.trapframe ∧ v.sz = w.sz ∧ v.guard = w.guard := by
  simpa [Proc.core] using h

theorem space_congr {v w : Proc} {tramp : Nat} {o : Option Table} (h : v.core = w.core) (hs : Space tramp w o) :
    Space tramp v o := by
  obtain ⟨-, h2, h3, h4, h5⟩ := Proc.core_eq h
  cases o with
  | none => exact h2.trans hs
  | some t =>
    obtain ⟨hroot, huser, hhigh⟩ := hs
    exact ⟨h2.trans hroot, h4.symm ▸ h5.symm ▸ huser, h3.symm ▸ hhigh⟩

section
variable (h : PageInv kp T d mem pipe proc)
include h

theorem PageInv.congr (hcore : ∀ q, (proc' q).core = (proc q).core) :
    PageInv kp T d mem pipe proc' := by
  have htf : (fun q => trapframePage (proc' q)) = fun q => trapframePage (proc q) := by
    funext q
    simp only [trapframePage, (Proc.core_eq (hcore q)).2.2.1]
  refine ⟨⟨h.repr, ?_, h.layout, h.kernel, h.held⟩, fun q hq => space_congr (hcore q) (h.space q hq), fun q hq => ?_, fun q hq => ?_⟩
  · have hledger := h.ledger
    unfold inUse at hledger ⊢
    rw [htf]
    exact hledger
  · obtain ⟨h1, -, h3, h4, -⟩ := Proc.core_eq (hcore q)
    rw [h1, h3, h4]
    exact h.unused q hq
  · rw [(Proc.core_eq (hcore q)).1]
    exact h.running q hq

theorem PageInv.congr_put {v : Proc} (hcore : v.core = (proc p).core) :
    PageInv kp T d mem pipe (put proc p v) := by
  refine h.congr fun q => ?_
  by_cases hq : q = p
  · rw [hq, put_same, hcore]
  · rw [put_ne _ _ _ hq]

theorem PageInv.resize {t' : Table} {v : Proc} (hp : p < nproc) (ht : T p = some t)
    (hstep : Resize (inUse kp (put T p none) pipe proc d) mem t mem' t') (huser : t'.User (npages v.sz) v.guard)
    (hpt : v.pagetable = (proc p).pagetable) (htf : v.trapframe = (proc p).trapframe)
    (hstate : v.state = (proc p).state) :
    PageInv kp (put T p (some t')) d mem' pipe (put proc p v) := by
  have hspace := h.space p hp
  rw [ht] at hspace
  have hgive := h.give hp hstep.owns hstep.frame
  have hpages : Pages kp (put T p (some t')) d mem' pipe (put proc p v) := by
    have hex := hgive.exchange (o := some t') (v := v) hp
      (fun u hu => by
        obtain rfl := Option.some.inj hu
        exact hstep.owns.repr) hgive.held (by simp only [put_same, trapframePage, htf])
    rwa [Fs.put_put] at hex
  refine h.change hpages ⟨?_, huser, ?_⟩ ?_ fun _ => ⟨t', rfl⟩
  · rw [hpt, hspace.1, hstep.root]
  · rw [htf]
    exact hspace.2.2.of_same hstep.high
  · intro hun
    have hnone := (h.unused p hp (hstate ▸ hun)).1
    rw [ht] at hnone
    exact absurd hnone (Option.some_ne_none t)

end

theorem pipePages_open {v : Pipe} (h : pipe pa = none) :
    pipePages (put pipe pa (some v)) = pipePages pipe + one pa := by
  funext x
  simp only [pipePages, Pi.add_apply, one_apply]
  by_cases hx : x = pa
  · rw [hx, put_same, h]
    simp
  · simp [hx]

theorem pipePages_close {v : Pipe} (h : pipe pa = some v) :
    pipePages (put pipe pa none) + one pa = pipePages pipe := by
  funext x
  simp only [pipePages, Pi.add_apply, one_apply]
  by_cases hx : x = pa
  · rw [hx, put_same, h]
    simp
  · simp [hx]

theorem pipePages_set {v w : Pipe} (h : pipe pa = some v) :
    pipePages (put pipe pa (some w)) = pipePages pipe := by
  funext x
  simp only [pipePages]
  by_cases hx : x = pa
  · rw [hx, put_same, h]
    rfl
  · rw [put_ne _ _ _ hx]

theorem PageInv.setPipe (h : PageInv kp T d mem pipe proc) (hd : ∀ x, 0 ≤ e x)
    (hsum : pipePages pipe' + e = pipePages pipe + d) : PageInv kp T e mem pipe' proc := by
  refine h.keep ⟨h.repr, ?_, h.layout, h.kernel, hd⟩
  have heq : inUse kp T pipe' proc e = inUse kp T pipe proc d := by
    have hd' : e = pipePages pipe + d - pipePages pipe' := eq_sub_of_add_eq' hsum
    rw [hd']
    unfold inUse
    abel
  rw [heq]
  exact h.ledger

theorem PageInv.kalloc (h : PageInv kp T d mem pipe proc) :
    wp Vm.kalloc (fun r mem' => (r = none → PageInv kp T d mem' pipe proc) ∧
      ∀ pa, r = some pa → PageInv kp T (d + one pa) mem' pipe proc) noFault mem := by
  refine (Vm.kalloc_ledger h.ledger).mono ?_ fun _ => id
  rintro r mem' ⟨hnone, hframe, -, hsome⟩
  refine ⟨fun hr => hnone hr ▸ h, fun pa hpa => h.keep ?_⟩
  refine h.of_ledger ?_ hframe (tablePages_le_inUse h.kernel h.held) fun x => add_nonneg (h.held x) (Vm.one_nonneg pa x)
  rw [inUse_add]
  exact hsome pa hpa

section
variable {pa : Nat} (h : PageInv kp T (d + one pa) mem pipe proc) (hd : ∀ x, 0 ≤ d x)
include h hd

theorem PageInv.pipe_eq_none : pipe pa = none := by
  have hledger := h.ledger
  rw [inUse_add] at hledger
  have hfresh := hledger.fresh (inUse_nonneg h.kernel hd)
  have h1 := tablePages_nonneg T pa
  have h2 := holders_nonneg (range nproc) (fun p => trapframePage (proc p)) pa
  have h3 := h.kernel pa
  have h4 := hd pa
  simp only [inUse, Pi.add_apply, pipePages] at hfresh
  cases hp : pipe pa with
  | none => rfl
  | some v =>
    simp only [hp, Option.isSome_some, if_true] at hfresh
    omega

theorem PageInv.kfree : wp (Vm.kfree pa) (fun _ mem' => PageInv kp T d mem' pipe proc) noFault mem := by
  have hledger := h.ledger
  rw [inUse_add] at hledger
  refine (Vm.kfree_ledger hledger (inUse_nonneg h.kernel hd)).mono ?_ fun _ => id
  rintro _ mem' ⟨rfl, hfreed⟩
  exact h.keep ⟨h.repr, hfreed, h.layout, h.kernel, hd⟩

end

end Invariant

abbrev PagesAt (kp : Base) (T : Nat → Option Table) (d : Nat → ℤ) (s : Kernel) : Prop :=
  PageInv kp T d s.mem s.pipe s.proc

def PagesOk (kp : Base) (d : Nat → ℤ) (s : Kernel) : Prop := ∃ T, PagesAt kp T d s

def otherFault : KFault → Prop
  | .vm _ => False
  | .kernel (.panic msg) => msg ≠ "loadseg: address should exist"
  | _ => True

section Files

variable {kp : Base} {d : Nat → ℤ} {T : Nat → Option Table}

abbrev KeepsPages {α : Type} (kp : Base) (T : Nat → Option Table) (d : Nat → ℤ) (m : K α) : Prop :=
  Preserves (PagesAt kp T d) otherFault m

theorem keepsPages_onFs {α : Type} (m : Fs.M α) : KeepsPages kp T d (onFs m) :=
  fun _ hs => wp_onFs.mpr (wp_of_forall (fun _ _ => hs) fun _ => trivial)

theorem keepsPages_panic {α : Type} {msg : String} (h : msg ≠ "loadseg: address should exist") :
    KeepsPages kp T d (panic msg : K α) := .throw h

theorem keepsPages_setFile (f : Nat) (v : File) : KeepsPages kp T d (setFile f v) := fun _ hs => wp_setFile.mpr hs

theorem keepsPages_setFd (p fd : Nat) (f : Option Nat) : KeepsPages kp T d (setFd p fd f) := by
  intro s hT
  rw [wp_setFd]
  exact hT.congr_put rfl

theorem filealloc_pages : KeepsPages kp T d filealloc := by
  refine .get fun s => ?_
  split
  next => exact .pure _
  next f _ => exact (keepsPages_setFile f _).bind fun _ => .pure _

theorem filedup_pages (f : Nat) : KeepsPages kp T d (filedup f) := by
  refine .get fun s => ?_
  split
  next => exact (keepsPages_panic (by decide)).bind fun _ => keepsPages_setFile f _
  next => exact keepsPages_setFile f _

theorem pipeclose_pages (pa : Nat) (writable : Bool) : KeepsPages kp T d (pipeclose pa writable) := by
  intro s hT
  unfold pipeclose
  rw [wp_bind, wp_get]
  cases hpi : s.pipe pa with
  | none => exact wp_panic.mpr (by decide : "pipeclose" ≠ "loadseg: address should exist")
  | some pi =>
    dsimp only
    split
    next =>
      rw [wp_bind, wp_setPipe, wp_onMem]
      have hopen : PageInv kp T (d + one pa) s.mem (put s.pipe pa none) s.proc := by
        refine hT.setPipe (fun x => add_nonneg (hT.held x) (Vm.one_nonneg pa x)) ?_
        rw [← pipePages_close hpi]
        abel
      exact (hopen.kfree hT.held).mono (fun _ mem' h => h) fun _ => id
    next =>
      rw [wp_setPipe]
      exact hT.setPipe hT.held (by rw [pipePages_set hpi])

theorem fileclose_pages (f : Nat) : KeepsPages kp T d (fileclose f) := by
  refine .get fun s => ?_
  dsimp only
  split
  on_goal 1 => refine (keepsPages_panic (by decide)).bind fun _ => ?_
  all_goals
    refine .ite (keepsPages_setFile f _) ((keepsPages_setFile f _).bind fun _ => ?_)
    split
    next => exact pipeclose_pages _ _
    next => exact (keepsPages_onFs _).bind fun _ => (keepsPages_onFs _).bind fun _ => keepsPages_onFs _
    next => exact (keepsPages_onFs _).bind fun _ => (keepsPages_onFs _).bind fun _ => keepsPages_onFs _
    next => exact .pure _

theorem pipealloc_pages : KeepsPages kp T d pipealloc := by
  refine filealloc_pages.bind fun r0 => ?_
  cases r0 with
  | none => exact .pure _
  | some f0 =>
    refine filealloc_pages.bind fun r1 => ?_
    cases r1 with
    | none => exact (fileclose_pages f0).bind fun _ => .pure _
    | some f1 =>
      intro s hT
      rw [wp_bind, wp_onMem]
      refine hT.kalloc.mono ?_ fun _ => id
      rintro r mem' ⟨hnone, hsome⟩
      cases r with
      | none => exact ((fileclose_pages f0).bind fun _ => (fileclose_pages f1).bind fun _ => .pure _) _ (hnone rfl)
      | some pa =>
        have halloc := hsome pa rfl
        have hpi := halloc.pipe_eq_none hT.held
        simp only [wp_bind, wp_setPipe, wp_get, wp_setFile, wp_pure]
        refine halloc.setPipe hT.held ?_
        rw [pipePages_open hpi]
        abel

theorem argfd_pages (p : Nat) (fd : Int) : KeepsPages kp T d (argfd p fd) :=
  .ite (.pure _) (.get fun _ => .pure _)

theorem fdalloc_pages (p f : Nat) : KeepsPages kp T d (fdalloc p f) := by
  refine .get fun s => ?_
  split
  next => exact .pure _
  next fd _ => exact (keepsPages_setFd p fd _).bind fun _ => .pure _

theorem cwd_pages (p : Nat) : KeepsPages kp T d (cwd p) := by
  refine .get fun s => ?_
  split
  next => exact .pure _
  next => exact keepsPages_panic (by decide)

end Files

end Xv6
