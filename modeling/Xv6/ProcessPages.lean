import Xv6.KernelPages

namespace Xv6

open Fs (put put_same put_ne put_eq_self)
open Vm (Mem Table Ledger Frame Owns Resize npages noFault)
open Count Prog

variable {kp : Base} {d : Nat → ℤ} {T : Nat → Option Table} {s : Kernel} {p : Nat}

theorem freeproc_pages (h : PageInv kp T d s.mem s.pipe s.proc) (hp : p < nproc) :
    wp (freeproc p) (fun _ t => PageInv kp (put T p none) d t.mem t.pipe t.proc ∧
      ∀ q, q ≠ p → t.proc q = s.proc q) otherFault s := by
  let v : Proc := { s.proc p with
    trapframe := 0, pagetable := 0, sz := 0, pid := 0, parent := none, state := .unused }
  have hnn : ∀ x, 0 ≤ (d + pagesOf (T p)) x := fun x => add_nonneg (h.held x) (pagesOf_nonneg _ x)
  -- in the ledger the process gives up its pages first
  have hgone : Pages kp (put T p none) (d + pagesOf (T p) + mark (trapframePage (s.proc p))) s.mem s.pipe
      (put s.proc p v) := by
    refine h.exchange hp nofun (fun x => add_nonneg (hnn x) (mark_nonneg _ x)) ?_
    rw [show pagesOf none = 0 from rfl, show trapframePage v = none from rfl, mark_none]
    abel
  have hfinish : ∀ mem, Pages kp (put T p none) d mem s.pipe (put s.proc p v) →
      PageInv kp (put T p none) d mem s.pipe (put s.proc p v) := fun mem hpages =>
    h.change hpages rfl (fun _ => ⟨rfl, rfl, rfl⟩) nofun
  have htable : ∀ mem, mem.heap = s.mem.heap →
      Pages kp (put T p none) (d + pagesOf (T p)) mem s.pipe (put s.proc p v) →
      wp (do
        if (s.proc p).pagetable ≠ 0 then onMem (Vm.procFreepagetable (s.proc p).pagetable (s.proc p).sz)
        setProc p v) (fun _ t => PageInv kp (put T p none) d t.mem t.pipe t.proc ∧
          ∀ q, q ≠ p → t.proc q = s.proc q) otherFault { s with mem := mem } := by
    intro mem hheap hpages
    have hspace := h.space p hp
    have hother : ∀ q, q ≠ p → put s.proc p v q = s.proc q := fun q hq => put_ne _ _ _ hq
    cases ht : T p with
    | none =>
      rw [ht] at hspace hpages
      rw [if_neg (fun hne => hne hspace), wp_setProc]
      exact ⟨hfinish mem (by simpa [pagesOf] using hpages), hother⟩
    | some t =>
      rw [ht] at hspace hpages
      have howns := Pages.owns hpages (hheap ▸ h.repr p hp t ht) h.held
      have hroot : (s.proc p).pagetable ≠ 0 := hspace.1 ▸ Vm.root_ne_zero howns
      rw [if_pos hroot, wp_bind, wp_onMem, hspace.1]
      refine (Vm.procFreepagetable_user howns hspace.2.1 hspace.2.2).mono ?_ fun _ => id
      rintro _ mem' ⟨hledger, hframe⟩
      rw [wp_setProc]
      exact ⟨hfinish mem'
        (hpages.of_ledger hledger hframe (tablePages_le_inUse h.kernel h.held) h.held), hother⟩
  unfold freeproc
  rw [wp_bind, wp_get]
  by_cases htf : (s.proc p).trapframe = 0
  · rw [trapframePage, if_pos htf, mark_none, add_zero] at hgone
    rw [if_neg (fun hne => hne htf)]
    exact htable s.mem rfl hgone
  · rw [trapframePage, if_neg htf, mark_some] at hgone
    have hledger := hgone.ledger
    rw [inUse_add] at hledger
    rw [if_pos htf, wp_bind, wp_onMem]
    refine (Vm.kfree_ledger hledger (inUse_nonneg h.kernel hnn)).mono ?_ fun _ => id
    rintro _ mem ⟨rfl, hfreed⟩
    exact htable _ rfl ⟨hgone.repr, hfreed, h.layout, h.kernel, hnn⟩

structure NewProc (kp : Base) (T : Nat → Option Table) (d : Nat → ℤ) (s t : Kernel) (np : Nat) (u : Table) : Prop where
  lt : np < nproc
  unused : (s.proc np).state = .unused
  pages : PageInv kp (put T np (some u)) d t.mem t.pipe t.proc
  state : (t.proc np).state = .used
  empty : (t.proc np).sz = 0
  other : ∀ q, q ≠ np → t.proc q = s.proc q

theorem allocproc_pages (h : PageInv kp T d s.mem s.pipe s.proc) :
    wp allocproc (fun r t => (r = none → PagesOk kp d t) ∧ ∀ np, r = some np → ∃ u, NewProc kp T d s t np u)
      otherFault s := by
  unfold allocproc
  rw [wp_bind, wp_get]
  cases hfind : (List.range nproc).find? fun p => (s.proc p).state = .unused with
  | none => exact wp_pure.mpr ⟨fun _ => ⟨T, h⟩, (by rintro _ ⟨⟩)⟩
  | some np =>
    have hnp : np < nproc := List.mem_range.mp (List.mem_of_find?_eq_some hfind)
    have hun : (s.proc np).state = .unused := by simpa using List.find?_some hfind
    obtain ⟨hT, htf, hsz⟩ := h.unused np hnp hun
    have hspace := h.space np hnp
    rw [hT] at hspace
    -- the slot in use, with the trapframe `tf` or none yet
    let v (tf : Nat) : Proc := { s.proc np with pid := s.nextpid, state := .used, trapframe := tf }
    have hzero : v 0 = { s.proc np with pid := s.nextpid, state := .used } := by
      simp only [v, ← htf]
    have hused : PageInv kp T d s.mem s.pipe (put s.proc np (v 0)) := by
      have hpages := h.exchange (o := none) (v := v 0) hnp (by rintro _ ⟨⟩) h.held (by rw [hT, trapframePage, trapframePage, htf])
      have := h.change hpages hspace (by rintro ⟨⟩) (by rintro ⟨⟩)
      rwa [← hT, put_eq_self] at this
    simp only [wp_bind, wp_setProc, wp_modify, wp_onMem, ← hzero]
    refine hused.kalloc.mono ?_ fun _ => id
    rintro r mem ⟨hnone, hsome⟩
    cases r with
    | none =>
      simp only [wp_bind, wp_get, wp_setProc, put_same]
      have hstart : PageInv kp T d mem s.pipe (put (put s.proc np (v 0)) np (v 0)) := by
        rw [Fs.put_put]
        exact hnone rfl
      refine (freeproc_pages hstart hnp).mono ?_ fun _ => id
      rintro _ t ⟨ht, -⟩
      exact wp_pure.mpr ⟨fun _ => ⟨_, ht⟩, (by rintro _ ⟨⟩)⟩
    | some tf =>
      have halloc := hsome tf rfl
      have hone : trapframePage (v tf) = some tf := by
        have hledger := halloc.ledger
        rw [inUse_add] at hledger
        have hpos : 1 ≤ (inUse kp T s.pipe (put s.proc np (v 0)) d + one tf) tf := by
          have : 0 ≤ inUse kp T s.pipe (put s.proc np (v 0)) d tf := inUse_nonneg h.kernel h.held tf
          simp only [Pi.add_apply, Pi.single_eq_same]
          omega
        have hrange := (hledger.mem_range hpos).2.1
        have hbounds := hledger.bounds
        have hne : (v tf).trapframe ≠ 0 := by
          show tf ≠ 0
          simp only [Vm.kernbase] at hbounds
          omega
        rw [trapframePage, if_neg hne]
      have hframed : PageInv kp T d mem s.pipe (put s.proc np (v tf)) := by
        have hpages := halloc.exchange (o := none) (v := v tf) (e := d) hnp (by rintro _ ⟨⟩) h.held (by
          rw [hT, hone, put_same, trapframePage, if_pos rfl, mark_none, mark_some]
          abel)
        have := halloc.change hpages hspace (by rintro ⟨⟩) (by rintro ⟨⟩)
        rwa [← hT, put_eq_self, Fs.put_put] at this
      simp only [wp_bind, wp_get, wp_setProc, wp_onMem, put_same, Fs.put_put]
      refine (Vm.procPagetable_new (s.proc np).guard hframed.ledger).mono ?_ fun _ => id
      rintro r mem' ⟨hframe, hnone', hsome'⟩
      cases r with
      | none =>
        have hback : PageInv kp T d mem' s.pipe (put s.proc np (v tf)) :=
          hframed.keep (hframed.of_ledger (hnone' rfl) hframe (tablePages_le_inUse h.kernel h.held) h.held)
        simp only [wp_bind, wp_get, wp_setProc, put_same, Fs.put_put]
        have hstart : PageInv kp T d mem' s.pipe (put s.proc np { v tf with pagetable := 0 }) := by
          have := hback.congr_put (p := np) (v := { v tf with pagetable := 0 }) (by
            rw [put_same]
            simp only [Proc.core, v, Prod.mk.injEq, true_and, and_true]
            exact hspace.symm)
          rwa [Fs.put_put] at this
        refine (freeproc_pages hstart hnp).mono ?_ fun _ => id
        rintro _ t ⟨ht, -⟩
        exact wp_pure.mpr ⟨fun _ => ⟨_, ht⟩, (by rintro _ ⟨⟩)⟩
      | some pagetable =>
        obtain ⟨u, hroot, howns, huser, hhigh⟩ := hsome' pagetable rfl
        have hpages := (hframed.of_owns howns hframe h.held).exchange (o := some u) (v := { v tf with pagetable := pagetable })
          (e := d) hnp (fun w hw => Option.some.inj hw ▸ howns.repr) h.held (by
            rw [hT, put_same]
            show u.pages + mark (trapframePage (v tf)) + d = 0 + mark (trapframePage (v tf)) + (d + u.pages)
            abel)
        have htramp : mem'.tramp = kp.layout.tramp := congrArg Vm.Layout.tramp (hframe.layout.trans hframed.layout)
        have hinv := hframed.change hpages
          ⟨hroot.symm, (show npages (s.proc np).sz = npages 0 by rw [hsz]) ▸ huser, htramp ▸ hhigh⟩ (by rintro ⟨⟩) (by rintro ⟨⟩)
        simp only [wp_bind, wp_get, wp_setProc, put_same, Fs.put_put, wp_pure]
        rw [Fs.put_put] at hinv
        refine ⟨(by rintro ⟨⟩), ?_⟩
        rintro _ ⟨rfl⟩
        exact ⟨u, hnp, hun, hinv, congrArg Proc.state (put_same _ _ _), (congrArg Proc.sz (put_same _ _ _)).trans hsz,
          fun q hq => put_ne _ _ _ hq⟩

theorem dupLoop_pages (p np : Nat) : KeepsPages kp T d (dupLoop p np) := by
  refine .forM fun fd _ => .get fun s => ?_
  split
  next => exact .pure _
  next f _ => exact (filedup_pages f).bind fun _ => keepsPages_setFd np fd _

theorem sysFork_pages (h : PageInv kp T d s.mem s.pipe s.proc) (hp : p < nproc) (hrun : (s.proc p).state = .runnable) :
    wp (sysFork p) (fun _ => PagesOk kp d) otherFault s := by
  unfold sysFork
  refine (allocproc_pages h).bind ?_
  rintro r s1 ⟨hnone, hsome⟩
  cases r with
  | none => exact wp_pure.mpr (hnone rfl)
  | some np =>
    obtain ⟨u, hnew⟩ := hsome np rfl
    have hpn : p ≠ np := by
      rintro rfl
      rw [hnew.unused] at hrun
      exact absurd hrun (by decide)
    obtain ⟨t, ht⟩ := h.running p hp hrun
    have hv : s1.proc p = s.proc p := hnew.other p hpn
    have htp : put T np (some u) p = some t := (put_ne _ _ _ hpn).trans ht
    have hspace := hnew.pages.space p hp
    rw [htp] at hspace
    have hspace' := hnew.pages.space np hnew.lt
    rw [put_same] at hspace'
    have huser : u.User 0 (s1.proc p).guard := by
      have := hspace'.2.1
      rw [hnew.empty] at this
      exact ⟨this.le, fun v hv => absurd hv (Nat.not_lt_zero v), this.void⟩
    have hnodes : ∀ x, t.nodes x ≤ inUse kp (put (put T np (some u)) np none) s1.pipe s1.proc d x := fun x =>
      (nodes_le_tablePages hp (by rw [put_ne _ _ _ hpn, htp]) x).trans (tablePages_le_inUse h.kernel h.held x)
    rw [wp_bind, wp_get, wp_bind, wp_onMem, hspace.1, hspace'.1]
    refine (Vm.uvmcopy_user (hnew.pages.take hnew.lt (put_same _ _ _)) huser (hnew.pages.repr p hp t htp) hnodes
      hspace.2.1).mono ?_ fun _ => id
    rintro ok mem ⟨u', hresize, huser'⟩
    cases ok with
    | true =>
      have hcopied := hnew.pages.resize (v := { s1.proc np with sz := (s1.proc p).sz, guard := (s1.proc p).guard })
        hnew.lt (put_same _ _ _) hresize huser' rfl rfl rfl
      rw [Fs.put_put] at hcopied
      rw [if_pos rfl]
      simp only [wp_bind, wp_get, wp_setProc]
      refine (dupLoop_pages p np _ hcopied).mono ?_ fun _ => id
      intro _ s2 h2
      refine (cwd_pages p s2 h2).mono ?_ fun _ => id
      intro dir s3 h3
      refine (keepsPages_onFs (Fs.idup dir) s3 h3).mono ?_ fun _ => id
      intro dir' s4 h4
      rw [wp_pure]
      have hspace4 := h4.space np hnew.lt
      rw [put_same] at hspace4
      refine ⟨_, h4.change (o := some u') (p := np) ?_ hspace4 (by rintro ⟨⟩) fun _ => ⟨u', rfl⟩⟩
      have hex := h4.exchange (o := some u') (e := d) (v := { s4.proc np with
          cwd := some dir', parent := some p, state := .runnable }) hnew.lt
        (fun w hw => Option.some.inj hw ▸ h4.repr np hnew.lt u' (put_same _ _ _)) h4.held (by rw [put_same]; rfl)
      exact hex
    | false =>
      have hback := hnew.pages.resize (v := s1.proc np) hnew.lt (put_same _ _ _) hresize (by
        rw [hnew.empty]
        exact ⟨huser'.le, fun v hv => absurd hv (Nat.not_lt_zero v), huser'.void⟩) rfl rfl rfl
      rw [put_eq_self] at hback
      rw [if_neg (by decide)]
      refine (freeproc_pages (s := { s1 with mem := mem }) hback hnew.lt).bind ?_
      rintro _ s2 ⟨h2, -⟩
      exact wp_pure.mpr ⟨_, h2⟩

theorem sysSbrk_pages (h : PagesAt kp T d s) (hp : p < nproc) (hrun : (s.proc p).state = .runnable) (n : Int) :
    wp (sysSbrk p n) (fun _ => PagesOk kp d) otherFault s := by
  obtain ⟨t, ht⟩ := h.running p hp hrun
  have hspace := h.space p hp
  rw [ht] at hspace
  have howns := h.take hp ht
  have hsize : ∀ {mem : Mem} {t' : Table} {sz : Nat}, Resize (inUse kp (put T p none) s.pipe s.proc d) s.mem t mem t' →
      t'.User (npages sz) (s.proc p).guard → PageInv kp (put T p (some t')) d mem s.pipe
        (put s.proc p { s.proc p with sz := sz }) :=
    fun hresize huser => h.resize (v := { s.proc p with sz := _ }) hp ht hresize huser rfl rfl rfl
  have hkeep : ∀ {mem : Mem} {t' : Table}, Resize (inUse kp (put T p none) s.pipe s.proc d) s.mem t mem t' →
      t'.User (npages (s.proc p).sz) (s.proc p).guard → PageInv kp (put T p (some t')) d mem s.pipe s.proc := by
    intro mem t' hresize huser
    have := hsize hresize huser
    rwa [put_eq_self] at this
  unfold sysSbrk
  rw [wp_bind, wp_get]
  dsimp only
  split
  next =>
    have halloc := Vm.uvmalloc_user (Vm.uint64 ((s.proc p).sz + n.toNat)) Vm.pteW howns hspace.2.1
    rw [← hspace.1] at halloc
    rw [wp_bind, wp_onMem]
    refine halloc.mono ?_ fun _ => id
    rintro r mem ⟨t', hresize, hcase⟩
    cases r with
    | zero =>
      refine wp_pure.mpr ⟨_, hkeep hresize ?_⟩
      rcases hcase with ⟨hmax, huser⟩ | ⟨-, huser⟩
      · rwa [show (s.proc p).sz = 0 by omega]
      · exact huser
    | succ sz =>
      rcases hcase with ⟨-, huser⟩ | ⟨hr, -⟩
      · simp only [wp_bind, wp_setProc, wp_pure]
        exact ⟨_, hsize hresize huser⟩
      · exact absurd hr (Nat.succ_ne_zero sz)
  next =>
    split
    next =>
      have hdealloc := Vm.uvmdealloc_user (((s.proc p).sz + n) % 2 ^ 64).toNat howns hspace.2.1
      rw [← hspace.1] at hdealloc
      simp only [wp_bind, wp_onMem]
      refine hdealloc.mono ?_ fun _ => id
      rintro r mem ⟨-, t', hresize, huser⟩
      rw [wp_setProc, wp_pure]
      exact ⟨_, hsize hresize huser⟩
    next => exact wp_pure.mpr ⟨T, h⟩

theorem sysExit_pages (h : PagesAt kp T d s) (hp : p < nproc) (hrun : (s.proc p).state = .runnable) :
    wp (sysExit p) (fun _ => PagesOk kp d) otherFault s := by
  obtain ⟨t, ht⟩ := h.running p hp hrun
  have htail : ∀ s1, PagesAt kp T d s1 → wp (do
      onFs Fs.beginOp
      let dir ← cwd p
      onFs (Fs.iput dir)
      onFs Fs.endOp
      modify fun s =>
        { s with proc := fun q =>
            if (s.proc q).parent = some p then { s.proc q with parent := some initproc } else s.proc q }
      let s ← get
      setProc p { s.proc p with cwd := none, state := .zombie }
      return (0 : Int)) (fun _ => PagesOk kp d) otherFault s1 := by
    intro s1 h1
    refine (keepsPages_onFs _ s1 h1).bind fun _ s2 h2 => ?_
    refine (cwd_pages p s2 h2).bind fun dir s3 h3 => ?_
    refine (keepsPages_onFs _ s3 h3).bind fun _ s4 h4 => ?_
    refine (keepsPages_onFs _ s4 h4).bind fun _ s5 h5 => ?_
    simp only [wp_bind, wp_modify, wp_get, wp_setProc, wp_pure]
    have h6 : PageInv kp T d s5.mem s5.pipe fun q =>
        if (s5.proc q).parent = some p then { s5.proc q with parent := some initproc } else s5.proc q := by
      refine h5.congr fun q => ?_
      split <;> rfl
    refine ⟨put T p (some t), h6.change ?_ ?_ (by rintro ⟨⟩) (by rintro ⟨⟩)⟩
    · exact h6.exchange hp (fun w hw => Option.some.inj hw ▸ h6.repr p hp t ht) h6.held (by rw [ht]; rfl)
    · have hspace := h6.space p hp
      rw [ht] at hspace
      exact hspace
  unfold sysExit
  split
  on_goal 1 => refine ((keepsPages_panic (by decide)) s h).bind fun _ s h => ?_
  all_goals
    refine wp.bind (Preserves.forM (fun fd _ => .get fun s => ?_) s h) fun _ => htail
    split
    next => exact .pure _
    next f _ => exact (fileclose_pages f).bind fun _ => keepsPages_setFd p fd none

theorem sysWait_pages (h : PagesAt kp T d s) (hp : p < nproc) (hrun : (s.proc p).state = .runnable) (addr : Nat) :
    wp (sysWait p addr) (fun _ => PagesOk kp d) otherFault s := by
  obtain ⟨t, ht⟩ := h.running p hp hrun
  have hspace := h.space p hp
  rw [ht] at hspace
  unfold sysWait
  rw [wp_bind, wp_get]
  cases hfind : (List.range nproc).find? fun q => (s.proc q).parent = some p ∧ (s.proc q).state = .zombie with
  | some q =>
    have hq : q < nproc := List.mem_range.mp (List.mem_of_find?_eq_some hfind)
    have hfree : wp (do freeproc q; return ((s.proc q).pid : Int)) (fun _ => PagesOk kp d) otherFault s :=
      (freeproc_pages h hq).bind fun _ s1 h1 => wp_pure.mpr ⟨_, h1.1⟩
    dsimp only
    split
    next =>
      rw [wp_bind, wp_onMem, hspace.1]
      refine (Vm.copyout_keeps (h.repr p hp t ht) addr 4).mono ?_ fun _ => id
      rintro ok _ rfl
      split
      next => exact wp_pure.mpr ⟨T, h⟩
      next => exact hfree
    next => exact hfree
  | none =>
    dsimp only
    split
    next => exact wp_throw.mpr trivial
    next => exact wp_pure.mpr ⟨T, h⟩

section FileCalls

theorem sysDup_pages (p : Nat) (fd : Int) : KeepsPages kp T d (sysDup p fd) := by
  refine (argfd_pages p fd).bind fun r => ?_
  cases r with
  | none => exact .pure _
  | some x =>
    refine (fdalloc_pages p x.2).bind fun r => ?_
    cases r with
    | none => exact .pure _
    | some fd => exact (filedup_pages x.2).bind fun _ => .pure _

theorem sysClose_pages (p : Nat) (fd : Int) : KeepsPages kp T d (sysClose p fd) := by
  refine (argfd_pages p fd).bind fun r => ?_
  cases r with
  | none => exact .pure _
  | some x => exact (keepsPages_setFd p x.1 none).bind fun _ => (fileclose_pages x.2).bind fun _ => .pure _

theorem copyout_pages (hp : p < nproc) {t : Table} (ht : T p = some t) (fdarray : Nat) (h : PagesAt kp T d s) :
    wp (onMem do
      if ← Vm.copyout (s.proc p).pagetable fdarray 4 then Vm.copyout (s.proc p).pagetable (Vm.uint64 (fdarray + 4)) 4
      else return false) (fun _ => PagesAt kp T d) otherFault s := by
  have hspace := h.space p hp
  rw [ht] at hspace
  rw [wp_onMem, hspace.1]
  refine (Vm.copyout_keeps (h.repr p hp t ht) fdarray 4).bind ?_
  rintro ok _ rfl
  split
  next =>
    refine (Vm.copyout_keeps (h.repr p hp t ht) _ 4).mono ?_ fun _ => id
    rintro _ _ rfl
    exact h
  next => exact wp_pure.mpr h

theorem sysPipe_pages (hp : p < nproc) {t : Table} (ht : T p = some t) (fdarray : Nat) :
    KeepsPages kp T d (sysPipe p fdarray) := by
  refine pipealloc_pages.bind fun r => ?_
  cases r with
  | none => exact .pure _
  | some x =>
    have hclose : ∀ a : Int, KeepsPages kp T d (do fileclose x.1; fileclose x.2; return a) :=
      fun a => (fileclose_pages x.1).bind fun _ => (fileclose_pages x.2).bind fun _ => .pure a
    refine (fdalloc_pages p x.1).bind fun r => ?_
    cases r with
    | none => exact hclose _
    | some fd0 =>
      refine (fdalloc_pages p x.2).bind fun r => ?_
      cases r with
      | none => exact (keepsPages_setFd p fd0 none).bind fun _ => hclose _
      | some fd1 =>
        intro s h
        dsimp only
        rw [wp_bind, wp_get]
        refine (copyout_pages hp ht fdarray h).bind fun copied s1 h1 => ?_
        split
        next => exact wp_pure.mpr h1
        next =>
          exact ((keepsPages_setFd p fd0 none).bind fun _ => (keepsPages_setFd p fd1 none).bind fun _ => hclose _) s1 h1

theorem fsCall_pages (p : Nat) (m : Nat → Fs.M Bool) :
    KeepsPages kp T d (do let dir ← cwd p; if ← onFs (m dir) then return (0 : Int) else return -1) :=
  (cwd_pages p).bind fun _ => (keepsPages_onFs _).bind fun _ => .ite (.pure _) (.pure _)

theorem sysLink_pages (p : Nat) (old new : Option (List Fs.Byte)) : KeepsPages kp T d (sysLink p old new) := by
  unfold sysLink
  split
  next old new => exact fsCall_pages p fun dir => Fs.link dir old new
  next => exact .pure _

theorem sysUnlink_pages (p : Nat) (path : Option (List Fs.Byte)) : KeepsPages kp T d (sysUnlink p path) := by
  unfold sysUnlink
  split
  next => exact .pure _
  next path => exact fsCall_pages p fun dir => Fs.unlink dir path

theorem sysMkdir_pages (p : Nat) (path : Option (List Fs.Byte)) : KeepsPages kp T d (sysMkdir p path) :=
  fsCall_pages p fun dir => Fs.mknod dir path Fs.tDir 0 0

theorem sysMknod_pages (p : Nat) (path : Option (List Fs.Byte)) (major minor : Int) :
    KeepsPages kp T d (sysMknod p path major minor) :=
  fsCall_pages p fun dir => Fs.mknod dir path Fs.tDevice major minor

theorem openInode_pages (p : Nat) (path : List Fs.Byte) (omode : BitVec 32) : KeepsPages kp T d (openInode p path omode) :=
  (cwd_pages p).bind fun _ => keepsPages_onFs _

theorem sysOpen_pages (p : Nat) (path : Option (List Fs.Byte)) (omode : BitVec 32) :
    KeepsPages kp T d (sysOpen p path omode) := by
  cases path with
  | none => exact .pure _
  | some path =>
    refine (keepsPages_onFs _).bind fun _ => (openInode_pages p path omode).bind fun r => ?_
    cases r with
    | none => exact (keepsPages_onFs _).bind fun _ => .pure _
    | some k =>
      refine (keepsPages_onFs _).bind fun ip => ?_
      have hfail : KeepsPages kp T d (do onFs (Fs.iunlockput k); onFs Fs.endOp; return (-1 : Int)) :=
        (keepsPages_onFs _).bind fun _ => (keepsPages_onFs _).bind fun _ => .pure _
      refine .ite hfail (filealloc_pages.bind fun r => ?_)
      cases r with
      | none => exact hfail
      | some f =>
        refine (fdalloc_pages p f).bind fun r => ?_
        cases r with
        | none => exact (fileclose_pages f).bind fun _ => hfail
        | some fd =>
          have hend : KeepsPages kp T d (do onFs (Fs.iunlock k); onFs Fs.endOp; return (fd : Int)) :=
            (keepsPages_onFs _).bind fun _ => (keepsPages_onFs _).bind fun _ => .pure _
          refine .get fun s => (keepsPages_setFile f _).bind fun _ => ?_
          split
          next => exact (keepsPages_onFs _).bind fun _ => hend
          next => exact hend

theorem sysChdir_pages (p : Nat) (path : Option (List Fs.Byte)) : KeepsPages kp T d (sysChdir p path) := by
  refine (keepsPages_onFs _).bind fun _ => ?_
  cases path with
  | none => exact (keepsPages_onFs _).bind fun _ => .pure _
  | some path =>
    refine (cwd_pages p).bind fun dir => (keepsPages_onFs _).bind fun r => ?_
    cases r with
    | none => exact (keepsPages_onFs _).bind fun _ => .pure _
    | some k =>
      refine (keepsPages_onFs _).bind fun _ => (keepsPages_onFs _).bind fun ip => ?_
      have hmove : KeepsPages kp T d (do
          onFs (Fs.iunlock k)
          onFs (Fs.iput dir)
          onFs Fs.endOp
          let s ← get
          setProc p { s.proc p with cwd := some k }
          return (0 : Int)) := by
        refine (keepsPages_onFs _).bind fun _ => (keepsPages_onFs _).bind fun _ => (keepsPages_onFs _).bind fun _ => ?_
        intro s h
        simp only [wp_bind, wp_get, wp_setProc, wp_pure]
        exact h.congr_put rfl
      dsimp only
      split
      next =>
        exact (keepsPages_onFs _).bind fun _ => (keepsPages_onFs _).bind fun _ => .pure _
      next => exact hmove

theorem writeChunks_pages (f : Nat) (src : Nat → Fs.Source) (n fuel i : Nat) :
    KeepsPages kp T d (writeChunks f src n fuel i) := by
  induction fuel generalizing i with
  | zero => exact .pure _
  | succ fuel ih =>
    rw [writeChunks]
    refine .ite ?_ (.pure _)
    refine (keepsPages_onFs _).bind fun _ => .get fun s => (keepsPages_onFs _).bind fun _ => (keepsPages_onFs _).bind fun r => ?_
    have hend : KeepsPages kp T d (do
        onFs (Fs.iunlock (s.file f).ip)
        onFs Fs.endOp
        if r ≠ ((min (n - i) 3072 : Nat) : Int) then return i else writeChunks f src n fuel (i + min (n - i) 3072)) :=
      (keepsPages_onFs _).bind fun _ => (keepsPages_onFs _).bind fun _ => .ite (.pure _) (ih _)
    dsimp only
    split
    next => exact .get fun s => (keepsPages_setFile f _).bind fun _ => hend
    next => exact hend

theorem sysWrite_pages (p : Nat) (fd : Int) (src : Nat → Fs.Source) (n other : Int) :
    KeepsPages kp T d (sysWrite p fd src n other) := by
  refine (argfd_pages p fd).bind fun r => ?_
  cases r with
  | none => exact .pure _
  | some x =>
    refine .get fun s => .ite (.pure _) ?_
    split
    next => exact .pure _
    next => exact .pure _
    next => exact keepsPages_panic (by decide)
    next => exact (writeChunks_pages x.2 src _ _ _).bind fun _ => .pure _

end FileCalls

end Xv6
