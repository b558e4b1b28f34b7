import Xv6.InodeCache.Machine
import Xv6.Lib.Run

namespace Xv6.InodeCache

open Option Function
open InodeLocks (Holder file_ne_proc proc_ne proc_ne_file)

section Steps

variable {P F : Type} [DecidableEq P] [DecidableEq F] {s t : State P F} {p q : P} {L : Local} {ip : Slot} {k : Code}

theorem Real.unlocked (hL : Real p L s) (hfree : s.owner ip = none) : L.locks ip = none := by
  by_contra hl
  rw [(hL.locks ip).mpr hl] at hfree
  cases hfree

section
variable (hs : Inv s)
include hs

section
variable (hL : Real p L s)
include hL

theorem Inv.acquire (hfree : s.owner ip = none) (hok : Ok L (.acquire ip k)) :
    Inv (State.goto { s with owner := update s.owner ip (some p) } p k) := by
  refine hs.owner (x := some .unread) hL (hok.2 (hL.unlocked hfree)) ⟨fun _ => nofun, fun _ => rfl⟩ (fun q hqp => ?_)
    (fun _ => hok.1) (fun h hh => ?_) nofun
  · rw [hfree]
    exact ⟨fun h => absurd (some.inj h).symm hqp, nofun⟩
  · cases some.inj hh
    exact hs.free ip hfree (hL.pos hs hok.1)

theorem Inv.load (hok : Ok L (.load ip k)) {n : Nat} {c : Option Nat} {f : F}
    (h : s.act p n c f (.load ip k) = some t) : Inv t ∧ t.node ip = t.dinode (t.inum ip) := by
  have hl : L.locks ip ≠ none := by
    rw [hok.1]
    exact nofun
  have hfresh : Fresh s ip := hL.status ip .unread hok.1
  simp only [State.act] at h
  split at h
  next hvalid =>
    cases some.inj h
    obtain ⟨heq, htype⟩ := hfresh hvalid
    have htype' : (s.dinode (s.inum ip)).type ≠ 0 := heq ▸ htype
    have hgood : Good (s.node ip) := heq ▸ hs.disk _ htype'
    exact ⟨hs.known (x := .has (s.node ip) false) hL hl (hok.2 _ hgood) rfl rfl rfl rfl rfl rfl rfl (fun _ _ => rfl)
      (fun _ _ => rfl) (fun _ _ => rfl)
      ⟨hvalid, rfl, htype', fun _ => heq.symm⟩ hs.disk, heq⟩
  next =>
    cases some.inj h
    have hnode : update s.node ip (s.dinode (s.inum ip)) ip = s.dinode (s.inum ip) := update_self _ _ _
    refine ⟨?_, hnode⟩
    by_cases htype : (s.dinode (s.inum ip)).type = 0
    · rw [if_pos htype]
      exact hs.known (k := .panic) (x := .freed) hL hl trivial rfl rfl rfl rfl rfl rfl rfl
        (fun j hj => update_of_ne hj _ _)
        (fun j hj => update_of_ne hj _ _) (fun _ _ => rfl) trivial hs.disk
    · rw [if_neg htype]
      exact hs.known (x := .has (s.dinode (s.inum ip)) false) hL hl (hok.2 _ (hs.disk _ htype))
        rfl rfl rfl rfl rfl rfl rfl
        (fun j hj => update_of_ne hj _ _) (fun j hj => update_of_ne hj _ _) (fun _ _ => rfl)
        ⟨update_self _ _ _, hnode, htype, fun _ => rfl⟩ hs.disk

theorem Inv.set {g : Dinode → Dinode} (hok : Ok L (.set ip g k)) :
    Inv (State.goto { s with node := update s.node ip (g (s.node ip)) } p k) := by
  obtain ⟨v, d, hl, hk⟩ := hok
  obtain ⟨hvalid, hv, htype, -⟩ := hL.status ip _ hl
  have hself : update s.node ip (g (s.node ip)) ip = g v := by rw [update_self, hv]
  exact hs.known (x := .has (g v) true) hL (by rw [hl]; exact nofun) hk rfl rfl rfl rfl rfl rfl rfl (fun _ _ => rfl)
    (fun j hj => update_of_ne hj _ _) (fun _ _ => rfl) ⟨hvalid, hself, htype, nofun⟩ hs.disk

theorem Inv.iupdate (hok : Ok L (.iupdate ip k)) : Inv ((s.setDinode (s.inum ip) (s.node ip)).goto p k) := by
  obtain ⟨v, d, hl, hor⟩ := hok
  have hlocked : L.locks ip ≠ none := by
    rw [hl]
    exact nofun
  obtain ⟨hvalid, hv, -, -⟩ := hL.status ip _ hl
  have hself : ((s.setDinode (s.inum ip) (s.node ip)).goto p k).dinode (s.inum ip) = v :=
    (dinode_set_self (s := s) (i := s.inum ip) (v := s.node ip)).trans hv
  have hother : ∀ i ≠ s.inum ip, ((s.setDinode (s.inum ip) (s.node ip)).goto p k).dinode i = s.dinode i := fun i hi =>
    dinode_set_of_ne (s := s) hi
  have hdisk : (v.type ≠ 0 → Good v) → ∀ i, (((s.setDinode (s.inum ip) (s.node ip)).goto p k).dinode i).type ≠ 0 →
      Good (((s.setDinode (s.inum ip) (s.node ip)).goto p k).dinode i) := fun hgood i hi => by
    by_cases heq : i = s.inum ip
    · rw [heq, hself] at hi ⊢
      exact hgood hi
    · rw [hother i heq] at hi ⊢
      exact hs.disk i hi
  rcases hor with ⟨hzero, hk⟩ | ⟨hgood, hk⟩
  · exact hs.known (x := .freed) hL hlocked hk rfl rfl rfl rfl rfl rfl rfl (fun _ _ => rfl) (fun _ _ => rfl) hother
      trivial
      (hdisk fun hne => absurd hzero hne)
  · refine hs.known (x := .has v false) hL hlocked hk rfl rfl rfl rfl rfl rfl rfl (fun _ _ => rfl)
      (fun _ _ => rfl) hother
      ⟨hvalid, hv, ?_, fun _ => hself⟩ (hdisk fun _ => hgood)
    exact (congrArg Dinode.type hself).trans_ne hgood.type

theorem Inv.invalidate (hok : Ok L (.invalidate ip k)) :
    Inv (State.goto { s with valid := update s.valid ip false } p k) := by
  refine hs.known (x := .unread) hL (by rw [hok.1]; exact nofun) hok.2 rfl rfl rfl rfl rfl rfl rfl
    (fun j hj => update_of_ne hj _ _)
    (fun _ _ => rfl) (fun _ _ => rfl) (fun hvalid => ?_) hs.disk
  have hvalid : update s.valid ip false ip = true := hvalid
  rw [update_self] at hvalid
  cases hvalid

theorem Inv.release (hok : Ok L (.release ip k)) : Inv (State.goto { s with owner := update s.owner ip none } p k) := by
  obtain ⟨hclean, hk⟩ := hok
  have hfresh : Fresh s ip := by
    rcases hclean with ⟨v, hl⟩ | hl
    · obtain ⟨-, hv, htype, hsame⟩ := hL.status ip _ hl
      refine fun _ => ⟨hv.trans (hsame rfl).symm, ?_⟩
      rwa [hv, ← hsame rfl]
    · exact hL.status ip .unread hl
  have howner : s.owner ip = some p := (hL.locks ip).mpr
    (by rcases hclean with ⟨v, hl⟩ | hl <;> rw [hl] <;> exact nofun)
  refine hs.owner (x := none) hL hk ⟨nofun, fun h => absurd rfl h⟩ (fun q hqp => ?_) (fun h => absurd rfl h) nofun
    fun _ _ => hfresh
  rw [howner]
  exact ⟨nofun, fun h => absurd (some.inj h).symm hqp⟩

theorem Inv.last {k : Bool → Code} (hvalid : s.valid ip = true) (hfree : s.owner ip = none) (hok : Ok L (.last ip k)) :
    Inv (State.goto { s with owner := update s.owner ip (some p) } p (k true)) := by
  obtain ⟨heq, htype⟩ := hs.free ip hfree (hL.pos hs (.inl hok.1)) hvalid
  have htype' : (s.dinode (s.inum ip)).type ≠ 0 := heq ▸ htype
  have hgood : Good (s.node ip) := heq ▸ hs.disk _ htype'
  refine hs.owner (x := some (.has (s.node ip) false)) hL (hok.2.2.2 (hL.unlocked hfree) _ hgood)
    ⟨fun _ => nofun, fun _ => rfl⟩ (fun q hqp => ?_)
    (fun _ => .inl hok.1) (fun h hh => ?_) nofun
  · rw [hfree]
    exact ⟨fun h => absurd (some.inj h).symm hqp, nofun⟩
  · cases some.inj hh
    exact ⟨hvalid, rfl, htype', fun _ => heq.symm⟩

end

theorem Inv.act {n : Nat} {c : Option Nat} {f : F} (h : s.act p n c f (s.code p) = some t) : Inv t := by
  obtain ⟨L, hL⟩ := hs.locals p
  have hok := hL.ok
  generalize s.code p = code at h hok
  cases code with
  | done cwd => cases h
  | exited => cases h
  | panic => cases h
  | iget i k =>
    simp only [State.act] at h
    split at h
    next ip hfind =>
      cases some.inj h
      exact hs.take hL (find_some hfind).2.1 (hok ip)
    next hfind =>
      split at h
      next =>
        cases some.inj h
        exact hs.goto (k := .panic) hL trivial
      next ip hempty =>
        cases some.inj h
        obtain ⟨hlt, hzero⟩ := empty_some hempty
        exact hs.recycle hL hlt hzero (hs.find_none hfind) (hok ip)
  | idup ip k =>
    cases some.inj h
    exact hs.take hL (hL.pos hs (.inl hok.1)) hok.2
  | acquire ip k =>
    simp only [State.act] at h
    split at h
    next hfree => cases some.inj h; exact hs.acquire hL hfree hok
    next => cases h
  | load ip k =>
    exact (hs.load hL hok h).1
  | read ip k =>
    cases some.inj h
    obtain ⟨v, d, hl, hk⟩ := hok
    have hv := (hL.status ip _ hl).2.1
    exact hs.goto hL (hv ▸ hk)
  | set ip g k => cases some.inj h; exact hs.set hL hok
  | iupdate ip k => cases some.inj h; exact hs.iupdate hL hok
  | invalidate ip k => cases some.inj h; exact hs.invalidate hL hok
  | release ip k => cases some.inj h; exact hs.release hL hok
  | last ip k =>
    simp only [State.act] at h
    split at h
    next htest =>
      split at h
      next hfree => cases some.inj h; exact hs.last hL htest.2.1 hfree hok
      next => cases h
    next => cases some.inj h; exact hs.goto hL hok.2.2.1
  | deref ip k => cases some.inj h; exact hs.deref hL hok.1 hok.2.1 hok.2.2
  | ialloc type k =>
    cases c with
    | none => cases some.inj h; exact hs.goto hL (hok.2 none)
    | some c =>
      simp only [State.act] at h
      split at h
      next hfree => cases some.inj h; exact hs.ialloc hL hok.1 hfree (hok.2 (some c))
      next => cases h
  | choose k => cases some.inj h; exact hs.goto hL (hok n)
  | install ip k =>
    simp only [State.act] at h
    split at h
    next hnew => cases some.inj h; exact hs.install hL hok.1 hok.2.1 hok.2.2 hnew
    next => cases h

end

end Steps

section Calls

variable {P F : Type} [DecidableEq P] [DecidableEq F] {s t : State P F} {p q : P} {L : Local} {cwd : Slot} {k : Code}

inductive Call (F : Type)
  | mkdir (path : Path)
  | mknod (path : Path) (major minor : Int)
  | open (path : Path) (creating rdonly trunc : Bool)
  | chdir (path : Path)
  | link (old new : Path)
  | unlink (path : Path)
  | exec (path : Path) (reads : List (Nat × Nat))
  | read (f : F) (n : Nat)
  | write (f : F) (n : Nat)
  | stat (f : F)
  | close (f : F)
  | exit

def State.call (s : State P F) (p : P) (cwd : Slot) : Call F → Option (State P F)
  | .mkdir path => some (s.goto p (sysMknod cwd path tdir 0 0))
  | .mknod path major minor => some (s.goto p (sysMknod cwd path tdevice major minor))
  | .open path creating rdonly trunc => some (s.goto p (sysOpen cwd path creating rdonly trunc))
  | .chdir path => some (s.goto p (sysChdir cwd path))
  | .link old new => some (s.goto p (sysLink cwd old new))
  | .unlink path => some (s.goto p (sysUnlink cwd path))
  | .exec path reads => some (s.goto p (exec cwd path reads))
  | .read f n => if (p, f) ∈ s.desc then some (s.goto p (fileread cwd (s.ip f) n)) else none
  | .write f n => if (p, f) ∈ s.desc then some (s.goto p (filewrite cwd (s.ip f) n)) else none
  | .stat f => if (p, f) ∈ s.desc then some (s.goto p (filestat cwd (s.ip f))) else none
  | .close f =>
    if (p, f) ∈ s.desc then
      if ∃ x ∈ s.desc.erase (p, f), x.2 = f then some { s with desc := s.desc.erase (p, f) }
      else some (State.goto { s with
        desc := s.desc.erase (p, f), held := (.proc p, s.ip f) :: s.held.erase (.file f, s.ip f) } p (fileclose cwd (s.ip f)))
    else none
  | .exit => some (s.goto p (exit cwd))

inductive Ev (P F : Type)
  | call (p : P) (c : Call F)
  | step (p : P) (n : Nat) (c : Option Nat) (f : F)
  /-- `filedup`, by `dup` or for a child -/
  | dup (p q : P) (f : F)
  /-- `np->cwd = idup(p->cwd)` -/
  | fork (p q : P)

def step (s : State P F) : Ev P F → Option (State P F)
  | .call p c =>
    match s.code p with
    | .done cwd => s.call p cwd c
    | _ => none
  | .step p n c f => s.act p n c f (s.code p)
  | .dup p q f => if (p, f) ∈ s.desc then some { s with desc := (q, f) :: s.desc } else none
  | .fork p q =>
    match s.code p, s.code q with
    | .done cwd, .exited => some ((s.take q cwd).goto q (.done cwd))
    | _, _ => none

theorem Real.rest (h : Real p L s) (hc : s.code p = .done cwd) : Real p (plain {cwd}) s := by
  have hok := h.ok
  rw [hc] at hok
  refine ⟨hc ▸ done_ok, fun ip => by rw [h.tokens, hok.1]; rfl, fun ip => ?_, fun ip hl => absurd rfl hl, nofun, nofun⟩
  rw [h.locks, hok.2 ip]
  exact Iff.rfl

section
variable (hs : Inv s)
include hs

section
variable (hc : s.code p = .done cwd)
include hc

theorem Inv.started (hk : Ok (plain {cwd}) k) : Inv (s.goto p k) := by
  obtain ⟨L, hL⟩ := hs.locals p
  exact hs.goto (hL.rest hc) hk

theorem Inv.access {f : F} (hf : (p, f) ∈ s.desc) (hk : Ok (pinned cwd (s.ip f)) k) :
    Inv (s.goto p k) := by
  obtain ⟨L, hL⟩ := hs.locals p
  have hrest := hL.rest hc
  have hpinned : Real p (pinned cwd (s.ip f)) s :=
    ⟨hc ▸ pinned_done, hrest.tokens, hrest.locks, fun ip hl => absurd rfl hl, fun ip hip => ⟨f, hf, some.inj hip⟩,
      nofun⟩
  exact hs.goto hpinned hk

theorem Inv.closeShared {f : F} : Inv { s with desc := s.desc.erase (p, f) } := by
  obtain ⟨L, hL⟩ := hs.locals p
  have hrest := hL.rest hc
  have hfr : Frame p s { s with desc := s.desc.erase (p, f) } :=
    ⟨fun _ _ => rfl, fun _ _ _ => rfl, fun _ _ _ => Iff.rfl,
      fun q hq g h => ⟨(List.mem_erase_of_ne fun heq => hq (congrArg Prod.fst heq)).mpr h, rfl⟩,
      fun q _ Lq hq j h hl => (hq.status j h hl).keep ⟨rfl, rfl, rfl, rfl⟩⟩
  exact ⟨hfr.locals hs (M := plain {cwd}) ⟨hrest.ok, hrest.tokens, hrest.locks, hrest.backed, nofun, nofun⟩, hs.refs,
    fun q g h => hs.files q g (List.mem_of_mem_erase h), hs.small, hs.once,
    fun j hj hpos => (hs.free j hj hpos).keep ⟨rfl, rfl, rfl, rfl⟩, hs.disk⟩

theorem Inv.closeLast {f : F} (hf : (p, f) ∈ s.desc) (hlast : ¬ ∃ x ∈ s.desc.erase (p, f), x.2 = f) :
    Inv (State.goto { s with
      desc := s.desc.erase (p, f), held := (.proc p, s.ip f) :: s.held.erase (.file f, s.ip f) } p (fileclose cwd (s.ip f))) := by
  obtain ⟨L, hL⟩ := hs.locals p
  have hrest := hL.rest hc
  have hheld := hs.files p f hf
  have hfr : Frame p s (State.goto { s with
    desc := s.desc.erase (p, f), held := (.proc p, s.ip f) :: s.held.erase (.file f, s.ip f) } p
      (fileclose cwd (s.ip f))) := by
    refine ⟨fun q hq => goto_code hq, fun q hq j => ?_, fun _ _ _ => Iff.rfl,
      fun q hq g h => ⟨(List.mem_erase_of_ne fun heq => hq (congrArg Prod.fst heq)).mpr h, rfl⟩,
      fun q _ Lq hq j h hl => (hq.status j h hl).keep ⟨rfl, rfl, rfl, rfl⟩⟩
    exact (RefCount.count_take (proc_ne hq) _ _ j).trans (RefCount.count_drop (proc_ne_file q f) _ _ j)
  refine ⟨hfr.locals hs (M := plain (s.ip f ::ₘ {cwd})) ⟨goto_ok fileclose_ok,
    hrest.holds.receive (proc_ne_file p f) _, hrest.locks, fun ip hl => absurd rfl hl,
    nofun, nofun⟩, hs.counts.move hheld _, fun q g h => ?_, hs.small, hs.once,
      fun j hj hpos => (hs.free j hj hpos).keep ⟨rfl, rfl, rfl, rfl⟩, hs.disk⟩
  · have hne : g ≠ f := fun heq => hlast ⟨(q, g), h, heq⟩
    refine List.mem_cons_of_mem _
      ((List.mem_erase_of_ne fun heq => hne ?_).mpr (hs.files q g (List.mem_of_mem_erase h)))
    exact Holder.file.inj (congrArg Prod.fst heq)

theorem Inv.call {c : Call F} (h : s.call p cwd c = some t) : Inv t := by
  cases c with
  | mkdir path | mknod path major minor => cases some.inj h; exact hs.started hc (sysMknod_ok (by decide))
  | «open» | chdir | link | unlink | exec | exit =>
    cases some.inj h
    exact hs.started hc
      (by first | exact sysOpen_ok | exact sysChdir_ok | exact sysLink_ok | exact sysUnlink_ok | exact exec_ok | exact exit_ok)
  | read f n | write f n | stat f =>
    simp only [State.call] at h
    split at h
    next hf =>
      cases some.inj h
      exact hs.access hc hf (by first | exact fileread_ok | exact filewrite_ok | exact filestat_ok)
    next => cases h
  | close f =>
    simp only [State.call] at h
    split at h
    next hf =>
      split at h
      next => cases some.inj h; exact hs.closeShared hc
      next hlast => cases some.inj h; exact hs.closeLast hc hf hlast
    next => cases h

end

theorem Inv.fork (hp : s.code p = .done cwd) (hq : s.code q = .exited) : Inv ((s.take q cwd).goto q (.done cwd)) := by
  obtain ⟨L, hL⟩ := hs.locals p
  obtain ⟨Lq, hLq⟩ := hs.locals q
  have hok := hLq.ok
  rw [hq] at hok
  refine hs.take hLq ((hL.rest hp).pos hs (.inl (Multiset.mem_singleton_self cwd))) ⟨?_, hok.2⟩
  show cwd ::ₘ Lq.refs = {cwd}
  rw [hok.1, Multiset.cons_zero]

theorem Inv.step {e : Ev P F} (h : step s e = some t) : Inv t := by
  cases e with
  | step p n c f => exact hs.act h
  | call p c =>
    simp only [InodeCache.step] at h
    split at h
    next cwd hc => exact hs.call hc h
    next => cases h
  | dup p q f =>
    simp only [InodeCache.step] at h
    split at h
    next hf =>
      cases some.inj h
      refine ⟨fun r => ?_, hs.refs, fun r g hmem => ?_, hs.small, hs.once,
        fun j hj hpos => (hs.free j hj hpos).keep ⟨rfl, rfl, rfl, rfl⟩, hs.disk⟩
      · obtain ⟨L, hL⟩ := hs.locals r
        refine ⟨L, hL.ok, hL.tokens, hL.locks, hL.backed, fun i hi => ?_,
          fun j x hx => (hL.status j x hx).keep ⟨rfl, rfl, rfl, rfl⟩⟩
        obtain ⟨g, hg, hgi⟩ := hL.pin i hi
        exact ⟨g, List.mem_cons_of_mem _ hg, hgi⟩
      · rcases List.mem_cons.mp hmem with heq | hmem
        · cases heq
          exact hs.files p f hf
        · exact hs.files r g hmem
    next => cases h
  | fork p q =>
    simp only [InodeCache.step] at h
    split at h
    next cwd hp hq =>
      cases some.inj h
      exact hs.fork hp hq
    next => cases h

end

/-- No call is in progress, the counts are right, what is valid agrees with the disk, and no inode has a hole. -/
structure Quiet (s : State P F) : Prop where
  code : ∀ p, (∃ cwd, s.code p = .done cwd ∧ ∀ ip, s.held.count (.proc p, ip) = ({cwd} : Multiset Slot).count ip) ∨
    s.code p = .exited ∧ ∀ ip, s.held.count (.proc p, ip) = 0
  owner : ∀ ip, s.owner ip = none
  refs : ∀ ip, s.ref ip = s.held.countP fun x => x.2 = ip
  files : ∀ p f, (p, f) ∈ s.desc → (.file f, s.ip f) ∈ s.held
  small : ∀ ip, 0 < s.ref ip → ip < ninode
  once : ∀ a b, 0 < s.ref a → 0 < s.ref b → s.inum a = s.inum b → a = b
  fresh : ∀ ip, 0 < s.ref ip → Fresh s ip
  image : ∀ i, (s.dinode i).type ≠ 0 → SolidTo (s.dinode i) (s.dinode i).size

theorem Quiet.inv (h : Quiet s) : Inv s := by
  refine ⟨fun p => ?_, h.refs, h.files, h.small, h.once, fun ip _ hpos => h.fresh ip hpos,
    fun i hi => ⟨hi, h.image i hi⟩⟩
  have hlocks : ∀ ip, s.owner ip = some p ↔ (plain 0).locks ip ≠ none := fun ip => by
    rw [h.owner ip]
    exact ⟨nofun, fun hl => absurd rfl hl⟩
  rcases h.code p with ⟨cwd, hc, htokens⟩ | ⟨hc, htokens⟩
  · exact ⟨plain {cwd}, hc ▸ done_ok, htokens, hlocks, fun ip hl => absurd rfl hl, nofun, nofun⟩
  · exact ⟨plain 0, hc ▸ ⟨rfl, fun _ => rfl⟩, fun ip => (htokens ip).trans (Multiset.count_zero ip).symm, hlocks,
      fun ip hl => absurd rfl hl, nofun, nofun⟩

theorem Inv.unlocked {ip : Slot} (hs : Inv s) (hc : s.code p = .deref ip k) (hone : s.ref ip = 1) :
    s.owner ip = none := by
  obtain ⟨L, hL⟩ := hs.locals p
  have hok := hL.ok
  rw [hc] at hok
  have hmine := hL.mem_held hok.1
  rw [eq_none_iff_forall_ne_some]
  intro q hq
  by_cases hqp : q = p
  · subst hqp
    have := hs.counts.two_le_again hL.holds (hok.2.1 ((hL.locks ip).mp hq))
    omega
  · obtain ⟨Lq, hLq⟩ := hs.locals q
    have htwo : 2 ≤ s.ref ip := by
      rcases hLq.backed ip ((hLq.locks ip).mp hq) with hmem | hpin
      · exact hs.counts.two_le hmine (hLq.mem_held hmem) (proc_ne hqp).symm
      · obtain ⟨f, hf, rfl⟩ := hLq.pin ip hpin
        exact hs.counts.two_le hmine (hs.files q f hf) (proc_ne_file p f)
    omega

/-- In every state that any interleaving of calls reaches from an image without holes: an entry that is referred to,
valid and not locked agrees with its dinode, and so does one whose last reference is dropped; `iupdate` changes no
other dinode; and the fields that a process has after `ilock` are those of the disk, also if the inode number was
freed and handed out again. -/
theorem cache_agrees {evs : List (Ev P F)} (hstart : Quiet s) (hrun : Transition.Run step s evs t) :
    (∀ ip, 0 < t.ref ip → t.valid ip = true → t.owner ip = none →
      t.node ip = t.block (t.inum ip / ipb + t.inodestart) (t.inum ip % ipb)) ∧
    (∀ p ip k, t.code p = .deref ip k → t.ref ip = 1 → t.valid ip = true → t.node ip = t.dinode (t.inum ip)) ∧
    (∀ p ip k n c f t', t.code p = .iupdate ip k → step t (.step p n c f) = some t' → ∀ i, i ≠ t.inum ip →
      t'.dinode i = t.dinode i) ∧
    ∀ p ip k n c f t', t.code p = .load ip k → step t (.step p n c f) = some t' →
      t'.node ip = t'.dinode (t'.inum ip) := by
  have hs : Inv t := hrun.invariant (P := fun _ s => Inv s) hstart.inv fun _ hi ht => hi.step ht
  refine ⟨fun ip hpos hvalid howner => (hs.free ip howner hpos hvalid).1, fun p ip k hc hone hvalid => ?_,
    fun p ip k n c f t' hc h i hi => ?_, fun p ip k n c f t' hc h => ?_⟩
  · exact (hs.free ip (hs.unlocked hc hone) (by omega) hvalid).1
  · simp only [step, hc] at h
    cases some.inj h
    exact dinode_set_of_ne (s := t) hi
  · obtain ⟨L, hL⟩ := hs.locals p
    have hok := hL.ok
    rw [hc] at hok
    simp only [step, hc] at h
    exact (hs.load hL hok h).2

end Calls

def twoProcs : State Bool Unit where
  block b i :=
    if b = 32 ∧ i = 1 then ⟨tdir, 0, 0, 1, 1024, fun j => if j = 0 then 46 else 0⟩
    else if b = 32 ∧ i = 2 then ⟨tfile, 0, 0, 1, 0, fun _ => 0⟩
    else Dinode.zero
  inodestart := 32
  inum _ := 1
  ref ip := if ip = 0 then 2 else 0
  valid _ := false
  node _ := Dinode.zero
  owner _ := none
  code _ := .done 0
  desc := []
  ip _ := 0
  held := [(.proc false, 0), (.proc true, 0)]

theorem twoProcs_quiet : Quiet twoProcs where
  code p := by
    refine .inl ⟨0, rfl, fun ip => ?_⟩
    by_cases hip : ip = 0
    · cases p <;> simp [twoProcs, hip]
    · cases p <;> simp [twoProcs, hip, Ne.symm hip]
  owner _ := rfl
  refs ip := by
    by_cases hip : ip = 0
    · simp [twoProcs, hip]
    · simp [twoProcs, hip, Ne.symm hip]
  files _ _ h := absurd h List.not_mem_nil
  small ip hpos := by
    by_cases hip : ip = 0
    · rw [hip]
      decide
    · simp [twoProcs, hip] at hpos
  once a b ha hb _ := by
    have hzero : ∀ ip, 0 < twoProcs.ref ip → ip = 0 := fun ip hpos => by
      by_contra hip
      simp [twoProcs, hip] at hpos
    rw [hzero a ha, hzero b hb]
  fresh _ _ h := absurd h Bool.false_ne_true
  image i hi bn hbn := by
    have hi : (twoProcs.block (i / ipb + 32) (i % ipb)).type ≠ 0 := hi
    have hbn : bn * bsize < (twoProcs.block (i / ipb + 32) (i % ipb)).size := hbn
    show Mapped (twoProcs.block (i / ipb + 32) (i % ipb)) bn
    simp only [twoProcs] at hi hbn ⊢
    split at hbn
    next hroot =>
      have hzero : bn = 0 := by
        simp only [bsize] at hbn
        omega
      rw [if_pos hroot, hzero]
      simp [Mapped]
    next => split at hbn <;> exact absurd hbn (Nat.not_lt_zero _)

/-- `link` up to the `iunlock` of the old inode, number 2, whose link count it has written. -/
def oneLink : List (Ev Bool Unit) :=
  .call false (.link ⟨true, 1⟩ ⟨true, 1⟩) :: List.replicate 19 (.step false 2 none ())

theorem oneLink_agrees : ∃ t, Transition.Run step twoProcs oneLink t ∧ t.valid 1 = true ∧ (t.node 1).nlink = 2 ∧
    t.node 1 = t.block (t.inum 1 / ipb + t.inodestart) (t.inum 1 % ipb) := by
  have hrun : (Transition.exec step twoProcs oneLink).any
      (fun t => 0 < t.ref 1 ∧ t.valid 1 = true ∧ t.owner 1 = none ∧ (t.node 1).nlink = 2) = true := by
    decide +kernel
  obtain ⟨t, hexec, ht⟩ := (Option.any_eq_true _ _).mp hrun
  obtain ⟨hpos, hvalid, howner, hlinks⟩ := of_decide_eq_true ht
  have hrun := Transition.run_of_exec hexec
  exact ⟨t, hrun, hvalid, hlinks, (cache_agrees twoProcs_quiet hrun).1 1 hpos hvalid howner⟩

end Xv6.InodeCache
