import Mathlib.Logic.Relation
import Xv6.Lib.Run
import Xv6.InodeLocks.Machine

namespace Xv6.InodeLocks

open Option

section Calls

variable {P F : Type} [DecidableEq P] [DecidableEq F] {s t : State P F} {p q : P} {L : Local} {i : Nat} {d c : Nat}

open Function

inductive Call (F : Type)
  | mkdir (path : Path)
  | mknod (path : Path)
  | open (path : Path) (creating rdonly : Bool)
  | chdir (path : Path)
  | link (old new : Path)
  | unlink (path : Path)
  /-- `fileread`, `filewrite` and `filestat` -/
  | access (f : F)
  | close (f : F)

local instance lawfulDesc : LawfulBEq (P × F) := inferInstance

def State.call (s : State P F) (p : P) (cwd : Nat) : Call F → Option (State P F)
  | .mkdir path => some (s.goto p (sysMknod cwd path .dir))
  | .mknod path => some (s.goto p (sysMknod cwd path .device))
  | .open path creating rdonly => some (s.goto p (sysOpen cwd path creating rdonly))
  | .chdir path => some (s.goto p (sysChdir cwd path))
  | .link old new => some (s.goto p (sysLink cwd old new))
  | .unlink path => some (s.goto p (sysUnlink cwd path))
  | .access f => if (p, f) ∈ s.desc then some (s.goto p (fileAccess cwd (s.ip f))) else none
  | .close f =>
    if (p, f) ∈ s.desc then
      if ∃ x ∈ s.desc.erase (p, f), x.2 = f then some { s with desc := s.desc.erase (p, f) }
      else some (State.goto { s with
        desc := s.desc.erase (p, f), held := (.proc p, s.ip f) :: s.held.erase (.file f, s.ip f) } p (closeLast cwd (s.ip f)))
    else none

inductive Ev (P F : Type)
  | call (p : P) (c : Call F)
  | step (p : P) (b : Bool) (inum : Option Nat) (f : F)
  /-- `filedup`, by `dup` or for a child -/
  | dup (p q : P) (f : F)

def step (s : State P F) : Ev P F → Option (State P F)
  | .call p c =>
    match s.code p with
    | .done cwd => s.call p cwd c
    | _ => none
  | .step p b inum f => s.act p b inum f (s.code p)
  | .dup p q f => if (p, f) ∈ s.desc then some { s with desc := (q, f) :: s.desc } else none

theorem Real.rest {cwd : Nat} (h : Real p L s) (hc : s.code p = .done cwd) : Real p (plain {cwd} ∅) s := by
  have hok := h.ok
  rw [hc] at hok
  refine ⟨hc ▸ done_ok, fun i => ?_, fun i => ?_, fun i hi => absurd hi (Set.notMem_empty i), nofun,
    fun x hx => absurd hx (Set.notMem_empty x)⟩
  · rw [h.tokens, hok.2]
  · rw [h.locks, hok.1]

theorem Inv.started {cwd : Nat} {k : Code} (hs : Inv s) (hc : s.code p = .done cwd) (hk : Ok (plain {cwd} ∅) k) : Inv (s.goto p k) := by
  obtain ⟨L, hL⟩ := hs.locals p
  exact hs.goto (hL.rest hc) hk rfl rfl rfl fun x hx => absurd hx (Set.notMem_empty x)

section
variable {f : F} {cwd : Nat} (hs : Inv s) (hc : s.code p = .done cwd)
include hs hc

theorem Inv.access (hf : (p, f) ∈ s.desc) : Inv (s.goto p (fileAccess cwd (s.ip f))) := by
  obtain ⟨L, hL⟩ := hs.locals p
  have hrest := hL.rest hc
  refine hs.of_frame (M := ⟨{cwd}, some (s.ip f), ∅, ∅⟩) ⟨fun q hq => Function.update_of_ne hq _ _, fun _ _ _ => rfl, fun _ _ _ => Iff.rfl,
    fun _ _ _ h => ⟨h, rfl⟩, fun q _ Lq hq x hx => (hq.facts x hx).1.same rfl rfl⟩ ⟨?_, hrest.tokens, hrest.locks,
    fun i hi => absurd hi (Set.notMem_empty i), fun i hi => ⟨f, hf, some.inj hi⟩, fun x hx => absurd hx (Set.notMem_empty x)⟩
    hs.refs hs.files hs.edges hs.ages hs.valid
  show Ok _ (update s.code p _ p)
  rw [Function.update_self]
  exact fileAccess_ok

theorem Inv.closeShared : Inv { s with desc := s.desc.erase (p, f) } := by
  obtain ⟨L, hL⟩ := hs.locals p
  have hrest := hL.rest hc
  refine hs.of_frame (M := plain {cwd} ∅) ⟨fun _ _ => rfl, fun _ _ _ => rfl, fun _ _ _ => Iff.rfl, fun q hq f' h => ⟨?_, rfl⟩,
    fun q _ Lq hq x hx => (hq.facts x hx).1.same rfl rfl⟩ ⟨hrest.ok, hrest.tokens, hrest.locks, hrest.backed, nofun,
    fun x hx => absurd hx (Set.notMem_empty x)⟩ hs.refs (fun q f' h => hs.files q f' (List.mem_of_mem_erase h)) hs.edges hs.ages hs.valid
  exact (List.mem_erase_of_ne fun heq => hq (congrArg Prod.fst heq)).mpr h

theorem Inv.closeLast (hf : (p, f) ∈ s.desc) (hlast : ¬ ∃ x ∈ s.desc.erase (p, f), x.2 = f) :
    Inv (State.goto { s with
      desc := s.desc.erase (p, f), held := (.proc p, s.ip f) :: s.held.erase (.file f, s.ip f) } p (closeLast cwd (s.ip f))) := by
  obtain ⟨L, hL⟩ := hs.locals p
  have hrest := hL.rest hc
  have hheld := hs.files p f hf
  refine hs.of_frame (M := plain (s.ip f ::ₘ {cwd}) ∅) ⟨fun q hq => Function.update_of_ne hq _ _, fun q hq j => ?_, fun _ _ _ => Iff.rfl,
    fun q hq f' h => ⟨(List.mem_erase_of_ne fun heq => hq (congrArg Prod.fst heq)).mpr h, rfl⟩,
    fun q _ Lq hq x hx => (hq.facts x hx).1.same rfl rfl⟩ ⟨?_, hrest.holds.receive (proc_ne_file p f) _, hrest.locks,
    fun i hi => absurd hi (Set.notMem_empty i), nofun, fun x hx => absurd hx (Set.notMem_empty x)⟩
    (hs.counts.move hheld _) (fun q f' h => ?_) hs.edges hs.ages hs.valid
  · exact (RefCount.count_take (proc_ne hq) _ _ j).trans (RefCount.count_drop (proc_ne_file q f) _ _ j)
  · show Ok _ (update s.code p _ p)
    rw [Function.update_self]
    exact closeLast_ok
  · have hne : f' ≠ f := fun heq => hlast ⟨(q, f'), h, heq⟩
    refine List.mem_cons_of_mem _ ((List.mem_erase_of_ne fun heq => hne ?_).mpr (hs.files q f' (List.mem_of_mem_erase h)))
    exact Holder.file.inj (congrArg Prod.fst heq)

end

theorem Inv.step {e : Ev P F} (hs : Inv s) (h : step s e = some t) : Inv t := by
  cases e with
  | step p b inum f => exact hs.act h
  | dup p q f =>
    simp only [InodeLocks.step] at h
    split at h
    next hf =>
      cases some.inj h
      refine ⟨fun r => ?_, hs.refs, fun r f' hmem => ?_, hs.edges, hs.ages, hs.valid⟩
      · obtain ⟨L, hL⟩ := hs.locals r
        refine ⟨L, hL.ok, hL.tokens, hL.locks, hL.backed, fun i hi => ?_, fun x hx => ⟨(hL.facts x hx).1.same rfl rfl, (hL.facts x hx).2⟩⟩
        obtain ⟨f', hf', hi'⟩ := hL.pin i hi
        exact ⟨f', List.mem_cons_of_mem _ hf', hi'⟩
      · rcases List.mem_cons.mp hmem with heq | hmem
        · cases heq
          exact hs.files p f hf
        · exact hs.files r f' hmem
    next => cases h
  | call p c =>
    simp only [InodeLocks.step] at h
    split at h
    next cwd hc =>
      cases c with
      | mkdir path | mknod path => cases some.inj h; exact hs.started hc (sysMknod_ok (by decide))
      | «open» | chdir | link | unlink =>
        cases some.inj h
        exact hs.started hc (by first | exact sysOpen_ok | exact sysChdir_ok | exact sysLink_ok | exact sysUnlink_ok)
      | access f =>
        simp only [State.call] at h
        split at h
        next hf => cases some.inj h; exact hs.access hc hf
        next => cases h
      | close f =>
        simp only [State.call] at h
        split at h
        next hf =>
          split at h
          next => cases some.inj h; exact hs.closeShared hc
          next hlast => cases some.inj h; exact hs.closeLast hc hf hlast
        next => cases h
    next => cases h

/-- No call is in progress, the counts are right, and along the entries of the directories `age` grows, as it
can in a tree. -/
structure Quiet (s : State P F) : Prop where
  code : ∀ p, ∃ cwd, s.code p = .done cwd ∧ ∀ i, s.held.count (.proc p, i) = ({cwd} : Multiset Nat).count i
  owner : ∀ i, s.owner i = none
  refs : ∀ i, s.ref i = s.held.countP fun x => x.2 = i
  files : ∀ p f, (p, f) ∈ s.desc → (.file f, s.ip f) ∈ s.held
  edges : Edges s
  ages : ∀ i, s.age i < s.clock
  valid : ∀ i, s.valid i = true → (s.node i).type ≠ .free

theorem Quiet.inv (h : Quiet s) : Inv s := by
  refine ⟨fun p => ?_, h.refs, h.files, h.edges, h.ages, h.valid⟩
  obtain ⟨cwd, hc, htokens⟩ := h.code p
  refine ⟨plain {cwd} ∅, hc ▸ done_ok, htokens, fun i => ?_, fun i hi => absurd hi (Set.notMem_empty i), nofun,
    fun x hx => absurd hx (Set.notMem_empty x)⟩
  rw [h.owner i]
  exact ⟨nofun, fun hi => absurd hi (Set.notMem_empty i)⟩

/-- Some process holds the lock of `d` and waits for the lock of `c`. -/
def Waits (s : State P F) (d c : Nat) : Prop := ∃ p k, s.owner d = some p ∧ s.code p = .acquire c k

theorem Inv.waits (hs : Inv s) (h : Waits s d c) : (s.node d).type = .dir ∧
    ((∃ e ∈ (s.node d).ents, e.inum = c ∧ e.inum ≠ 0 ∧ ¬ Dot e.name) ∨ s.age d < s.age c) := by
  obtain ⟨p, k, howner, hc⟩ := h
  obtain ⟨L, hL⟩ := hs.locals p
  have hok := hL.ok
  rw [hc] at hok
  obtain ⟨hdir, hor⟩ := hok.2.1 d ((hL.locks d).mp howner)
  refine ⟨(hL.facts _ hdir).1, hor.imp ?_ fun hyoung => (hL.facts (.younger d c) hyoung).1.2⟩
  rintro ⟨name, hdot, hentry⟩
  obtain ⟨-, e, he, hne, rfl, hec⟩ := (hL.facts (.entry d name c) hentry).1
  exact ⟨e, he, hec, hne, hdot⟩

theorem Inv.waits_below (hs : Inv s) (h : Waits s d c) :
    (s.node d).type = .dir ∧ ((s.node c).type = .dir → s.age d < s.age c) := by
  obtain ⟨hdir, ⟨e, he, rfl, hne, hdot⟩ | hyoung⟩ := hs.waits h
  · exact ⟨hdir, (hs.edges d hdir e he hne hdot).neg_resolve_left⟩
  · exact ⟨hdir, fun _ => hyoung⟩

theorem Inv.waits_trans (hs : Inv s) (h : Relation.TransGen (Waits s) d c) :
    (s.node d).type = .dir ∧ ((s.node c).type = .dir → s.age d < s.age c) := by
  induction h with
  | single h => exact hs.waits_below h
  | tail _ h ih =>
    obtain ⟨hdir, hlt⟩ := hs.waits_below h
    exact ⟨ih.1, fun hc => (ih.2 hdir).trans (hlt hc)⟩

/-- In every state that any interleaving of calls reaches: a process that holds the lock of an inode has a
reference to it that is counted, `iput` never waits for the lock, and the processes that wait for one lock while
they hold another do so from a directory to an entry of it or to a younger inode, never in a circle. -/
theorem locks_acyclic {evs : List (Ev P F)} (hstart : Quiet s) (hrun : Transition.Run step s evs t) :
    (∀ i, t.ref i = t.held.countP fun x => x.2 = i) ∧
    (∀ i p, t.owner i = some p → (.proc p, i) ∈ t.held ∨ ∃ f, (p, f) ∈ t.desc ∧ t.ip f = i ∧ (.file f, i) ∈ t.held) ∧
    (∀ p i k, t.code p = .last i k → t.ref i = 1 → t.owner i = none) ∧
    (∀ d c, Waits t d c → (t.node d).type = .dir ∧
      ((∃ e ∈ (t.node d).ents, e.inum = c ∧ e.inum ≠ 0 ∧ ¬ Dot e.name) ∨ t.age d < t.age c)) ∧
    ∀ d, ¬ Relation.TransGen (Waits t) d d := by
  have hs : Inv t := hrun.invariant (P := fun _ s => Inv s) hstart.inv fun _ hi ht => hi.step ht
  refine ⟨hs.refs, fun i p hi => ?_, fun p i k hc hone => ?_, fun d c h => hs.waits h, fun d h => ?_⟩
  · obtain ⟨L, hL⟩ := hs.locals p
    exact hL.counted hs hi
  · obtain ⟨L, hL⟩ := hs.locals p
    have hok := hL.ok
    rw [hc] at hok
    obtain ⟨hself, -, hsole⟩ := hs.sole hL hok.1 hone
    rw [eq_none_iff_forall_ne_some]
    intro q hq
    exact hself (hok.2.1 ((hL.locks i).mp (hsole q hq ▸ hq)))
  · obtain ⟨hdir, hlt⟩ := hs.waits_trans h
    exact lt_irrefl _ (hlt hdir)

end Calls

def twoProcs : State Bool Unit where
  node := fun i => if i = 1 then ⟨.dir, 1, [⟨dot, 1⟩, ⟨dotdot, 1⟩, ⟨[97], 2⟩]⟩ else if i = 2 then ⟨.file, 1, []⟩ else .free
  ref := fun i => if i = 1 then 2 else 0
  valid := fun _ => false
  owner := fun _ => none
  code := fun _ => .done 1
  desc := []
  ip := fun _ => 0
  held := [(.proc false, 1), (.proc true, 1)]
  age := fun _ => 0
  clock := 1

theorem twoProcs_quiet : Quiet twoProcs where
  code p := by
    refine ⟨1, rfl, fun i => ?_⟩
    by_cases hi : i = 1
    · cases p <;> simp [twoProcs, hi]
    · cases p <;> simp [twoProcs, hi, Ne.symm hi]
  owner _ := rfl
  refs i := by
    by_cases hi : i = 1
    · simp [twoProcs, hi]
    · simp [twoProcs, hi, Ne.symm hi]
  files _ _ h := absurd h List.not_mem_nil
  edges d hd e he hne hdot := by
    have hd : (twoProcs.node d).type = .dir := hd
    by_cases hone : d = 1
    · subst hone
      have he : e ∈ [⟨dot, 1⟩, ⟨dotdot, 1⟩, (⟨[97], 2⟩ : Dirent)] := he
      simp only [List.mem_cons, List.not_mem_nil, or_false] at he
      rcases he with rfl | rfl | rfl
      · exact absurd (.inl rfl) hdot
      · exact absurd (.inr rfl) hdot
      · exact .inl (by decide)
    · have htype : (twoProcs.node d).type ≠ .dir := by
        simp only [twoProcs, if_neg hone]
        split <;> decide
      exact absurd hd htype
  ages _ := Nat.zero_lt_one
  valid _ h := absurd h Bool.false_ne_true

def unlinking : List (Ev Bool Unit) := .call false (.unlink ⟨true, [[97]]⟩) :: List.replicate 9 (.step false true none ())

theorem unlinking_waits : ∃ t, Transition.Run step twoProcs unlinking t ∧ Waits t 1 2 ∧ ∀ d, ¬ Relation.TransGen (Waits t) d d := by
  have hrun : ∃ t, Transition.exec step twoProcs unlinking = some t ∧ Waits t 1 2 := ⟨_, rfl, false, _, rfl, rfl⟩
  obtain ⟨t, hexec, hwaits⟩ := hrun
  have hrun := Transition.run_of_exec hexec
  exact ⟨t, hrun, hwaits, (locks_acyclic twoProcs_quiet hrun).2.2.2.2⟩

end Xv6.InodeLocks
