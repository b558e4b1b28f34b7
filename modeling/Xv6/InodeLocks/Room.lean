import Mathlib.Algebra.BigOperators.Group.Finset.Piecewise
import Mathlib.Algebra.Order.BigOperators.Group.Finset
import Mathlib.Data.Fintype.Card
import Xv6.InodeLocks.Table

/-!
How many references a call can hold at once, and from it how full the table of inodes can get.
-/

namespace Xv6.InodeLocks

open Option Finset Function
open Fs (ninode)

/-- From a point with `n` references on, a call never has more than four: the current directory and three more. -/
def Slim : Nat → Code → Prop
  | _, .done _ => True
  | _, .panic => True
  | n, .iget _ k => n < 4 ∧ Slim (n + 1) k
  | n, .acquire _ k => Slim n k
  | n, .load _ k => Slim n k
  | n, .read _ k => ∀ x, Slim n (k x)
  | n, .write _ _ k => Slim n k
  | n, .release _ k => Slim n k
  | n, .last _ k => ∀ b, Slim n (k b)
  | n, .deref _ k => Slim (n - 1) k
  | n, .ialloc _ k => ∀ c, Slim n (k c)
  | n, .choose k => ∀ b, Slim n (k b)
  | n, .install _ k => Slim (n - 1) k

section Calls

variable {n i d c cwd : Nat} {k : Code} {name : Name} {path : Path}

theorem ite_slim {p : Prop} [Decidable p] {a b : Code} (ha : Slim n a) (hb : Slim n b) : Slim n (if p then a else b) := by
  split
  next => exact ha
  next => exact hb

theorem ilock_slim (h : Slim n k) : Slim n (ilock i k) := h

theorem iput_slim (h : Slim n k) : Slim (n + 1) (iput i k) := fun _ => ite_slim h h

theorem iunlockput_slim (h : Slim n k) : Slim (n + 1) (iunlockput i k) := iput_slim h

theorem dirlookup_slim {k : Option Nat → Code} (hn : n < 4) (hnone : Slim n (k none)) (hsome : ∀ c, Slim (n + 1) (k (some c))) :
    Slim n (dirlookup d name k) := by
  refine fun x => ite_slim ?_ trivial
  split
  next => exact hnone
  next y _ => exact ⟨hn, hsome y.inum⟩

theorem dirlink_slim {k : Bool → Code} (hn : n < 4) (h : ∀ b, Slim n (k b)) : Slim n (dirlink d name c k) :=
  dirlookup_slim hn (fun _ => ite_slim (h true) (h false)) fun _ => iput_slim (h false)

theorem namexLoop_slim {parent : Bool} {path : List Name} {ip : Nat} {k : Option (Nat × Name) → Code} (hn : n < 3) (hnone : Slim n (k none))
    (hsome : ∀ r, Slim (n + 1) (k (some r))) : Slim (n + 1) (namexLoop parent path ip k) := by
  induction path generalizing ip with
  | nil => exact ite_slim (iput_slim hnone) (hsome _)
  | cons name path ih =>
    refine fun x => ite_slim (iunlockput_slim hnone) (ite_slim (hsome _) ?_)
    exact dirlookup_slim (by omega) (iunlockput_slim hnone) fun _ => iunlockput_slim ih

theorem namex_slim {parent : Bool} {k : Option (Nat × Name) → Code} (hn : n < 3) (hnone : Slim n (k none))
    (hsome : ∀ r, Slim (n + 1) (k (some r))) : Slim n (namex parent cwd path k) :=
  ⟨by omega, namexLoop_slim hn hnone hsome⟩

theorem create_slim {type : Kind} {k : Option Nat → Code} (hnone : Slim 1 (k none)) (hsome : ∀ c, Slim 2 (k (some c))) :
    Slim 1 (create cwd path type k) := by
  refine namex_slim (by decide) hnone fun ⟨dp, name⟩ => ?_
  refine ilock_slim (dirlookup_slim (by decide) ?_ fun ip => ?_)
  · intro found
    cases found with
    | none => exact iunlockput_slim hnone
    | some ip =>
      have hfail : Slim 3 (.write ip (fun x => { x with nlink := 0 }) (iunlockput ip (iunlockput dp (k none)))) :=
        iunlockput_slim (iunlockput_slim hnone)
      have hfinish : Slim 3 (dirlink dp name ip fun linked =>
          if linked then
            if type = .dir then .write dp (addLink 1) (iunlockput dp (k (some ip))) else iunlockput dp (k (some ip))
          else .write ip (fun x => { x with nlink := 0 }) (iunlockput ip (iunlockput dp (k none)))) :=
        dirlink_slim (by decide) fun _ => ite_slim (ite_slim (iunlockput_slim (hsome ip)) (iunlockput_slim (hsome ip))) hfail
      refine ⟨by decide, ite_slim ?_ hfinish⟩
      exact dirlink_slim (by decide) fun _ => ite_slim (dirlink_slim (by decide) fun _ => ite_slim hfinish hfail) hfail
  · refine iunlockput_slim (k := ilock ip _) fun x => ?_
    exact ite_slim (hsome ip) (iunlockput_slim hnone)

theorem sysMknod_slim {type : Kind} : Slim 1 (sysMknod cwd path type) :=
  create_slim trivial fun _ => iunlockput_slim trivial

theorem openInode_slim : Slim 2 (openInode cwd i) := fun _ => ite_slim trivial (iunlockput_slim trivial)

theorem sysOpen_slim {creating rdonly : Bool} : Slim 1 (sysOpen cwd path creating rdonly) := by
  refine ite_slim (create_slim trivial fun _ => openInode_slim) (namex_slim (by decide) trivial fun _ x => ?_)
  exact ite_slim (iunlockput_slim trivial) openInode_slim

theorem sysChdir_slim : Slim 1 (sysChdir cwd path) :=
  namex_slim (by decide) trivial fun _ _ => ite_slim (iunlockput_slim trivial) (iput_slim trivial)

theorem sysUnlink_slim : Slim 1 (sysUnlink cwd path) := by
  refine namex_slim (by decide) trivial fun ⟨dp, name⟩ => ite_slim (iunlockput_slim trivial) ?_
  refine dirlookup_slim (by decide) (iunlockput_slim trivial) fun ip x => ite_slim trivial (ite_slim ?_ ?_)
  · exact iunlockput_slim (iunlockput_slim trivial)
  · have hrest : Slim 3 (iunlockput dp <| .write ip (addLink (-1)) <| iunlockput ip (.done cwd)) :=
      iunlockput_slim (k := .write ip _ _) (iunlockput_slim trivial)
    exact ite_slim hrest hrest

/-- With the old file, the directory of the new name and an entry found there a call has the most references. -/
theorem sysLink_slim {old new : Path} : Slim 1 (sysLink cwd old new) := by
  refine namex_slim (by decide) trivial fun ⟨ip, _⟩ x => ite_slim (iunlockput_slim trivial) ?_
  have hbad : Slim 2 (ilock ip <| .write ip (addLink (-1)) <| iunlockput ip (.done cwd)) := iunlockput_slim trivial
  refine namex_slim (n := 2) (by decide) hbad fun ⟨dp, name⟩ => ?_
  exact dirlink_slim (by decide) fun _ => ite_slim (iunlockput_slim (iput_slim (k := .done cwd) trivial)) (iunlockput_slim hbad)

end Calls

section Counts

variable {P F : Type} [DecidableEq P] [DecidableEq F]

def refsOf (held : List (Holder P F × Nat)) (p : P) : Nat := held.countP fun x => x.1 = .proc p

def Holder.isFile : Holder P F → Bool
  | .file _ => true
  | .proc _ => false

def State.files (s : State P F) : Nat := s.held.countP fun x => x.1.isFile

theorem length_held [Fintype P] (l : List (Holder P F × Nat)) : l.length = (l.countP fun x => x.1.isFile) + ∑ p, refsOf l p := by
  induction l with
  | nil => simp [refsOf]
  | cons x l ih =>
    obtain ⟨holder, i⟩ := x
    cases holder with
    | file f => simp [refsOf, Holder.isFile, ih]; omega
    | proc q =>
      have hone : ∀ p, refsOf ((.proc q, i) :: l) p = refsOf l p + if q = p then 1 else 0 := fun p => by
        simp [refsOf, List.countP_cons]
      have hsum : ∑ p, refsOf ((.proc q, i) :: l) p = ∑ p, refsOf l p + 1 := by
        rw [sum_congr rfl fun p _ => hone p, sum_add_distrib, sum_ite_eq, if_pos (mem_univ q)]
      rw [hsum, List.length_cons, List.countP_cons, ih]
      simp [Holder.isFile]
      omega

theorem refsOf_erase {l : List (Holder P F × Nat)} {p q : P} {i : Nat} (h : (.proc p, i) ∈ l) :
    refsOf (l.erase (.proc p, i)) q = refsOf l q - if p = q then 1 else 0 := by
  rw [refsOf, List.countP_erase]
  simp [h, refsOf]

variable {s t : State P F} {p q : P} {L : Local} {k : Code} {i : Nat}

theorem count_snd (l : List (Holder P F × Nat)) (a : Holder P F) (i : Nat) :
    ((l.filter fun x => x.1 = a).map Prod.snd).count i = l.count (a, i) := by
  induction l with
  | nil => rfl
  | cons x l ih =>
    obtain ⟨b, j⟩ := x
    by_cases hb : b = a
    · subst hb
      by_cases hj : j = i
      · simp [hj, ih]
      · simp [hj, ih]
    · simp [hb, ih]

theorem Real.refsOf_eq (h : Real p L s) : refsOf s.held p = L.refs.card := by
  have hsame : (((s.held.filter fun x => x.1 = .proc p).map Prod.snd : List Nat) : Multiset Nat) = L.refs := by
    refine Multiset.ext.mpr fun i => ?_
    rw [Multiset.coe_count, count_snd, h.tokens]
  rw [← hsame, Multiset.coe_card, List.length_map, refsOf, List.countP_eq_length_filter]

theorem Inv.refsOf_rest {cwd : Nat} (hs : Inv s) (hc : s.code p = .done cwd) : refsOf s.held p = 1 := by
  obtain ⟨L, hL⟩ := hs.locals p
  exact (hL.rest hc).refsOf_eq

def Slender (s : State P F) : Prop := ∀ p, Slim (refsOf s.held p) (s.code p) ∧ refsOf s.held p ≤ 4

section
variable (h : Slender s) (hcode : t.code = update s.code p k)
include h hcode

theorem Slender.of (hothers : ∀ q ≠ p, refsOf t.held q = refsOf s.held q)
    (hk : Slim (refsOf t.held p) k) (hle : refsOf t.held p ≤ 4) : Slender t := by
  intro q
  by_cases hqp : q = p
  · rw [hqp, hcode, Function.update_self]
    exact ⟨hk, hle⟩
  · rw [hothers q hqp, hcode, Function.update_of_ne hqp]
    exact h q

theorem Slender.keep (hheld : t.held = s.held) (hk : Slim (refsOf s.held p) k) : Slender t :=
  h.of hcode (fun _ _ => by rw [hheld]) (hheld ▸ hk) (hheld ▸ (h p).2)

theorem Slender.drop (hheld : ∀ q, refsOf t.held q = refsOf s.held q - if p = q then 1 else 0)
    (hk : Slim (refsOf s.held p - 1) k) : Slender t := by
  have hself := hheld p
  rw [if_pos rfl] at hself
  refine h.of hcode (fun q hqp => ?_) (hself ▸ hk) (hself.trans_le ((Nat.sub_le _ 1).trans (h p).2))
  rw [hheld q, if_neg (Ne.symm hqp), Nat.sub_zero]

end

theorem Slender.act {b : Bool} {inum : Option Nat} {f : F} (h : Slender s) (hs : Inv s) (hstep : s.act p b inum f (s.code p) = some t) :
    Slender t := by
  obtain ⟨L, hL⟩ := hs.locals p
  have hok := hL.ok
  have hslim := (h p).1
  generalize s.code p = code at hstep hslim hok
  cases code with
  | done cwd => cases hstep
  | panic => cases hstep
  | iget i k =>
    cases some.inj hstep
    have hone : ∀ q, refsOf ((.proc p, i) :: s.held) q = refsOf s.held q + if p = q then 1 else 0 := fun q => by
      simp [refsOf, List.countP_cons]
    have hself := hone p
    rw [if_pos rfl] at hself
    refine h.of rfl (fun q hqp => ?_) (hself ▸ hslim.2) (hself ▸ hslim.1)
    exact (hone q).trans (by rw [if_neg (Ne.symm hqp)]; rfl)
  | acquire i k | load i k | read i k | write i g k | release i k | last i k | ialloc type k | choose k =>
    -- the references stay what they are
    simp only [State.act] at hstep
    repeat' split at hstep
    all_goals cases hstep <;> first
      | exact h.keep rfl rfl hslim
      | exact h.keep rfl rfl (hslim _)
      | exact h.keep (k := .panic) rfl rfl trivial
  | deref i k =>
    cases some.inj hstep
    exact h.drop rfl (fun _ => refsOf_erase (hL.mem_held hok.1)) hslim
  | install i k =>
    simp only [State.act] at hstep
    split at hstep
    next =>
      cases some.inj hstep
      refine h.drop rfl (fun q => ?_) hslim
      rw [← refsOf_erase (hL.mem_held hok.1)]
      simp [refsOf, State.goto]
    next => cases hstep

theorem Slender.call {cwd : Nat} {c : Call F} (h : Slender s) (hs : Inv s) (hc : s.code p = .done cwd) (hcall : s.call p cwd c = some t) :
    Slender t := by
  have hone := hs.refsOf_rest hc
  have hstart : ∀ k, Slim 1 k → Slender (s.goto p k) := fun k hk => h.keep rfl rfl (hone ▸ hk)
  cases c with
  | mkdir path | mknod path => cases some.inj hcall; exact hstart _ sysMknod_slim
  | «open» | chdir | link | unlink =>
    cases some.inj hcall
    exact hstart _ (by first | exact sysOpen_slim | exact sysChdir_slim | exact sysLink_slim | exact sysUnlink_slim)
  | access f =>
    simp only [State.call] at hcall
    split at hcall
    next => cases some.inj hcall; exact hstart (fileAccess cwd (s.ip f)) trivial
    next => cases hcall
  | close f =>
    simp only [State.call] at hcall
    split at hcall
    next hf =>
      split at hcall
      next => cases some.inj hcall; exact h
      next =>
        cases some.inj hcall
        -- the reference of the file goes over to the process
        have hmore : ∀ q, refsOf ((.proc p, s.ip f) :: s.held.erase (.file f, s.ip f)) q =
            refsOf s.held q + if p = q then 1 else 0 := fun q => by
          have hsame : refsOf (s.held.erase (.file f, s.ip f)) q = refsOf s.held q := by
            rw [refsOf, List.countP_erase]
            simp [refsOf]
          rw [← hsame]
          simp [refsOf, List.countP_cons]
        have hself := hmore p
        rw [if_pos rfl, hone] at hself
        have hput : Slim 2 (closeLast cwd (s.ip f)) := iput_slim trivial
        refine h.of rfl (fun q hqp => ?_) (hself ▸ hput) (hself.trans_le (by decide))
        exact (hmore q).trans (by rw [if_neg (Ne.symm hqp)]; rfl)
    next => cases hcall

theorem Slender.step {e : Ev P F} (h : Slender s) (hs : Inv s) (hstep : step s e = some t) : Slender t := by
  cases e with
  | step p b inum f => exact h.act hs hstep
  | dup p q f =>
    simp only [InodeLocks.step] at hstep
    split at hstep
    next => cases some.inj hstep; exact h
    next => cases hstep
  | call p c =>
    simp only [InodeLocks.step] at hstep
    split at hstep
    next cwd hc => exact h.call hs hc hstep
    next => cases hstep

theorem Quiet.slender (h : Quiet s) : Slender s := by
  intro p
  obtain ⟨cwd, hc, -⟩ := h.code p
  rw [hc, h.inv.refsOf_rest hc]
  exact ⟨trivial, by decide⟩

end Counts

section Capacity

variable {P F : Type} [DecidableEq P] [DecidableEq F] [Fintype P] {s : State P F} {t : Table} {p : P} {i : Nat}

def Code.busy : Code → Bool
  | .done _ => false
  | _ => true

/-- An entry for each open file and each current directory, and three for each process that is in a call. -/
def State.Within (s : State P F) : Prop :=
  s.files + Fintype.card P + 3 * (Finset.univ.filter fun p => (s.code p).busy = true).card ≤ ninode

def Kernel.Within : Kernel P F → Prop
  | .running s _ => s.Within
  | .noInodes => True

instance (k : Kernel P F) : Decidable k.Within :=
  match k with
  | .running _ _ => inferInstanceAs (Decidable (_ ≤ _))
  | .noInodes => inferInstanceAs (Decidable True)

omit [Fintype P] in
theorem refsOf_le (hs : Inv s) (h : Slender s) (q : P) : refsOf s.held q ≤ 1 + if (s.code q).busy = true then 3 else 0 := by
  cases hc : s.code q with
  | done cwd => exact (hs.refsOf_rest hc).le
  | _ => exact (h q).2

theorem held_lt {k : Code} (hs : Inv s) (h : Slender s) (hwithin : s.Within) (hc : s.code p = .iget i k) : s.held.length < ninode := by
  have hslim := (h p).1
  rw [hc] at hslim
  have hlt : ∑ q, refsOf s.held q < ∑ q, (1 + if (s.code q).busy = true then 3 else 0) := by
    refine sum_lt_sum (fun q _ => refsOf_le hs h q) ⟨p, mem_univ p, ?_⟩
    rw [hc]
    exact hslim.1
  have hsum : ∑ q, (1 + if (s.code q).busy = true then 3 else 0) =
      Fintype.card P + 3 * (univ.filter fun q => (s.code q).busy = true).card := by
    rw [sum_add_distrib, ← sum_filter, sum_const_nat fun _ _ => rfl, sum_const_nat fun _ _ => rfl, card_univ]
    omega
  have hlen := length_held s.held
  unfold State.Within State.files at hwithin
  omega

theorem iget_ne_none {k : Code} (hs : Inv s) (h : Slender s) (htable : Agrees t s.ref) (hwithin : s.Within) (hc : s.code p = .iget i k) :
    t.iget i ≠ none := by
  intro hnone
  obtain ⟨-, hfull⟩ := htable.iget_none.mp hnone
  have hmem : ∀ j, 0 < s.ref j → j ∈ (s.held.map Prod.snd).toFinset := by
    intro j hj
    rw [hs.refs] at hj
    obtain ⟨x, hx, hxj⟩ := List.countP_pos_iff.mp hj
    exact List.mem_toFinset.mpr (List.mem_map.mpr ⟨x, hx, of_decide_eq_true hxj⟩)
  have hcard := htable.full_le hfull hmem
  have hle := List.toFinset_card_le (s.held.map Prod.snd)
  rw [List.length_map] at hle
  have hlt := held_lt hs h hwithin hc
  omega

def Kernel.Sound : Kernel P F → Prop
  | .running s t => Inv s ∧ Slender s ∧ Agrees t s.ref
  | .noInodes => False

theorem Kernel.Sound.step {k k' : Kernel P F} {e : Ev P F} (h : k.Sound) (hwithin : k.Within) (hstep : k.step e = some k') : k'.Sound := by
  cases k with
  | noInodes => exact h.elim
  | running s t =>
    obtain ⟨hs, hslender, htable⟩ := h
    obtain ⟨s', hs', hk'⟩ := map_eq_some_iff.mp hstep
    have hroom : ∃ u, t.after s e = some u := by
      refine ne_none_iff_exists'.mp fun hnone => ?_
      cases e with
      | call p c => cases hnone
      | dup p q f => cases hnone
      | step p b inum f =>
        simp only [Table.after] at hnone
        split at hnone
        next i k hc => exact iget_ne_none hs hslender htable hwithin hc hnone
        next => cases hnone
        next => cases hnone
    obtain ⟨u, hu⟩ := hroom
    rw [hu] at hk'
    subst hk'
    exact ⟨hs.step hs', hslender.step hs hs', htable.step hs hs' hu⟩

/-- As long as there is an entry for each open file and each current directory, and three for each call in
progress, `iget` finds one, whatever the interleaving. -/
theorem iget_finds_entry {evs : List (Ev P F)} {k : Kernel P F} (hstart : Quiet s) (htable : Agrees t s.ref)
    (hrun : Transition.Run (Transition.guarded Kernel.step fun k _ => k.Within) (.running s t) evs k) : k ≠ .noInodes := by
  have hsound : k.Sound := by
    refine hrun.invariant (P := fun _ k => k.Sound) ⟨hstart.inv, hstart.slender, htable⟩ fun _ hk hstep => ?_
    obtain ⟨hwithin, hstep⟩ := Transition.guarded_eq_some.mp hstep
    exact hk.step hwithin hstep
  rintro rfl
  exact hsound

end Capacity

def rootTable : Table := fun k => if k = 0 then ⟨1, 2⟩ else ⟨0, 0⟩

theorem single_agrees {t : Table} {ref : Nat → Nat} (hcount : (t 0).ref = ref (t 0).inum) (hpos : 0 < (t 0).ref)
    (hrest : ∀ k ≠ 0, (t k).ref = 0) (hother : ∀ i ≠ (t 0).inum, ref i = 0) : Agrees t ref := by
  have hzero : ∀ k, 0 < (t k).ref → k = 0 := fun k hk => by
    by_contra hne
    have := hrest k hne
    omega
  refine ⟨fun k _ hk => ?_, fun i hi => ⟨0, by decide, hpos, ?_⟩, fun k _ l _ hk hl _ => ?_⟩
  · rw [hzero k hk]
    exact hcount
  · by_contra hne
    have := hother i (Ne.symm hne)
    omega
  · rw [hzero k hk, hzero l hl]

theorem rootTable_agrees : Agrees rootTable twoProcs.ref :=
  single_agrees rfl (by decide) (fun k hk => by simp [rootTable, hk]) fun i hi => if_neg hi

theorem unlinking_finds : ∃ k, Transition.Run (Transition.guarded Kernel.step fun k _ => k.Within)
    (.running twoProcs rootTable) unlinking k ∧
    k ≠ .noInodes := by
  have hrun : ∃ k, Transition.exec (Transition.guarded Kernel.step fun k _ => k.Within) (.running twoProcs rootTable) unlinking = some k :=
    ⟨_, rfl⟩
  obtain ⟨k, hexec⟩ := hrun
  have hrun := Transition.run_of_exec hexec
  exact ⟨k, hrun, iget_finds_entry twoProcs_quiet rootTable_agrees hrun⟩

end Xv6.InodeLocks
