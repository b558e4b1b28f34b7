import Mathlib.Tactic.Abel
import Xv6.Lib.Count
import Xv6.Sysfile

namespace Xv6.Fs

open Prog
open Count (one)

def refs (s : State) : Nat → Int := fun k => (s.itable k).ref

abbrev Refs {α : Type} (d : Nat → Int) (m : M α) (f : α → Nat → Int) : Prop :=
  Balance refs (fun _ => True) d m f

/-- The computation leaves the reference counts alone. -/
abbrev KeepsRefs {α : Type} (m : M α) : Prop := ∀ d, Refs d m fun _ => d

theorem keepsRefs_of {α : Type} {m : M α} (h : ∀ s, wp m (fun _ t => refs t = refs s) (fun _ => True) s) :
    KeepsRefs m := fun _ => .of_same h

/-! ### What allocation, reads and writes leave of the inode table -/

def marks (s : State) : Nat → Int × Bool := fun k => ((s.itable k).ref, (s.itable k).locked)

abbrev KeepsMarks {α : Type} (m : M α) : Prop := ∀ T, Preserves (fun s => marks s = T) (fun _ => True) m

theorem KeepsMarks.refs {α : Type} {m : M α} (h : KeepsMarks m) : KeepsRefs m := by
  refine keepsRefs_of fun s => (h (marks s) s rfl).mono (fun _ t ht => ?_) fun _ => id
  funext k
  exact congrArg Prod.fst (congrFun ht k)

theorem logWrite_marks (b : Nat) : KeepsMarks (logWrite b) := by
  intro T s hs
  simp only [logWrite, wp_bind, wp_get, wp_ite, wp_panic, wp_set]
  exact ⟨fun _ => trivial, fun _ => ⟨fun _ => trivial, fun _ => hs⟩⟩

theorem bwrite_marks (b : Nat) (v : Block) : KeepsMarks (bwrite b v) := fun _ _ hs => wp_bwrite.mpr hs

theorem balloc_marks : KeepsMarks balloc := by
  intro T s hs
  simp only [balloc, wp_bind, wp_get]
  split
  next => exact wp_pure.mpr hs
  next b _ =>
    have hzero : Preserves (fun s => marks s = T) (fun _ => True) (bzero b) :=
      (bwrite_marks b _ T).bind fun _ => logWrite_marks b T
    simp only [wp_bind, wp_set]
    refine (logWrite_marks _ T _ (by exact hs)).mono (fun _ t ht => ?_) fun _ => id
    exact (hzero t ht).mono (fun _ _ hu => wp_pure.mpr hu) fun _ => id

theorem bfree_marks (b : Nat) : KeepsMarks (bfree b) := by
  intro T s hs
  simp only [bfree, wp_bind, wp_get, wp_ite, wp_panic, wp_set]
  exact ⟨fun _ => trivial, fun _ => logWrite_marks _ T _ hs⟩

theorem inode_marks (k : Nat) : KeepsMarks (inode k) := fun _ _ hs => wp_inode.mpr hs

theorem setDin_marks (k : Nat) (g : Dinode → Dinode) : KeepsMarks (setDin k g) := by
  intro T s hs
  rw [wp_setDin, ← hs]
  funext j
  by_cases hj : j = k
  · subst hj
    simp [marks, put]
  · simp [marks, put, hj]

theorem iupdate_marks (k : Nat) : KeepsMarks (iupdate k) := by
  intro T s hs
  simp only [iupdate, wp_bind, wp_get, wp_set]
  exact logWrite_marks _ T _ hs

theorem bmapSlot_marks (k i : Nat) : KeepsMarks (bmapSlot k i) := fun T =>
  (inode_marks k T).bind fun _ => .ite
    ((balloc_marks T).bind fun _ => .ite ((setDin_marks k _ T).bind fun _ => .pure _) (.pure _)) (.pure _)

theorem bmapEntry_marks (addr j : Nat) : KeepsMarks (bmapEntry addr j) := fun T =>
  .get fun _ => .ite
    ((balloc_marks T).bind fun _ => .ite
      (.get fun _ => (bwrite_marks addr _ T).bind fun _ => (logWrite_marks addr T).bind fun _ => .pure _) (.pure _))
    (.pure _)

theorem bmap_marks (k bn : Nat) : KeepsMarks (bmap k bn) := fun T =>
  .ite (bmapSlot_marks k bn T) (.ite
    ((bmapSlot_marks k ndirect T).bind fun _ => .ite (.pure _) (bmapEntry_marks _ _ T)) (.throw trivial))

theorem itrunc_marks (k : Nat) : KeepsMarks (itrunc k) := by
  intro T
  refine Preserves.bind (.forM fun i _ => ?_) fun _ => ?_
  · exact (inode_marks k T).bind fun _ => .ite ((bfree_marks _ T).bind fun _ => setDin_marks k _ T) (.pure _)
  · have hrest : Preserves (fun s => marks s = T) (fun _ => True) (do setDin k fun d => { d with size := 0 }; iupdate k) :=
      (setDin_marks k _ T).bind fun _ => iupdate_marks k T
    refine (inode_marks k T).bind fun _ => .ite (.get fun s => ?_) hrest
    refine Preserves.bind (.forM fun j _ => ?_) fun _ => ?_
    · exact .ite (bfree_marks _ T) (.pure _)
    · exact (bfree_marks _ T).bind fun _ => (setDin_marks k _ T).bind fun _ => hrest

theorem readLoop_marks (k n fuel tot off : Nat) (dst : Nat → Byte) : KeepsMarks (readLoop k n fuel tot off dst) := by
  induction fuel generalizing tot off dst with
  | zero => exact fun T => .pure _
  | succ fuel ih =>
    exact fun T => .ite ((bmap_marks k _ T).bind fun _ => .ite (.pure _) (.get fun _ => ih _ _ _ T)) (.pure _)

theorem readi_marks (k off n : Nat) : KeepsMarks (readi k off n) := fun T =>
  (inode_marks k T).bind fun _ => .ite (.pure _) (readLoop_marks _ _ _ _ _ _ T)

theorem writeLoop_marks (k n : Nat) (src : Source) (fuel tot off : Nat) : KeepsMarks (writeLoop k n src fuel tot off) := by
  induction fuel generalizing tot off with
  | zero => exact fun T => .pure _
  | succ fuel ih =>
    refine fun T => .ite ((bmap_marks k _ T).bind fun _ => .ite (.pure _) (.get fun _ => ?_)) (.pure _)
    exact (bwrite_marks _ _ T).bind fun _ => .ite (.pure _) ((logWrite_marks _ T).bind fun _ => ih _ _ T)

theorem writei_marks (k : Nat) (src : Source) (off n : Nat) : KeepsMarks (writei k src off n) := fun T =>
  (inode_marks k T).bind fun _ => .ite (.pure _) (.ite (.pure _)
    ((writeLoop_marks k n src n 0 off T).bind fun _ => (setDin_marks k _ T).bind fun _ =>
      (iupdate_marks k T).bind fun _ => .pure _))

theorem logWrite_refs (b : Nat) : KeepsRefs (logWrite b) := (logWrite_marks b).refs

theorem inode_refs (k : Nat) : KeepsRefs (inode k) := (inode_marks k).refs

theorem setDin_refs (k : Nat) (g : Dinode → Dinode) : KeepsRefs (setDin k g) := (setDin_marks k g).refs

theorem iupdate_refs (k : Nat) : KeepsRefs (iupdate k) := (iupdate_marks k).refs

theorem itrunc_refs (k : Nat) : KeepsRefs (itrunc k) := (itrunc_marks k).refs

theorem readi_refs (k off n : Nat) : KeepsRefs (readi k off n) := (readi_marks k off n).refs

theorem writei_refs (k : Nat) (src : Source) (off n : Nat) : KeepsRefs (writei k src off n) := (writei_marks k src off n).refs

/-! ### References -/

theorem refs_put (s : State) (k : Nat) (ip : Inode) :
    refs { s with itable := put s.itable k ip } = refs s + Pi.single k (ip.ref - (s.itable k).ref) := by
  funext j
  by_cases hj : j = k
  · subst hj
    simp [refs, put]
  · simp [refs, put, hj]

theorem beginOp_refs : KeepsRefs beginOp := by
  refine keepsRefs_of fun s => ?_
  simp only [beginOp, wp_bind, wp_get, wp_ite, wp_throw, wp_set]
  exact ⟨fun _ => trivial, fun _ => rfl⟩

theorem endOp_refs : KeepsRefs endOp := by
  refine keepsRefs_of fun s => ?_
  simp only [endOp, wp_bind, wp_get, wp_ite, wp_set]
  exact ⟨fun _ => rfl, fun _ => rfl⟩

theorem setInode_refs {k : Nat} {ip : Inode} {s : State} {base d : Nat → Int} (hs : refs s = base + d)
    (h : ip.ref = (s.itable k).ref) : refs { s with itable := put s.itable k ip } = base + d := by
  rw [refs_put, h, hs]
  simp

theorem addRef_refs (k : Nat) (n : Int) (d : Nat → Int) : Refs d (addRef k n) fun _ => d + Pi.single k n := by
  intro base s hs
  simp only [wp_addRef, refs_put, hs]
  simp [add_assoc]

theorem iget_refs (inum : Nat) (d : Nat → Int) : Refs d (iget inum) fun k => d + one k := by
  intro base s hs
  simp only [iget, wp_bind, wp_get]
  split
  · next k _ => exact wp_bind.mpr ((addRef_refs k 1 d base s hs).mono (fun _ _ h => wp_pure.mpr h) fun _ => id)
  · split
    · exact wp_panic.mpr trivial
    · next k hk =>
      have href : (s.itable k).ref = 0 := by simpa using List.find?_some hk
      simp only [wp_bind, wp_setInode, wp_pure, refs_put, hs, href]
      simp [add_assoc]

theorem idup_refs (k : Nat) (d : Nat → Int) : Refs d (idup k) fun j => d + one j :=
  (addRef_refs k 1 d).bind fun _ => .pure rfl

theorem ialloc_refs (type : Int) (d : Nat → Int) :
    Refs d (ialloc type) fun r => r.elim d fun k => d + one k := by
  intro base s hs
  simp only [ialloc, wp_bind, wp_get]
  split
  · exact wp_pure.mpr hs
  · next i _ =>
    simp only [wp_bind, wp_set]
    refine (logWrite_refs _ d base _ (by exact hs)).mono (fun _ t ht => ?_) fun _ => id
    exact (iget_refs i d base t ht).mono (fun _ _ hu => wp_pure.mpr hu) fun _ => id

theorem ilock_refs (k : Nat) : KeepsRefs (ilock k) := by
  intro d base s hs
  simp only [ilock, wp_bind, wp_get, wp_inode, wp_setInode, wp_panic, wp_pure, wp_ite, wp_throw, put_put]
  refine ⟨fun _ => trivial, fun _ => ⟨fun _ => trivial, fun _ => ⟨fun _ => ?_, fun _ => ?_⟩⟩⟩
  · exact ⟨fun _ => trivial, fun _ => setInode_refs hs rfl⟩
  · exact setInode_refs hs rfl

theorem iunlock_refs (k : Nat) : KeepsRefs (iunlock k) := by
  intro d base s hs
  simp only [iunlock, wp_bind, wp_inode, wp_setInode, wp_ite, wp_panic]
  exact ⟨fun _ => trivial, fun _ => setInode_refs hs rfl⟩

theorem iput_refs (k : Nat) (d : Nat → Int) : Refs d (iput k) fun _ => d - one k := by
  have hdrop : Refs d (addRef k (-1)) fun _ => d - one k := by
    have h := addRef_refs k (-1) d
    rwa [Pi.single_neg, ← sub_eq_add_neg] at h
  have hfree : KeepsRefs (invalidate k) :=
    fun _ _ _ hs => wp_invalidate.mpr (setInode_refs hs rfl)
  refine (inode_refs k d).bind fun ip => .ite (.ite (.throw trivial) ?_) hdrop
  exact (itrunc_refs k d).bind fun _ => (setDin_refs k _ d).bind fun _ => (iupdate_refs k d).bind fun _ =>
    (hfree d).bind fun _ => hdrop

theorem iunlockput_refs (k : Nat) (d : Nat → Int) : Refs d (iunlockput k) fun _ => d - one k :=
  (iunlock_refs k d).bind fun _ => iput_refs k d

abbrev found {β : Type} (d : Nat → Int) (r : Option (Nat × β)) : Nat → Int := r.elim d fun x => d + one x.1

theorem lookupLoop_refs (k : Nat) (name : Name) (fuel off : Nat) (d : Nat → Int) :
    Refs d (lookupLoop k name fuel off) (found d) := by
  induction fuel generalizing off with
  | zero => exact .pure rfl
  | succ fuel ih =>
    refine (inode_refs k d).bind fun _ => .ite ((readi_refs k off 16 d).bind fun _ => ?_) (.pure rfl)
    exact .ite (.throw trivial) (.ite ((iget_refs _ d).bind fun _ => .pure rfl) (ih _))

theorem dirlookup_refs (k : Nat) (name : Name) (d : Nat → Int) : Refs d (dirlookup k name) (found d) :=
  (inode_refs k d).bind fun _ => .ite (.throw trivial) (lookupLoop_refs _ _ _ _ d)

theorem emptyLoop_refs (k fuel off : Nat) : KeepsRefs (emptyLoop k fuel off) := by
  induction fuel generalizing off with
  | zero => exact fun d => .pure rfl
  | succ fuel ih =>
    refine fun d => (inode_refs k d).bind fun _ => .ite ((readi_refs k off 16 d).bind fun _ => ?_) (.pure rfl)
    exact .ite (.throw trivial) (.ite (.pure rfl) (ih _ d))

theorem dirlink_refs (k : Nat) (name : Name) (inum : Nat) : KeepsRefs (dirlink k name inum) := by
  intro d
  refine (dirlookup_refs k name d).bind fun r => ?_
  cases r with
  | some x => exact (iput_refs x.1 _).bind fun _ => .pure (by simp)
  | none =>
    exact (inode_refs k d).bind fun _ => (emptyLoop_refs k _ _ d).bind fun _ =>
      (writei_refs k _ _ _ d).bind fun _ => .pure rfl

theorem namexLoop_refs (parent : Bool) (fuel k : Nat) (path : List Byte) (d : Nat → Int) :
    Refs (d + one k) (namexLoop parent fuel k path) (found d) := by
  have hdrop : ∀ j : Nat, Refs (d + one j) (do iunlockput j; return none) (found (β := Name) d) :=
    fun j => (iunlockput_refs j _).bind fun _ => .pure (by simp)
  induction fuel generalizing k path with
  | zero => exact .pure rfl
  | succ fuel ih =>
    unfold namexLoop
    split
    · exact .ite ((iput_refs k _).bind fun _ => .pure (by simp)) (.pure rfl)
    · next name rest _ =>
      refine (ilock_refs k _).bind fun _ => (inode_refs k _).bind fun _ => .ite (hdrop k) ?_
      refine .ite ((iunlock_refs k _).bind fun _ => .pure rfl) ((dirlookup_refs k name _).bind fun r => ?_)
      cases r with
      | none => exact hdrop k
      | some x =>
        have hmove : d + one k + one x.1 - one k = d + one x.1 := by abel
        refine (iunlockput_refs k _).bind fun _ => ?_
        show Refs (d + one k + one x.1 - one k) _ _
        rw [hmove]
        exact ih x.1 rest

theorem namex_refs (cwd : Nat) (path : List Byte) (parent : Bool) (d : Nat → Int) :
    Refs d (namex cwd path parent) (found d) :=
  Balance.bind (.ite (iget_refs rootino d) (idup_refs cwd d)) fun k => namexLoop_refs parent _ k path d

theorem nameiparent_refs (cwd : Nat) (path : List Byte) (d : Nat → Int) :
    Refs d (nameiparent cwd path) (found d) := namex_refs cwd path true d

abbrev held (d : Nat → Int) (r : Option Nat) : Nat → Int := r.elim d fun k => d + one k

theorem namei_refs (cwd : Nat) (path : List Byte) (d : Nat → Int) : Refs d (namei cwd path) (held d) :=
  (namex_refs cwd path false d).bind fun r => .pure (by cases r <;> rfl)

theorem addLink_refs (k : Nat) (n : Int) : KeepsRefs (addLink k n) := fun d =>
  (setDin_refs k _ d).bind fun _ => iupdate_refs k d

theorem dropEnd_refs {α : Type} (k : Nat) (a : α) (d : Nat → Int) :
    Refs (d + one k) (do iunlockput k; endOp; return a) fun _ => d := by
  refine (iunlockput_refs k _).bind fun _ => ?_
  rw [add_sub_cancel_right]
  exact (endOp_refs d).bind fun _ => .pure rfl

theorem linkEntry_refs (cwd : Nat) (new : List Byte) (k : Nat) : KeepsRefs (linkEntry cwd new k) := by
  intro d
  refine (nameiparent_refs cwd new d).bind fun r => ?_
  cases r with
  | none => exact .pure rfl
  | some x =>
    exact (ilock_refs x.1 _).bind fun _ => (inode_refs k _).bind fun _ => (dirlink_refs x.1 x.2 _ _).bind fun _ =>
      (iunlockput_refs x.1 _).bind fun _ => .pure (by simp)

theorem link_refs (cwd : Nat) (old new : List Byte) : KeepsRefs (link cwd old new) := by
  intro d
  refine (beginOp_refs d).bind fun _ => (namei_refs cwd old d).bind fun r => ?_
  cases r with
  | none => exact (endOp_refs d).bind fun _ => .pure rfl
  | some k =>
    refine (ilock_refs k _).bind fun _ => (inode_refs k _).bind fun _ => .ite (dropEnd_refs k false d) ?_
    refine (addLink_refs k 1 _).bind fun _ => (iunlock_refs k _).bind fun _ =>
      (linkEntry_refs cwd new k _).bind fun _ => .ite ?_ ?_
    · refine (iput_refs k _).bind fun _ => ?_
      show Refs (d + one k - one k) _ _
      rw [add_sub_cancel_right]
      exact (endOp_refs d).bind fun _ => .pure rfl
    · exact (ilock_refs k _).bind fun _ => (addLink_refs k (-1) _).bind fun _ => dropEnd_refs k false d

theorem isdiremptyLoop_refs (k fuel off : Nat) : KeepsRefs (isdiremptyLoop k fuel off) := by
  induction fuel generalizing off with
  | zero => exact fun d => .pure rfl
  | succ fuel ih =>
    refine fun d => (inode_refs k d).bind fun _ => .ite ((readi_refs k off 16 d).bind fun _ => ?_) (.pure rfl)
    exact .ite (.throw trivial) (.ite (.pure rfl) (ih _ d))

theorem removable_refs (k : Nat) : KeepsRefs (removable k) := fun d =>
  (inode_refs k d).bind fun _ => .ite
    ((inode_refs k d).bind fun _ => isdiremptyLoop_refs k _ _ d) (.pure rfl)

theorem unlinkEntry_refs (dp k off : Nat) (d : Nat → Int) :
    Refs (d + one dp + one k) (unlinkEntry dp k off) fun _ => d := by
  have hrest : Refs (d + one dp + one k) (do iunlockput dp; addLink k (-1); iunlockput k) fun _ => d := by
    refine (iunlockput_refs dp _).bind fun _ => (addLink_refs k (-1) _).bind fun _ => ?_
    have h := iunlockput_refs k (d + one dp + one k - one dp)
    rwa [show d + one dp + one k - one dp - one k = d by abel] at h
  refine (writei_refs dp _ off 16 _).bind fun _ => .ite (.throw trivial) ?_
  exact (inode_refs k _).bind fun _ => .ite ((addLink_refs dp (-1) _).bind fun _ => hrest) hrest

theorem unlinkIn_refs (dp : Nat) (name : Name) (d : Nat → Int) :
    Refs (d + one dp) (unlinkIn dp name) fun _ => d := by
  have hbad : Refs (d + one dp) (do iunlockput dp; return false) fun _ => d :=
    (iunlockput_refs dp _).bind fun _ => .pure (by simp)
  refine .ite hbad ((dirlookup_refs dp name _).bind fun r => ?_)
  cases r with
  | none => exact hbad
  | some x =>
    refine (ilock_refs x.1 _).bind fun _ => (inode_refs x.1 _).bind fun _ =>
      .ite (.throw trivial) ((removable_refs x.1 _).bind fun _ => .ite ?_ ?_)
    · exact (unlinkEntry_refs dp x.1 x.2 d).bind fun _ => .pure rfl
    · refine (iunlockput_refs x.1 _).bind fun _ => ?_
      show Refs (d + one dp + one x.1 - one x.1) _ _
      rw [add_sub_cancel_right]
      exact hbad

theorem unlink_refs (cwd : Nat) (path : List Byte) : KeepsRefs (unlink cwd path) := by
  intro d
  refine (beginOp_refs d).bind fun _ => (nameiparent_refs cwd path d).bind fun r => ?_
  cases r with
  | none => exact (endOp_refs d).bind fun _ => .pure rfl
  | some x =>
    exact (ilock_refs x.1 _).bind fun _ => (unlinkIn_refs x.1 x.2 d).bind fun _ =>
      (endOp_refs d).bind fun _ => .pure rfl

theorem createEntries_refs (dp k : Nat) (name : Name) (type : Int) : KeepsRefs (createEntries dp k name type) := by
  intro d
  have hdots : Refs d (createDots dp k type) fun _ => d :=
    .ite ((inode_refs k d).bind fun _ => (dirlink_refs k dot _ d).bind fun _ =>
      .ite ((inode_refs dp d).bind fun _ => dirlink_refs k dotdot _ d) (.pure rfl)) (.pure rfl)
  exact hdots.bind fun _ => .ite ((inode_refs k d).bind fun _ => dirlink_refs dp name _ d) (.pure rfl)

theorem createNew_refs (dp : Nat) (name : Name) (type major minor : Int) (d : Nat → Int) :
    Refs (d + one dp) (createNew dp name type major minor) (held d) := by
  refine (ialloc_refs type _).bind fun r => ?_
  cases r with
  | none => exact (iunlockput_refs dp _).bind fun _ => .pure (by simp)
  | some k =>
    have hkeep : Refs (d + one dp + one k) (do iunlockput dp; return some k) (held d) :=
      (iunlockput_refs dp _).bind fun _ => .pure (by
        show d + one dp + one k - one dp = d + one k
        abel)
    refine (ilock_refs k _).bind fun _ => (setDin_refs k _ _).bind fun _ => (iupdate_refs k _).bind fun _ =>
      (createEntries_refs dp k name type _).bind fun _ => .ite ?_ ?_
    · exact .ite ((addLink_refs dp 1 _).bind fun _ => hkeep) hkeep
    · refine (setDin_refs k _ _).bind fun _ => (iupdate_refs k _).bind fun _ => (iunlockput_refs k _).bind fun _ =>
        (iunlockput_refs dp _).bind fun _ => .pure ?_
      show d + one dp + one k - one k - one dp = d
      abel

theorem create_refs (cwd : Nat) (path : List Byte) (type major minor : Int) (d : Nat → Int) :
    Refs d (create cwd path type major minor) (held d) := by
  refine (nameiparent_refs cwd path d).bind fun r => ?_
  cases r with
  | none => exact .pure rfl
  | some x =>
    refine (ilock_refs x.1 _).bind fun _ => (dirlookup_refs x.1 x.2 _).bind fun r => ?_
    cases r with
    | none => exact createNew_refs x.1 x.2 type major minor d
    | some y =>
      have hmove : d + one x.1 + one y.1 - one x.1 = d + one y.1 := by abel
      refine (iunlockput_refs x.1 _).bind fun _ => ?_
      show Refs (d + one x.1 + one y.1 - one x.1) _ _
      rw [hmove]
      refine (ilock_refs y.1 _).bind fun _ => (inode_refs y.1 _).bind fun _ => .ite (.pure rfl) ?_
      exact (iunlockput_refs y.1 _).bind fun _ => .pure (by simp)

theorem mknod_refs (cwd : Nat) (path : Option (List Byte)) (type major minor : Int) :
    KeepsRefs (mknod cwd path type major minor) := by
  intro d
  refine (beginOp_refs d).bind fun _ => ?_
  cases path with
  | none => exact (endOp_refs d).bind fun _ => .pure rfl
  | some path =>
    refine (create_refs cwd path type major minor d).bind fun r => ?_
    cases r with
    | none => exact (endOp_refs d).bind fun _ => .pure rfl
    | some k => exact dropEnd_refs k true d

end Xv6.Fs
