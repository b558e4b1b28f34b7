import Mathlib
import Xv6.LookupSpec
import Xv6.Sysfile

namespace Xv6.Fs

open Count Prog List Option

section Components

variable {path rest : List Byte} {name : Name}

/-- The runs of bytes other than `/`, each cut to `DIRSIZ` bytes. -/
def components (path : List Byte) : List Name :=
  ((path.splitOnP (· = slash)).filter (· ≠ [])).map (·.take dirsiz)

theorem components_slash : components (slash :: path) = components path := by
  unfold components
  rw [splitOnP_cons_eq_if_modifyHead, if_pos (decide_eq_true rfl), filter_cons, if_neg (by simp)]

theorem components_dropWhile : components (path.dropWhile (· = slash)) = components path := by
  induction path with
  | nil => rfl
  | cons c path ih =>
    by_cases hc : c = slash
    · rw [dropWhile_cons, if_pos (decide_eq_true hc), ih, hc, components_slash]
    · rw [dropWhile_cons, if_neg (by simpa using hc)]

theorem components_run {run : List Byte} (hrun : ∀ b ∈ run, b ≠ slash) (hne : run ≠ [])
    (hrest : rest = [] ∨ ∃ tail, rest = slash :: tail) : components (run ++ rest) = run.take dirsiz :: components rest := by
  have hnot : ∀ b ∈ run, decide (b = slash) = false := fun b hb => decide_eq_false (hrun b hb)
  rcases hrest with rfl | ⟨tail, rfl⟩
  · unfold components
    rw [append_nil, splitOnP_eq_singleton hnot, filter_cons, if_pos (decide_eq_true hne)]
    rfl
  · rw [components_slash]
    unfold components
    rw [splitOnP_append_cons_of_forall_mem hnot slash (decide_eq_true rfl), filter_cons,
      if_pos (decide_eq_true hne), map_cons]

theorem components_none (h : skipelem path = none) : components path = [] := by
  rw [← components_dropWhile]
  unfold skipelem at h
  split at h
  next hnil =>
    rw [hnil]
    rfl
  next => cases h

section
variable (h : skipelem path = some (name, rest))
include h

theorem components_some : components path = name :: components rest := by
  rw [← components_dropWhile]
  unfold skipelem at h
  split at h
  next => cases h
  next p hp =>
    generalize hq : path.dropWhile (· = slash) = q at h hp
    obtain ⟨rfl, rfl⟩ := Prod.mk.inj (some.inj h)
    have hhead := head_dropWhile_not (fun x => decide (x = slash)) (l := path) (by rw [hq]; exact hp)
    have hrun : ∀ b ∈ q.takeWhile (· ≠ slash), b ≠ slash := fun b hb => by
      simpa using mem_takeWhile_imp hb
    have hne : q.takeWhile (· ≠ slash) ≠ [] := by
      cases q with
      | nil => exact absurd rfl hp
      | cons c q =>
        simp only [hq, head_cons] at hhead
        rw [takeWhile_cons, if_pos (by simpa using hhead)]
        exact cons_ne_nil _ _
    have htail : q.dropWhile (· ≠ slash) = [] ∨ ∃ tail, q.dropWhile (· ≠ slash) = slash :: tail := by
      cases htail : q.dropWhile (· ≠ slash) with
      | nil => exact .inl rfl
      | cons c tail =>
        have hnot := head_dropWhile_not (fun x => decide (x ≠ slash)) (l := q) (by rw [htail]; exact cons_ne_nil _ _)
        simp only [htail, head_cons] at hnot
        exact .inr ⟨tail, by rw [not_not.mp (of_decide_eq_false hnot)]⟩
    rw [components_dropWhile, ← components_run hrun hne htail, takeWhile_append_dropWhile]

theorem skipelem_length : rest.length < path.length := by
  have hle : (path.dropWhile (· = slash)).length ≤ path.length := (dropWhile_sublist _).length_le
  unfold skipelem at h
  split at h
  next => cases h
  next p hp =>
    generalize hq : path.dropWhile (· = slash) = q at h hp hle
    obtain ⟨-, rfl⟩ := Prod.mk.inj (some.inj h)
    have hhead := head_dropWhile_not (fun x => decide (x = slash)) (l := path) (by rw [hq]; exact hp)
    cases q with
    | nil => exact absurd rfl hp
    | cons c q =>
      simp only [hq, head_cons] at hhead
      have hsub : List.Sublist (((c :: q).dropWhile (· ≠ slash)).dropWhile (· = slash)) q := by
        rw [dropWhile_cons, if_pos (by simpa using hhead)]
        exact (dropWhile_sublist _).trans (dropWhile_sublist _)
      exact lt_of_lt_of_le (Nat.lt_succ_of_le hsub.length_le) hle

theorem components_rest (hne : rest ≠ []) : components rest ≠ [] := by
  have hrest : rest.dropWhile (· = slash) = rest := by
    unfold skipelem at h
    split at h
    next => cases h
    next =>
      obtain ⟨-, rfl⟩ := Prod.mk.inj (some.inj h)
      exact dropWhile_idempotent _ _
  cases hskip : skipelem rest with
  | none =>
    unfold skipelem at hskip
    split at hskip
    next hnil => exact absurd (hrest.symm.trans hnil) hne
    next => cases hskip
  | some nr =>
    rw [components_some hskip]
    exact cons_ne_nil _ _

end

end Components

section Resolve

variable {N : Namespace} {i : Nat} {name : Name} {names : List Name}

/-- The inode that the names lead to, one directory after the other. -/
def resolve (N : Namespace) : (i : Nat) → List Name → Option Nat
  | i, [] => some i
  | i, name :: names =>
    if (N i).type = tDir then (Dir.bindings (N i).dents name).bind fun j => resolve N j names else none

/-- The directory that all names but the last lead to, and the last name. -/
def resolveParent (N : Namespace) (i : Nat) (names : List Name) : Option (Nat × Name) :=
  names.getLast?.bind fun name => (resolve N i names.dropLast).bind fun d =>
    if (N d).type = tDir then some (d, name) else none

def walk (N : Namespace) (parent : Bool) (i : Nat) (names : List Name) : Option (Nat × Name) :=
  if parent then resolveParent N i names else (resolve N i names).map fun j => (j, [])

theorem resolve_append (names' : List Name) : resolve N i (names ++ names') = (resolve N i names).bind (resolve N · names') := by
  induction names generalizing i with
  | nil => rfl
  | cons name names ih =>
    rw [cons_append, resolve, resolve]
    split
    next =>
      rw [bind_assoc]
      exact congrArg _ (funext fun j => ih)
    next => rfl

theorem resolve_eq_parent (hne : names ≠ []) : resolve N i names =
    (resolveParent N i names).bind fun dn => Dir.bindings (N dn.1).dents dn.2 := by
  conv_lhs => rw [← dropLast_append_getLast hne]
  rw [resolve_append, resolveParent, getLast?_eq_some_getLast hne, bind_some, bind_assoc]
  refine congrArg _ (funext fun d => ?_)
  rw [resolve]
  split
  next => simp [resolve]
  next => rfl

theorem resolveParent_dir {d : Nat} (h : resolveParent N i names = some (d, name)) : (N d).type = tDir := by
  obtain ⟨_, -, h⟩ := bind_eq_some_iff.mp h
  obtain ⟨d', -, h⟩ := bind_eq_some_iff.mp h
  split at h
  next hdir =>
    obtain ⟨rfl, rfl⟩ := Prod.mk.inj (some.inj h)
    exact hdir
  next => cases h

theorem walk_file (parent : Bool) (h : (N i).type ≠ tDir) : walk N parent i (name :: names) = none := by
  unfold walk
  split
  next =>
    cases names with
    | nil =>
      rw [resolveParent]
      simp [resolve, h]
    | cons name' names =>
      rw [resolveParent, dropLast_cons_cons, resolve, if_neg h]
      simp
  next => rw [resolve, if_neg h, map_none]

theorem walk_last (h : (N i).type = tDir) : walk N true i [name] = some (i, name) := by
  simp [walk, resolveParent, resolve, h]

theorem walk_cons {parent : Bool} (h : (N i).type = tDir) (hmore : parent = true → names ≠ []) :
    walk N parent i (name :: names) = (Dir.bindings (N i).dents name).bind fun j => walk N parent j names := by
  unfold walk
  cases parent with
  | true =>
    simp only [if_true]
    cases names with
    | nil => exact absurd rfl (hmore rfl)
    | cons name' names =>
      simp only [resolveParent, dropLast_cons_cons, resolve, if_pos h, getLast?_cons_cons]
      cases Dir.bindings (N i).dents name with
      | none => simp
      | some j => rfl
  | false =>
    simp only [Bool.false_eq_true, if_false]
    rw [resolve, if_pos h, map_bind]
    rfl

end Resolve

section Walk

variable {S : Setting} {B : Nat → ℤ} {v : View} {s s₀ : State} {k i : Nat} {path : List Byte} {parent : Bool}

/-- `iget` finds an entry for `j` while the walk holds `i`, which takes an entry itself unless it has one. -/
def RoomAfter (B : Nat → ℤ) (s : State) (i j : Nat) : Prop :=
  Cached B s j ∨ j = i ∨ ∃ a < ninode, B a = 0 ∧ (Cached B s i ∨ ∃ b < ninode, b ≠ a ∧ B b = 0)

/-- `ilock` returns. -/
def Lockable (v : View) (B : Nat → ℤ) (s : State) (i : Nat) : Prop :=
  (v.inode i).type ≠ 0 ∧ ∀ k, 0 < B k → (s.itable k).inum = i → (s.itable k).locked = false

/-- Each inode that is searched for a name can be locked, and there is an entry for the inode that it names. -/
def Passable (sb : Superblock) (v : View) (B : Nat → ℤ) (s : State) (parent : Bool) : (i : Nat) → List Name → Prop
  | _, [] => True
  | i, name :: names => Lockable v B s i ∧ ((v.ns sb i).type = tDir → (parent = true → names ≠ []) →
      ∀ j, Dir.bindings (v.ns sb i).dents name = some j → RoomAfter B s i j ∧ Passable sb v B s parent j names)

/-- A state between two calls: a locked inode is referenced by the process that has locked it, and an inode in
use that is the root or has a name has a link or a reference. -/
structure Rest (S : Setting) (B : Nat → ℤ) (v : View) (s : State) : Prop where
  state : At S B none 0 v s
  dirs : DirsOk S.sb v
  locks : ∀ k < ninode, (s.itable k).locked = true → 0 < B k
  root : Linked v B s rootino
  links : ∀ d name i, (v.ns S.sb d).type = tDir → Dir.bindings (v.ns S.sb d).dents name = some i → Linked v B s i

theorem Passable.to_parent {sb : Superblock} {names : List Name} (h : Passable sb v B s false i names) :
    Passable sb v B s true i names := by
  induction names generalizing i with
  | nil => trivial
  | cons name names ih =>
    refine ⟨h.1, fun hdir _ j hj => ?_⟩
    obtain ⟨hroom, hrest⟩ := h.2 hdir (by rintro ⟨⟩) j hj
    exact ⟨hroom, ih hrest⟩

theorem Passable.last {sb : Superblock} {names : List Name} {d : Nat} {name : Name} (h : Passable sb v B s false i names)
    (hparent : resolveParent (v.ns sb) i names = some (d, name)) : Passable sb v B s false d [name] := by
  induction names generalizing i with
  | nil => cases hparent
  | cons first names ih =>
    have hwalk : walk (v.ns sb) true i (first :: names) = some (d, name) := hparent
    by_cases hdir : (v.ns sb i).type = tDir
    · by_cases hnil : names = []
      · subst hnil
        rw [walk_last hdir] at hwalk
        obtain ⟨rfl, rfl⟩ := Prod.mk.inj (some.inj hwalk)
        exact h
      · rw [walk_cons hdir fun _ => hnil] at hwalk
        obtain ⟨j, hj, hrest⟩ := bind_eq_some_iff.mp hwalk
        exact ih (h.2 hdir (by rintro ⟨⟩) j hj).2 hrest
    · rw [walk_file true hdir] at hwalk
      cases hwalk

/-- What `namex` returns when it returns. -/
structure Found (S : Setting) (B : Nat → ℤ) (v : View) (s : State) (target r : Option (Nat × Name)) (t : State) : Prop where
  state : At S (held B (r.map Prod.fst)) none 0 v t
  keeps : Keeps B s t
  locks : Locks (fun j => (s.itable j).locked) t
  result : r.map (fun x => ((t.itable x.1).inum, x.2)) = target

section
variable (hrest : Rest S B v s₀) (h : At S (B + one k) none 0 v s) (hkeep : Keeps B s₀ s)
include hrest h hkeep

theorem Rest.cached (hi : Cached B s₀ (s.itable k).inum) : 0 < B k := by
  obtain ⟨j, hj, hji⟩ := hi
  have hjk : j = k := h.sim.unique j k (lt_of_lt_of_le hj (le_add_one B k j)) (pos_add_one hrest.state.nonneg k)
    ((hkeep j hj).1.trans hji)
  exact hjk ▸ hj

theorem Rest.lockable_iff : (v.inode (s.itable k).inum).type ≠ 0 ∧ (s₀.itable k).locked = false ↔
    Lockable v B s₀ (s.itable k).inum := by
  have hpos := pos_add_one hrest.state.nonneg k
  refine and_congr_right fun _ => ⟨fun hopen j hj hji => ?_, fun hall => ?_⟩
  · have hjk : j = k := h.sim.unique j k (lt_of_lt_of_le hj (le_add_one B k j)) hpos ((hkeep j hj).1.trans hji)
    exact hjk ▸ hopen
  · by_contra hlocked
    have hheld := hrest.locks k (h.sim.range k hpos).1 (by simpa using hlocked)
    exact hlocked (hall k hheld (hkeep k hheld).1.symm)

theorem Rest.room_iff {j : Nat} : EntryRoom (B + one k) s j ↔ RoomAfter B s₀ (s.itable k).inum j := by
  have hB := hrest.state.nonneg
  have hpos := pos_add_one hB k
  have hzero : ∀ a, (B + one k) a = 0 ↔ B a = 0 ∧ a ≠ k := by
    intro a
    have := hB a
    rw [Pi.add_apply, one_apply]
    split <;> omega
  constructor
  · rintro (⟨a, ha, rfl⟩ | ⟨a, ha, hfree⟩)
    · by_cases hheld : 0 < B a
      · exact .inl ⟨a, hheld, (hkeep a hheld).1.symm⟩
      · have hak : a = k := by
          by_contra hne
          rw [Pi.add_apply, one_apply, if_neg hne] at ha
          omega
        exact .inr (.inl (by rw [hak]))
    · obtain ⟨hBa, hne⟩ := (hzero a).mp hfree
      refine .inr (.inr ⟨a, ha, hBa, ?_⟩)
      by_cases hheld : 0 < B k
      · exact .inl ⟨k, hheld, (hkeep k hheld).1.symm⟩
      · exact .inr ⟨k, (h.sim.range k hpos).1, hne.symm, by have := hB k; omega⟩
  · rintro (⟨a, ha, haj⟩ | rfl | ⟨a, ha, hBa, hmore⟩)
    · exact .inl ⟨a, lt_of_lt_of_le ha (le_add_one B k a), (hkeep a ha).1.trans haj⟩
    · exact .inl ⟨k, hpos, rfl⟩
    · by_cases hak : a = k
      · rcases hmore with hcached | ⟨b, hb, hba, hBb⟩
        · have := hrest.cached h hkeep hcached
          subst hak
          omega
        · exact .inr ⟨b, hb, (hzero b).mpr ⟨hBb, hak ▸ hba⟩⟩
      · exact .inr ⟨a, ha, (hzero a).mpr ⟨hBa, hak⟩⟩

end

theorem namexLoop_iff {fuel : Nat} {Q : Option (Nat × Name) → State → Prop} (hrest : Rest S B v s₀)
    (h : At S (B + one k) none 0 v s) (hkeep : Keeps B s₀ s) (hlock : Locks (fun j => (s₀.itable j).locked) s)
    (hlink : Linked v B s₀ (s.itable k).inum) (hfuel : path.length < fuel)
    (hQ : ∀ r t, Found S B v s₀ (walk (v.ns S.sb) parent (s.itable k).inum (components path)) r t → Q r t) :
    wp (namexLoop parent fuel k path) Q (fun _ => False) s ↔
      Passable S.sb v B s₀ parent (s.itable k).inum (components path) := by
  induction fuel generalizing k s path with
  | zero => omega
  | succ fuel ih =>
    have hB := hrest.state.nonneg
    have hpos := pos_add_one hB k
    unfold namexLoop
    cases hskip : skipelem path with
    | none =>
      rw [components_none hskip] at hQ ⊢
      refine iff_of_true ?_ trivial
      dsimp only
      split
      next hparent =>
        refine (iput_lasting h hB rfl (hlink.kept h hB hkeep rfl) hlock).bind ?_
        rintro _ t ⟨ht, hkeep', hl⟩
        refine wp_pure.mpr (hQ _ _ ⟨ht, hkeep.trans hkeep', hl, ?_⟩)
        rw [walk, if_pos hparent]
        rfl
      next hparent =>
        refine wp_pure.mpr (hQ _ _ ⟨h, hkeep, hlock, ?_⟩)
        rw [walk, if_neg hparent]
        rfl
    | some nr =>
      obtain ⟨name, rest⟩ := nr
      have hlen := skipelem_length hskip
      rw [components_some hskip] at hQ ⊢
      dsimp only
      have hlockable := hrest.lockable_iff h hkeep
      by_cases hopen : (v.inode (s.itable k).inum).type ≠ 0 ∧ (s₀.itable k).locked = false
      swap
      · exact iff_of_false (ilock_stuck h hpos rfl hlock hopen).not_bind fun hp => hopen (hlockable.mpr hp.1)
      rw [Passable, and_iff_right (hlockable.mp hopen)]
      obtain ⟨⟨⟩, t, hrun, ht, hkeep', hload, hl⟩ := (ilock_used h hpos rfl hopen.1 hlock hopen.2).total
      have hkeept : Keeps B s₀ t := hkeep.trans (hkeep'.mono (le_add_one B k))
      have htype : (t.itable k).din.type = ((v.ns S.sb) (s.itable k).inum).type := by
        rw [hload.din ht.sim, View.ns_type (hload.lt ht.sim)]
      rw [wp_bind_of_ok hrun, wp_bind, wp_inode, htype]
      -- the lookup ends without an inode
      have hgiveUp : walk (v.ns S.sb) parent (s.itable k).inum (name :: components rest) = none →
          wp (do iunlockput k; return none) Q (fun _ => False) t := by
        intro hnone
        refine (iunlockput_lasting ht hB hload.inum (hlink.kept ht hB hkeept hload.inum) hl hopen.2).bind ?_
        rintro _ u ⟨hu, hkeepu, hlu⟩
        exact wp_pure.mpr (hQ _ _ ⟨hu, hkeept.trans hkeepu, hlu, hnone.symm⟩)
      split
      next hfile => exact iff_of_true (hgiveUp (walk_file parent hfile)) fun hdir => absurd hdir hfile
      next hdir =>
        have hdir := not_not.mp hdir
        split
        next hend =>
          obtain ⟨rfl, rfl⟩ := hend
          refine iff_of_true ?_ fun _ hmore => absurd rfl (hmore rfl)
          refine (iunlock_held ht hpos hl hopen.2).bind ?_
          rintro _ u ⟨hu, htags, hlu⟩
          refine wp_pure.mpr (hQ _ _ ⟨hu, hkeept.trans (htags.keeps B), hlu, ?_⟩)
          have hnil : components [] = [] := rfl
          rw [hnil, walk_last hdir, map_some, (htags k).1, hload.inum]
        next hmore =>
          have hnames : parent = true → components rest ≠ [] := fun hparent =>
            components_rest hskip fun hnil => hmore ⟨hparent, hnil⟩
          have hwalk := @walk_cons (v.ns S.sb) _ name (components rest) parent hdir hnames
          have hdir' : (v.inode (s.itable k).inum).type = tDir := by rw [← View.ns_type (hload.lt ht.sim), hdir]
          rw [forall_prop_of_true hdir, forall_prop_of_true hnames]
          have hroom : ∀ j, EntryRoom (B + one k) t j ↔ RoomAfter B s₀ (s.itable k).inum j := fun j => by
            rw [hrest.room_iff ht hkeept, hload.inum]
          by_cases hentry : ∀ j, Dir.bindings (v.ns S.sb (s.itable k).inum).dents name = some j → EntryRoom (B + one k) t j
          swap
          · obtain ⟨j, hbind, hfull⟩ := by simpa only [not_forall, exists_prop] using hentry
            exact iff_of_false (hrest.dirs.lookup_full ht hload hdir' hbind hfull).not_bind fun hp =>
              hfull ((hroom j).mpr (hp j hbind).1)
          obtain ⟨r, u, hrun', hnone, hsome⟩ := (hrest.dirs.lookup ht hload hdir' hl hentry).total
          rw [wp_bind_of_ok hrun']
          cases r with
          | none =>
            obtain ⟨rfl, hnew⟩ := hnone rfl
            rw [hnew] at hwalk ⊢
            exact iff_of_true (hgiveUp hwalk) (by rintro j ⟨⟩)
          | some jo =>
            obtain ⟨j, off⟩ := jo
            obtain ⟨inum, hbind, hu, hkeepu, hj, hlu⟩ := hsome j off rfl
            have hentry := (hroom inum).mp (hentry inum hbind)
            have hlink' := hrest.links _ _ _ hdir hbind
            rw [hbind, bind_some] at hwalk
            rw [show B + one k + one j = B + one j + one k from add_right_comm _ _ _] at hu
            have hk : (u.itable k).inum = (s.itable k).inum := ((hkeepu k hpos).1).trans hload.inum
            have hstay : (v.inode (s.itable k).inum).type ≠ 0 → (v.inode (s.itable k).inum).nlink ≠ 0 ∨ 0 < (B + one j) k :=
              fun hne => (hlink.kept ht hB hkeept hload.inum hne).imp id fun hmore => lt_of_lt_of_le hmore (le_add_one B j k)
            dsimp only
            obtain ⟨⟨⟩, u', hrun'', hu', hkeep'', hlu'⟩ := (iunlockput_lasting hu (nonneg_add_one hB j) hk hstay hlu hopen.2).total
            have hinum : (u'.itable j).inum = inum := ((hkeep'' j (pos_add_one hB j)).1).trans hj
            rw [wp_bind_of_ok hrun'', hbind]
            rw [hwalk, ← hinum] at hQ
            rw [ih hu' ((hkeept.trans (hkeepu.mono (le_add_one B k))).trans (hkeep''.mono (le_add_one B j))) hlu'
              (by rw [hinum]; exact hlink') (by omega) hQ, hinum]
            refine ⟨fun hp j hj => ?_, fun hp => (hp inum rfl).2⟩
            obtain rfl := some.inj hj
            exact ⟨hentry, hp⟩

def startInum (s : State) (cwd : Nat) (path : List Byte) : Nat :=
  if path.head? = some slash then rootino else (s.itable cwd).inum

/-- The start of the path has an entry, and the rest of the path can be followed. -/
def Open (sb : Superblock) (v : View) (B : Nat → ℤ) (s : State) (parent : Bool) (cwd : Nat) (path : List Byte) : Prop :=
  (path.head? = some slash → EntryRoom B s rootino) ∧ Passable sb v B s parent (startInum s cwd path) (components path)

theorem namexStart_exact {cwd : Nat} (h : Rest S B v s) (hcwd : 0 < B cwd) (hroom : path.head? = some slash → EntryRoom B s rootino) :
    wp (namexStart cwd path) (fun k t => At S (B + one k) none 0 v t ∧ Keeps B s t ∧
      (t.itable k).inum = startInum s cwd path ∧ Locks (fun j => (s.itable j).locked) t) (fun _ => False) s := by
  have hlock : Locks (fun j => (s.itable j).locked) s := fun _ => rfl
  unfold namexStart startInum
  split
  next hslash => exact iget_room h.state S.wf.root hlock (hroom hslash)
  next =>
    have hsafe : wp (idup cwd) (fun _ t => Locks (fun j => (s.itable j).locked) t) (fun _ => False) s := by
      simp only [idup, wp_bind, wp_addRef, wp_pure]
      exact hlock.put rfl
    refine ((idup_at h.state hcwd).and hsafe).mono ?_ fun e he => he.2
    rintro k t ⟨⟨rfl, ht, hkeep, hinum⟩, hl⟩
    exact ⟨ht, hkeep, hinum, hl⟩

theorem namex_iff {cwd : Nat} {Q : Option (Nat × Name) → State → Prop} (h : Rest S B v s) (hcwd : 0 < B cwd)
    (hQ : ∀ r t, Found S B v s (walk (v.ns S.sb) parent (startInum s cwd path) (components path)) r t → Q r t) :
    wp (namex cwd path parent) Q (fun _ => False) s ↔ Open S.sb v B s parent cwd path := by
  unfold namex
  by_cases hroom : path.head? = some slash → EntryRoom B s rootino
  · rw [Open, and_iff_right hroom]
    obtain ⟨k, t, hrun, ht, hkeep, hinum, hl⟩ := (namexStart_exact h hcwd hroom).total
    have hlink : Linked v B s (startInum s cwd path) := by
      unfold startInum
      split
      next => exact h.root
      next => exact fun _ => .inr ⟨cwd, hcwd, rfl⟩
    rw [← hinum] at hQ hlink ⊢
    rw [wp_bind_of_ok hrun]
    exact namexLoop_iff h ht hkeep hl hlink (Nat.lt_succ_self _) hQ
  · obtain ⟨hslash, hfull⟩ := Classical.not_imp.mp hroom
    have hfail : wp (namexStart cwd path) (fun _ _ => False) (fun _ => True) s := by
      rw [namexStart, if_pos hslash]
      exact iget_full h.state hfull
    exact iff_of_false hfail.not_bind fun hopen => hroom hopen.1

end Walk

def Counts (s t : State) (r : Option Nat) : Prop :=
  ∀ k, (t.itable k).ref = (s.itable k).ref + if r = some k then 1 else 0

/-- How `create` and `sys_unlink` find an inode: from its parent. -/
def nameiFromParent (cwd : Nat) (path : List Byte) : M (Option Nat) := do
  match ← nameiparent cwd path with
  | none => return none
  | some (dp, name) =>
    ilock dp
    return (← dirlookup dp name).map Prod.fst

section Lookup

variable {S : Setting} {B : Nat → ℤ} {v : View} {s t : State} {cwd : Nat} {path : List Byte} {r : Option Nat}

theorem At.counts (h : At S B none 0 v s) (h' : At S (held B r) none 0 v t) : Counts s t r := by
  intro k
  rw [h.ref k, h'.ref k]
  cases r with
  | none =>
    rw [if_neg (by rintro ⟨⟩), add_zero]
    rfl
  | some j =>
    show (B + one j) k = _
    rw [Pi.add_apply, one_apply]
    congr 1
    exact if_congr ⟨fun hkj => by rw [hkj], fun hjk => (Option.some.inj hjk).symm⟩ rfl rfl

section
variable (h : Rest S B v s) (hcwd : 0 < B cwd)
include h hcwd

theorem namei_iff : wp (namei cwd path) (fun r t =>
      r.map (fun k => (t.itable k).inum) = resolve (v.ns S.sb) (startInum s cwd path) (components path) ∧ Counts s t r)
      (fun _ => False) s ↔ Open S.sb v B s false cwd path := by
  unfold namei
  simp only [wp_bind, wp_pure]
  refine namex_iff h hcwd fun r t hr => ⟨?_, h.state.counts hr.state⟩
  have hfst := congrArg (Option.map Prod.fst) hr.result
  rw [walk, if_neg (by decide), Option.map_map, Option.map_map] at hfst
  rw [Option.map_map]
  refine hfst.trans ?_
  simp [Function.comp_def]

theorem nameiparent_exact (hopen : Open S.sb v B s false cwd path) : wp (nameiparent cwd path)
    (Found S B v s (resolveParent (v.ns S.sb) (startInum s cwd path) (components path))) (fun _ => False) s :=
  (namex_iff h hcwd fun _ _ hr => hr).mpr ⟨hopen.1, hopen.2.to_parent⟩

theorem nameiFromParent_exact (hopen : Open S.sb v B s false cwd path) (hne : components path ≠ []) :
    wp (nameiFromParent cwd path) (fun r t =>
      r.map (fun k => (t.itable k).inum) = resolve (v.ns S.sb) (startInum s cwd path) (components path)) (fun _ => False) s := by
  rw [resolve_eq_parent hne]
  unfold nameiFromParent
  refine (nameiparent_exact h hcwd hopen).bind ?_
  rintro r t hr
  rw [← hr.result]
  cases r with
  | none => exact wp_pure.mpr rfl
  | some dn =>
    obtain ⟨dp, name⟩ := dn
    have hpos := pos_add_one h.state.nonneg dp
    have ht : At S (B + one dp) none 0 v t := hr.state
    obtain ⟨hlockable, hnext⟩ := hopen.2.last hr.result.symm
    have hdir := resolveParent_dir hr.result.symm
    obtain ⟨htype, hfree⟩ := (h.lockable_iff ht hr.keeps).mpr hlockable
    refine (ilock_used ht hpos rfl htype hr.locks hfree).bind ?_
    rintro _ u ⟨hu, hkeep, hload, hlu⟩
    have hdir' : (v.inode (t.itable dp).inum).type = tDir := (View.ns_type (ht.sim.range dp hpos).2).symm.trans hdir
    refine (h.dirs.lookup hu hload hdir' hlu fun j hj => ?_).bind ?_
    · rw [h.room_iff hu (hr.keeps.trans (hkeep.mono (le_add_one B dp))), hload.inum]
      exact (hnext hdir (by rintro ⟨⟩) j hj).1
    rintro r u' ⟨hnone, hsome⟩
    refine wp_pure.mpr ?_
    rw [map_some, bind_some]
    cases r with
    | none => exact (hnone rfl).2.symm
    | some jo =>
      obtain ⟨j, off⟩ := jo
      obtain ⟨inum, hbind, -, -, hj, -⟩ := hsome j off rfl
      rw [hbind, map_some, map_some, hj]

end

/-- Both modes of `namex` follow the components of the path, and agree, iff each inode that is searched is in
use and not locked and the inode table has an entry for each inode on the way. -/
theorem path_lookup_exact (h : Rest S B v s) (hcwd : 0 < B cwd) :
    (wp (namei cwd path) (fun r t =>
      r.map (fun k => (t.itable k).inum) = resolve (v.ns S.sb) (startInum s cwd path) (components path) ∧ Counts s t r)
      (fun _ => False) s ∧
    wp (nameiparent cwd path) (fun r t =>
      r.map (fun x => ((t.itable x.1).inum, x.2)) = resolveParent (v.ns S.sb) (startInum s cwd path) (components path) ∧
      Counts s t (r.map Prod.fst)) (fun _ => False) s ∧
    (components path ≠ [] → (∀ i, resolve (v.ns S.sb) (startInum s cwd path) (components path) = some i ↔
        ∃ d name, resolveParent (v.ns S.sb) (startInum s cwd path) (components path) = some (d, name) ∧
          Dir.bindings (v.ns S.sb d).dents name = some i) ∧
      wp (nameiFromParent cwd path) (fun r t =>
        r.map (fun k => (t.itable k).inum) = resolve (v.ns S.sb) (startInum s cwd path) (components path))
        (fun _ => False) s)) ↔ Open S.sb v B s false cwd path := by
  refine ⟨fun hboth => (namei_iff h hcwd).mp hboth.1, fun hopen => ⟨(namei_iff h hcwd).mpr hopen, ?_,
    fun hne => ⟨fun i => ?_, nameiFromParent_exact h hcwd hopen hne⟩⟩⟩
  · exact (nameiparent_exact h hcwd hopen).mono (fun r t hr => ⟨hr.result, h.state.counts hr.state⟩) fun _ => id
  · rw [resolve_eq_parent hne, bind_eq_some_iff]
    exact Prod.exists

end Lookup

section Example

abbrev restSetting : Setting := fileSetting Dir.openDir smallSb_wf Nat.one_pos

def dotName : Nat → Byte := fun i => if i = 0 then 46 else 0

/-- The root directory is the current directory, and its entry `.` is its only one. -/
theorem dot_linked : ∃ t w, Dir.dirlink (fun _ => 0) 0 dotName 1 Dir.openDir = .ok (true, t) ∧
    Dir.Has restSetting Dir.openDir.refs 0 1 [(1, [46])] w t ∧ (w.inode 0).type = 0 ∧ (w.inode 1).nlink = 1 ∧
    ∀ k < ninode, (t.itable k).locked = true → k = 0 := by
  have hrun : (Dir.dirlink (fun _ => 0) 0 dotName 1 Dir.openDir).toOption.map (fun r => (r.1, (r.2.disk.dinode smallSb 0).type,
      (r.2.disk.dinode smallSb 1).nlink, decide (∀ k < ninode, (r.2.itable k).locked = true → k = 0))) =
      some (true, 0, 1, true) := by
    decide +kernel
  cases hlink : Dir.dirlink (fun _ => 0) 0 dotName 1 Dir.openDir with
  | error e =>
    rw [hlink] at hrun
    cases hrun
  | ok r =>
    rw [hlink] at hrun
    obtain ⟨b, t⟩ := r
    simp only [Except.toOption, map_some, some.injEq, Prod.mk.injEq, decide_eq_true_eq] at hrun
    obtain ⟨rfl, hfree, hnlink, hlocks⟩ := hrun
    obtain ⟨-, m, w, hm, hw⟩ := ((Dir.dirlink_spec Dir.openDir_has).of_ok hlink).2 rfl
    obtain rfl : m = 0 := Nat.le_zero.mp hm.le
    have hinode := fun i hi => hw.state.sim.inodes i hi (by rintro ⟨⟩)
    exact ⟨t, w, rfl, hw, hinode 0 (by decide) ▸ hfree, hinode 1 (by decide) ▸ hnlink, hlocks⟩

def unlocked (t : State) : State := { t with itable := put t.itable 0 { t.itable 0 with locked := false } }

theorem dot_rest {t : State} {w : View} (h : Dir.Has restSetting Dir.openDir.refs 0 1 [(1, [46])] w t) (hfree : (w.inode 0).type = 0)
    (hnlink : (w.inode 1).nlink = 1) (hlocks : ∀ k < ninode, (t.itable k).locked = true → k = 0) :
    Rest restSetting Dir.openDir.refs w (unlocked t) := by
  have honly : ∀ i < restSetting.sb.ninodes, (w.inode i).type = tDir → i = 1 := by
    have hlt : ∀ i < restSetting.sb.ninodes, i = 0 ∨ i = 1 := by decide
    intro i hi htype
    refine (hlt i hi).resolve_left ?_
    rintro rfl
    rw [hfree] at htype
    exact absurd htype (by decide)
  have hroot : Linked w Dir.openDir.refs (unlocked t) 1 := fun _ => .inl (by rw [hnlink]; decide)
  refine ⟨h.state.setEntry (by decide) rfl rfl fun _ => ?_, ⟨fun i hi htype => ?_, fun i hi htype => ?_, fun i hi htype x hx => ?_⟩,
    fun k hk hlocked => ?_, hroot, fun d name i hdir hbind => ?_⟩
  · exact h.state.sim.table 0 (by decide) h.loaded.valid
  · exact honly i hi htype ▸ h.solid
  · exact honly i hi htype ▸ h.aligned
  · rw [honly i hi htype, h.dents, mem_singleton] at hx
    rw [hx]
    decide
  · by_cases hk0 : k = 0
    · subst hk0
      decide
    · exact absurd (hlocks k hk ((congrArg Inode.locked (put_ne t.itable 0 _ hk0)).symm.trans hlocked)) hk0
  · have hlt : d < restSetting.sb.ninodes := by
      by_contra hge
      rw [View.ns, if_neg hge] at hdir
      exact absurd hdir (by decide)
    rw [View.ns_type hlt] at hdir
    obtain rfl := honly d hlt hdir
    rw [View.ns_lt hlt, View.node_dents hdir, h.dents] at hbind
    obtain ⟨x, hx, rfl⟩ := Option.map_eq_some_iff.mp hbind
    rw [mem_singleton.mp (mem_of_find?_eq_some hx)]
    exact hroot

/-- `/.` leads from the root to itself. -/
theorem dot_lookup : ∃ t, Dir.dirlink (fun _ => 0) 0 dotName 1 Dir.openDir = .ok (true, t) ∧
    wp (namei 0 [slash, 46]) (fun r u => ∃ k, r = some k ∧ (u.itable k).inum = rootino ∧ Counts (unlocked t) u (some k))
      (fun _ => False) (unlocked t) := by
  obtain ⟨t, w, hrun, h, hfree, hnlink, hlocks⟩ := dot_linked
  have hrest := dot_rest h hfree hnlink hlocks
  have hnames : components [slash, 46] = [[46]] := by decide
  have hstart : startInum (unlocked t) 0 [slash, 46] = rootino := rfl
  have hcached : Cached Dir.openDir.refs (unlocked t) rootino := ⟨0, by decide, h.loaded.inum⟩
  have hone : rootino < restSetting.sb.ninodes := by decide
  have hdir : (w.ns restSetting.sb rootino).type = tDir := (View.ns_type hone).trans h.dir
  have hbind : Dir.bindings (w.ns restSetting.sb rootino).dents [46] = some rootino := by
    rw [View.ns_lt hone, View.node_dents h.dir, h.dents]
    decide
  have hopen : Open restSetting.sb w Dir.openDir.refs (unlocked t) false 0 [slash, 46] := by
    refine ⟨fun _ => .inl hcached, ?_⟩
    rw [hnames, hstart]
    have htype : (w.inode rootino).type = tDir := h.dir
    refine ⟨⟨by rw [htype]; decide, fun k hk _ => ?_⟩, fun _ _ j hj => ⟨?_, trivial⟩⟩
    · have hk0 : k = 0 := by
        by_contra hne
        exact absurd hk (by rw [show Dir.openDir.refs k = 0 from congrArg Inode.ref (put_ne _ 0 _ hne)]; decide)
      subst hk0
      rfl
    · cases hbind.symm.trans hj
      exact .inl hcached
  refine ⟨t, hrun, ((path_lookup_exact hrest (by decide)).mpr hopen).1.mono ?_ fun _ => id⟩
  rintro r u ⟨hr, hcounts⟩
  rw [hnames, hstart, resolve, if_pos hdir, hbind, bind_some] at hr
  obtain ⟨k, rfl, hk⟩ := Option.map_eq_some_iff.mp hr
  exact ⟨k, rfl, hk, hcounts⟩

def treeSb : Superblock := ⟨100, 4, 30, 2, 32, 33⟩

/-- A new file system: the root directory is empty, and it is the current directory. -/
def rootOnly : State :=
  { mount treeSb (Disk.setDinode treeSb (put (fun _ _ => 0) 33 fun i => if i < 4 then 255 else if i = 4 then 3 else 0) 1
      Dir.emptyDir) with
    itable := put (fun _ => .empty) 0 ⟨1, 1, false, false, Dinode.zero⟩ }

/-- `mkdir /a`, `mkdir /a/b`, and with `/a/b` as the current directory `unlink` of both. -/
def removeParent : M (Option Nat) := do
  discard (mknod 0 (some [slash, 97]) tDir 0 0)
  discard (mknod 0 (some [slash, 97, slash, 98]) tDir 0 0)
  beginOp
  let cwd ← namei 0 [slash, 97, slash, 98]
  endOp
  discard (unlink 0 [slash, 97, slash, 98])
  discard (unlink 0 [slash, 97])
  beginOp
  return cwd

def noType {α : Type} : Except Fault α → Bool
  | .error (.panic msg) => msg == "ilock: no type"
  | _ => false

theorem eq_of_noType {α : Type} {r : Except Fault α} (h : noType r = true) : r = .error (.panic "ilock: no type") := by
  cases r with
  | ok _ => cases h
  | error e =>
    cases e with
    | sleep => cases h
    | panic msg => rw [of_decide_eq_true h]

/-- The lookup of `../x` from the directory that a call has returned panics. -/
def lookupPanics : Except Fault (Option Nat × State) → Bool
  | .ok (some cwd, t) => noType (namei cwd [46, 46, slash, 120] t)
  | _ => false

/-- The entry `..` of a directory that has been removed leads to an inode that has been freed, and a
lookup through it panics. -/
theorem removed_parent_panics : ∃ cwd t, removeParent rootOnly = .ok (some cwd, t) ∧
    namei cwd [46, 46, slash, 120] t = .error (.panic "ilock: no type") := by
  have hrun : lookupPanics (removeParent rootOnly) = true := by decide +kernel
  cases hparent : removeParent rootOnly with
  | error e =>
    rw [hparent] at hrun
    cases hrun
  | ok r =>
    rw [hparent] at hrun
    obtain ⟨_ | cwd, t⟩ := r
    · cases hrun
    · exact ⟨cwd, t, rfl, eq_of_noType hrun⟩

end Example

end Xv6.Fs
