import Mathlib
import Xv6.DirMap

/-!
The inode calls and `dirlookup` in a state in which no inode is freed: when they return, and what they do
then.
-/

namespace Xv6.Fs

open Count Prog

/-- Directories have no holes, consist of whole entries and name inodes of the disk. -/
structure DirsOk (sb : Superblock) (v : View) : Prop where
  solid : v.SolidDirs sb
  aligned : ∀ i < sb.ninodes, (v.inode i).type = tDir → 16 ∣ (v.inode i).size
  inums : ∀ i < sb.ninodes, (v.inode i).type = tDir → ∀ x ∈ v.dents i, x.1 < sb.ninodes

def Locks (L : Nat → Bool) (s : State) : Prop := ∀ j, (s.itable j).locked = L j

def Cached (R : Nat → ℤ) (s : State) (i : Nat) : Prop := ∃ k, 0 < R k ∧ (s.itable k).inum = i

/-- `iget` finds an entry for the inode. -/
def EntryRoom (R : Nat → ℤ) (s : State) (i : Nat) : Prop := Cached R s i ∨ ∃ a < ninode, R a = 0

/-- If the inode is in use, a link or a reference of `B` keeps it. -/
def Linked (v : View) (B : Nat → ℤ) (s : State) (i : Nat) : Prop :=
  (v.inode i).type ≠ 0 → (v.inode i).nlink ≠ 0 ∨ Cached B s i

section Calls

variable {S : Setting} {R : Nat → ℤ} {v : View} {s t : State} {i k : Nat} {L : Nat → Bool}

theorem Locks.set {ip : Inode} {b : Bool} (h : Locks L s) (hip : ip.locked = b) :
    Locks (put L k b) { s with itable := put s.itable k ip } := by
  intro j
  by_cases hj : j = k
  · subst hj
    exact (congrArg Inode.locked (put_same s.itable j ip)).trans (hip.trans (put_same L j b).symm)
  · exact (congrArg Inode.locked (put_ne s.itable k ip hj)).trans ((h j).trans (put_ne L k b hj).symm)

theorem Locks.put {ip : Inode} (h : Locks L s) (hip : ip.locked = (s.itable k).locked) :
    Locks L { s with itable := put s.itable k ip } := by
  have hset := h.set (k := k) (hip.trans (h k))
  rwa [put_eq_self] at hset

theorem iget_room {inum : Nat} (h : At S R none 0 v s) (hinum : inum < S.sb.ninodes) (hlock : Locks L s)
    (hroom : EntryRoom R s inum) : wp (iget inum) (fun k t => At S (R + one k) none 0 v t ∧ Keeps R s t ∧
      (t.itable k).inum = inum ∧ Locks L t) (fun _ => False) s := by
  have hsafe : wp (iget inum) (fun _ t => Locks L t) (fun _ => False) s := by
    simp only [iget, wp_bind, wp_get]
    split
    next j _ =>
      simp only [wp_bind, wp_addRef, wp_pure]
      exact hlock.put rfl
    next hmiss =>
      split
      next hnone =>
        rcases hroom with ⟨a, ha, hai⟩ | ⟨a, ha, hRa⟩
        · have hother := List.find?_eq_none.mp hmiss a (List.mem_range.mpr (h.sim.range a ha).1)
          rw [h.ref a, hai] at hother
          simp [ha] at hother
        · have hused := List.find?_eq_none.mp hnone a (List.mem_range.mpr ha)
          rw [h.ref a, hRa] at hused
          exact absurd rfl hused
      next j _ =>
        simp only [wp_bind, wp_setInode, wp_pure]
        exact hlock.put rfl
  refine ((iget_at h hinum).and hsafe).mono ?_ fun e he => he.2
  rintro k t ⟨⟨ht, hkeep, hi⟩, hl⟩
  exact ⟨ht, hkeep, hi, hl⟩

theorem iget_full {inum : Nat} (h : At S R none 0 v s) (hfull : ¬ EntryRoom R s inum) :
    wp (iget inum) (fun _ _ => False) (fun _ => True) s := by
  simp only [iget, wp_bind, wp_get]
  split
  next j hj =>
    have hfound := List.find?_some hj
    rw [h.ref j, Bool.and_eq_true, decide_eq_true_eq, beq_iff_eq] at hfound
    exact absurd (.inl ⟨j, hfound⟩) hfull
  next =>
    split
    next => exact wp_panic.mpr trivial
    next j hj =>
      have hfree := List.find?_some hj
      rw [h.ref j, beq_iff_eq] at hfree
      exact absurd (.inr ⟨j, List.mem_range.mp (List.mem_of_find?_eq_some hj), hfree⟩) hfull

theorem ilock_used (h : At S R none 0 v s) (hk : 0 < R k) (hi : (s.itable k).inum = i) (htype : (v.inode i).type ≠ 0)
    (hlock : Locks L s) (hfree : L k = false) : wp (ilock k) (fun _ t => At S R none 0 v t ∧ Keeps R s t ∧
      Loaded R t.itable k i ∧ Locks (put L k true) t) (fun _ => False) s := by
  have hsafe : wp (ilock k) (fun _ t => Locks (put L k true) t) (fun _ => False) s := by
    have href := h.ref k
    have hfree : ¬ (s.itable k).locked = true := by
      rw [hlock k, hfree]
      exact Bool.false_ne_true
    have hdin : s.disk.dinode s.sb (s.itable k).inum = v.inode i := by
      rw [h.super, hi]
      exact h.sim.inodes i (hi ▸ (h.sim.range k hk).2) (by rintro ⟨⟩)
    simp only [ilock, wp_bind, wp_inode, wp_ite, wp_panic, wp_throw, wp_setInode, wp_get, wp_pure, put_put, hdin]
    exact ⟨fun hbad => by omega, fun _ => ⟨hfree, fun _ => ⟨fun _ => ⟨htype, fun _ => hlock.set rfl⟩, fun _ => hlock.set rfl⟩⟩⟩
  refine ((ilock_at h hk hi (.inr htype)).and hsafe).mono ?_ fun e he => he.2
  rintro _ t ⟨⟨ht, hkeep, hload⟩, hl⟩
  exact ⟨ht, hkeep, hload, hl⟩

theorem ilock_stuck (h : At S R none 0 v s) (hk : 0 < R k) (hi : (s.itable k).inum = i) (hlock : Locks L s)
    (hbad : ¬ ((v.inode i).type ≠ 0 ∧ L k = false)) : wp (ilock k) (fun _ _ => False) (fun _ => True) s := by
  have hdin : s.disk.dinode s.sb (s.itable k).inum = v.inode i := by
    rw [h.super, hi]
    exact h.sim.inodes i (hi ▸ (h.sim.range k hk).2) (by rintro ⟨⟩)
  simp only [ilock, wp_bind, wp_inode, wp_ite, wp_panic, wp_throw, wp_setInode, wp_get, wp_pure, hdin]
  refine ⟨fun _ => trivial, fun _ => ⟨fun _ => trivial, fun hopen => ?_⟩⟩
  have hzero : (v.inode i).type = 0 := by
    by_contra hne
    exact hbad ⟨hne, by rw [← hlock k]; simpa using hopen⟩
  refine ⟨fun _ => ⟨fun _ => trivial, fun hne => hne hzero⟩, fun hvalid => ?_⟩
  exact (h.sim.table k hk (by simpa using hvalid)).2 (hi ▸ hzero)

theorem iunlock_held (h : At S R none 0 v s) (hk : 0 < R k) (hlock : Locks (put L k true) s) (hfree : L k = false) :
    wp (iunlock k) (fun _ t => At S R none 0 v t ∧ SameTags s t ∧ Locks L t) (fun _ => False) s := by
  have hsafe : wp (iunlock k) (fun _ t => Locks L t) (fun _ => False) s := by
    have href := h.ref k
    have hheld : (s.itable k).locked = true := (hlock k).trans (put_same L k true)
    simp only [iunlock, wp_bind, wp_inode, wp_ite, wp_panic, wp_setInode]
    refine ⟨fun hbad => ?_, fun _ => ?_⟩
    · rcases hbad with hbad | hbad
      · simp [hheld] at hbad
      · omega
    · have hip : { s.itable k with locked := false }.locked = _ := hfree.symm
      have hset := hlock.set (k := k) hip
      rwa [put_put, put_eq_self] at hset
  refine ((iunlock_at h hk).and hsafe).mono ?_ fun e he => he.2
  rintro _ t ⟨⟨ht, htags⟩, hl⟩
  exact ⟨ht, htags, hl⟩

section
variable (h : At S (R + one k) none 0 v s) (hR : ∀ j, 0 ≤ R j) (hi : (s.itable k).inum = i)
  (hlink : (v.inode i).type ≠ 0 → (v.inode i).nlink ≠ 0 ∨ 0 < R k)
include h hR hi hlink

theorem iput_lasting (hlock : Locks L s) : wp (iput k)
      (fun _ t => At S R none 0 v t ∧ Keeps R s t ∧ Locks L t) (fun _ => False) s := by
  have href := h.ref k
  rw [Pi.add_apply, one_apply, if_pos rfl] at href
  unfold iput
  rw [wp_bind, wp_inode]
  dsimp only
  split
  next hlast =>
    obtain ⟨hone, hvalid, hnlink⟩ := hlast
    have htable := h.sim.table k (pos_add_one hR k) hvalid
    rw [hi] at htable
    rw [htable.1] at hnlink
    rcases hlink htable.2 with hne | hmore
    · exact absurd hnlink hne
    · omega
  next =>
    have hsafe : wp (addRef k (-1)) (fun _ t => Locks L t) (fun _ => False) s := wp_addRef.mpr (hlock.put rfl)
    refine ((dropRef_at h hR).and hsafe).mono ?_ fun e he => he.2
    rintro _ t ⟨⟨ht, hkeep⟩, hl⟩
    exact ⟨ht, hkeep, hl⟩

theorem iunlockput_lasting (hlock : Locks (put L k true) s) (hfree : L k = false) : wp (iunlockput k)
      (fun _ t => At S R none 0 v t ∧ Keeps R s t ∧ Locks L t) (fun _ => False) s := by
  have hpos := pos_add_one hR k
  unfold iunlockput
  refine (iunlock_held h hpos hlock hfree).bind ?_
  rintro _ t ⟨ht, htags, hl⟩
  refine (iput_lasting ht hR ((htags k).1.trans hi) hlink hl).mono ?_ fun _ => id
  rintro _ u ⟨hu, hkeep, hlu⟩
  exact ⟨hu, (htags.keeps R).trans hkeep, hlu⟩

end

theorem Linked.kept {B : Nat → ℤ} {s₀ : State} (hlink : Linked v B s₀ i) (h : At S (B + one k) none 0 v s) (hB : ∀ j, 0 ≤ B j)
    (hkeep : Keeps B s₀ s) (hi : (s.itable k).inum = i) (htype : (v.inode i).type ≠ 0) : (v.inode i).nlink ≠ 0 ∨ 0 < B k := by
  refine (hlink htype).imp id ?_
  rintro ⟨j, hj, hji⟩
  have hjk : j = k := h.sim.unique j k (lt_of_lt_of_le hj (le_add_one B k j)) (pos_add_one hB k)
    (((hkeep j hj).1.trans hji).trans hi.symm)
  exact hjk ▸ hj

section
variable {ds : List (Nat × Name)} {name : Name}

theorem bindings_first {m inum : Nat} (hget : ds[m]? = some (inum, name)) (hlive : inum ≠ 0)
    (hbefore : ∀ l < m, ∀ x, ds[l]? = some x → x.1 ≠ 0 → x.2 ≠ name) : Dir.bindings ds name = some inum := by
  obtain ⟨hm, hval⟩ := List.getElem?_eq_some_iff.mp hget
  refine Option.map_eq_some_iff.mpr ⟨(inum, name), List.find?_eq_some_iff_getElem.mpr ⟨?_, m, hm, hval, fun l hl => ?_⟩, rfl⟩
  · exact decide_eq_true ⟨hlive, rfl⟩
  · have hno := hbefore l hl _ (List.getElem?_eq_getElem (by omega))
    simpa [or_iff_not_imp_left] using hno

theorem lookupLoop_exact {m fuel : Nat} {E : Fault → Prop} {Q : Nat → Nat → State → Prop}
    (h : Dir.Has S R k i ds v s) (hget : ∀ inum, Dir.bindings ds name = some inum → wp (iget inum) (Q inum) E s)
    (hfuel : ds.length < m + fuel) (hm : m ≤ ds.length)
    (hbefore : ∀ l < m, ∀ x, ds[l]? = some x → x.1 ≠ 0 → x.2 ≠ name) : wp (lookupLoop k name fuel (16 * m))
      (fun r t => (r = none → t = s ∧ Dir.bindings ds name = none) ∧
        ∀ j off, r = some (j, off) → ∃ inum, Dir.bindings ds name = some inum ∧ Q inum j t) E s := by
  have hlength := h.length
  induction fuel generalizing m with
  | zero => omega
  | succ fuel ih =>
    unfold lookupLoop
    rw [wp_bind, wp_inode, h.din]
    by_cases hlt : m < ds.length
    · rw [if_pos (by omega)]
      refine (h.read hlt).bind ?_
      rintro ⟨n, de⟩ t ⟨rfl, rfl, hent⟩
      simp only [ne_eq, not_true_eq_false, if_false]
      split
      next hfound =>
        have hbind : Dir.bindings ds name = some (get16 de 0) :=
          bindings_first (hent.trans (congrArg some (Prod.ext rfl hfound.2))) hfound.1 hbefore
        refine (hget _ hbind).bind ?_
        rintro j u hu
        refine wp_pure.mpr ⟨by rintro ⟨⟩, ?_⟩
        rintro j' off' ⟨⟩
        exact ⟨_, hbind, hu⟩
      next hother =>
        rw [show 16 * m + 16 = 16 * (m + 1) by omega]
        exact ih (by omega) (by omega) (Dir.before_succ hbefore hent fun hx0 hname => hother ⟨hx0, hname⟩)
    · rw [if_neg (by omega)]
      refine wp_pure.mpr ⟨fun _ => ⟨rfl, Dir.bindings_eq_none.mpr fun x hx => ?_⟩, by rintro _ _ ⟨⟩⟩
      obtain ⟨l, hl⟩ := List.mem_iff_getElem?.mp hx
      have := (List.getElem?_eq_some_iff.mp hl).1
      exact hbefore l (by omega) x hl

theorem dirlookup_exact {E : Fault → Prop} {Q : Nat → Nat → State → Prop}
    (h : Dir.Has S R k i ds v s) (hget : ∀ inum, Dir.bindings ds name = some inum → wp (iget inum) (Q inum) E s) :
    wp (dirlookup k name) (fun r t => (r = none → t = s ∧ Dir.bindings ds name = none) ∧
      ∀ j off, r = some (j, off) → ∃ inum, Dir.bindings ds name = some inum ∧ Q inum j t) E s := by
  have hlength := h.length
  simp only [dirlookup, wp_bind, wp_inode, h.din, h.dir, ne_eq, not_true_eq_false, if_false]
  exact lookupLoop_exact (m := 0) h hget (by omega) (Nat.zero_le _) fun l hl => absurd hl (Nat.not_lt_zero l)

end

end Calls

section Directories

variable {S : Setting} {B : Nat → ℤ} {v : View} {s : State} {k i : Nat}

theorem View.ns_type (hi : i < S.sb.ninodes) : (v.ns S.sb i).type = (v.inode i).type := by
  rw [View.ns_lt hi, View.node_type]

theorem DirsOk.has (h : DirsOk S.sb v) (hs : At S B none 0 v s) (hk : Loaded B s.itable k i) (hdir : (v.inode i).type = tDir) :
    Dir.Has S B k i (v.ns S.sb i).dents v s := by
  have hi := hk.lt hs.sim
  refine ⟨hs, hk, hdir, h.solid i hi hdir, h.aligned i hi hdir, ?_⟩
  rw [View.ns_lt hi, View.node_dents hdir]

section
variable {name : Name} (h : DirsOk S.sb v) (hs : At S B none 0 v s) (hk : Loaded B s.itable k i)
  (hdir : (v.inode i).type = tDir)
include h hs hk hdir

theorem DirsOk.lookup {L : Nat → Bool} (hlock : Locks L s)
    (hroom : ∀ j, Dir.bindings (v.ns S.sb i).dents name = some j → EntryRoom B s j) :
    wp (dirlookup k name) (fun r t => (r = none → t = s ∧ Dir.bindings (v.ns S.sb i).dents name = none) ∧
      ∀ j off, r = some (j, off) → ∃ inum, Dir.bindings (v.ns S.sb i).dents name = some inum ∧
        At S (B + one j) none 0 v t ∧ Keeps B s t ∧ (t.itable j).inum = inum ∧ Locks L t) (fun _ => False) s := by
  have hi := hk.lt hs.sim
  refine dirlookup_exact (h.has hs hk hdir) fun inum hb => iget_room hs ?_ hlock (hroom inum hb)
  obtain ⟨-, m, hm⟩ := Dir.of_bindings hb
  rw [View.ns_lt hi, View.node_dents hdir] at hm
  exact h.inums i hi hdir _ (List.mem_of_getElem? hm)

theorem DirsOk.lookup_full {j : Nat} (hbind : Dir.bindings (v.ns S.sb i).dents name = some j) (hfull : ¬ EntryRoom B s j) :
    wp (dirlookup k name) (fun _ _ => False) (fun _ => True) s := by
  refine (dirlookup_exact (h.has hs hk hdir) (E := fun _ => True) (Q := fun _ _ _ => False) fun inum hb => ?_).mono ?_ fun _ => id
  · cases hbind.symm.trans hb
    exact iget_full hs hfull
  · rintro r t ⟨hnone, hsome⟩
    cases r with
    | none => exact absurd (hbind.symm.trans (hnone rfl).2) (by rintro ⟨⟩)
    | some jo =>
      obtain ⟨-, -, hfalse⟩ := hsome jo.1 jo.2 rfl
      exact hfalse

end

end Directories

end Xv6.Fs
