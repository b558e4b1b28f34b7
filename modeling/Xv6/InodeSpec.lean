import Xv6.FileWrite

namespace Xv6.Fs

open Count Prog

def Keeps (R : Nat → ℤ) (s t : State) : Prop := ∀ k, 0 < R k → (t.itable k).inum = (s.itable k).inum ∧
  ((s.itable k).valid = true → (t.itable k).valid = true ∧ (t.itable k).din.type = (s.itable k).din.type)

section Keeps

variable {R R' : Nat → ℤ} {s t u : State} {i k : Nat}

theorem SameTags.keeps (h : SameTags s t) (R : Nat → ℤ) : Keeps R s t := fun k _ =>
  ⟨(h k).1, fun hv => ⟨(h k).2.1.trans hv, (h k).2.2⟩⟩

theorem Keeps.trans (h : Keeps R s t) (h' : Keeps R t u) : Keeps R s u := by
  intro k hk
  obtain ⟨hinum, hload⟩ := h k hk
  obtain ⟨hinum', hload'⟩ := h' k hk
  refine ⟨hinum'.trans hinum, fun hv => ?_⟩
  obtain ⟨hvalid, htype⟩ := hload hv
  obtain ⟨hvalid', htype'⟩ := hload' hvalid
  exact ⟨hvalid', htype'.trans htype⟩

theorem Keeps.mono (h : Keeps R s t) (hle : ∀ k, R' k ≤ R k) : Keeps R' s t := fun k hk =>
  h k (lt_of_lt_of_le hk (hle k))

theorem Loaded.of_keeps (h : Keeps R s t) (hk : Loaded R s.itable k i) (hpos : 0 < R' k) : Loaded R' t.itable k i :=
  ⟨hpos, ((h k hk.pos).2 hk.valid).1, (h k hk.pos).1.trans hk.inum⟩

theorem Keeps.of_put {ip : Inode} (htable : t.itable = put s.itable k ip)
    (hk : 0 < R k → ip.inum = (s.itable k).inum ∧
      ((s.itable k).valid = true → ip.valid = true ∧ ip.din.type = (s.itable k).din.type)) : Keeps R s t := by
  intro l hl
  rw [htable]
  by_cases hlk : l = k
  · rw [hlk, put_same]
    exact hk (hlk ▸ hl)
  · rw [put_ne _ _ _ hlk]
    exact ⟨rfl, fun h => ⟨h, rfl⟩⟩

theorem put_add_one (R : Nat → ℤ) (k : Nat) : put R k (R k + 1) = R + one k := by
  funext j
  by_cases hj : j = k
  · rw [hj, put_same, Pi.add_apply, one_apply, if_pos rfl]
  · rw [put_ne _ _ _ hj, Pi.add_apply, one_apply, if_neg hj, add_zero]

theorem one_nonneg (k j : Nat) : (0 : ℤ) ≤ one k j := by
  rw [one_apply]
  split <;> decide

theorem pos_add_one {R : Nat → ℤ} (hR : ∀ k, 0 ≤ R k) (k : Nat) : 0 < (R + one k) k := by
  have := hR k
  rw [Pi.add_apply, one_apply, if_pos rfl]
  omega

theorem le_add_one (R : Nat → ℤ) (k j : Nat) : R j ≤ (R + one k) j := by
  have := one_nonneg k j
  rw [Pi.add_apply]
  omega

theorem nonneg_add_one {R : Nat → ℤ} (hR : ∀ j, 0 ≤ R j) (k : Nat) : ∀ j, 0 ≤ (R + one k) j := fun j =>
  (hR j).trans (le_add_one R k j)

end Keeps

section Table

variable {S : Setting} {R e : Nat → ℤ} {dirty : Option Nat} {v w : View} {s t : State} {i k : Nat}

section
variable (h : At S R dirty e v s)
include h

theorem At.ref (k : Nat) : (s.itable k).ref = R k := congrFun h.sim.refs k

theorem At.nonneg (k : Nat) : 0 ≤ R k := h.sim.nonneg k

theorem changeRef_at {n : ℤ} {R' B : Nat → ℤ} (hk : 0 < R k) (hn : 0 ≤ R k + n) (hR : put R k (R k + n) = R') :
    wp (addRef k n) (fun _ t => At S R' dirty e v t ∧ Keeps B s t ∧ (t.itable k).inum = (s.itable k).inum) S.fault s := by
  rw [← h.ref k] at hn hR
  have hsim := h.sim.setEntry (k := k) { s.itable k with ref := (s.itable k).ref + n } (h.sim.range k hk).1
    (h.sim.range k hk).2 hn (fun _ hv => h.sim.table k hk hv) (fun _ j hj hpos heq => hj (h.sim.unique j k hpos hk heq))
  rw [wp_addRef]
  refine ⟨⟨h.super, h.ops, ?_, h.commits⟩, .of_put rfl fun _ => ⟨rfl, fun hv => ⟨hv, rfl⟩⟩, by simp only [put_same]⟩
  rw [← hR]
  exact hsim

theorem addRef_at (hk : 0 < R k) :
    wp (addRef k 1) (fun _ t => At S (R + one k) dirty e v t ∧ Keeps R s t ∧ (t.itable k).inum = (s.itable k).inum) S.fault s :=
  changeRef_at h hk (by omega) (put_add_one R k)

theorem iget_at {inum : Nat} (hinum : inum < S.sb.ninodes) :
    wp (iget inum) (fun k t => At S (R + one k) dirty e v t ∧ Keeps R s t ∧ (t.itable k).inum = inum) S.fault s := by
  simp only [iget, wp_bind, wp_get]
  split
  next k hfind =>
    have hmatch := List.find?_some hfind
    simp only [Bool.and_eq_true, decide_eq_true_eq, beq_iff_eq] at hmatch
    have hpos : 0 < R k := h.ref k ▸ hmatch.1
    refine wp_bind.mpr ((addRef_at h hpos).mono ?_ fun _ => id)
    rintro _ t ⟨ht, hkeep, hsame⟩
    exact wp_pure.mpr ⟨ht, hkeep, hsame.trans hmatch.2⟩
  next hfind =>
    split
    next => exact wp_panic.mpr (panic_other (by decide))
    next k hempty =>
      have hk : k < ninode := List.mem_range.mp (List.mem_of_find?_eq_some hempty)
      have hzero : (s.itable k).ref = 0 := by simpa using List.find?_some hempty
      have hRk : R k = 0 := (h.ref k).symm.trans hzero
      have hnew : ∀ j, j ≠ k → 0 < R j → (s.itable j).inum ≠ inum := by
        intro j _ hj heq
        have hno := List.find?_eq_none.mp hfind j (List.mem_range.mpr (h.sim.range j hj).1)
        rw [← h.ref j] at hj
        simp [hj, heq] at hno
      have hsim := h.sim.setEntry (k := k) { s.itable k with inum := inum, ref := 1, valid := false } hk hinum
        (show (0 : ℤ) ≤ 1 by decide) (fun _ hv => absurd hv Bool.false_ne_true) (fun _ => hnew)
      have hR : put R k 1 = R + one k := by rw [← put_add_one, hRk, zero_add]
      rw [wp_bind, wp_setInode, wp_pure]
      refine ⟨⟨h.super, h.ops, ?_, h.commits⟩, .of_put rfl fun hpos => absurd hpos (by omega), by simp only [put_same]⟩
      rw [← hR]
      exact hsim

end

theorem put_sub_one (R : Nat → ℤ) (k : Nat) : put (R + one k) k ((R + one k) k + -1) = R := by
  funext j
  by_cases hj : j = k
  · rw [hj, put_same, Pi.add_apply, one_apply, if_pos rfl, add_neg_cancel_right]
  · rw [put_ne _ _ _ hj, Pi.add_apply, one_apply, if_neg hj, add_zero]

theorem dropRef_at (h : At S (R + one k) none 0 v s) (hR : ∀ j, 0 ≤ R j) :
    wp (addRef k (-1)) (fun _ t => At S R none 0 v t ∧ Keeps R s t) S.fault s := by
  have hk := pos_add_one hR k
  exact (changeRef_at h hk (by omega) (put_sub_one R k)).mono (fun _ t ht => ⟨ht.1, ht.2.1⟩) fun _ => id

theorem idup_at (h : At S R dirty e v s) (hk : 0 < R k) :
    wp (idup k) (fun j t => j = k ∧ At S (R + one k) dirty e v t ∧ Keeps R s t ∧ (t.itable k).inum = (s.itable k).inum) S.fault s := by
  unfold idup
  refine wp_bind.mpr ((addRef_at h hk).mono ?_ fun _ => id)
  rintro _ t ht
  exact wp_pure.mpr ⟨rfl, ht⟩

theorem put_self (R : Nat → ℤ) (k : Nat) : put R k (R k) = R := put_eq_self R k

theorem At.setEntry {ip : Inode} (h : At S R none e v s) (hk : 0 < R k) (hinum : ip.inum = (s.itable k).inum)
    (href : ip.ref = (s.itable k).ref)
    (hvalid : ip.valid = true → ip.din = v.inode (s.itable k).inum ∧ (v.inode (s.itable k).inum).type ≠ 0) :
    At S R none e v { s with itable := put s.itable k ip } := by
  have hsim := h.sim.setEntry (k := k) ip (h.sim.range k hk).1 (hinum ▸ (h.sim.range k hk).2)
    (by have := h.ref k; omega) (fun _ hv => hinum ▸ hvalid hv)
    (fun _ j hj hpos heq => hj (h.sim.unique j k hpos hk (heq.trans hinum)))
  rw [href, h.ref k, put_self] at hsim
  exact ⟨h.super, h.ops, hsim, h.commits⟩

theorem ilock_at (h : At S R none e v s) (hk : 0 < R k) (hi : (s.itable k).inum = i)
    (htype : S.fault (.panic "ilock: no type") ∨ (v.inode i).type ≠ 0) :
    wp (ilock k) (fun _ t => At S R none e v t ∧ Keeps R s t ∧ Loaded R t.itable k i) S.fault s := by
  have hlt : i < S.sb.ninodes := hi ▸ (h.sim.range k hk).2
  have href : ¬ (s.itable k).ref < 1 := by
    rw [h.ref k]
    omega
  simp only [ilock, wp_bind, wp_inode, wp_ite, wp_panic, wp_throw, wp_setInode, wp_get, wp_pure, put_put]
  refine ⟨fun hbad => absurd hbad href, fun _ => ⟨fun _ => sleep_other, fun _ => ⟨fun hinvalid => ?_, fun hvalid => ?_⟩⟩⟩
  · have hdin : s.disk.dinode s.sb (s.itable k).inum = v.inode i := by
      rw [h.super, hi]
      exact h.sim.inodes i hlt (by rintro ⟨⟩)
    simp only [hdin]
    refine ⟨fun hzero => ?_, fun hne => ?_⟩
    · exact htype.resolve_right fun hne => hne hzero
    · refine ⟨h.setEntry hk rfl rfl fun _ => by rw [hi]; exact ⟨rfl, hne⟩, .of_put rfl fun _ => ⟨rfl, fun hv => ?_⟩, hk, ?_, ?_⟩
      · simp [hv] at hinvalid
      · simp only [put_same]
      · simp only [put_same]
        exact hi
  · have hv : (s.itable k).valid = true := by simpa using hvalid
    refine ⟨h.setEntry hk rfl rfl fun _ => h.sim.table k hk hv, .of_put rfl fun _ => ⟨rfl, fun hv => ⟨hv, rfl⟩⟩, hk, ?_, ?_⟩
    · simp only [put_same]
      exact hv
    · simp only [put_same]
      exact hi

theorem iunlock_at (h : At S R none e v s) (hk : 0 < R k) :
    wp (iunlock k) (fun _ t => At S R none e v t ∧ SameTags s t) S.fault s := by
  simp only [iunlock, wp_bind, wp_inode, wp_ite, wp_panic, wp_setInode]
  refine ⟨fun _ => panic_other (by decide), fun _ => ⟨h.setEntry hk rfl rfl fun hv => h.sim.table k hk hv, .of_put rfl rfl rfl rfl⟩⟩

end Table

end Xv6.Fs
