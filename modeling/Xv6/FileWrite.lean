import Xv6.BlockMap

namespace Xv6.Fs

open Count Prog View List

def View.byte (v : View) (i x : Nat) : Byte := v.data (v.block i (x / bsize)) (x % bsize)

section Store

variable {S : Setting} {sb : Superblock} {R : Nat → ℤ} {v w : View} {s : State} {i k bn b l : Nat} {x : Block}

theorem fileSlot_inj {bn' : Nat} (h : fileSlot bn = fileSlot bn') : bn = bn' := by
  unfold fileSlot at h
  split at h <;> split at h <;> omega

section
variable (hown : Own sb 0 v) (hi : i < sb.ninodes) (hl : l < nslots)
include hown hi hl

theorem slotOf_setData (hne : l ≠ ndirect)
    (hslot : v.slot (i, l) = some b) {i' : Nat} (hi' : i' < sb.ninodes) (htype : (v.inode i').type ≠ 0) (l' : Nat) :
    slotOf (v.setData b x).data (v.inode i') l' = slotOf v.data (v.inode i') l' := by
  unfold slotOf
  split
  next => rfl
  next =>
    split
    next => rfl
    next hind =>
      have hother : (v.inode i').addrs ndirect ≠ b := by
        rintro rfl
        have hsame := hown.unique le_rfl (mem_grid.mpr ⟨hi', show ndirect < nslots by decide⟩) (mem_grid.mpr ⟨hi, hl⟩)
          (slot_eq_some.mpr ⟨htype, slotOf_direct le_rfl, hind⟩) hslot
        exact hne (congrArg Prod.snd hsame).symm
      rw [setData_data, put_ne _ _ _ hother]

theorem slot_setData (hne : l ≠ ndirect) (hslot : v.slot (i, l) = some b) {y : Nat × Nat} (hy : y ∈ grid sb.ninodes nslots) :
    (v.setData b x).slot y = v.slot y := by
  unfold slot
  rw [setData_inode]
  split
  next => rfl
  next htype => rw [slotOf_setData hown hi hl hne hslot (mem_grid.mp hy).1 htype]

theorem only_setData (hslot : v.slot (i, l) = some b) : Only sb i v (v.setData b x) := by
  refine fun i' hi' hne => ⟨rfl, fun l' hl' a ha => put_ne _ _ _ ?_⟩
  rintro rfl
  exact hne (congrArg Prod.fst (hown.unique le_rfl (mem_grid.mpr ⟨hi', hl'⟩) (mem_grid.mpr ⟨hi, hl⟩) ha hslot))

end

theorem store_at {dirty : Option Nat} (h : At S R dirty 0 v s) (hi : i < S.sb.ninodes) (hl : l < nslots) (hne : l ≠ ndirect)
    (hslot : v.slot (i, l) = some b) (x : Block) :
    At S R dirty 0 (v.setData b x) { s with disk := put s.disk b x } := by
  have hmem := h.sim.own.mem_data le_rfl (mem_grid.mpr ⟨hi, hl⟩) hslot
  have howned : owned S.sb (v.setData b x) = v.owned S.sb :=
    owned_congr fun y hy => slot_setData h.sim.own hi hl hne hslot hy
  exact ⟨h.super, h.ops, h.sim.write hmem.1 (by rw [howned]), h.commits⟩

end Store

def pastBlock (n : Nat) : Nat := (n + (bsize - 1)) / bsize

def View.missing (v : View) (i a c : Nat) : Nat :=
  ((List.range' a (c - a)).countP fun bn => v.block i bn = 0) +
    if a < c ∧ ndirect < c ∧ (v.inode i).addrs ndirect = 0 then 1 else 0

structure Stored (sb : Superblock) (i off len : Nat) (v w : View) : Prop where
  only : Only sb i v w
  fields : w.inode i = { v.inode i with addrs := (w.inode i).addrs }
  old : ∀ bn < maxfile, v.block i bn ≠ 0 → w.block i bn = v.block i bn
  new : ∀ x, off ≤ x → x < off + len → w.block i (x / bsize) ≠ 0

def StoredBytes (i off len : Nat) (f : Nat → Byte) (v w : View) : Prop :=
  ∀ x, x / bsize < maxfile → v.block i (x / bsize) ≠ 0 ∨ off ≤ x ∧ x < off + len →
    w.byte i x = if off ≤ x ∧ x < off + len then f (x - off) else v.byte i x

def Source.Copies (src : Source) (f : Nat → Byte) : Prop :=
  ∀ tot m, (src tot m).1 = true ∧ ∀ i < m, (src tot m).2 i = f (tot + i)

theorem Source.kernel_copies (f : Nat → Byte) : (Source.kernel f).Copies f := fun _ _ => ⟨rfl, fun _ _ => rfl⟩

section Stored

variable {sb : Superblock} {u v w : View} {i bn b off len n m : Nat} {f : Nat → Byte}

theorem Stored.refl (sb : Superblock) (i off : Nat) (v : View) : Stored sb i off 0 v v :=
  ⟨.refl sb i v, rfl, fun _ _ _ => rfl, fun _ _ _ => by omega⟩

theorem StoredBytes.refl (i off : Nat) (f : Nat → Byte) (v : View) : StoredBytes i off 0 f v v := by
  intro x _ _
  rw [if_neg (by omega)]

theorem Stored.trans (hend : off + (m + n) ≤ maxfile * bsize) (h : Stored sb i off m u v) (h' : Stored sb i (off + m) n v w) :
    Stored sb i off (m + n) u w where
  only := h.only.trans h'.only
  fields := by
    have hw := h'.fields
    rw [h.fields] at hw
    exact hw
  old bn hbn hne := by
    have hv := h.old bn hbn hne
    rw [h'.old bn hbn (hv.symm ▸ hne), hv]
  new x hlo hhi := by
    by_cases hx : x < off + m
    · have hv := h.new x hlo hx
      have hlt : x / bsize < maxfile := by
        simp only [maxfile, ndirect, nindirect, bsize] at *
        omega
      rw [h'.old _ hlt hv]
      exact hv
    · exact h'.new x (by omega) (by omega)

theorem StoredBytes.trans (hold : ∀ bn < maxfile, u.block i bn ≠ 0 → v.block i bn ≠ 0)
    (hnew : ∀ x, off ≤ x → x < off + m → v.block i (x / bsize) ≠ 0)
    (h : StoredBytes i off m f u v) (h' : StoredBytes i (off + m) n (fun x => f (m + x)) v w) :
    StoredBytes i off (m + n) f u w := by
  intro x hx hcase
  by_cases hlate : off + m ≤ x ∧ x < off + m + n
  · have hx' : m + (x - (off + m)) = x - off := by omega
    rw [h' x hx (.inr hlate), if_pos hlate, if_pos (by omega)]
    exact congrArg f hx'
  · have hv : v.block i (x / bsize) ≠ 0 := by
      rcases hcase with hu | hrange
      · exact hold _ hx hu
      · exact hnew x (by omega) (by omega)
    rw [h' x hx (.inl hv), if_neg hlate]
    by_cases hearly : off ≤ x ∧ x < off + m
    · rw [h x hx (.inr hearly), if_pos hearly, if_pos (by omega)]
    · have hu : u.block i (x / bsize) ≠ 0 := by
        rcases hcase with hu | hrange
        · exact hu
        · omega
      rw [h x hx (.inl hu), if_neg hearly, if_neg (by omega)]

theorem block_eq_slot (v : View) (i bn : Nat) : v.block i bn = slotOf v.data (v.inode i) (fileSlot bn) := rfl

theorem fileSlot_notMem {bn' : Nat} (h : bn' ≠ bn) : fileSlot bn' ∉ mapSlots bn := by
  unfold mapSlots fileSlot
  split <;> split <;> simp <;> omega

theorem fileSlot_mem (bn : Nat) : fileSlot bn ∈ mapSlots bn := by
  unfold mapSlots fileSlot
  split <;> simp

theorem Grows.block {L : List Nat} (h : Grows sb i L n v w) (hne : v.block i bn ≠ 0) : w.block i bn = v.block i bn :=
  h.old _ hne

theorem Grows.byte {L : List Nat} {x : Nat} (h : Grows sb i L n v w) (hx : x / bsize < maxfile) (hne : v.block i (x / bsize) ≠ 0) :
    w.byte i x = v.byte i x := by
  unfold View.byte
  rw [h.block hne]
  exact congrFun (h.kept _ (fileSlot_lt hx) (fileSlot_ne _) hne) _

end Stored

section Piece

variable {sb : Superblock} {u v w : View} {i bn b off len n m : Nat} {f : Nat → Byte} {L : List Nat}

section
variable (hown : Own sb 0 v) (hi : i < sb.ninodes) (htype : (v.inode i).type ≠ 0)
include hown hi htype

theorem piece_stored (hbn : bn < maxfile) (hgrow : Grows sb i L n u v) (hb : v.block i bn = b) (hb0 : b ≠ 0) (x : Block)
    (hrange : ∀ y, off ≤ y → y < off + m → y / bsize = bn) : Stored sb i off m u (v.setData b x) := by
  have hslot : v.slot (i, fileSlot bn) = some b := slot_eq_some.mpr ⟨htype, hb, hb0⟩
  have hblock : ∀ bn', (v.setData b x).block i bn' = v.block i bn' := fun bn' =>
    slotOf_setData hown hi (fileSlot_lt hbn) (fileSlot_ne bn) hslot hi htype _
  refine ⟨hgrow.only.trans (only_setData hown hi (fileSlot_lt hbn) hslot), hgrow.fields, fun bn' _ hne => ?_, fun y hlo hhi => ?_⟩
  · rw [hblock, hgrow.block hne]
  · rw [hblock, hrange y hlo hhi, hb]
    exact hb0

theorem piece_bytes (hbn : off / bsize < maxfile)
    (hgrow : Grows sb i L n u v) (hb : v.block i (off / bsize) = b) (hb0 : b ≠ 0) (hm : off % bsize + m ≤ bsize) {d : Nat → Byte}
    (hd : ∀ y < m, d y = f y) :
    StoredBytes i off m f u (v.setData b (splice (v.data b) (off % bsize) m d)) := by
  have hslot : v.slot (i, fileSlot (off / bsize)) = some b := slot_eq_some.mpr ⟨htype, hb, hb0⟩
  intro x hx hcase
  have hblock : (v.setData b (splice (v.data b) (off % bsize) m d)).block i (x / bsize) = v.block i (x / bsize) :=
    slotOf_setData hown hi (fileSlot_lt hbn) (fileSlot_ne _) hslot hi htype _
  have hv : v.block i (x / bsize) ≠ 0 := by
    rcases hcase with hne | hrange
    · rw [hgrow.block hne]
      exact hne
    · have hsame : x / bsize = off / bsize := by
        simp only [bsize] at *
        omega
      rw [hsame, hb]
      exact hb0
  rw [byte, hblock, setData_data]
  by_cases hsame : x / bsize = off / bsize
  · rw [hsame, hb, put_same]
    by_cases hin : off ≤ x ∧ x < off + m
    · have hpos : x % bsize = off % bsize + (x - off) := by
        simp only [bsize] at *
        omega
      rw [if_pos hin, hpos, splice_in (by omega), hd _ (by omega)]
    · have hout : x % bsize < off % bsize ∨ off % bsize + m ≤ x % bsize := by
        simp only [bsize] at *
        omega
      have hu : u.block i (x / bsize) ≠ 0 := by
        rcases hcase with hne | hrange
        · exact hne
        · exact absurd hrange hin
      rw [if_neg hin, splice_out hout, ← hgrow.byte hx hu, byte, hsame, hb]
  · have hne : v.block i (x / bsize) ≠ b := by
      intro heq
      have hgrid := hown.unique le_rfl (mem_grid.mpr ⟨hi, fileSlot_lt hx⟩) (mem_grid.mpr ⟨hi, fileSlot_lt hbn⟩)
        (slot_eq_some.mpr ⟨htype, heq, hb0⟩) hslot
      exact hsame (fileSlot_inj (congrArg Prod.snd hgrid))
    have hin : ¬ (off ≤ x ∧ x < off + m) := by
      simp only [bsize] at *
      omega
    have hu : u.block i (x / bsize) ≠ 0 := by
      rcases hcase with hne | hrange
      · exact hne
      · exact absurd hrange hin
    rw [put_ne _ _ _ hne, if_neg hin, ← hgrow.byte hx hu, byte]

end

theorem need_direct (h : bn < ndirect) : v.need i bn = if v.block i bn = 0 then 1 else 0 := by
  simp [need, mapSlots, h, countP_cons, block_eq_slot, fileSlot_direct h]

theorem need_indirect (h : ¬ bn < ndirect) :
    v.need i bn = (if v.block i bn = 0 then 1 else 0) + if (v.inode i).addrs ndirect = 0 then 1 else 0 := by
  simp only [need, mapSlots, if_neg h, countP_cons, countP_nil, decide_eq_true_eq, block_eq_slot,
    fileSlot_indirect h, slotOf_direct (le_refl ndirect), zero_add]

theorem missing_succ {a c : Nat} (hac : a < c) :
    v.missing i a c = (if v.block i a = 0 then 1 else 0) + ((range' (a + 1) (c - (a + 1))).countP fun bn => v.block i bn = 0) +
      if ndirect < c ∧ (v.inode i).addrs ndirect = 0 then 1 else 0 := by
  have hlen : c - a = c - (a + 1) + 1 := by omega
  simp only [missing, hlen, range'_succ, countP_cons, decide_eq_true_eq, hac, true_and]
  omega

theorem SameFile.missing {a c : Nat} (h : SameFile i v w) (htype : (v.inode i).type ≠ 0) :
    w.missing i a c = v.missing i a c := by
  simp only [View.missing, h.block htype, h.inode]

theorem need_le_missing {a c : Nat} (hac : a < c) : v.need i a ≤ v.missing i a c := by
  rw [missing_succ hac]
  by_cases ha : a < ndirect
  · rw [need_direct ha]
    omega
  · have hc : (ndirect < c ∧ (v.inode i).addrs ndirect = 0) ↔ (v.inode i).addrs ndirect = 0 := and_iff_right (by omega)
    rw [need_indirect ha]
    simp only [hc]
    omega

theorem missing_step {a c : Nat} (hac : a < c) (hblocks : ∀ bn, bn ≠ a → w.block i bn = v.block i bn)
    (hdirect : a < ndirect → (w.inode i).addrs ndirect = (v.inode i).addrs ndirect)
    (hindirect : ¬ a < ndirect → (w.inode i).addrs ndirect ≠ 0) :
    w.missing i (a + 1) c + v.need i a = v.missing i a c := by
  have hcount : ((range' (a + 1) (c - (a + 1))).countP fun bn => w.block i bn = 0) =
      (range' (a + 1) (c - (a + 1))).countP fun bn => v.block i bn = 0 := by
    refine countP_congr fun bn hbn => ?_
    rw [hblocks bn (by have := (mem_range'_1.mp hbn).1; omega)]
  rw [missing_succ hac, missing, hcount]
  by_cases ha : a < ndirect
  · have hiff : (a + 1 < c ∧ ndirect < c ∧ (w.inode i).addrs ndirect = 0) ↔ ndirect < c ∧ (v.inode i).addrs ndirect = 0 := by
      rw [hdirect ha]
      exact ⟨fun h => h.2, fun h => ⟨by omega, h⟩⟩
    rw [need_direct ha]
    simp only [hiff]
    omega
  · have hc : (ndirect < c ∧ (v.inode i).addrs ndirect = 0) ↔ (v.inode i).addrs ndirect = 0 := and_iff_right (by omega)
    rw [need_indirect ha, if_neg (fun h => hindirect ha h.2.2)]
    simp only [hc]
    omega

theorem missing_fill {a e c : Nat} (hae : a ≤ e) (hec : e < c) (hblocks : ∀ bn, bn ≠ e → w.block i bn = v.block i bn)
    (hfilled : w.block i e ≠ 0) (hdirect : e < ndirect → (w.inode i).addrs ndirect = (v.inode i).addrs ndirect)
    (hindirect : ¬ e < ndirect → (w.inode i).addrs ndirect ≠ 0) :
    w.missing i a c + v.need i e = v.missing i a c := by
  obtain ⟨d, rfl⟩ := Nat.exists_eq_add_of_le hae
  clear hae
  induction d generalizing a with
  | zero =>
    rw [Nat.add_zero] at hec hblocks hfilled hdirect hindirect ⊢
    have hstep := missing_step hec hblocks hdirect hindirect
    have hsame : w.missing i a c = w.missing i (a + 1) c := by
      rw [missing_succ hec, if_neg hfilled, missing]
      have hiff : (a + 1 < c ∧ ndirect < c ∧ (w.inode i).addrs ndirect = 0) ↔ ndirect < c ∧ (w.inode i).addrs ndirect = 0 := by
        refine ⟨fun h => h.2, fun h => ⟨?_, h⟩⟩
        have hlt : a < ndirect := by
          by_contra hge
          exact hindirect hge h.2
        omega
      simp only [hiff, Nat.zero_add]
    omega
  | succ d ih =>
    rw [show a + (d + 1) = a + 1 + d by omega] at hec hblocks hfilled hdirect hindirect ⊢
    have hrest := ih hec hblocks hfilled hdirect hindirect
    rw [missing_succ (show a < c by omega), missing_succ (show a < c by omega), hblocks a (by omega)]
    simp only [missing, show a + 1 < c by omega, true_and] at hrest
    omega

theorem missing_le_right {a c c' : Nat} (h : c ≤ c') : v.missing i a c ≤ v.missing i a c' := by
  have hsub : List.Sublist (range' a (c - a)) (range' a (c' - a)) := range'_sublist_right.mpr (by omega)
  have hcount := hsub.countP_le (p := fun bn => decide (v.block i bn = 0))
  unfold missing
  split <;> split <;> omega

theorem missing_le_left {a a' c : Nat} (h : a ≤ a') : v.missing i a' c ≤ v.missing i a c := by
  induction a', h using Nat.le_induction with
  | base => exact le_rfl
  | succ a' _ ih =>
    refine le_trans ?_ ih
    by_cases hc : a' < c
    · rw [missing_succ hc, missing]
      split <;> split <;> split <;> omega
    · simp [missing, show c - (a' + 1) = 0 by omega, show ¬ a' + 1 < c by omega]

theorem missing_piece {a c : Nat} {x : Block} (hown : Own sb 0 v) (hi : i < sb.ninodes) (htype : (v.inode i).type ≠ 0)
    (hbn : a < maxfile) (hslot : v.slot (i, fileSlot a) = some b) (hgrow : Grows sb i (mapSlots a) n u v)
    (hmapped : ∀ l ∈ mapSlots a, slotOf v.data (v.inode i) l ≠ 0) (hac : a < c) :
    (v.setData b x).missing i (a + 1) c + u.need i a = u.missing i a c ∧
      ∀ a' ≤ a, (v.setData b x).missing i a' c + u.need i a = u.missing i a' c := by
  have haddr : ∀ w : View, (w.inode i).addrs ndirect = slotOf w.data (w.inode i) ndirect := fun w =>
    (slotOf_direct le_rfl).symm
  have hblock : ∀ bn, (v.setData b x).block i bn = v.block i bn := by
    intro bn
    rw [block_eq_slot, setData_inode, slotOf_setData hown hi (fileSlot_lt hbn) (fileSlot_ne a) hslot hi htype, block_eq_slot]
  have hothers : ∀ bn, bn ≠ a → (v.setData b x).block i bn = u.block i bn := fun bn hne => by
    rw [hblock, block_eq_slot, hgrow.slots _ (fileSlot_notMem hne), block_eq_slot]
  have hdirect : a < ndirect → ((v.setData b x).inode i).addrs ndirect = (u.inode i).addrs ndirect := fun hdirect => by
    rw [setData_inode, haddr v, haddr u]
    refine hgrow.slots _ ?_
    simp only [mapSlots, if_pos hdirect, mem_singleton]
    omega
  have hindirect : ¬ a < ndirect → ((v.setData b x).inode i).addrs ndirect ≠ 0 := fun hindirect => by
    rw [setData_inode, haddr v]
    exact hmapped _ (by simp [mapSlots, hindirect])
  refine ⟨missing_step hac hothers hdirect hindirect, fun a' ha' => missing_fill ha' hac hothers ?_ hdirect hindirect⟩
  rw [hblock, block_eq_slot]
  exact (slot_eq_some.mp hslot).2.1 ▸ (slot_eq_some.mp hslot).2.2

end Piece

structure LoopResult (S : Setting) (R : Nat → ℤ) (i n : Nat) (src : Source) (tot off : Nat) (v : View) (s : State)
    (r : Nat × Nat) (w : View) (t : State) : Prop where
  holds : At S R (some i) 0 w t
  tags : SameTags s t
  count : tot ≤ r.1 ∧ r.1 ≤ n ∧ r.2 = off + (r.1 - tot)
  stored : Stored S.sb i off (r.1 - tot) v w
  bytes : ∀ f, src.Copies f → StoredBytes i off (r.1 - tot) (fun x => f (tot + x)) v w
  full : (∃ f, src.Copies f) → r.1 < n → v.free S.sb < v.missing i (off / bsize) (pastBlock (off + (n - tot)))
  spent : r.1 = n → ∀ a c, a ≤ off / bsize → pastBlock (off + (n - tot)) ≤ c →
    w.free S.sb + v.missing i a c = v.free S.sb + w.missing i a c

section Loop

variable {S : Setting} {R : Nat → ℤ} {v w : View} {s : State} {i k n : Nat} {src : Source}

theorem Grows.stored {L : List Nat} {c off : Nat} (h : Grows S.sb i L c v w) : Stored S.sb i off 0 v w :=
  ⟨h.only, h.fields, fun _ _ hne => h.block hne, fun _ _ _ => by omega⟩

theorem Grows.storedBytes {L : List Nat} {c off : Nat} {f : Nat → Byte} (h : Grows S.sb i L c v w) :
    StoredBytes i off 0 f v w := by
  intro x hx hcase
  rw [if_neg (by omega), h.byte hx (hcase.resolve_right (by omega))]

theorem Stored.bytes_after {u : View} {f : Nat → Byte} {tot off m l : Nat} (hstored : Stored S.sb i off m v u)
    (hbytes : StoredBytes i off m (fun x => f (tot + x)) v u) (h : StoredBytes i (off + m) l (fun x => f (tot + m + x)) u w) :
    StoredBytes i off (m + l) (fun x => f (tot + x)) v w := by
  refine StoredBytes.trans (v := u) (fun bn hbn hne => ?_) hstored.new hbytes ?_
  · rw [hstored.old bn hbn hne]
    exact hne
  · simp only [Nat.add_assoc] at h
    exact h

theorem LoopResult.after {u : View} {t t' : State} {r : Nat × Nat} {tot off m : Nat} (hm : tot + m ≤ n)
    (hend : off + (n - tot) ≤ maxfile * bsize) (htags : SameTags s t) (hstored : Stored S.sb i off m v u)
    (hbytes : ∀ f, src.Copies f → StoredBytes i off m (fun x => f (tot + x)) v u)
    (hfull : tot + m < n → u.free S.sb < u.missing i ((off + m) / bsize) (pastBlock (off + (n - tot))) →
      v.free S.sb < v.missing i (off / bsize) (pastBlock (off + (n - tot))))
    (hspent : ∀ a c, a ≤ off / bsize → pastBlock (off + (n - tot)) ≤ c →
      u.free S.sb + v.missing i a c = v.free S.sb + u.missing i a c)
    (h : LoopResult S R i n src (tot + m) (off + m) u t r w t') : LoopResult S R i n src tot off v s r w t' := by
  obtain ⟨hlo, hhi, hoff⟩ := h.count
  have hlen : r.1 - tot = m + (r.1 - (tot + m)) := by omega
  have hpast : off + m + (n - (tot + m)) = off + (n - tot) := by omega
  refine ⟨h.holds, htags.trans h.tags, ⟨by omega, hhi, by omega⟩, ?_, fun f hf => ?_, fun hf hlt => ?_,
    fun hall a c ha hc => ?_⟩
  · rw [hlen]
    exact hstored.trans (by omega) h.stored
  · rw [hlen]
    exact hstored.bytes_after (hbytes f hf) (h.bytes f hf)
  · have hrest := h.full hf hlt
    rw [hpast] at hrest
    exact hfull (by omega) hrest
  · have hfirst := hspent a c ha hc
    have hrest := h.spent hall a c (ha.trans (Nat.div_le_div_right (by omega))) (hpast.symm ▸ hc)
    omega

theorem writeLoop_at {fuel tot off : Nat} (h : At S R (some i) 0 v s) (hk : Loaded R s.itable k i) (htot : tot ≤ n)
    (hfuel : n ≤ tot + fuel) (hend : off + (n - tot) ≤ maxfile * bsize) :
    wp (writeLoop k n src fuel tot off) (fun r t => ∃ w, LoopResult S R i n src tot off v s r w t) S.fault s := by
  have hstop : ∀ (v : View) (s : State) (tot off : Nat), At S R (some i) 0 v s → tot = n →
      ∃ w, LoopResult S R i n src tot off v s (tot, off) w s := by
    rintro v s tot off h rfl
    exact ⟨v, h, .refl s, ⟨le_rfl, le_rfl, by simp⟩, by simpa using Stored.refl S.sb i off v,
      fun f _ => by simpa using StoredBytes.refl i off _ v, fun _ hlt => absurd hlt (lt_irrefl _),
      fun _ _ _ _ _ => Nat.add_comm _ _ ▸ rfl⟩
  induction fuel generalizing tot off v s with
  | zero => exact wp_pure.mpr (hstop v s tot off h (by omega))
  | succ fuel ih =>
    unfold writeLoop
    split
    next hlt =>
      have hbn : off / bsize < maxfile := by
        simp only [maxfile, ndirect, nindirect, bsize] at *
        omega
      have hpast : off / bsize < pastBlock (off + (n - tot)) := by
        simp only [pastBlock, bsize]
        omega
      rw [wp_bind]
      refine (bmap_at h hk hbn).mono ?_ fun _ => id
      rintro b t ⟨u, hmap⟩
      split
      next hb0 =>
        -- the disk is full
        obtain ⟨c, hgrow, -⟩ := hmap.grows
        refine wp_pure.mpr ⟨u, hmap.holds, hmap.tags, ⟨le_rfl, htot, by simp⟩, ?_, fun f _ => ?_, fun _ _ => ?_,
          fun hall => absurd hall hlt.ne⟩
        · simpa using hgrow.stored
        · simpa using hgrow.storedBytes
        · exact lt_of_lt_of_le (hmap.full hb0) (need_le_missing hpast)
      next hb0 =>
        obtain ⟨c, hgrow, hc⟩ := hmap.grows
        have hi := hk.lt h.sim
        have htype : (u.inode i).type ≠ 0 := hgrow.type.symm ▸ hk.type h.sim
        have hslot : u.slot (i, fileSlot (off / bsize)) = some b := slot_eq_some.mpr ⟨htype, hmap.block.symm, hb0⟩
        have hmem := hmap.holds.sim.own.mem_data le_rfl (mem_grid.mpr ⟨hi, fileSlot_lt hbn⟩) hslot
        have hdata := hmap.holds.sim.data b hmem.1 hmem.2.1
        generalize hm : min (n - tot) (bsize - off % bsize) = m
        rcases hsrc : src tot m with ⟨ok, data⟩
        simp only [hsrc, wp_bind, wp_get, wp_bwrite, hdata]
        have hstore := store_at hmap.holds hi (fileSlot_lt hbn) (fileSlot_ne _) hslot (splice (u.data b) (off % bsize) m data)
        have hin : ∀ y, off ≤ y → y < off + m → y / bsize = off / bsize := by
          simp only [bsize] at *
          omega
        split
        next hbad =>
          -- the bytes are in the buffer, but the copy failed
          have hno : ¬ ∃ f, src.Copies f := by
            rintro ⟨f, hf⟩
            have hok := (hf tot m).1
            rw [hsrc] at hok
            rw [show ok = true from hok] at hbad
            exact absurd hbad (by decide)
          refine wp_pure.mpr ⟨_, hstore, hmap.tags.trans (.of_eq rfl), ⟨le_rfl, htot, by simp⟩, ?_, fun f hf => absurd ⟨f, hf⟩ hno,
            fun hf _ => absurd hf hno, fun hall => absurd hall hlt.ne⟩
          have hnone : ∀ y, off ≤ y → y < off + 0 → y / bsize = off / bsize := fun y _ _ => by omega
          simpa using piece_stored hmap.holds.sim.own hi htype hbn hgrow hmap.block.symm hb0 _ hnone
        next hok =>
          rw [wp_bind]
          refine (logWrite_at b hstore).mono ?_ fun _ => id
          rintro _ t' ⟨ht', htable, -⟩
          have htags : SameTags s t' := hmap.tags.trans (.of_eq htable)
          have hmle : m ≤ n - tot := hm ▸ min_le_left _ _
          have hmpos : 0 < m := by
            simp only [bsize] at *
            omega
          refine (ih ht' (hk.of_tags htags) (by omega) (by omega) (by omega)).mono ?_ fun _ => id
          rintro r t'' ⟨w, hrest⟩
          have hfree := hgrow.free
          rw [hc hb0] at hfree
          have hbits : free S.sb (u.setData b (splice (u.data b) (off % bsize) m data)) = u.free S.sb := rfl
          have hmissing : ∀ c, off / bsize < c → _ := fun c hc =>
            missing_piece (x := splice (u.data b) (off % bsize) m data) hmap.holds.sim.own hi htype hbn hslot hgrow
              (hmap.mapped hb0) hc
          refine ⟨w, hrest.after (by omega) hend htags ?_ ?_ ?_ ?_⟩
          · exact piece_stored hmap.holds.sim.own hi htype hbn hgrow hmap.block.symm hb0 _ hin
          · intro f hf
            refine piece_bytes hmap.holds.sim.own hi htype hbn hgrow hmap.block.symm hb0 ?_ fun y hy => ?_
            · simp only [bsize] at *
              omega
            · have hcopy := (hf tot m).2 y hy
              rw [hsrc] at hcopy
              exact hcopy
          · intro hmore hless
            have hnext : (off + m) / bsize = off / bsize + 1 := by
              simp only [bsize] at *
              omega
            rw [hnext] at hless
            have hstep := (hmissing _ hpast).1
            omega
          · intro a c ha hle
            have hstep := (hmissing c (lt_of_lt_of_le hpast hle)).2 a ha
            omega
    next hge => exact wp_pure.mpr (hstop v s tot off h (by omega))

end Loop

def View.Refused (v : View) (i off n : Nat) : Prop :=
  off > (v.inode i).size ∨ uint (off + n) < off ∨ off + n > maxfile * bsize

structure Written (sb : Superblock) (i off len : Nat) (v w : View) : Prop where
  only : Only sb i v w
  fields : w.inode i = { v.inode i with addrs := (w.inode i).addrs, size := max (v.inode i).size (off + len) }
  old : ∀ bn < maxfile, v.block i bn ≠ 0 → w.block i bn = v.block i bn
  new : ∀ x, off ≤ x → x < off + len → w.block i (x / bsize) ≠ 0

structure WriteResult (S : Setting) (R : Nat → ℤ) (i : Nat) (src : Source) (off n : Nat) (v : View) (s : State)
    (tot : Nat) (w : View) (t : State) : Prop where
  holds : At S R none 0 w t
  tags : SameTags s t
  count : tot ≤ n
  written : Written S.sb i off tot v w
  bytes : ∀ f, src.Copies f → StoredBytes i off tot f v w
  full : (∃ f, src.Copies f) → tot < n → v.free S.sb < v.missing i (off / bsize) (pastBlock (off + n))
  spent : tot = n → ∀ a c, a ≤ off / bsize → pastBlock (off + n) ≤ c →
    w.free S.sb + v.missing i a c = v.free S.sb + w.missing i a c

section Writei

variable {S : Setting} {R : Nat → ℤ} {v w : View} {s : State} {i k : Nat} {src : Source}

/-- `if(off > ip->size) ip->size = off`. -/
def Dinode.extend (off : Nat) (d : Dinode) : Dinode := if off > d.size then { d with size := off } else d

theorem Dinode.extend_eq (off : Nat) (d : Dinode) : d.extend off = { d with size := max d.size off } := by
  unfold Dinode.extend
  split
  next h => rw [max_eq_right h.le]
  next h => rw [max_eq_left (by omega)]

theorem Stored.written {sb : Superblock} {off len : Nat} (h : Stored sb i off len v w) :
    Written sb i off len v (w.setInode i ((w.inode i).extend (off + len))) := by
  have hinode : (w.setInode i ((w.inode i).extend (off + len))).inode i = (w.inode i).extend (off + len) := by
    rw [setInode_inode, put_same]
  have haddrs : ((w.inode i).extend (off + len)).addrs = (w.inode i).addrs := by rw [Dinode.extend_eq]
  have hblock : ∀ bn, (w.setInode i ((w.inode i).extend (off + len))).block i bn = w.block i bn := by
    intro bn
    simp only [block_eq_slot, hinode, slotOf, haddrs, setInode_data]
  refine ⟨fun j hj hne => (h.only j hj hne).trans ⟨?_, fun _ _ _ _ => rfl⟩, ?_, fun bn hbn hne => ?_, fun x hlo hhi => ?_⟩
  · rw [setInode_inode, put_ne _ _ _ hne]
  · rw [hinode, haddrs, Dinode.extend_eq, h.fields]
  · rw [hblock, h.old bn hbn hne]
  · rw [hblock]
    exact h.new x hlo hhi

theorem byte_setInode {d : Dinode} {x : Nat} (haddrs : d.addrs = (w.inode i).addrs) : (w.setInode i d).byte i x = w.byte i x := by
  simp only [byte, block_eq_slot, setInode_inode, put_same, slotOf, haddrs, setInode_data]

theorem missing_setInode {d : Dinode} {a c : Nat} (haddrs : d.addrs = (w.inode i).addrs) :
    (w.setInode i d).missing i a c = w.missing i a c := by
  have hblock : ∀ bn, (w.setInode i d).block i bn = w.block i bn := fun bn => by
    simp only [block_eq_slot, setInode_inode, put_same, slotOf, haddrs, setInode_data]
  have haddr : ((w.setInode i d).inode i).addrs ndirect = (w.inode i).addrs ndirect := by
    rw [setInode_inode, put_same, haddrs]
  simp only [missing, hblock, haddr]

theorem extend_at {off : Nat} (h : At S R (some i) 0 w s) (hk : Loaded R s.itable k i) (hoff : off ≤ maxfile * bsize) :
    wp (do setDin k (Dinode.extend off); iupdate k)
      (fun _ t => At S R none 0 (w.setInode i ((w.inode i).extend off)) t ∧ SameTags s t) S.fault s := by
  have hi := hk.lt h.sim
  have haddrs : ((w.inode i).extend off).addrs = (w.inode i).addrs := by rw [Dinode.extend_eq]
  have htype : ((w.inode i).extend off).type = (w.inode i).type := by rw [Dinode.extend_eq]
  have hnorm : ((w.inode i).extend off).Norm := by
    have hw := h.sim.norm i hi
    rw [Dinode.extend_eq]
    refine { hw with size := max_lt hw.size ?_ }
    simp only [maxfile, ndirect, nindirect, bsize] at hoff
    omega
  have hslots : ∀ y ∈ grid S.sb.ninodes nslots, (w.setInode i ((w.inode i).extend off)).slot y = w.slot y := by
    rintro ⟨i', l⟩ -
    by_cases hii : i' = i
    · subst hii
      simp only [slot, setInode_inode, put_same, htype, slotOf, haddrs, setInode_data]
    · simp only [slot, setInode_inode, put_ne _ _ _ hii, setInode_data]
  rw [wp_bind]
  refine (setDin_at (f := Dinode.extend off) h hk hnorm htype (by rw [owned_congr hslots])).mono ?_ fun _ => id
  rintro _ t ⟨htags, ht⟩
  refine (iupdate_at ht (hk.of_tags htags)).mono ?_ fun _ => id
  rintro _ t' ⟨ht', htable⟩
  exact ⟨ht', htags.trans (.of_eq htable)⟩

theorem writei_at {off n : Nat} (h : At S R none 0 v s) (hk : Loaded R s.itable k i) :
    wp (writei k src off n) (fun r t => v.Refused i off n ∧ r = -1 ∧ t = s ∨
      ¬ v.Refused i off n ∧ ∃ tot : Nat, ∃ w, r = tot ∧ WriteResult S R i src off n v s tot w t) S.fault s := by
  have hdin := hk.din h.sim
  have hi := hk.lt h.sim
  simp only [writei, wp_bind, wp_inode, hdin, wp_ite]
  refine ⟨fun hearly => wp_pure.mpr (.inl ⟨?_, rfl, rfl⟩),
    fun hearly => ⟨fun hbig => wp_pure.mpr (.inl ⟨.inr (.inr hbig), rfl, rfl⟩), fun hbig => ?_⟩⟩
  · exact hearly.imp_right .inl
  · have hok : ¬ v.Refused i off n := by
      rintro (h1 | h2 | h3)
      · exact hearly (.inl h1)
      · exact hearly (.inr h2)
      · exact hbig h3
    refine (writeLoop_at (h.weaken i) hk (Nat.zero_le n) (by omega) (by omega)).mono ?_ fun _ => id
    rintro ⟨tot, off'⟩ t ⟨w, hloop⟩
    obtain ⟨-, hle, hoff : off' = off + (tot - 0)⟩ := hloop.count
    rw [Nat.sub_zero] at hoff
    subst hoff
    have hkt := hk.of_tags hloop.tags
    have hstored := hloop.stored
    have hbytes := hloop.bytes
    have hfull := hloop.full
    have hspent := hloop.spent
    simp only [Nat.sub_zero, Nat.zero_add] at hle hstored hbytes hfull hspent ⊢
    have haddrs : ((w.inode i).extend (off + tot)).addrs = (w.inode i).addrs := by rw [Dinode.extend_eq]
    have hfinish := extend_at hloop.holds hkt (show off + tot ≤ maxfile * bsize by omega)
    rw [wp_bind] at hfinish
    refine hfinish.mono (fun _ t1 hupdate => hupdate.mono ?_ fun _ => id) fun _ => id
    rintro _ t2 ⟨ht2, htags⟩
    refine wp_pure.mpr (.inr ⟨hok, tot, _, rfl, ht2, hloop.tags.trans htags, hle, hstored.written, fun f hf => ?_, hfull,
      fun hall a c ha hc => ?_⟩)
    · intro x hx hcase
      rw [byte_setInode haddrs]
      exact hbytes f hf x hx hcase
    · rw [missing_setInode haddrs]
      exact hspent hall a c ha hc

end Writei

end Xv6.Fs
