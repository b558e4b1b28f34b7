import Xv6.Blocks

namespace Xv6.Fs

open Count Prog View

def Dinode.withAddr (d : Dinode) (j b : Nat) : Dinode := { d with addrs := put d.addrs j b }

@[simp]
theorem Dinode.withAddr_addrs (d : Dinode) (j b : Nat) : (d.withAddr j b).addrs = put d.addrs j b := rfl

/-- Block `b` is put into slot `j` of inode `i`, and nothing else that a file holds changes. -/
structure Filled (sb : Superblock) (i j b : Nat) (v w : View) : Prop where
  only : Only sb i v w
  fields : w.inode i = { v.inode i with addrs := (w.inode i).addrs }
  slots : ∀ l, slotOf w.data (w.inode i) l = if l = j then b else slotOf v.data (v.inode i) l
  kept : ∀ l < nslots, l ≠ ndirect → slotOf v.data (v.inode i) l ≠ 0 →
    w.data (slotOf v.data (v.inode i) l) = v.data (slotOf v.data (v.inode i) l)
  free : v.free sb = w.free sb + 1

section Fill

variable {S : Setting} {sb : Superblock} {R e : Nat → ℤ} {v w : View} {s : State} {i j k b : Nat} {d : Dinode}

theorem Filled.type (h : Filled sb i j b v w) : (w.inode i).type = (v.inode i).type := by rw [h.fields]

theorem owned_fill (honly : Only sb i v w) (hfields : w.inode i = { v.inode i with addrs := (w.inode i).addrs })
    (hslots : ∀ l, slotOf w.data (w.inode i) l = if l = j then b else slotOf v.data (v.inode i) l)
    (hi : i < sb.ninodes) (hj : j < nslots) (htype : (v.inode i).type ≠ 0)
    (hempty : slotOf v.data (v.inode i) j = 0) (hb : b ≠ 0) : w.owned sb = v.owned sb + one b := by
  have htype' : (w.inode i).type = (v.inode i).type := by rw [hfields]
  have hold : v.slot (i, j) = none := by
    simp [slot, htype, hempty, present]
  have hnew : w.slot (i, j) = some b := by
    refine slot_eq_some.mpr ⟨htype'.symm ▸ htype, ?_, hb⟩
    rw [hslots, if_pos rfl]
  have hchange := owned_change (x := (i, j)) (v := v) (w := w) (mem_grid.mpr ⟨hi, hj⟩) ?_
  · rw [hchange, hold, hnew, mark_none, mark_some, sub_zero]
  · rintro ⟨i', l⟩ hmem hne
    obtain ⟨hlt, -⟩ := mem_grid.mp hmem
    by_cases hii : i' = i
    · subst hii
      have hl : l ≠ j := fun hl => hne (by rw [hl])
      simp only [slot, htype', hslots, if_neg hl]
    · exact (honly i' hlt hii).slot

theorem slotOf_direct {data : Nat → Block} (hj : j ≤ ndirect) : slotOf data d j = d.addrs j := if_pos hj

theorem slotOf_zero_block {data : Nat → Block} (hzero : data (d.addrs ndirect) = fun _ => 0)
    (hj : ndirect < j) : slotOf data d j = 0 := by
  rw [slotOf, if_neg (by omega)]
  split
  next => rfl
  next => rw [hzero]; rfl

theorem Dinode.Norm.setAddr (h : d.Norm) (hj : j ≤ ndirect) (hb : b < 2 ^ 32) :
    (d.withAddr j b).Norm := by
  refine { h with addrs := fun l => ?_, void := fun l hl => ?_ }
  · rw [Dinode.withAddr_addrs]
    by_cases hlj : l = j
    · rw [hlj, put_same]
      exact hb
    · rw [put_ne _ _ _ hlj]
      exact h.addrs l
  · rw [Dinode.withAddr_addrs, put_ne _ _ _ (by omega)]
    exact h.void l hl

theorem fill_addr (hj : j ≤ ndirect) (hempty : (v.inode i).addrs j = 0)
    (hsame : ∀ i < sb.ninodes, SameFile i v (v.alloc b)) (hi : i < sb.ninodes) (htype : (v.inode i).type ≠ 0)
    (hfree : v.free sb = (v.alloc b).free sb + 1) :
    Filled sb i j b v ((v.alloc b).setInode i ((v.inode i).withAddr j b)) := by
  have hinode : ((v.alloc b).setInode i ((v.inode i).withAddr j b)).inode i = (v.inode i).withAddr j b := by
    rw [setInode_inode, put_same]
  refine ⟨fun i' hi' hne => ⟨?_, fun l hl a ha => (hsame i' hi').data l hl a ha⟩, ?_, fun l => ?_, ?_, hfree⟩
  · rw [setInode_inode, put_ne _ _ _ hne]
    rfl
  · rw [hinode]
    rfl
  · rw [hinode, setInode_data]
    have hold := (hsame i hi).slotOf (j := l) htype
    have hdin : (v.alloc b).inode i = v.inode i := rfl
    rw [hdin] at hold
    by_cases hl : l ≤ ndirect
    · rw [slotOf_direct hl, slotOf_direct hl, Dinode.withAddr_addrs]
      by_cases hlj : l = j
      · rw [if_pos hlj, hlj, put_same]
      · rw [if_neg hlj, put_ne _ _ _ hlj]
    · rw [if_neg (by omega), ← hold]
      by_cases hjn : j = ndirect
      · -- the new block is the indirect block, and it is empty
        have hzero : (v.alloc b).data b = fun _ => 0 := put_same _ _ _
        rw [slotOf_zero_block ?_ (by omega)]
        · rw [slotOf, if_neg hl, if_pos (hjn ▸ hempty)]
        · rw [Dinode.withAddr_addrs, hjn, put_same]
          exact hzero
      · simp only [slotOf, if_neg hl, Dinode.withAddr_addrs, put_ne (v.inode i).addrs j b (Ne.symm hjn)]
  · intro l hl _ hne
    exact (hsame i hi).data l hl _ (slot_eq_some.mpr ⟨htype, rfl, hne⟩)

theorem fill_entry {a : Nat} (hown : Own sb 0 v) (ha : (v.inode i).addrs ndirect = a) (ha0 : a ≠ 0) (hb : b < 2 ^ 32)
    (hsame : ∀ i < sb.ninodes, SameFile i v (v.alloc b)) (hi : i < sb.ninodes) (htype : (v.inode i).type ≠ 0)
    (hcount : v.free sb = (v.alloc b).free sb + 1) :
    Filled sb i (13 + j) b v ((v.alloc b).setData a (splice ((v.alloc b).data a) (4 * j) 4 (byteOf b))) := by
  have hslot : v.slot (i, ndirect) = some a := slot_eq_some.mpr ⟨htype, by rw [slotOf_direct le_rfl, ha], ha0⟩
  have hother : ∀ i' l a', i' < sb.ninodes → l < nslots → (i', l) ≠ (i, ndirect) → v.slot (i', l) = some a' → a' ≠ a := by
    rintro i' l a' hi' hl hne hslot' rfl
    exact hne (hown.unique le_rfl (mem_grid.mpr ⟨hi', hl⟩) (mem_grid.mpr ⟨hi, by decide⟩) hslot' hslot)
  refine ⟨fun i' hi' hne => ⟨rfl, fun l hl a' ha' => ?_⟩, rfl, fun l => ?_, fun l hl hl' hne => ?_, hcount⟩
  · have hne' : a' ≠ a := hother i' l a' hi' hl (fun h => hne (congrArg Prod.fst h)) ha'
    rw [setData_data, put_ne _ _ _ hne']
    exact (hsame i' hi').data l hl a' ha'
  · have hold := (hsame i hi).slotOf (j := l) htype
    have hdin : (v.alloc b).inode i = v.inode i := rfl
    rw [hdin] at hold
    rw [setData_inode, setData_data, hdin]
    by_cases hl : l ≤ ndirect
    · rw [slotOf_direct hl, slotOf_direct hl, if_neg (by simp only [ndirect] at hl; omega)]
    · rw [← hold]
      simp only [slotOf, if_neg hl, ha, if_neg ha0, put_same]
      rw [get32_splice hb]
      have hiff : l - 13 = j ↔ l = 13 + j := by
        simp only [ndirect] at hl
        omega
      simp only [hiff]
  · have hslot' : v.slot (i, l) = some (slotOf v.data (v.inode i) l) := slot_eq_some.mpr ⟨htype, rfl, hne⟩
    have hne' : slotOf v.data (v.inode i) l ≠ a := hother i l _ hi hl (fun h => hl' (congrArg Prod.snd h)) hslot'
    rw [setData_data, put_ne _ _ _ hne']
    exact (hsame i hi).data l hl _ hslot'

end Fill

/-- What a search for the block in slot `j` can end with: the block, none because the disk is full,
or a new block. -/
inductive Mapped (S : Setting) (R : Nat → ℤ) (i j : Nat) (v : View) (s : State) : Nat → State → Prop
  | found (h : slotOf v.data (v.inode i) j ≠ 0) : Mapped S R i j v s (slotOf v.data (v.inode i) j) s
  | full (h : slotOf v.data (v.inode i) j = 0) (hfree : v.free S.sb = 0) : Mapped S R i j v s 0 s
  | filled {b : Nat} {t : State} {w : View} (h : slotOf v.data (v.inode i) j = 0) (hb : b ≠ 0) (htags : SameTags s t)
    (ht : At S R (some i) 0 w t) (hfill : Filled S.sb i j b v w) : Mapped S R i j v s b t

section Slots

variable {S : Setting} {R : Nat → ℤ} {v w : View} {s t : State} {i j k b : Nat}

theorem bmapSlot_at (h : At S R (some i) 0 v s) (hk : Loaded R s.itable k i) (hj : j ≤ ndirect) :
    wp (bmapSlot k j) (Mapped S R i j v s) S.fault s := by
  have hi := hk.lt h.sim
  have hdin := hk.din h.sim
  have htype := hk.type h.sim
  have hslot : slotOf v.data (v.inode i) j = (v.inode i).addrs j := slotOf_direct hj
  simp only [bmapSlot, wp_bind, wp_inode, hdin, wp_ite]
  refine ⟨fun hempty => ?_, fun hne => wp_pure.mpr (hslot ▸ .found (hslot.symm ▸ hne))⟩
  refine (balloc_at h fun _ => le_rfl).mono ?_ fun _ => id
  rintro b t ⟨htable, ⟨rfl, rfl, hfull⟩ | ⟨hb, hlt, hfree, ht, hsame⟩⟩
  · exact ⟨fun hne => absurd rfl hne, fun _ => wp_pure.mpr (.full (hslot.trans hempty) hfull)⟩
  · have hcount : v.free S.sb = (v.alloc b).free S.sb + 1 := free_setBit hlt hfree rfl
    have hfill := fill_addr hj hempty hsame hi htype hcount
    have hlt32 : b < 2 ^ 32 := lt_of_lt_of_le hlt S.wf.size
    have hk' : Loaded R t.itable k i := hk.of_tags (.of_eq htable)
    have hold : (v.alloc b).owned S.sb = v.owned S.sb := owned_congr fun x hx => (hsame x.1 (mem_grid.mp hx).1).slot
    have howned := owned_fill hfill.only hfill.fields hfill.slots hi (lt_of_le_of_lt hj (by decide)) htype
      (hslot.trans hempty) hb
    refine ⟨fun _ => ?_, fun h0 => absurd hb h0⟩
    refine (setDin_at (c := 0) ht hk' ((h.sim.norm i hi).setAddr hj hlt32) rfl ?_).mono ?_ fun _ => id
    · rw [zero_add, add_zero, hold]
      exact howned
    · rintro _ u ⟨htags, hu⟩
      exact wp_pure.mpr (.filled (hslot.trans hempty) hb ((SameTags.of_eq htable).trans htags) hu hfill)

theorem bmapEntry_at {a : Nat} (h : At S R (some i) 0 v s) (hk : Loaded R s.itable k i)
    (ha : (v.inode i).addrs ndirect = a) (ha0 : a ≠ 0) (hj : j < nindirect) :
    wp (bmapEntry a j) (Mapped S R i (13 + j) v s) S.fault s := by
  have hi := hk.lt h.sim
  have htype := hk.type h.sim
  have hmem := h.sim.own.mem_data (b := a) le_rfl (mem_grid.mpr ⟨hi, show ndirect < nslots by decide⟩)
    (slot_eq_some.mpr ⟨htype, by rw [slotOf_direct le_rfl, ha], ha0⟩)
  have hentry : s.disk.entry a j = slotOf v.data (v.inode i) (13 + j) := by
    rw [Disk.entry, h.sim.data a hmem.1 hmem.2.1, slotOf, if_neg (by simp only [ndirect]; omega), ha, if_neg ha0,
      Nat.add_sub_cancel_left]
  simp only [bmapEntry, wp_bind, wp_get, hentry, wp_ite]
  refine ⟨fun hempty => ?_, fun hne => wp_pure.mpr (.found hne)⟩
  refine (balloc_at h fun _ => le_rfl).mono ?_ fun _ => id
  rintro b t ⟨htable, ⟨rfl, rfl, hfull⟩ | ⟨hb, hlt, hfree, ht, hsame⟩⟩
  · exact ⟨fun hne => absurd rfl hne, fun _ => wp_pure.mpr (.full hempty hfull)⟩
  · have hcount : v.free S.sb = (v.alloc b).free S.sb + 1 := free_setBit hlt hfree rfl
    have hlt32 : b < 2 ^ 32 := lt_of_lt_of_le hlt S.wf.size
    have hfill := fill_entry (j := j) h.sim.own ha ha0 hlt32 hsame hi htype hcount
    have hold : (v.alloc b).owned S.sb = v.owned S.sb := owned_congr fun x hx => (hsame x.1 (mem_grid.mp hx).1).slot
    have howned := owned_fill hfill.only hfill.fields hfill.slots hi
      (by simp only [nslots, nindirect] at *; omega) htype hempty hb
    have hwrite := ht.sim.write (c := 0) (x := splice ((v.alloc b).data a) (4 * j) 4 (byteOf b)) hmem.1
      (by rw [howned, hold, zero_add, add_zero])
    rw [← ht.sim.data a hmem.1 hmem.2.1] at hwrite hfill
    have hat : At S R (some i) 0 _ { t with disk := put t.disk a (splice (t.disk a) (4 * j) 4 (byteOf b)) } :=
      ⟨ht.super, ht.ops, hwrite, ht.commits⟩
    refine ⟨fun _ => wp_bwrite.mpr ?_, fun h0 => absurd hb h0⟩
    refine (logWrite_at a hat).mono ?_ fun _ => id
    rintro _ u ⟨hu, htable', -⟩
    refine wp_pure.mpr (.filled hempty hb (.of_eq (htable'.trans htable)) hu hfill)

end Slots

structure Grows (sb : Superblock) (i : Nat) (L : List Nat) (n : Nat) (v w : View) : Prop where
  only : Only sb i v w
  fields : w.inode i = { v.inode i with addrs := (w.inode i).addrs }
  slots : ∀ l, l ∉ L → slotOf w.data (w.inode i) l = slotOf v.data (v.inode i) l
  old : ∀ l, slotOf v.data (v.inode i) l ≠ 0 → slotOf w.data (w.inode i) l = slotOf v.data (v.inode i) l
  kept : ∀ l < nslots, l ≠ ndirect → slotOf v.data (v.inode i) l ≠ 0 →
    w.data (slotOf v.data (v.inode i) l) = v.data (slotOf v.data (v.inode i) l)
  free : v.free sb = w.free sb + n

section Grow

variable {sb : Superblock} {u v w : View} {i j b n m : Nat} {L L' : List Nat}

theorem Grows.refl (sb : Superblock) (i : Nat) (L : List Nat) (v : View) : Grows sb i L 0 v v :=
  ⟨.refl sb i v, rfl, fun _ _ => rfl, fun _ _ => rfl, fun _ _ _ _ => rfl, rfl⟩

theorem Filled.grows (h : Filled sb i j b v w) (hempty : slotOf v.data (v.inode i) j = 0) (hj : j ∈ L) :
    Grows sb i L 1 v w where
  only := h.only
  fields := h.fields
  slots l hl := by rw [h.slots, if_neg (fun heq : l = j => hl (heq ▸ hj))]
  old l hl := by rw [h.slots, if_neg (fun heq : l = j => hl (heq ▸ hempty))]
  kept := h.kept
  free := h.free

theorem Grows.trans (h : Grows sb i L n u v) (h' : Grows sb i L m v w) : Grows sb i L (n + m) u w where
  only := h.only.trans h'.only
  fields := by
    have hw := h'.fields
    rw [h.fields] at hw
    exact hw
  slots l hl := (h'.slots l hl).trans (h.slots l hl)
  old l hl := by
    have hv := h.old l hl
    rw [h'.old l (hv.symm ▸ hl), hv]
  kept l hlt hl hne := by
    have hv := h.old l hne
    have hdata := h'.kept l hlt hl (hv.symm ▸ hne)
    rw [hv] at hdata
    rw [hdata, h.kept l hlt hl hne]
  free := by
    have hu := h.free
    have hv := h'.free
    omega

theorem Grows.type (h : Grows sb i L n v w) : (w.inode i).type = (v.inode i).type := by rw [h.fields]

/-- The slots that `bmap` goes through for file block `bn`. -/
def mapSlots (bn : Nat) : List Nat := if bn < ndirect then [bn] else [ndirect, bn + 1]

def View.need (v : View) (i bn : Nat) : Nat := (mapSlots bn).countP fun l => slotOf v.data (v.inode i) l = 0

end Grow

structure MapResult (S : Setting) (R : Nat → ℤ) (i bn : Nat) (v : View) (s : State) (b : Nat) (w : View) (t : State) : Prop where
  holds : At S R (some i) 0 w t
  tags : SameTags s t
  grows : ∃ n, Grows S.sb i (mapSlots bn) n v w ∧ (b ≠ 0 → n = v.need i bn)
  block : b = w.block i bn
  mapped : b ≠ 0 → ∀ l ∈ mapSlots bn, slotOf w.data (w.inode i) l ≠ 0
  full : b = 0 → v.free S.sb < v.need i bn

section Bmap

variable {S : Setting} {R : Nat → ℤ} {v w : View} {s t : State} {i k bn b : Nat}

theorem fileSlot_direct (h : bn < ndirect) : fileSlot bn = bn := if_pos h

theorem fileSlot_indirect (h : ¬ bn < ndirect) : fileSlot bn = bn + 1 := if_neg h

theorem Mapped.direct (hbn : bn < ndirect) (h : At S R (some i) 0 v s) (hm : Mapped S R i bn v s b t) :
    ∃ w, MapResult S R i bn v s b w t := by
  have hL : mapSlots bn = [bn] := if_pos hbn
  have hneed : v.need i bn = if slotOf v.data (v.inode i) bn = 0 then 1 else 0 := by
    simp [need, hL, List.countP_cons]
  cases hm with
  | found hne =>
    refine ⟨v, h, .refl s, ⟨0, .refl _ _ _ _, fun _ => ?_⟩, ?_, fun _ l hl => ?_, fun h0 => absurd h0 hne⟩
    · rw [hneed, if_neg hne]
    · rw [block, fileSlot_direct hbn]
    · rw [hL, List.mem_singleton] at hl
      exact hl ▸ hne
  | full hempty hfree =>
    refine ⟨v, h, .refl s, ⟨0, .refl _ _ _ _, fun h0 => absurd rfl h0⟩, ?_, fun h0 => absurd rfl h0, fun _ => ?_⟩
    · rw [block, fileSlot_direct hbn, hempty]
    · rw [hneed, if_pos hempty, hfree]
      exact Nat.one_pos
  | @filled _ _ w hempty hb htags ht hfill =>
    have hslot : slotOf w.data (w.inode i) bn = b := by rw [hfill.slots, if_pos rfl]
    refine ⟨w, ht, htags, ⟨1, hfill.grows hempty (by simp [hL]), fun _ => ?_⟩, ?_, fun _ l hl => ?_, fun h0 => absurd h0 hb⟩
    · rw [hneed, if_pos hempty]
    · rw [block, fileSlot_direct hbn, hslot]
    · rw [hL, List.mem_singleton] at hl
      rw [hl, hslot]
      exact hb

theorem MapResult.indirect {u : View} {r : State} (hbn : ¬ bn < ndirect)
    (hgrow : ∃ n, Grows S.sb i (mapSlots bn) n v u ∧ n = if (v.inode i).addrs ndirect = 0 then 1 else 0)
    (hentries : ∀ l, l ≠ ndirect → slotOf u.data (u.inode i) l = slotOf v.data (v.inode i) l) (ha : (u.inode i).addrs ndirect ≠ 0)
    (htags : SameTags s r) (h : At S R (some i) 0 u r) (hm : Mapped S R i (13 + (bn - ndirect)) u r b t) :
    ∃ w, MapResult S R i bn v s b w t := by
  have hL : mapSlots bn = [ndirect, bn + 1] := if_neg hbn
  have hj : 13 + (bn - ndirect) = bn + 1 := by
    simp only [ndirect] at *
    omega
  have hne : bn + 1 ≠ ndirect := by omega
  rw [hj] at hm
  have hneed : v.need i bn =
      (if (v.inode i).addrs ndirect = 0 then 1 else 0) + if slotOf v.data (v.inode i) (bn + 1) = 0 then 1 else 0 := by
    simp only [need, hL, List.countP_cons, List.countP_nil, decide_eq_true_eq, slotOf_direct (le_refl ndirect)]
    omega
  rw [← hentries (bn + 1) hne] at hneed
  obtain ⟨n, hn, hcount⟩ := hgrow
  cases hm with
  | found hfound =>
    refine ⟨u, h, htags, ⟨n, hn, fun _ => ?_⟩, ?_, fun _ l hl => ?_, fun h0 => absurd h0 hfound⟩
    · rw [hneed, hcount, if_neg hfound, add_zero]
    · rw [View.block, fileSlot_indirect hbn]
    · rw [hL] at hl
      obtain rfl | rfl : l = ndirect ∨ l = bn + 1 := by simpa using hl
      · rw [slotOf_direct le_rfl]
        exact ha
      · exact hfound
  | full hempty hfree =>
    refine ⟨u, h, htags, ⟨n, hn, fun h0 => absurd rfl h0⟩, ?_, fun h0 => absurd rfl h0, fun _ => ?_⟩
    · rw [View.block, fileSlot_indirect hbn, hempty]
    · have hv := hn.free
      rw [hneed, ← hcount, if_pos hempty]
      omega
  | @filled _ _ w hempty hb htags' ht hfill =>
    have hslot : slotOf w.data (w.inode i) (bn + 1) = b := by rw [hfill.slots, if_pos rfl]
    refine ⟨w, ht, htags.trans htags', ⟨n + 1, hn.trans (hfill.grows hempty (by simp [hL])), fun _ => ?_⟩, ?_,
      fun _ l hl => ?_, fun h0 => absurd h0 hb⟩
    · rw [hneed, ← hcount, if_pos hempty]
    · rw [View.block, fileSlot_indirect hbn, hslot]
    · rw [hL] at hl
      obtain rfl | rfl : l = ndirect ∨ l = bn + 1 := by simpa using hl
      · rw [hfill.slots, if_neg (Ne.symm hne), slotOf_direct le_rfl]
        exact ha
      · rw [hslot]
        exact hb

theorem bmap_at (h : At S R (some i) 0 v s) (hk : Loaded R s.itable k i) (hbn : bn < maxfile) :
    wp (bmap k bn) (fun b t => ∃ w, MapResult S R i bn v s b w t) S.fault s := by
  unfold bmap
  split
  next hdirect =>
    refine (bmapSlot_at h hk hdirect.le).mono ?_ fun _ => id
    exact fun b t hm => hm.direct hdirect h
  next hindirect =>
    have hlt : bn - ndirect < nindirect := by
      simp only [maxfile] at hbn
      omega
    have hL : mapSlots bn = [ndirect, bn + 1] := if_neg hindirect
    rw [if_pos hlt, wp_bind]
    refine (bmapSlot_at h hk le_rfl).mono ?_ fun _ => id
    rintro a r hm
    cases hm with
    | found hne =>
      rw [if_neg hne]
      rw [slotOf_direct le_rfl] at hne ⊢
      refine (bmapEntry_at h hk rfl hne hlt).mono ?_ fun _ => id
      rintro b t hm
      exact MapResult.indirect hindirect ⟨0, .refl _ _ _ _, by rw [if_neg hne]⟩ (fun _ _ => rfl) hne (.refl s) h hm
    | full hempty hfree =>
      rw [if_pos rfl, wp_pure]
      refine ⟨v, h, .refl s, ⟨0, .refl _ _ _ _, fun h0 => absurd rfl h0⟩, ?_, fun h0 => absurd rfl h0, fun _ => ?_⟩
      · rw [slotOf_direct le_rfl] at hempty
        rw [block, fileSlot_indirect hindirect, slotOf, if_neg (by omega), if_pos hempty]
      · have hpos : 0 < v.need i bn := List.countP_pos_iff.mpr ⟨ndirect, by simp [hL], by simpa using hempty⟩
        omega
    | @filled _ _ u hempty hb htags hr hfill =>
      rw [if_neg hb]
      have ha : (u.inode i).addrs ndirect = a := by
        rw [← slotOf_direct le_rfl, hfill.slots, if_pos rfl]
      rw [slotOf_direct le_rfl] at hempty
      refine (bmapEntry_at hr (hk.of_tags htags) ha hb hlt).mono ?_ fun _ => id
      rintro b t hm
      refine MapResult.indirect hindirect ⟨1, hfill.grows (by rw [slotOf_direct le_rfl, hempty]) (by simp [hL]),
        by rw [if_pos hempty]⟩ ?_ (ha ▸ hb)
        htags hr hm
      intro l hl
      rw [hfill.slots, if_neg hl]

end Bmap

end Xv6.Fs
