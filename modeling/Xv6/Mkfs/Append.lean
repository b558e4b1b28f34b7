import Xv6.Mkfs.Image
import Xv6.FileBytes

namespace Xv6.Mkfs

open Fs View Count Prog

def kernelSb : Superblock := ⟨fssize, ninodes, nlog, 2, 2 + nlog, 2 + nlog + ninodeblocks⟩

theorem kernelSb_wf : kernelSb.Wf := ⟨by decide, by decide, by decide⟩

theorem kernelSb_dstart : kernelSb.dstart = nmeta := by decide

theorem kernelSb_iblock_ne {b : Nat} (hb : b < 2) (i : Nat) : b ≠ kernelSb.iblock i := by
  show b ≠ i / 16 + 32
  omega

/-! ### A host with little-endian byte order -/

section Little

theorem xint_little (x : Nat) : xint .little x = x % 2 ^ 32 :=
  get32_of_bytes fun i _ => by rw [Nat.zero_add]

theorem xshort_little (x : Nat) : xshort .little x = x % 65536 := get16_of_bytes rfl rfl

theorem xint_of_lt {x : Nat} (h : x < 2 ^ 32) : xint .little x = x := by rw [xint_little, Nat.mod_eq_of_lt h]

theorem sector_of_lt {sec : Nat} (h : sec < 2 ^ 22) : sector sec = sec := by
  unfold sector
  rw [Nat.mod_eq_of_lt (by simp only [bsize]; omega), Nat.mul_div_cancel _ (by decide)]

theorem iblock_little {i : Nat} (hi : i < ninodes) : iblock .little i = kernelSb.iblock i ∧ kernelSb.iblock i < nmeta := by
  have hlt := kernelSb_wf.iblock_lt hi
  have hstart : (sb .little).inodestart = 2 + nlog := xint_of_lt (by decide)
  have hmeta : kernelSb.bmapstart < nmeta := by decide
  have hsmall : nmeta < 2 ^ 32 := by decide
  refine ⟨?_, by omega⟩
  rw [iblock, hstart, ← show kernelSb.iblock i = i / ipb + (2 + nlog) from rfl, Nat.mod_eq_of_lt (by omega)]

def Raw.dinode (d : Raw) : Dinode :=
  ⟨toShort d.type, toShort d.major, toShort d.minor, toShort d.nlink, d.size, d.addrs⟩

structure Raw.Fits (d : Raw) : Prop where
  type : d.type < 65536
  major : d.major < 65536
  minor : d.minor < 65536
  nlink : d.nlink < 65536
  size : d.size < 2 ^ 32
  addrs : ∀ k, d.addrs k < 2 ^ 32
  void : ∀ k, ndirect < k → d.addrs k = 0

theorem rawAt_fits (b : Block) (o : Nat) : (rawAt .little b o).Fits where
  type := get16_lt _ _
  major := get16_lt _ _
  minor := get16_lt _ _
  nlink := get16_lt _ _
  size := get32_lt _ _
  addrs k := by
    simp only [rawAt]
    split
    next => exact get32_lt _ _
    next => decide
  void k hk := if_neg (by omega)

theorem Raw.Fits.norm {d : Raw} (h : d.Fits) : d.dinode.Norm :=
  ⟨toShort_range _, toShort_range _, toShort_range _, toShort_range _, h.size, h.addrs, h.void⟩

theorem Raw.zero_fits : Raw.zero.Fits :=
  ⟨by decide, by decide, by decide, by decide, by decide, fun _ => Nat.two_pow_pos 32, fun _ _ => rfl⟩

theorem Raw.Fits.withSize {d : Raw} {n : Nat} (h : d.Fits) (hn : n < 2 ^ 32) : ({ d with size := n } : Raw).Fits :=
  { h with size := hn }

theorem Raw.Fits.withAddr {d : Raw} {j b : Nat} (h : d.Fits) (hj : j ≤ ndirect) (hb : b < 2 ^ 32) :
    ({ d with addrs := put d.addrs j b } : Raw).Fits := by
  have hnorm := h.norm.setAddr hj hb
  exact { h with addrs := hnorm.addrs, void := hnorm.void }

theorem ofShort_toShort {x : Nat} (h : x < 65536) : ofShort (toShort x) = x := by
  simp only [ofShort, toShort]
  omega

theorem Raw.Fits.bytes {d : Raw} (h : d.Fits) : d.bytes .little = d.dinode.bytes := by
  funext i
  simp only [Raw.bytes, Dinode.bytes, Raw.dinode, hostByte, ofShort_toShort h.type, ofShort_toShort h.major,
    ofShort_toShort h.minor, ofShort_toShort h.nlink]

end Little

/-! ### Reading and writing the image -/

section Sectors

variable {s : Image} {E : Stop → Prop}

theorem wp_rsect {sec : Nat} {Q : Block → Image → Prop} (h : sec < 2 ^ 22) :
    wp (rsect sec) Q E s ↔ (s.len ≤ sec → E (.die "read")) ∧ (sec < s.len → Q (s.disk sec) s) := by
  simp only [rsect, sector_of_lt h, wp_bind, wp_get, wp_ite, wp_throw, wp_pure, Nat.not_le]

theorem wp_wsect {sec : Nat} {buf : Block} {Q : Unit → Image → Prop} (h : sec < 2 ^ 22) (hlen : sec < s.len) :
    wp (wsect sec buf) Q E s ↔ Q () { s with disk := put s.disk sec buf } := by
  rw [wsect, wp_modify, sector_of_lt h, max_eq_left (by omega)]

theorem wp_nextBlock {Q : Nat → Image → Prop} :
    wp nextBlock Q E s ↔ Q s.freeblock { s with freeblock := s.freeblock + 1 } := by
  simp only [nextBlock, wp_bind, wp_get, wp_set, wp_pure]

theorem wp_rinode {i : Nat} {Q : Raw → Image → Prop} (hi : i < ninodes) (hlen : s.len = fssize) :
    wp (rinode .little i) Q E s ↔ Q (rawAt .little (s.disk (kernelSb.iblock i)) (64 * (i % ipb))) s := by
  obtain ⟨hblock, hlow⟩ := iblock_little hi
  have hsmall : nmeta < 2 ^ 22 := by decide
  have hmeta : nmeta < fssize := by decide
  have hsec : kernelSb.iblock i < 2 ^ 22 := by omega
  rw [rinode, wp_bind, hblock, wp_rsect hsec]
  simp only [wp_pure]
  exact ⟨fun h => h.2 (by omega), fun h => ⟨fun hle => by omega, fun _ => h⟩⟩

theorem wp_winode {i : Nat} {d : Raw} {Q : Unit → Image → Prop} (hi : i < ninodes) (hlen : s.len = fssize) (hd : d.Fits) :
    wp (winode .little i d) Q E s ↔ Q () { s with disk := s.disk.setDinode kernelSb i d.dinode } := by
  obtain ⟨hblock, hlow⟩ := iblock_little hi
  have hsmall : nmeta < 2 ^ 22 := by decide
  have hmeta : nmeta < fssize := by decide
  have hsec : kernelSb.iblock i < 2 ^ 22 := by omega
  rw [winode, wp_bind, hblock, wp_rsect hsec]
  have hlt : kernelSb.iblock i < s.len := by omega
  rw [wp_wsect hsec hlt, hd.bytes]
  exact ⟨fun h => h.2 hlt, fun h => ⟨fun hle => absurd hle (by omega), fun _ => h⟩⟩

end Sectors

/-- The image holds the view `v`, with inodes below `n` in use; the inode `dirty` is in the memory of mkfs.
The blocks below `freeblock` are those that the bitmap will have marked. -/
structure Holds (n : Nat) (dirty : Option Nat) (v : View) (s : Image) : Prop where
  count : s.freeinode = n
  unused : ∀ i < ninodes, n ≤ i → (v.inode i).type = 0
  len : s.len = fssize
  low : ∀ b < 2, s.disk b = (start .little).disk b
  first : nmeta ≤ s.freeblock
  last : s.freeblock ≤ fssize
  bits : v.bit = fun b => decide (b < s.freeblock)
  data : ∀ b, nmeta ≤ b → v.data b = s.disk b
  fresh : ∀ b, s.freeblock ≤ b → s.disk b = fun _ => 0
  inodes : ∀ i < ninodes, dirty ≠ some i → v.inode i = s.disk.dinode kernelSb i
  norm : ∀ i < ninodes, (v.inode i).Norm
  own : Own kernelSb 0 v

section Allocate

variable {v w : View} {s t : Image} {n i j b : Nat} {dirty : Option Nat}

section
variable (h : Holds n dirty v s)
include h

theorem Holds.bit_next : v.bit s.freeblock = false := by simp [h.bits]

theorem Holds.free_eq_zero (hfull : s.freeblock = fssize) : v.free kernelSb = 0 := by
  rw [free, Nat.count_eq_card_filter_range, Finset.card_eq_zero, Finset.filter_eq_empty_iff]
  intro b hb
  have hlt : b < fssize := Finset.mem_range.mp hb
  simp only [h.bits, hfull, hlt, decide_true]
  decide

theorem Holds.sameFile_alloc : ∀ i < kernelSb.ninodes, SameFile i v (v.alloc s.freeblock) := by
  refine fun i hi => ⟨rfl, fun j hj b hb => put_ne _ _ _ ?_⟩
  rintro rfl
  have hmem := h.own.mem_data le_rfl (mem_grid.mpr ⟨hi, hj⟩) hb
  rw [h.bit_next] at hmem
  exact absurd hmem.2.2 (by decide)

theorem Holds.free_alloc (hlt : s.freeblock < fssize) : v.free kernelSb = (v.alloc s.freeblock).free kernelSb + 1 := by
  refine count_clear hlt h.bit_next ?_ fun a ha => ?_
  · show ¬ put v.bit s.freeblock true s.freeblock = false
    rw [put_same]
    decide
  · show put v.bit s.freeblock true a = false ↔ _
    rw [put_ne _ _ _ ha]

theorem Holds.own_filled (hlt : s.freeblock < fssize) (hfill : Filled kernelSb i j s.freeblock v w)
    (hbit : w.bit = put v.bit s.freeblock true) (hi : i < ninodes) (hj : j < nslots) (htype : (v.inode i).type ≠ 0)
    (hempty : slotOf v.data (v.inode i) j = 0) : Own kernelSb 0 w := by
  have hne : s.freeblock ≠ 0 := by
    have hfirst := h.first
    have hpos : 0 < nmeta := by decide
    omega
  have hold : (v.alloc s.freeblock).owned kernelSb = v.owned kernelSb :=
    owned_congr fun x hx => (h.sameFile_alloc x.1 (mem_grid.mp hx).1).slot
  have hmarked : Own kernelSb (0 + one s.freeblock) (v.alloc s.freeblock) := h.own.setBit hlt h.bit_next hold rfl
  have howned := owned_fill hfill.only hfill.fields hfill.slots hi hj htype hempty hne
  refine hmarked.of_owned hbit ?_
  rw [howned, hold, zero_add, add_zero]

theorem Holds.bits_next : put v.bit s.freeblock true = fun b => decide (b < s.freeblock + 1) := by
  funext b
  by_cases hb : b = s.freeblock
  · rw [hb, put_same]
    simp
  · rw [put_ne _ _ _ hb, h.bits]
    simp only [decide_eq_decide]
    omega

end

theorem Holds.fillAddr (h : Holds n (some i) v s) (hlt : s.freeblock < fssize) (hi : i < ninodes) (hj : j ≤ ndirect)
    (htype : (v.inode i).type ≠ 0) (hempty : (v.inode i).addrs j = 0) :
    Holds n (some i) ((v.alloc s.freeblock).setInode i ((v.inode i).withAddr j s.freeblock))
        { s with freeblock := s.freeblock + 1 } ∧
      Filled kernelSb i j s.freeblock v ((v.alloc s.freeblock).setInode i ((v.inode i).withAddr j s.freeblock)) := by
  have hfill := fill_addr hj hempty h.sameFile_alloc hi htype (h.free_alloc hlt)
  have hsmall : fssize < 2 ^ 32 := by decide
  have hkeep : ∀ i', i' ≠ i → ((v.alloc s.freeblock).setInode i ((v.inode i).withAddr j s.freeblock)).inode i' = v.inode i' :=
    fun i' hii => put_ne _ _ _ hii
  refine ⟨⟨h.count, fun i' hi' hle => ?_, h.len, h.low, ?_, hlt, h.bits_next, fun b hb => ?_, fun b hb => h.fresh b ?_,
    fun i' hi' hne => ?_, fun i' hi' => ?_,
    h.own_filled hlt hfill rfl hi (lt_of_le_of_lt hj (by decide)) htype ((slotOf_direct hj).trans hempty)⟩, hfill⟩
  · have hold := h.unused i' hi' hle
    rw [hkeep i' fun heq => htype (heq ▸ hold), hold]
  · have := h.first
    show nmeta ≤ s.freeblock + 1
    omega
  · show put v.data s.freeblock (fun _ => 0) b = s.disk b
    by_cases hbn : b = s.freeblock
    · rw [hbn, put_same, h.fresh _ le_rfl]
    · rw [put_ne _ _ _ hbn, h.data b hb]
  · have hb : s.freeblock + 1 ≤ b := hb
    omega
  · have hii : i' ≠ i := fun heq => hne (heq ▸ rfl)
    rw [hkeep i' hii]
    exact h.inodes i' hi' hne
  · by_cases hii : i' = i
    · rw [hii, setInode_inode, put_same]
      exact (h.norm i hi).setAddr hj (by omega)
    · rw [hkeep i' hii]
      exact h.norm i' hi'

theorem Holds.write {x : Block} (h : Holds n dirty v s) (hlow : nmeta ≤ b) (hb : b < s.freeblock)
    (hown : Own kernelSb 0 (v.setData b x)) : Holds n dirty (v.setData b x) { s with disk := put s.disk b x } := by
  have hone : 1 < nmeta := by decide
  refine ⟨h.count, h.unused, h.len, fun b hb => (put_ne _ _ _ (by omega)).trans (h.low b hb), h.first, h.last, h.bits, fun a ha => ?_,
    fun a ha => ?_, fun i hi hne => ?_, h.norm, hown⟩
  · show put v.data b x a = put s.disk b x a
    by_cases hab : a = b
    · rw [hab, put_same, put_same]
    · rw [put_ne _ _ _ hab, put_ne _ _ _ hab, h.data a ha]
  · have ha : s.freeblock ≤ a := ha
    show put s.disk b x a = _
    rw [put_ne _ _ _ (by omega), h.fresh a ha]
  · rw [setData_inode, h.inodes i hi hne]
    exact (Disk.dinode_put kernelSb_wf hi (kernelSb_dstart ▸ hlow)).symm

theorem Holds.fillEntry {a : Nat} (h : Holds n (some i) v s) (hlt : s.freeblock < fssize) (hi : i < ninodes) (hj : j < nindirect)
    (htype : (v.inode i).type ≠ 0) (ha : (v.inode i).addrs ndirect = a) (ha0 : a ≠ 0)
    (hempty : slotOf v.data (v.inode i) (13 + j) = 0) :
    ∃ w, Holds n (some i) w
        { s with disk := put s.disk a (splice (s.disk a) (4 * j) 4 (byteOf s.freeblock)), freeblock := s.freeblock + 1 } ∧
      w.inode = v.inode ∧ Filled kernelSb i (13 + j) s.freeblock v w := by
  have hmem := h.own.mem_data (b := a) le_rfl (mem_grid.mpr ⟨hi, show ndirect < nslots by decide⟩)
    (slot_eq_some.mpr ⟨htype, by rw [slotOf_direct le_rfl, ha], ha0⟩)
  have hbelow : a < s.freeblock := by
    have hbit := hmem.2.2
    rw [h.bits] at hbit
    exact of_decide_eq_true hbit
  have hsmall : fssize < 2 ^ 32 := by decide
  have hfill := fill_entry (j := j) h.own ha ha0 (show s.freeblock < 2 ^ 32 by omega) h.sameFile_alloc hi htype
    (h.free_alloc hlt)
  have hdata : (v.alloc s.freeblock).data a = s.disk a := by
    rw [← h.data a (kernelSb_dstart ▸ hmem.1)]
    exact put_ne _ _ _ (by omega)
  have hown := h.own_filled hlt hfill rfl hi (by simp only [nslots, nindirect] at *; omega) htype hempty
  have hone : 1 < nmeta := by decide
  have hlow : nmeta ≤ a := kernelSb_dstart ▸ hmem.1
  rw [hdata] at hfill hown
  refine ⟨(v.alloc s.freeblock).setData a (splice (s.disk a) (4 * j) 4 (byteOf s.freeblock)),
    ⟨h.count, h.unused, h.len, fun b hb => (put_ne _ _ _ (by omega)).trans (h.low b hb), ?_, hlt,
      h.bits_next, fun b hb => ?_, fun b hb => ?_, fun i' hi' hne => ?_, h.norm, hown⟩, rfl, hfill⟩
  · have := h.first
    show nmeta ≤ s.freeblock + 1
    omega
  · show put (put v.data s.freeblock fun _ => 0) a _ b = put s.disk a _ b
    by_cases hba : b = a
    · rw [hba, put_same, put_same]
    · rw [put_ne _ _ _ hba, put_ne _ _ _ hba]
      by_cases hbn : b = s.freeblock
      · rw [hbn, put_same, h.fresh _ le_rfl]
      · rw [put_ne _ _ _ hbn, h.data b hb]
  · have hb : s.freeblock + 1 ≤ b := hb
    show put s.disk a _ b = _
    rw [put_ne _ _ _ (by omega), h.fresh b (by omega)]
  · show v.inode i' = Disk.dinode kernelSb (put s.disk a _) i'
    rw [h.inodes i' hi' hne, Disk.dinode_put kernelSb_wf hi' hmem.1]

end Allocate

structure Reaches (i bn : Nat) (v w : View) : Prop where
  grows : Grows kernelSb i (mapSlots bn) (v.need i bn) v w
  mapped : ∀ l ∈ mapSlots bn, slotOf w.data (w.inode i) l ≠ 0

section Find

variable {v w : View} {s t : Image} {n i j bn : Nat} {din : Raw}

theorem addrFor_holds {E : Stop → Prop} (h : Holds n (some i) v s) (hi : i < ninodes) (hj : j ≤ ndirect)
    (hdin : v.inode i = din.dinode) (hfits : din.Fits) (htype : (v.inode i).type ≠ 0) :
    wp (addrFor .little din j) (fun din' t =>
      slotOf v.data (v.inode i) j ≠ 0 ∧ din' = din ∧ t = s ∨
      slotOf v.data (v.inode i) j = 0 ∧ (∃ w, Holds n (some i) w t ∧ w.inode i = din'.dinode ∧ din'.Fits ∧
        Filled kernelSb i j s.freeblock v w ∧ s.freeblock ≠ 0) ∨
      slotOf v.data (v.inode i) j = 0 ∧ v.free kernelSb = 0 ∧ din'.addrs j = fssize ∧ t.len = fssize) E s := by
  have haddr : (v.inode i).addrs j = din.addrs j := by rw [hdin]; rfl
  have hslot : slotOf v.data (v.inode i) j = din.addrs j := (slotOf_direct hj).trans haddr
  have hlast := h.last
  have hfirst := h.first
  have hpos : 0 < nmeta := by decide
  have hsmall : fssize < 2 ^ 32 := by decide
  rw [addrFor, wp_ite, xint_of_lt (hfits.addrs j)]
  refine ⟨fun hempty => ?_, fun hne => wp_pure.mpr (.inl ⟨hslot ▸ hne, rfl, rfl⟩)⟩
  rw [wp_bind, wp_nextBlock, wp_pure, xint_of_lt (by omega)]
  refine .inr ?_
  by_cases hlt : s.freeblock < fssize
  · obtain ⟨hw, hfill⟩ := h.fillAddr hlt hi hj htype (haddr.trans hempty)
    refine .inl ⟨hslot.trans hempty, _, hw, ?_, hfits.withAddr hj (by omega), hfill, by omega⟩
    rw [setInode_inode, put_same, hdin]
    rfl
  · have hfull : s.freeblock = fssize := by omega
    refine .inr ⟨hslot.trans hempty, h.free_eq_zero hfull, ?_, h.len⟩
    rw [hfull]
    exact put_same _ _ _

theorem entryFor_holds {a : Nat} (h : Holds n (some i) v s) (hi : i < ninodes) (hj : j < nindirect)
    (ha : (v.inode i).addrs ndirect = a) (ha0 : a ≠ 0) (htype : (v.inode i).type ≠ 0) {E : Stop → Prop} :
    wp (entryFor .little a j) (fun b t =>
      b = slotOf v.data (v.inode i) (13 + j) ∧ b ≠ 0 ∧ t = s ∨
      slotOf v.data (v.inode i) (13 + j) = 0 ∧ (∃ w, Holds n (some i) w t ∧ w.inode i = v.inode i ∧ b = s.freeblock ∧
        Filled kernelSb i (13 + j) s.freeblock v w ∧ s.freeblock ≠ 0) ∨
      slotOf v.data (v.inode i) (13 + j) = 0 ∧ v.free kernelSb = 0 ∧ b = fssize ∧ t.len = fssize) E s := by
  have hmem := h.own.mem_data (b := a) le_rfl (mem_grid.mpr ⟨hi, show ndirect < nslots by decide⟩)
    (slot_eq_some.mpr ⟨htype, by rw [slotOf_direct le_rfl, ha], ha0⟩)
  have hlast := h.last
  have hfirst := h.first
  have hlen := h.len
  have hpos : 0 < nmeta := by decide
  have hsmall : fssize < 2 ^ 22 := by decide
  have hlarge : (2 : Nat) ^ 22 < 2 ^ 32 := by decide
  have hlt : a < fssize := hmem.2.1
  have hsec : a < 2 ^ 22 := by omega
  have hentry : host32 .little (s.disk a) (4 * j) = slotOf v.data (v.inode i) (13 + j) := by
    rw [slotOf, if_neg (by simp only [ndirect]; omega), ha, if_neg ha0, Nat.add_sub_cancel_left,
      h.data a (kernelSb_dstart ▸ hmem.1)]
    rfl
  have hslot32 : slotOf v.data (v.inode i) (13 + j) < 2 ^ 32 := by
    rw [← hentry]
    exact get32_lt _ _
  rw [entryFor, wp_bind, wp_rsect hsec]
  refine ⟨fun hle => absurd hle (by omega), fun _ => ?_⟩
  rw [wp_ite, hentry]
  refine ⟨fun hempty => ?_, fun hne => wp_pure.mpr (.inl ⟨xint_of_lt hslot32, ?_, rfl⟩)⟩
  · have hnext : xint .little s.freeblock = s.freeblock := xint_of_lt (by omega)
    rw [wp_bind, wp_nextBlock, wp_bind, wp_wsect hsec (by show a < s.len; omega), wp_pure, hnext, hnext]
    refine .inr ?_
    by_cases hroom : s.freeblock < fssize
    · obtain ⟨w, hw, hinode, hfill⟩ := h.fillEntry hroom hi hj htype ha ha0 hempty
      exact .inl ⟨hempty, w, hw, congrFun hinode i, rfl, hfill, by omega⟩
    · have hfull : s.freeblock = fssize := by omega
      exact .inr ⟨hempty, h.free_eq_zero hfull, hfull, h.len⟩
  · rw [xint_of_lt hslot32]
    exact hne

theorem need_eq_direct (hbn : bn < ndirect) : v.need i bn = if slotOf v.data (v.inode i) bn = 0 then 1 else 0 := by
  rw [need_direct hbn, block_eq_slot, fileSlot_direct hbn]

theorem need_eq_indirect (hbn : ¬ bn < ndirect) :
    v.need i bn = (if slotOf v.data (v.inode i) (bn + 1) = 0 then 1 else 0) + if slotOf v.data (v.inode i) ndirect = 0 then 1 else 0 := by
  rw [need_indirect hbn, block_eq_slot, fileSlot_indirect hbn, slotOf_direct le_rfl]

theorem Reaches.block (h : Reaches i bn v w) : w.block i bn ≠ 0 := h.mapped _ (fileSlot_mem bn)

theorem Reaches.indirect {u : View} {c : Nat} (hbn : ¬ bn < ndirect) (hgrow : Grows kernelSb i (mapSlots bn) c v u)
    (hc : c = if slotOf v.data (v.inode i) ndirect = 0 then 1 else 0)
    (hentry : slotOf u.data (u.inode i) (bn + 1) = slotOf v.data (v.inode i) (bn + 1))
    (ha : slotOf u.data (u.inode i) ndirect ≠ 0)
    (hrest : slotOf u.data (u.inode i) (bn + 1) ≠ 0 ∧ w = u ∨
      slotOf u.data (u.inode i) (bn + 1) = 0 ∧ ∃ b, Filled kernelSb i (bn + 1) b u w ∧ b ≠ 0) : Reaches i bn v w := by
  have hL : mapSlots bn = [ndirect, bn + 1] := if_neg hbn
  have hne : ndirect ≠ bn + 1 := by omega
  have hneed := need_eq_indirect (v := v) (i := i) hbn
  rw [← hc, ← hentry] at hneed
  rcases hrest with ⟨hfound, rfl⟩ | ⟨hempty, b, hfill, hb⟩
  · rw [if_neg hfound, zero_add] at hneed
    refine ⟨hneed ▸ hgrow, fun l hl => ?_⟩
    rw [hL] at hl
    obtain rfl | rfl : l = ndirect ∨ l = bn + 1 := by simpa using hl
    · exact ha
    · exact hfound
  · rw [if_pos hempty, add_comm] at hneed
    refine ⟨hneed ▸ hgrow.trans (hfill.grows hempty (by simp [hL])), fun l hl => ?_⟩
    rw [hL] at hl
    obtain rfl | rfl : l = ndirect ∨ l = bn + 1 := by simpa using hl
    · rw [hfill.slots, if_neg hne]
      exact ha
    · rw [hfill.slots, if_pos rfl]
      exact hb

theorem blockFor_holds (h : Holds n (some i) v s) (hi : i < ninodes) (hbn : bn < maxfile) (hdin : v.inode i = din.dinode)
    (hfits : din.Fits) (htype : (v.inode i).type ≠ 0) :
    wp (blockFor .little din bn) (fun r t =>
      (∃ w, Holds n (some i) w t ∧ w.inode i = r.1.dinode ∧ r.1.Fits ∧ Reaches i bn v w ∧ r.2 = w.block i bn) ∨
      v.free kernelSb < v.need i bn ∧ r.2 = fssize ∧ t.len = fssize) (fun _ => v.free kernelSb < v.need i bn) s := by
  have hsmall : fssize < 2 ^ 32 := by decide
  unfold blockFor
  split
  next hdirect =>
    have hL : mapSlots bn = [bn] := if_pos hdirect
    have hneed := need_eq_direct (v := v) (i := i) hdirect
    refine (addrFor_holds h hi hdirect.le hdin hfits htype).bind ?_
    rintro din' t (⟨hne, rfl, rfl⟩ | ⟨hempty, w, hw, hdin', hfits', hfill, hb⟩ | ⟨hempty, hfree, haddr, hlen⟩)
    · rw [if_neg hne] at hneed
      refine wp_pure.mpr (.inl ⟨v, h, hdin, hfits, ⟨hneed ▸ .refl _ _ _ _, fun l hl => ?_⟩, ?_⟩)
      · rw [hL, List.mem_singleton] at hl
        exact hl ▸ hne
      · rw [block_eq_slot, fileSlot_direct hdirect, slotOf_direct hdirect.le, hdin, xint_of_lt (hfits.addrs bn)]
        rfl
    · rw [if_pos hempty] at hneed
      refine wp_pure.mpr (.inl ⟨w, hw, hdin', hfits', ⟨hneed ▸ hfill.grows hempty (by simp [hL]), fun l hl => ?_⟩, ?_⟩)
      · rw [hL, List.mem_singleton] at hl
        rw [hl, hfill.slots, if_pos rfl]
        exact hb
      · rw [block_eq_slot, fileSlot_direct hdirect, slotOf_direct hdirect.le, hdin', xint_of_lt (hfits'.addrs bn)]
        rfl
    · rw [if_pos hempty] at hneed
      exact wp_pure.mpr (.inr ⟨by omega, by rw [haddr, xint_of_lt hsmall], hlen⟩)
  next hindirect =>
    have hj : bn - ndirect < nindirect := by
      simp only [maxfile] at hbn
      omega
    have hslot : 13 + (bn - ndirect) = bn + 1 := by
      simp only [ndirect] at *
      omega
    have hL : mapSlots bn = [ndirect, bn + 1] := if_neg hindirect
    have hneed := need_eq_indirect (v := v) (i := i) hindirect
    refine (addrFor_holds h hi le_rfl hdin hfits htype).bind ?_
    -- the entry, once the indirect block is there in the view `u`
    have hrest : ∀ (u : View) (t : Image) (din' : Raw) (c : Nat), Holds n (some i) u t → u.inode i = din'.dinode → din'.Fits →
        (u.inode i).type ≠ 0 → Grows kernelSb i (mapSlots bn) c v u →
        c = (if slotOf v.data (v.inode i) ndirect = 0 then 1 else 0) →
        slotOf u.data (u.inode i) (bn + 1) = slotOf v.data (v.inode i) (bn + 1) → slotOf u.data (u.inode i) ndirect ≠ 0 →
        wp (do
          let x ← entryFor .little (xint .little (din'.addrs ndirect)) (bn - ndirect)
          return (din', x)) (fun r t =>
          (∃ w, Holds n (some i) w t ∧ w.inode i = r.1.dinode ∧ r.1.Fits ∧ Reaches i bn v w ∧ r.2 = w.block i bn) ∨
          v.free kernelSb < v.need i bn ∧ r.2 = fssize ∧ t.len = fssize) (fun _ => v.free kernelSb < v.need i bn) t := by
      intro u t din' c hu hdin' hfits' htype' hgrow hc hentry ha
      have haddr : (u.inode i).addrs ndirect = din'.addrs ndirect := by rw [hdin']; rfl
      rw [xint_of_lt (hfits'.addrs ndirect)]
      rw [slotOf_direct le_rfl] at ha
      refine (entryFor_holds hu hi hj haddr (haddr ▸ ha) htype').bind ?_
      rw [hslot]
      rw [← slotOf_direct le_rfl] at ha
      rintro x t' (⟨rfl, hne, rfl⟩ | ⟨hempty, w, hw, hsame, rfl, hfill, hb⟩ | ⟨hempty, hfree, rfl, hlen⟩)
      · exact wp_pure.mpr (.inl ⟨u, hu, hdin', hfits', .indirect hindirect hgrow hc hentry ha (.inl ⟨hne, rfl⟩),
          by rw [block_eq_slot, fileSlot_indirect hindirect]⟩)
      · refine wp_pure.mpr (.inl ⟨w, hw, hsame.trans hdin', hfits',
          .indirect hindirect hgrow hc hentry ha (.inr ⟨hempty, _, hfill, hb⟩), ?_⟩)
        rw [block_eq_slot, fileSlot_indirect hindirect, hfill.slots, if_pos rfl]
      · have hfreev := hgrow.free
        rw [hentry] at hempty
        rw [if_pos hempty, ← hc] at hneed
        exact wp_pure.mpr (.inr ⟨by omega, rfl, hlen⟩)
    rintro din' t (⟨hne, rfl, rfl⟩ | ⟨hempty, u, hu, hdin', hfits', hfill, hb⟩ | ⟨hempty, hfree, haddr, hlen⟩)
    · exact hrest v t din' 0 h hdin hfits htype (.refl _ _ _ _) (by rw [if_neg hne]) rfl hne
    · refine hrest u t din' 1 hu hdin' hfits' (hfill.type.symm ▸ htype) (hfill.grows hempty (by simp [hL])) (by rw [if_pos hempty]) ?_ ?_
      · rw [hfill.slots, if_neg (by omega)]
      · rw [hfill.slots, if_pos rfl]
        exact hb
    · have hfull : v.free kernelSb < v.need i bn := by
        rw [hneed, if_pos hempty]
        omega
      have hsec : fssize < 2 ^ 22 := by decide
      rw [wp_bind, haddr, xint_of_lt hsmall, entryFor, wp_bind, wp_rsect hsec]
      exact ⟨fun _ => hfull, fun hlt => absurd hlt (by omega)⟩

end Find

/-- The file cannot take `len` more bytes at `off`: it would be too long, or the blocks do not suffice. -/
def View.Cramped (v : View) (i off len : Nat) : Prop :=
  maxfile * bsize < off + len ∨ v.free kernelSb < v.missing i (off / bsize) (pastBlock (off + len))

structure Appended (n i off : Nat) (p : List Byte) (v w : View) (r : Raw × Nat) (t : Image) : Prop where
  holds : Holds n (some i) w t
  din : w.inode i = r.1.dinode
  fits : r.1.Fits
  count : r.2 = off + p.length
  limit : 0 < p.length → off + p.length ≤ maxfile * bsize
  stored : Stored kernelSb i off p.length v w
  bytes : StoredBytes i off p.length (fun x => p.getD x 0) v w
  spent : ∀ a c, a ≤ off / bsize → pastBlock (off + p.length) ≤ c →
    w.free kernelSb + v.missing i a c = v.free kernelSb + w.missing i a c

section Loop

variable {v w : View} {s t : Image} {n i : Nat} {din : Raw} {p : List Byte}

theorem Appended.nil {off : Nat} (h : Holds n (some i) v s) (hdin : v.inode i = din.dinode) (hfits : din.Fits)
    (hp : p.length = 0) : Appended n i off p v v (din, off) s :=
  ⟨h, hdin, hfits, by rw [hp]; rfl, fun hpos => by omega, hp ▸ .refl _ _ _ _, hp ▸ .refl _ _ _ _, fun _ _ _ _ => rfl⟩

theorem Appended.after {u : View} {off m : Nat} {r : Raw × Nat} (hm : m ≤ p.length)
    (hlimit : off + m ≤ maxfile * bsize) (hstored : Stored kernelSb i off m v u)
    (hbytes : StoredBytes i off m (fun x => p.getD x 0) v u)
    (hspent : ∀ a c, a ≤ off / bsize → pastBlock (off + p.length) ≤ c →
      u.free kernelSb + v.missing i a c = v.free kernelSb + u.missing i a c)
    (h : Appended n i (off + m) (p.drop m) u w r t) : Appended n i off p v w r t := by
  have hdrop : (p.drop m).length = p.length - m := List.length_drop
  have hlen : p.length = m + (p.drop m).length := by omega
  have hend : off + (m + (p.drop m).length) ≤ maxfile * bsize := by
    have hrest := h.limit
    omega
  refine ⟨h.holds, h.din, h.fits, by rw [h.count, hlen]; omega, fun _ => hlen ▸ hend, ?_, ?_, fun a c ha hc => ?_⟩
  · rw [hlen]
    exact hstored.trans hend h.stored
  · rw [hlen]
    refine StoredBytes.trans (v := u) (fun bn hbn hne => ?_) hstored.new hbytes ?_
    · rw [hstored.old bn hbn hne]
      exact hne
    · have hrest := h.bytes
      simp only [List.getD_eq_getElem?_getD, List.getElem?_drop] at hrest ⊢
      exact hrest
  · have hfirst := hspent a c ha hc
    have hrest := h.spent a c (ha.trans (Nat.div_le_div_right (by omega))) (by rw [Nat.add_assoc, ← hlen]; exact hc)
    omega

theorem appendLoop_holds {fuel off : Nat} (h : Holds n (some i) v s) (hi : i < ninodes)
    (hdin : v.inode i = din.dinode) (hfits : din.Fits) (htype : (v.inode i).type ≠ 0) (hfuel : p.length ≤ fuel) :
    wp (appendLoop .little fuel din off p) (fun r t => ∃ w, Appended n i off p v w r t)
      (fun _ => View.Cramped v i off p.length) s := by
  induction fuel generalizing off p v s din with
  | zero => exact wp_pure.mpr ⟨v, .nil h hdin hfits (by omega)⟩
  | succ fuel ih =>
    unfold appendLoop
    split
    next hpos =>
      have hpast : off / bsize < pastBlock (off + p.length) := by
        simp only [pastBlock, bsize]
        omega
      rw [wp_ite]
      refine ⟨fun hbig => wp_throw.mpr (.inl ?_), fun hbn => ?_⟩
      · simp only [maxfile, ndirect, nindirect, bsize] at *
        omega
      rw [not_not] at hbn
      have hcramped : v.free kernelSb < v.need i (off / bsize) → View.Cramped v i off p.length := fun hfull =>
        .inr (lt_of_lt_of_le hfull (need_le_missing hpast))
      rw [wp_bind]
      refine (blockFor_holds h hi hbn hdin hfits htype).mono ?_ fun _ => hcramped
      have hsmall : fssize < 2 ^ 22 := by decide
      rintro ⟨din', x⟩ t (⟨u, hu, hdin', hfits', hreach, rfl⟩ | ⟨hfull, rfl, hlen⟩)
      · have hb0 := hreach.block
        have htype' : (u.inode i).type ≠ 0 := hreach.grows.type.symm ▸ htype
        have hslot : u.slot (i, fileSlot (off / bsize)) = some (u.block i (off / bsize)) := slot_eq_some.mpr ⟨htype', rfl, hb0⟩
        generalize hb : u.block i (off / bsize) = b at hb0 hslot ⊢
        have hmem := hu.own.mem_data le_rfl (mem_grid.mpr ⟨hi, fileSlot_lt hbn⟩) hslot
        have hlow : nmeta ≤ b := kernelSb_dstart ▸ hmem.1
        have hbelow : b < t.freeblock := by
          have hbit := hmem.2.2
          rw [hu.bits] at hbit
          exact of_decide_eq_true hbit
        have hlast := hu.last
        have hlen := hu.len
        have hsec : b < 2 ^ 22 := by omega
        have hin : b < t.len := by omega
        generalize hm : min p.length ((off / bsize + 1) * bsize - off) = m
        have hshift : off - off / bsize * bsize = off % bsize := by
          simp only [bsize]
          omega
        have hbounds : 0 < m ∧ m ≤ p.length ∧ off % bsize + m ≤ bsize ∧ off + m ≤ maxfile * bsize := by
          simp only [maxfile, ndirect, nindirect, bsize] at *
          omega
        obtain ⟨hmpos, hmle, hmblock, hmlimit⟩ := hbounds
        rw [wp_bind, wp_rsect hsec]
        refine ⟨fun hle => absurd hle (by omega), fun _ => ?_⟩
        rw [wp_bind, wp_wsect hsec hin, hshift, ← hu.data b hlow]
        have howned : ∀ y : Block, owned kernelSb (u.setData b y) = u.owned kernelSb := fun y =>
          owned_congr fun z hz => slot_setData hu.own hi (fileSlot_lt hbn) (fileSlot_ne _) hslot hz
        have hstore := hu.write (x := splice (u.data b) (off % bsize) m fun x => p.getD x 0) hlow hbelow
          (hu.own.of_owned rfl (by rw [howned]))
        have hmissing : ∀ c, off / bsize < c → _ := fun c hc =>
          missing_piece (x := splice (u.data b) (off % bsize) m fun x => p.getD x 0) hu.own hi htype' hbn hslot hreach.grows
            hreach.mapped hc
        have hfree := hreach.grows.free
        have hbits : free kernelSb (u.setData b (splice (u.data b) (off % bsize) m fun x => p.getD x 0)) = u.free kernelSb := rfl
        have hdrop : (p.drop m).length = p.length - m := List.length_drop
        refine (ih hstore hdin' hfits' htype' (by omega)).mono ?_ ?_
        · rintro r t' ⟨w, hrest⟩
          refine ⟨w, hrest.after hmle hmlimit ?_ ?_ fun a c ha hc => ?_⟩
          · refine piece_stored hu.own hi htype' hbn hreach.grows hb hb0 _ fun y hlo hhi => ?_
            simp only [bsize] at *
            omega
          · exact piece_bytes hu.own hi htype' hbn hreach.grows hb hb0 hmblock fun _ _ => rfl
          · have hstep := (hmissing c (lt_of_lt_of_le hpast hc)).2 a ha
            omega
        · rintro - (hbig | hfull)
          · exact .inl (by omega)
          · rw [hdrop, show off + m + (p.length - m) = off + p.length by omega] at hfull
            have hstep := (hmissing _ hpast).2 _ le_rfl
            have hleft := missing_le_left (v := u.setData b (splice (u.data b) (off % bsize) m fun x => p.getD x 0)) (i := i)
              (c := pastBlock (off + p.length)) (show off / bsize ≤ (off + m) / bsize from Nat.div_le_div_right (by omega))
            exact .inr (by omega)
      · rw [wp_bind, wp_rsect hsmall]
        exact ⟨fun _ => hcramped hfull, fun hlt => absurd hlt (by omega)⟩
    next hempty => exact wp_pure.mpr ⟨v, .nil h hdin hfits (by omega)⟩

theorem Holds.store {m : Nat} {d : Dinode} (h : Holds n dirty w s) (hdirty : ∀ j ∈ dirty, j = i) (hi : i < ninodes) (hnorm : d.Norm)
    (hunused : ∀ j < ninodes, m ≤ j → ((w.setInode i d).inode j).type = 0) (hslots : ∀ l, (w.setInode i d).slot (i, l) = w.slot (i, l))
    (hcount : t.freeinode = m) (hlen : t.len = s.len) (hfree : t.freeblock = s.freeblock)
    (hdisk : t.disk = s.disk.setDinode kernelSb i d) : Holds m none (w.setInode i d) t := by
  have hkeep : ∀ j, j ≠ i → (w.setInode i d).inode j = w.inode j := fun j hji => put_ne _ _ _ hji
  have hdata : ∀ b, nmeta ≤ b → t.disk b = s.disk b := fun b hb => by
    rw [hdisk]
    exact Disk.setDinode_data kernelSb_wf hi (kernelSb_dstart ▸ hb)
  have hfirst := h.first
  refine ⟨hcount, hunused, hlen.trans h.len, ?_, hfree ▸ h.first, hfree ▸ h.last, hfree ▸ h.bits, fun b hb => ?_, fun b hb => ?_,
    fun j hj _ => ?_, fun j hj => ?_, h.own.of_owned rfl ?_⟩
  · rw [hdisk]
    exact fun b hb => (put_ne _ _ _ (kernelSb_iblock_ne hb i)).trans (h.low b hb)
  · rw [setInode_data, h.data b hb]
    exact (hdata b hb).symm
  · rw [hfree] at hb
    exact (hdata b (by omega)).trans (h.fresh b hb)
  · rw [hdisk, Disk.dinode_setDinode hnorm]
    by_cases hji : j = i
    · rw [if_pos hji, hji, setInode_inode, put_same]
    · rw [if_neg hji, hkeep j hji]
      exact h.inodes j hj fun heq => hji (hdirty j heq)
  · by_cases hji : j = i
    · rw [hji, setInode_inode, put_same]
      exact hnorm
    · rw [hkeep j hji]
      exact h.norm j hj
  · rw [add_zero, add_zero]
    refine owned_congr ?_
    rintro ⟨j, l⟩ -
    by_cases hji : j = i
    · exact hji ▸ hslots l
    · simp only [slot, hkeep j hji, setInode_data]

theorem Holds.flush {d : Dinode} (h : Holds n (some i) w t) (hi : i < ninodes) (htype : (w.inode i).type ≠ 0)
    (hsame : d.type = (w.inode i).type) (haddrs : d.addrs = (w.inode i).addrs) (hnorm : d.Norm) :
    Holds n none (w.setInode i d) { t with disk := t.disk.setDinode kernelSb i d } := by
  refine h.store (fun j hj => (Option.some.inj hj).symm) hi hnorm (fun j hj hle => ?_) (fun l => ?_) h.count rfl rfl rfl
  · have hold := h.unused j hj hle
    have hji : j ≠ i := fun heq => htype (heq ▸ hold)
    rw [setInode_inode, put_ne _ _ _ hji, hold]
  · simp only [slot, setInode_inode, put_same, hsame, slotOf, haddrs, setInode_data]

structure Extended (i : Nat) (p : List Byte) (v w : View) : Prop where
  written : Written kernelSb i (v.inode i).size p.length v w
  bytes : StoredBytes i (v.inode i).size p.length (fun x => p.getD x 0) v w
  limit : 0 < p.length → (v.inode i).size + p.length ≤ maxfile * bsize
  spent : ∀ a c, a ≤ (v.inode i).size / bsize → pastBlock ((v.inode i).size + p.length) ≤ c →
    w.free kernelSb + v.missing i a c = v.free kernelSb + w.missing i a c

theorem iappend_holds (h : Holds n none v s) (hi : i < ninodes) (htype : (v.inode i).type ≠ 0) :
    wp (iappend .little i p) (fun _ t => ∃ w, Holds n none w t ∧ Extended i p v w)
      (fun _ => View.Cramped v i (v.inode i).size p.length) s := by
  have hdin : v.inode i = (rawAt .little (s.disk (kernelSb.iblock i)) (64 * (i % ipb))).dinode := h.inodes i hi nofun
  have hsize : xint .little (rawAt .little (s.disk (kernelSb.iblock i)) (64 * (i % ipb))).size = (v.inode i).size := by
    rw [xint_of_lt (rawAt_fits _ _).size, hdin]
    rfl
  have hdirty : Holds n (some i) v s := { h with inodes := fun i' hi' _ => h.inodes i' hi' nofun }
  rw [iappend, wp_bind, wp_rinode hi h.len, wp_bind, hsize]
  refine (appendLoop_holds hdirty hi hdin (rawAt_fits _ _) htype le_rfl).mono ?_ fun _ => id
  rintro ⟨din, off⟩ t ⟨w, hw⟩
  have hcount : off = (v.inode i).size + p.length := hw.count
  have hnorm := h.norm i hi
  have hsmall : maxfile * bsize < 2 ^ 32 := by decide
  have hoff : off < 2 ^ 32 := by
    have hlimit := hw.limit
    have hold := hnorm.size
    by_cases hp : 0 < p.length
    · have := hlimit hp
      omega
    · omega
  show wp (winode .little i { din with size := xint .little off }) _ _ t
  have hfits : ({ din with size := off } : Raw).Fits := hw.fits.withSize hoff
  have hext : (w.inode i).extend off = ({ din with size := off } : Raw).dinode := by
    have hwsize : (w.inode i).size ≤ off := by
      rw [hw.stored.fields]
      show (v.inode i).size ≤ off
      omega
    rw [Dinode.extend_eq, max_eq_right hwsize, hw.din]
    rfl
  rw [xint_of_lt hoff, wp_winode hi hw.holds.len hfits, ← hext]
  have hwritten := hw.stored.written
  rw [← hcount] at hwritten
  refine ⟨_, hw.holds.flush hi ?_ ?_ ?_ ?_, hwritten, fun x hx hcase => ?_, hw.limit, fun a c ha hc => ?_⟩
  · rw [hw.stored.fields]
    exact htype
  · rw [Dinode.extend_eq]
  · rw [Dinode.extend_eq]
  · rw [hext]
    exact hfits.norm
  · rw [byte_setInode (by rw [Dinode.extend_eq])]
    exact hw.bytes x hx hcase
  · rw [missing_setInode (by rw [Dinode.extend_eq])]
    exact hw.spent a c ha hc

end Loop

end Xv6.Mkfs
