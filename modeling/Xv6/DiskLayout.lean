import Mathlib.Tactic.IntervalCases
import Mathlib.Tactic.Ring
import Xv6.Inode

namespace Xv6.Fs

open Disk

section Bytes

variable {b b' : Block} {o v : Nat}

theorem byteOf_toNat (v i : Nat) : (byteOf v i).toNat = v / 256 ^ i % 256 := by
  rw [byteOf, BitVec.toNat_ofNat]

theorem get16_of_bytes (h0 : b o = byteOf v 0) (h1 : b (o + 1) = byteOf v 1) : get16 b o = v % 65536 := by
  rw [get16, h0, h1, byteOf_toNat, byteOf_toNat, pow_zero, pow_one, Nat.div_one]
  omega

theorem get32_of_bytes (h : ∀ i < 4, b (o + i) = byteOf v i) : get32 b o = v % 2 ^ 32 := by
  have h0 := h 0 (by omega)
  have h1 := h 1 (by omega)
  have h2 := h 2 (by omega)
  have h3 := h 3 (by omega)
  rw [get32, get16, get16, show b o = _ from h0, h1, h2, show b (o + 2 + 1) = _ from h3]
  simp only [byteOf_toNat]
  omega

theorem get16_lt (b : Block) (o : Nat) : get16 b o < 65536 := by
  have h0 := (b o).isLt
  have h1 := (b (o + 1)).isLt
  unfold get16
  omega

theorem get32_lt (b : Block) (o : Nat) : get32 b o < 2 ^ 32 := by
  have h0 := get16_lt b o
  have h1 := get16_lt b (o + 2)
  unfold get32
  omega

theorem get16_congr (h : ∀ i < 2, b (o + i) = b' (o + i)) : get16 b o = get16 b' o := by
  rw [get16, get16, show b o = b' o from h 0 (by omega), h 1 (by omega)]

theorem get32_congr (h : ∀ i < 4, b (o + i) = b' (o + i)) : get32 b o = get32 b' o := by
  have hlow : get16 b o = get16 b' o := get16_congr fun i hi => h i (by omega)
  have hhigh : get16 b (o + 2) = get16 b' (o + 2) := get16_congr fun i hi => by
    rw [Nat.add_assoc]
    exact h (2 + i) (by omega)
  rw [get32, get32, hlow, hhigh]

theorem splice_in {f : Nat → Byte} {n i : Nat} (h : i < n) : splice b o n f (o + i) = f i := by
  rw [splice, if_pos (by omega), Nat.add_sub_cancel_left]

theorem splice_out {f : Nat → Byte} {n i : Nat} (h : i < o ∨ o + n ≤ i) : splice b o n f i = b i := by
  rw [splice, if_neg (by omega)]

theorem get32_splice {i j n : Nat} (hn : n < 2 ^ 32) :
    get32 (splice b (4 * j) 4 (byteOf n)) (4 * i) = if i = j then n else get32 b (4 * i) := by
  split
  next hij =>
    subst hij
    rw [get32_of_bytes (v := n) fun i hi => splice_in hi, Nat.mod_eq_of_lt hn]
  next hij => exact get32_congr fun x hx => splice_out (by omega)

end Bytes

section Shorts

theorem toShort_range (v : Int) : -32768 ≤ toShort v ∧ toShort v < 32768 := by
  unfold toShort
  omega

theorem toShort_of_range {v : Int} (h : -32768 ≤ v ∧ v < 32768) : toShort v = v := by
  unfold toShort
  omega

theorem ofShort_lt (v : Int) : ofShort v < 65536 := by
  unfold ofShort
  omega

theorem toShort_ofShort {v : Int} (h : -32768 ≤ v ∧ v < 32768) : toShort (ofShort v) = v := by
  unfold toShort ofShort
  omega

end Shorts

structure Dinode.Norm (d : Dinode) : Prop where
  type : -32768 ≤ d.type ∧ d.type < 32768
  major : -32768 ≤ d.major ∧ d.major < 32768
  minor : -32768 ≤ d.minor ∧ d.minor < 32768
  nlink : -32768 ≤ d.nlink ∧ d.nlink < 32768
  size : d.size < 2 ^ 32
  addrs : ∀ k, d.addrs k < 2 ^ 32
  void : ∀ k, ndirect < k → d.addrs k = 0

theorem dinodeAt_norm (b : Block) (o : Nat) : (dinodeAt b o).Norm where
  type := toShort_range _
  major := toShort_range _
  minor := toShort_range _
  nlink := toShort_range _
  size := get32_lt _ _
  addrs k := by
    simp only [dinodeAt]
    split
    next => exact get32_lt _ _
    next => decide
  void k hk := if_neg (by omega)

theorem Dinode.zero_norm : Dinode.zero.Norm :=
  ⟨by decide, by decide, by decide, by decide, by decide, fun _ => Nat.two_pow_pos 32, fun _ _ => rfl⟩

theorem dinodeAt_congr {b b' : Block} {o : Nat} (h : ∀ i < 64, b (o + i) = b' (o + i)) : dinodeAt b o = dinodeAt b' o := by
  have h16 : ∀ x, x + 2 ≤ 64 → get16 b (o + x) = get16 b' (o + x) := fun x hx => get16_congr fun i hi => by
    rw [Nat.add_assoc]
    exact h _ (by omega)
  have h32 : ∀ x, x + 4 ≤ 64 → get32 b (o + x) = get32 b' (o + x) := fun x hx => get32_congr fun i hi => by
    rw [Nat.add_assoc]
    exact h _ (by omega)
  have haddrs : ∀ k, (if k ≤ ndirect then get32 b (o + 12 + 4 * k) else 0) = if k ≤ ndirect then get32 b' (o + 12 + 4 * k) else 0 := by
    intro k
    split
    next hk =>
      rw [Nat.add_assoc]
      exact h32 _ (by simp only [ndirect] at hk; omega)
    next => rfl
  simp only [dinodeAt, haddrs, h32 8 (by omega), h16 2 (by omega), h16 4 (by omega), h16 6 (by omega),
    show get16 b o = get16 b' o from h16 0 (by omega)]

theorem dinodeAt_bytes {b : Block} {o : Nat} {d : Dinode} (hd : d.Norm) (h : ∀ i < 64, b (o + i) = d.bytes i) :
    dinodeAt b o = d := by
  have hshort : ∀ (x : Nat) (v : Int), x + 2 ≤ 64 → (∀ i < 2, d.bytes (x + i) = byteOf (ofShort v) i) →
      -32768 ≤ v ∧ v < 32768 → toShort (get16 b (o + x)) = v := by
    intro x v hx hbytes hv
    have h0 := hbytes 0 (by omega)
    have h1 := hbytes 1 (by omega)
    have hget := get16_of_bytes (b := b) (o := o + x) ((h x (by omega)).trans h0) ((h (x + 1) (by omega)).trans h1)
    rw [hget, Nat.mod_eq_of_lt (ofShort_lt v), toShort_ofShort hv]
  have hword : ∀ x n, x + 4 ≤ 64 → (∀ i < 4, d.bytes (x + i) = byteOf n i) → n < 2 ^ 32 → get32 b (o + x) = n := by
    intro x n hx hbytes hn
    have hget := get32_of_bytes (b := b) (o := o + x) (v := n) fun i hi => by
      rw [Nat.add_assoc]
      exact (h _ (by omega)).trans (hbytes i hi)
    rw [hget, Nat.mod_eq_of_lt hn]
  have htype := hshort 0 d.type (by omega) (fun i hi => by interval_cases i <;> rfl) hd.type
  have hmajor := hshort 2 d.major (by omega) (fun i hi => by interval_cases i <;> rfl) hd.major
  have hminor := hshort 4 d.minor (by omega) (fun i hi => by interval_cases i <;> rfl) hd.minor
  have hnlink := hshort 6 d.nlink (by omega) (fun i hi => by interval_cases i <;> rfl) hd.nlink
  have hsize := hword 8 d.size (by omega) (fun i hi => by interval_cases i <;> rfl) hd.size
  have haddrs : (fun k => if k ≤ ndirect then get32 b (o + 12 + 4 * k) else 0) = d.addrs := by
    funext k
    split
    next hk =>
      simp only [ndirect] at hk
      rw [Nat.add_assoc]
      refine hword (12 + 4 * k) (d.addrs k) (by omega) (fun i hi => ?_) (hd.addrs k)
      have hlow : ¬ 12 + 4 * k + i < 12 := by omega
      simp only [Dinode.bytes, if_neg hlow, if_neg (show ¬ 12 + 4 * k + i < 2 by omega),
        if_neg (show ¬ 12 + 4 * k + i < 4 by omega), if_neg (show ¬ 12 + 4 * k + i < 6 by omega),
        if_neg (show ¬ 12 + 4 * k + i < 8 by omega)]
      rw [show (12 + 4 * k + i - 12) / 4 = k by omega, show (12 + 4 * k + i - 12) % 4 = i by omega]
    next hk => exact (hd.void k (by omega)).symm
  rw [Nat.add_zero] at htype
  simp only [dinodeAt, htype, hmajor, hminor, hnlink, hsize, haddrs]

section Bits

theorem bitAt_setBitAt (b : Block) (x y : Nat) (v : Bool) :
    bitAt (setBitAt b x v) y = if y = x then v else bitAt b y := by
  unfold bitAt setBitAt
  by_cases hbyte : y / 8 = x / 8
  · rw [hbyte, put_same]
    have hx : x % 8 < 8 := Nat.mod_lt _ (by omega)
    have hy : y % 8 < 8 := Nat.mod_lt _ (by omega)
    have hiff : y = x ↔ y % 8 = x % 8 := by omega
    have hshift : (1#8 <<< (x % 8)).getLsbD (y % 8) = decide (y % 8 = x % 8) := by
      generalize x % 8 = i at hx
      generalize y % 8 = j at hy
      interval_cases i <;> interval_cases j <;> rfl
    cases v with
    | true =>
      rw [if_pos rfl, BitVec.getLsbD_or, hshift]
      by_cases h : y = x
      · simp [h]
      · have hne : ¬ y % 8 = x % 8 := fun hc => h (hiff.mpr hc)
        simp [h, hne]
    | false =>
      rw [if_neg (by decide), BitVec.getLsbD_and, BitVec.getLsbD_not, hshift]
      by_cases h : y = x
      · simp [h]
      · have hne : ¬ y % 8 = x % 8 := fun hc => h (hiff.mpr hc)
        simp [h, hne, hy]
  · rw [put_ne _ _ _ hbyte, if_neg (fun h => hbyte (by rw [h]))]

end Bits

def Superblock.dstart (sb : Superblock) : Nat := sb.bmapstart + sb.size / bpb + 1

/-- The inode blocks come before the bitmap, and the root inode exists. -/
structure Superblock.Wf (sb : Superblock) : Prop where
  inodes : sb.inodestart + (sb.ninodes - 1) / ipb < sb.bmapstart
  size : sb.size ≤ 2 ^ 32
  root : rootino < sb.ninodes

section Layout

variable {sb : Superblock} {d : Disk} {i j b : Nat} {din : Dinode} {v : Bool} {x : Block}

theorem Superblock.Wf.iblock_lt (h : sb.Wf) (hi : i < sb.ninodes) : sb.iblock i < sb.bmapstart := by
  have hinodes := h.inodes
  have hle : i / ipb ≤ (sb.ninodes - 1) / ipb := Nat.div_le_div_right (by omega)
  unfold Superblock.iblock
  omega

theorem Superblock.bblock_range (hb : b < sb.size) : sb.bmapstart ≤ sb.bblock b ∧ sb.bblock b < sb.dstart := by
  have hle : b / bpb ≤ sb.size / bpb := Nat.div_le_div_right hb.le
  simp only [Superblock.bblock, Superblock.dstart, bpb] at *
  omega

theorem Superblock.bmapstart_lt (sb : Superblock) : sb.bmapstart < sb.dstart := by
  simp only [Superblock.dstart, bpb]
  omega

theorem Disk.dinode_setDinode (hdin : din.Norm) : (d.setDinode sb i din).dinode sb j = if j = i then din else d.dinode sb j := by
  unfold dinode setDinode
  by_cases hblock : sb.iblock j = sb.iblock i
  · rw [hblock, put_same]
    unfold Superblock.iblock at hblock
    split
    next hji =>
      subst hji
      exact dinodeAt_bytes hdin fun x hx => splice_in hx
    next hji =>
      refine dinodeAt_congr fun x hx => splice_out ?_
      simp only [ipb] at hblock ⊢
      omega
  · rw [put_ne _ _ _ hblock, if_neg (fun h => hblock (by rw [h]))]

theorem Disk.bit_setBit (a : Nat) : (d.setBit sb b v).bit sb a = if a = b then v else d.bit sb a := by
  unfold bit setBit
  by_cases hblock : sb.bblock a = sb.bblock b
  · rw [hblock, put_same, bitAt_setBitAt]
    unfold Superblock.bblock at hblock
    have hiff : a % bpb = b % bpb ↔ a = b := by
      simp only [bpb] at hblock ⊢
      omega
    simp only [hiff]
  · rw [put_ne _ _ _ hblock, if_neg (fun h => hblock (by rw [h]))]

section
variable (h : sb.Wf) (hi : i < sb.ninodes)
include h hi

theorem Disk.bit_setDinode (hb : b < sb.size) : (d.setDinode sb i din).bit sb b = d.bit sb b := by
  have hlow := h.iblock_lt hi
  have hhigh := Superblock.bblock_range hb
  rw [bit, setDinode, put_ne _ _ _ (by omega), bit]

theorem Disk.dinode_setBit (hb : b < sb.size) : (d.setBit sb b v).dinode sb i = d.dinode sb i := by
  have hlow := h.iblock_lt hi
  have hhigh := Superblock.bblock_range hb
  rw [dinode, setBit, put_ne _ _ _ (by omega), dinode]

theorem Disk.setDinode_data (hb : sb.dstart ≤ b) : d.setDinode sb i din b = d b := by
  have hlow := h.iblock_lt hi
  have hmid := sb.bmapstart_lt
  exact put_ne _ _ _ (by omega)

end

theorem Disk.setBit_data {a : Nat} (hb : b < sb.size) (ha : sb.dstart ≤ a) : d.setBit sb b v a = d a := by
  have hhigh := Superblock.bblock_range hb
  exact put_ne _ _ _ (by omega)

theorem Disk.dinode_put (h : sb.Wf) (hi : i < sb.ninodes) (hb : sb.dstart ≤ b) :
    dinode sb (put d b x) i = d.dinode sb i := by
  have hlow := h.iblock_lt hi
  have hmid := sb.bmapstart_lt
  rw [dinode, put_ne _ _ _ (by omega), dinode]

theorem Disk.bit_put {a : Nat} (ha : a < sb.size) (hb : sb.dstart ≤ b) : Disk.bit sb (put d b x) a = d.bit sb a := by
  have hhigh := Superblock.bblock_range ha
  rw [bit, put_ne _ _ _ (by omega), bit]

end Layout

end Xv6.Fs
