import Xv6.DiskLayout
import Xv6.Inode

/-!
`balloc` and `bfree` with their loops over the blocks of the bitmap and the bits of each block.
-/

namespace Xv6.Fs.Bitmap

def scanBits (data : Block) (b size : Nat) : (fuel bi : Nat) → Option Nat
  | 0, _ => none
  | fuel + 1, bi =>
    if bi < bpb ∧ b + bi < size then
      let m : Byte := 1#8 <<< (bi % 8)
      if data (bi / 8) &&& m = 0 then some bi else scanBits data b size fuel (bi + 1)
    else none

/-- The outer loop; `b` is compared as an unsigned number. -/
def scanBlocks (sb : Superblock) (d : Disk) : (fuel b : Nat) → Option (Nat × Nat)
  | 0, _ => none
  | fuel + 1, b =>
    if b < sb.size then
      match scanBits (d (sb.bblock b)) b sb.size bpb 0 with
      | some bi => some (b, bi)
      | none => scanBlocks sb d fuel ((b + bpb) % 2 ^ 32)
    else none

/-- `balloc`: its result, and the blocks after it. -/
def balloc (sb : Superblock) (d : Disk) : Nat × Disk :=
  match scanBlocks sb d (sb.size / bpb + 1) 0 with
  | none => (0, d)
  | some (b, bi) =>
    let d := put d (sb.bblock b) (setBitAt (d (sb.bblock b)) bi true)
    (b + bi, put d (b + bi) fun _ => 0)

/-- `bfree`; `none` is the panic. -/
def bfree (sb : Superblock) (d : Disk) (b : Nat) : Option Disk :=
  let bi := b % bpb
  let m : Byte := 1#8 <<< (bi % 8)
  if d (sb.bblock b) (bi / 8) &&& m = 0 then none
  else some (put d (sb.bblock b) (setBitAt (d (sb.bblock b)) bi false))

def Mapped (sb : Superblock) (a : Nat) : Prop := ∃ b < sb.size, a / bpb = b / bpb

def SelfMarked (sb : Superblock) (d : Disk) : Prop := ∀ a < sb.size, sb.bblock a < sb.size → d.bit sb (sb.bblock a) = true

structure Least (sb : Superblock) (d : Disk) (b : Nat) : Prop where
  lt : b < sb.size
  free : d.bit sb b = false
  least : ∀ a < b, d.bit sb a = true

variable {sb : Superblock} {d : Disk} {b : Nat}

theorem and_mask_eq_zero (x : Byte) {i : Nat} (hi : i < 8) : x &&& (1#8 <<< i) = 0 ↔ x.getLsbD i = false := by
  revert x
  interval_cases i <;> decide

theorem masked_bit (data : Block) (bi : Nat) : data (bi / 8) &&& (1#8 <<< (bi % 8)) = 0 ↔ bitAt data bi = false :=
  and_mask_eq_zero _ (Nat.mod_lt _ (by decide))

theorem scanBits_spec (data : Block) (b size : Nat) {fuel bi : Nat} (hfuel : bpb ≤ bi + fuel) :
    (∃ k, scanBits data b size fuel bi = some k ∧ bi ≤ k ∧ k < bpb ∧ b + k < size ∧ bitAt data k = false ∧
        ∀ j, bi ≤ j → j < k → bitAt data j = true) ∨
      scanBits data b size fuel bi = none ∧ ∀ j, bi ≤ j → j < bpb → b + j < size → bitAt data j = true := by
  induction fuel generalizing bi with
  | zero => exact .inr ⟨rfl, fun j hj hlt => by omega⟩
  | succ fuel ih =>
    rw [scanBits]
    split
    next hin =>
      dsimp only
      split
      next hfree => exact .inl ⟨bi, rfl, le_rfl, hin.1, hin.2, (masked_bit data bi).mp hfree, fun j hj hlt => by omega⟩
      next hused =>
        have hbit : bitAt data bi = true := eq_true_of_ne_false (mt (masked_bit data bi).mpr hused)
        have hnext : ∀ j, bi ≤ j → (bi + 1 ≤ j → bitAt data j = true) → bitAt data j = true := fun j hj h => by
          rcases Nat.eq_or_lt_of_le hj with rfl | hlt
          · exact hbit
          · exact h hlt
        have hlater : bpb ≤ (bi + 1) + fuel := by omega
        rcases ih hlater with ⟨k, hk, hle, hlt, hsize, hfree, hall⟩ | ⟨hnone, hall⟩
        · exact .inl ⟨k, hk, by omega, hlt, hsize, hfree, fun j hj hjk => hnext j hj fun h => hall j h hjk⟩
        · exact .inr ⟨hnone, fun j hj hlt hsize => hnext j hj fun h => hall j h hlt hsize⟩
    next hout => exact .inr ⟨rfl, fun j hj hlt hsize => absurd ⟨by omega, by omega⟩ hout⟩

theorem bit_block (hb : b % bpb = 0) {j : Nat} (hj : j < bpb) : d.bit sb (b + j) = bitAt (d (sb.bblock b)) j := by
  have hdiv : (b + j) / bpb = b / bpb := by
    simp only [bpb] at *
    omega
  have hmod : (b + j) % bpb = j := by
    simp only [bpb] at *
    omega
  rw [Disk.bit, Superblock.bblock, hdiv, hmod, Superblock.bblock]

theorem scanBlocks_spec (hsize : sb.size < 2 ^ 31) {fuel : Nat} (hb : b % bpb = 0) (hfuel : sb.size < b + bpb * fuel)
    (hbound : b ≤ sb.size + bpb) (hall : ∀ a < b, a < sb.size → d.bit sb a = true) :
    (∃ c bi, scanBlocks sb d fuel b = some (c, bi) ∧ c % bpb = 0 ∧ bi < bpb ∧ Least sb d (c + bi)) ∨
      scanBlocks sb d fuel b = none ∧ ∀ a < sb.size, d.bit sb a = true := by
  induction fuel generalizing b with
  | zero => exact .inr ⟨rfl, fun a ha => hall a (by omega) ha⟩
  | succ fuel ih =>
    have hpart : ∀ a, b ≤ a → a < b + bpb → d.bit sb a = bitAt (d (sb.bblock b)) (a - b) := fun a hle hlt => by
      rw [← bit_block hb (by omega), Nat.add_sub_cancel' hle]
    rw [scanBlocks]
    split
    next hin =>
      have hfuel' : bpb ≤ 0 + bpb := by omega
      rcases scanBits_spec (d (sb.bblock b)) b sb.size hfuel' with ⟨k, hk, -, hlt, hks, hfree, hset⟩ | ⟨hnone, hset⟩
      · refine .inl ⟨b, k, by rw [hk], hb, hlt, hks, by rw [bit_block hb hlt, hfree], fun a ha => ?_⟩
        by_cases hab : a < b
        · exact hall a hab (by omega)
        · rw [hpart a (by omega) (by omega)]
          exact hset (a - b) (by omega) (by omega)
      · have hmod : (b + bpb) % 2 ^ 32 = b + bpb := Nat.mod_eq_of_lt (by simp only [bpb] at *; omega)
        rw [hnone, hmod]
        refine ih (by simpa using hb) (by simp only [bpb] at *; omega) (by omega) fun a ha hs => ?_
        by_cases hab : a < b
        · exact hall a hab hs
        · rw [hpart a (by omega) ha]
          exact hset (a - b) (by omega) (by omega) (by omega)
    next hout => exact .inr ⟨rfl, fun a ha => hall a (by omega) ha⟩

theorem setBit_block {c bi : Nat} {v : Bool} (hc : c % bpb = 0) (hbi : bi < bpb) :
    put d (sb.bblock c) (setBitAt (d (sb.bblock c)) bi v) = d.setBit sb (c + bi) v := by
  have hdiv : (c + bi) / bpb = c / bpb := by
    simp only [bpb] at *
    omega
  have hmod : (c + bi) % bpb = bi := by
    simp only [bpb] at *
    omega
  rw [Disk.setBit, Superblock.bblock, Superblock.bblock, hdiv, hmod]

theorem balloc_cases (hsize : sb.size < 2 ^ 31) :
    (∃ b, Least sb d b ∧ balloc sb d = (b, put (d.setBit sb b true) b fun _ => 0)) ∨
      balloc sb d = (0, d) ∧ ∀ a < sb.size, d.bit sb a = true := by
  have hfuel : sb.size < 0 + bpb * (sb.size / bpb + 1) := by
    rw [Nat.zero_add]
    exact Nat.lt_mul_div_succ sb.size (Nat.succ_pos 8191)
  have hfound := scanBlocks_spec (d := d) hsize (Nat.zero_mod bpb) hfuel (Nat.zero_le _) fun a ha => absurd ha (Nat.not_lt_zero a)
  rw [balloc]
  generalize scanBlocks sb d (sb.size / bpb + 1) 0 = r at hfound ⊢
  rcases hfound with ⟨c, bi, hfound, hc, hbi, hleast⟩ | ⟨hnone, hall⟩
  · refine .inl ⟨c + bi, hleast, ?_⟩
    rw [hfound]
    dsimp only
    rw [setBit_block hc hbi]
  · exact .inr ⟨by rw [hnone], hall⟩

theorem bit_put_zero {a : Nat} (h : SelfMarked sb d) (hleast : Least sb d b) (ha : Mapped sb a) {d' : Disk} :
    Disk.bit sb (put d' b fun _ => 0) a = d'.bit sb a := by
  obtain ⟨a', ha', heq⟩ := ha
  have hne : sb.bblock a ≠ b := by
    rintro rfl
    have hsame : sb.bblock a' = sb.bblock a := by rw [Superblock.bblock, Superblock.bblock, heq]
    have hset := h a' ha' (hsame ▸ hleast.lt)
    rw [hsame, hleast.free] at hset
    cases hset
  rw [Disk.bit, put_ne _ _ _ hne, Disk.bit]

theorem bfree_eq (hb : d.bit sb b = true) : bfree sb d b = some (d.setBit sb b false) := by
  have hused : ¬ d (sb.bblock b) (b % bpb / 8) &&& (1#8 <<< (b % bpb % 8)) = 0 := by
    rw [masked_bit]
    exact fun h => by rw [show bitAt (d (sb.bblock b)) (b % bpb) = true from hb] at h; cases h
  rw [bfree, if_neg hused]
  rfl

/-- Where the blocks of the bitmap are marked in use: `balloc` takes the least free block, changes no other bit and clears the
block; it returns 0 with nothing changed exactly if no block is free; `bfree` clears its bit only, and undoes what `balloc` did
to the bitmap. -/
theorem bitmap_exact (sb : Superblock) (d : Disk) (hsize : sb.size < 2 ^ 31) (hself : SelfMarked sb d) :
    (∀ b, Least sb d b → ∃ d', balloc sb d = (b, d') ∧ (∀ a, Mapped sb a → d'.bit sb a = if a = b then true else d.bit sb a) ∧
      (∀ i, d' b i = 0) ∧ (∀ c, c ≠ b → c ≠ sb.bblock b → d' c = d c) ∧
      ∃ d'', bfree sb d' b = some d'' ∧ ∀ a, Mapped sb a → d''.bit sb a = d.bit sb a) ∧
    (d.bit sb 0 = true → ((balloc sb d).1 = 0 ↔ ∀ a < sb.size, d.bit sb a = true) ∧ ((balloc sb d).1 = 0 → balloc sb d = (0, d))) ∧
    ∀ b, d.bit sb b = true → ∃ d', bfree sb d b = some d' ∧ (∀ a, d'.bit sb a = if a = b then false else d.bit sb a) ∧
      ∀ c, c ≠ sb.bblock b → d' c = d c := by
  refine ⟨fun b hb => ?_, fun hzero => ?_, fun b hb => ?_⟩
  · rcases balloc_cases (d := d) hsize with ⟨c, hc, heq⟩ | ⟨-, hall⟩
    · obtain rfl : c = b := by
        by_contra hne
        rcases Nat.lt_or_gt_of_ne hne with hlt | hlt
        · exact absurd (hb.least c hlt) (by rw [hc.free]; decide)
        · exact absurd (hc.least b hlt) (by rw [hb.free]; decide)
      have hbits : ∀ a, Mapped sb a → Disk.bit sb (put (d.setBit sb c true) c fun _ => 0) a = if a = c then true else d.bit sb a :=
        fun a ha => by rw [bit_put_zero hself hc ha, Disk.bit_setBit]
      refine ⟨_, heq, hbits, fun i => by rw [put_same], fun e he hbe => ?_,
        _, bfree_eq (by rw [hbits c ⟨c, hc.lt, rfl⟩, if_pos rfl]), fun a ha => ?_⟩
      · rw [put_ne _ _ _ he, Disk.setBit, put_ne _ _ _ hbe]
      · rw [Disk.bit_setBit, hbits a ha]
        by_cases hac : a = c
        · rw [if_pos hac, hac, hc.free]
        · rw [if_neg hac, if_neg hac]
    · exact absurd (hall b hb.lt) (by rw [hb.free]; decide)
  · rcases balloc_cases (d := d) hsize with ⟨c, hc, heq⟩ | ⟨heq, hall⟩
    · have hpos : c ≠ 0 := by
        rintro rfl
        rw [hc.free] at hzero
        cases hzero
      rw [heq]
      refine ⟨⟨fun h => absurd h hpos, fun h => ?_⟩, fun h => absurd h hpos⟩
      exact absurd (h c hc.lt) (by rw [hc.free]; decide)
    · rw [heq]
      exact ⟨⟨fun _ => hall, fun _ => rfl⟩, fun _ => rfl⟩
  · exact ⟨_, bfree_eq hb, fun a => Disk.bit_setBit a, fun c hc => put_ne _ _ _ hc⟩

def threeBlocks : Superblock := ⟨3, 0, 0, 0, 0, 1⟩

def mapWith (byte : Byte) : Disk := fun b i => if b = 1 ∧ i = 0 then byte else 0

theorem bitmap_exact_three : ∃ d', balloc threeBlocks (mapWith 3) = (2, d') ∧
    ∀ a, Mapped threeBlocks a → d'.bit threeBlocks a = if a = 2 then true else (mapWith 3).bit threeBlocks a := by
  have hself : SelfMarked threeBlocks (mapWith 3) := by
    unfold SelfMarked
    decide +kernel
  obtain ⟨d', heq, hbits, -⟩ := (bitmap_exact threeBlocks (mapWith 3) (by decide) hself).1 2
    ⟨by decide, by decide +kernel, by decide +kernel⟩
  exact ⟨d', heq, hbits⟩

/-- The least free block is that of the bitmap: it is taken and cleared, and with it the other bits. -/
theorem bitmap_cleared : (mapWith 5).bit threeBlocks 0 = true ∧ (balloc threeBlocks (mapWith 5)).1 = 1 ∧
    (balloc threeBlocks (mapWith 5)).2.bit threeBlocks 0 = false := by
  decide +kernel

open Prog

theorem logWrite_disk {s : State} {b : Nat} {Q : Unit → State → Prop} (h : ∀ t : State, t.disk = s.disk → Q () t) :
    wp (logWrite b) Q (fun _ => True) s := by
  simp only [logWrite, wp_bind, wp_get, wp_ite, wp_panic, wp_set]
  exact ⟨fun _ => trivial, fun _ => ⟨fun _ => trivial, fun _ => h _ rfl⟩⟩

theorem balloc_loops {s : State} (hsize : s.sb.size < 2 ^ 31) :
    wp Fs.balloc (fun b t => (b, t.disk) = balloc s.sb s.disk) (fun _ => True) s := by
  simp only [Fs.balloc, wp_bind, wp_get]
  rcases @balloc_cases s.sb s.disk hsize with ⟨b, hb, heq⟩ | ⟨heq, hall⟩
  · have hfind : (List.range s.sb.size).find? (fun b => !s.disk.bit s.sb b) = some b :=
      List.find?_range_eq_some.mpr ⟨by simp [hb.free], List.mem_range.mpr hb.lt, fun a ha => by simp [hb.least a ha]⟩
    rw [hfind, heq]
    simp only [wp_bind, wp_set, bzero, wp_bwrite]
    refine logWrite_disk fun t ht => logWrite_disk fun u hu => wp_pure.mpr ?_
    rw [hu, ht]
  · have hfind : (List.range s.sb.size).find? (fun b => !s.disk.bit s.sb b) = none :=
      List.find?_range_eq_none.mpr fun a ha => by simp [hall a ha]
    rw [hfind, heq]
    exact wp_pure.mpr rfl

end Xv6.Fs.Bitmap
