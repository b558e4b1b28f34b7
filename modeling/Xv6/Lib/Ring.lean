import Mathlib.Data.List.Range
import Mathlib.Data.Nat.ModEq
import Mathlib.Logic.Function.Basic

namespace Ring

variable {α : Type*} {w n : Nat}

/-- A circular buffer of `n` cells whose counters run freely modulo `2^w`: the elements between `head` and
`tail`, the oldest first. -/
def contents (n : Nat) (data : Nat → α) (head tail : BitVec w) : List α :=
  (List.range (tail - head).toNat).map fun j => data ((head.toNat + j) % n)

variable {data : Nat → α} {head tail : BitVec w}

@[simp] theorem length_contents : (contents n data head tail).length = (tail - head).toNat := by simp [contents]

/-- The counter and the index agree modulo the size of the buffer, also where the counter wraps. -/
theorem toNat_add_mod (hn : n ∣ 2 ^ w) (x : BitVec w) (j : Nat) :
    (x + BitVec.ofNat w j).toNat % n = (x.toNat + j) % n := by
  rw [BitVec.toNat_add, BitVec.toNat_ofNat, Nat.mod_mod_of_dvd _ hn, Nat.add_mod, Nat.mod_mod_of_dvd _ hn,
    ← Nat.add_mod]

theorem tail_mod (hn : n ∣ 2 ^ w) (head tail : BitVec w) : tail.toNat % n = (head.toNat + (tail - head).toNat) % n := by
  have h := toNat_add_mod hn head (tail - head).toNat
  rw [BitVec.ofNat_toNat, BitVec.setWidth_eq, BitVec.add_comm, BitVec.sub_add_cancel] at h
  exact h

theorem toNat_add_one {x : BitVec w} (h : x.toNat + 1 < 2 ^ w) : (x + 1#w).toNat = x.toNat + 1 := by
  have hone : (1#w).toNat = 1 := by rw [BitVec.toNat_ofNat, Nat.mod_eq_of_lt (by omega)]
  rw [BitVec.toNat_add, hone, Nat.mod_eq_of_lt h]

theorem contents_put (hn : n ∣ 2 ^ w) (hw : n < 2 ^ w) (hroom : (tail - head).toNat < n) (b : α) :
    contents n (Function.update data (tail.toNat % n) b) head (tail + 1#w) = contents n data head tail ++ [b] := by
  have hcount : (tail + 1#w - head).toNat = (tail - head).toNat + 1 := by
    have hadd : tail + 1#w - head = (tail - head) + 1#w := by
      rw [BitVec.sub_eq_add_neg, BitVec.sub_eq_add_neg, BitVec.add_assoc, BitVec.add_comm (1#w), ← BitVec.add_assoc]
    rw [hadd, toNat_add_one (by omega)]
  rw [contents, hcount, List.range_succ, List.map_append, List.map_singleton, tail_mod hn head tail,
    Function.update_self]
  congr 1
  refine List.map_congr_left fun j hj => Function.update_of_ne (fun he => ?_) _ _
  have hlt := List.mem_range.mp hj
  have hmod : j ≡ (tail - head).toNat [MOD n] := Nat.ModEq.add_left_cancel' _ he
  have heq := Nat.ModEq.eq_of_lt_of_lt hmod (by omega) hroom
  omega

theorem count_get (hne : head ≠ tail) : (tail - head).toNat = (tail - (head + 1#w)).toNat + 1 := by
  have hsub : tail - head = (tail - (head + 1#w)) + 1#w := by
    rw [BitVec.sub_eq_add_neg tail (head + 1#w), BitVec.neg_add, BitVec.sub_eq_add_neg, BitVec.sub_eq_add_neg,
      BitVec.add_assoc, BitVec.add_assoc, BitVec.add_comm (-1#w), BitVec.add_right_neg, BitVec.add_zero]
  have hlt : (tail - (head + 1#w)).toNat + 1 < 2 ^ w := by
    by_contra hge
    have hmax := (tail - (head + 1#w)).isLt
    have hzero : tail - head = 0#w := by
      apply BitVec.eq_of_toNat_eq
      rw [hsub, BitVec.toNat_add, BitVec.toNat_ofNat, Nat.add_mod_mod, BitVec.toNat_zero,
        show (tail - (head + 1#w)).toNat + 1 = 2 ^ w by omega, Nat.mod_self]
    have htail := BitVec.sub_add_cancel tail head
    rw [hzero, BitVec.zero_add] at htail
    exact hne htail
  rw [hsub, toNat_add_one hlt]

theorem contents_get (hn : n ∣ 2 ^ w) (hne : head ≠ tail) :
    contents n data head tail = data (head.toNat % n) :: contents n data (head + 1#w) tail := by
  rw [contents, count_get hne, List.range_succ_eq_map, List.map_cons, List.map_map]
  congr 1
  refine List.map_congr_left fun j _ => ?_
  have hmod := toNat_add_mod hn head 1
  have hidx : ((head + 1#w).toNat + j) % n = (head.toNat + (j + 1)) % n := by
    rw [Nat.add_mod, hmod, ← Nat.add_mod]
    congr 1
    omega
  rw [Function.comp_apply, hidx]

theorem count_split {mid : BitVec w} (h : (mid - head).toNat ≤ (tail - head).toNat) :
    (tail - head).toNat = (mid - head).toNat + (tail - mid).toNat := by
  have hsum : tail - head = (mid - head) + (tail - mid) := by
    have hcancel : mid - head + (tail - mid) + head = tail - head + head := by
      rw [BitVec.add_assoc, BitVec.add_comm (tail - mid), ← BitVec.add_assoc, BitVec.sub_add_cancel, BitVec.add_comm mid,
        BitVec.sub_add_cancel, BitVec.sub_add_cancel]
    exact ((BitVec.add_left_inj head).mp hcancel).symm
  have hmod : (tail - head).toNat = ((mid - head).toNat + (tail - mid).toNat) % 2 ^ w := by rw [hsum, BitVec.toNat_add]
  have h1 := (mid - head).isLt
  have h2 := (tail - mid).isLt
  by_cases hlt : (mid - head).toNat + (tail - mid).toNat < 2 ^ w
  · rw [hmod, Nat.mod_eq_of_lt hlt]
  · rw [Nat.mod_eq_sub_mod (by omega), Nat.mod_eq_of_lt (by omega)] at hmod
    omega

theorem contents_append {mid : BitVec w} (hn : n ∣ 2 ^ w) (h : (mid - head).toNat ≤ (tail - head).toNat) :
    contents n data head tail = contents n data head mid ++ contents n data mid tail := by
  rw [contents, count_split h, List.range_add, List.map_append, List.map_map]
  congr 1
  refine List.map_congr_left fun j _ => ?_
  have hidx : (mid.toNat + j) % n = (head.toNat + ((mid - head).toNat + j)) % n := by
    rw [Nat.add_mod, tail_mod hn head mid, ← Nat.add_mod, Nat.add_assoc]
  rw [Function.comp_apply, hidx]

theorem count_unput (hne : head ≠ tail) : (tail - head).toNat = (tail - 1#w - head).toNat + 1 := by
  rw [count_get hne, BitVec.sub_sub, BitVec.add_comm (1#w)]

theorem contents_unput (hn : n ∣ 2 ^ w) (hw : 0 < w) (hne : head ≠ tail) :
    contents n data head tail = contents n data head (tail - 1#w) ++ [data ((tail - 1#w).toNat % n)] := by
  have hone : tail - (tail - 1#w) = 1#w := by
    have h := BitVec.sub_add_cancel tail (tail - 1#w)
    have h' := BitVec.sub_add_cancel tail (1#w)
    rw [BitVec.add_comm] at h'
    exact (BitVec.add_left_inj (tail - 1#w)).mp (h.trans h'.symm)
  have hlast : contents n data (tail - 1#w) tail = [data ((tail - 1#w).toNat % n)] := by
    have hcount : (tail - (tail - 1#w)).toNat = 1 := by
      rw [hone, BitVec.toNat_ofNat, Nat.mod_eq_of_lt (Nat.one_lt_two_pow (by omega))]
    rw [contents, hcount]
    rfl
  have hle : (tail - 1#w - head).toNat ≤ (tail - head).toNat := by
    rw [count_unput hne]
    omega
  rw [contents_append hn hle, hlast]

end Ring
