import Mathlib

/-!
The two versions of `memmove`, that of the kernel (string.c) and that of the user library (ulib.c), over a memory of bytes
with 64-bit addresses.
-/

namespace Xv6.Memmove

open Function
open BitVec (ofNat)

abbrev Addr := BitVec 64

abbrev Memory := Addr → BitVec 8

/-- `while(n-- > 0) *d++ = *s++;` -/
def copyUp : (n : Nat) → (d s : Addr) → Memory → Memory
  | 0, _, _, m => m
  | n + 1, d, s, m => copyUp n (d + 1) (s + 1) (Function.update m d (m s))

/-- `while(n-- > 0) *--d = *--s;` -/
def copyDown : (n : Nat) → (d s : Addr) → Memory → Memory
  | 0, _, _, m => m
  | n + 1, d, s, m => copyDown n (d - 1) (s - 1) (Function.update m (d - 1) (m (s - 1)))

/-- `memmove` of the kernel, with its `uint n`. -/
def memmove (dst src : Addr) (n : BitVec 32) (m : Memory) : Addr × Memory :=
  if n = 0 then (dst, m)
  else if src < dst ∧ dst < src + n.setWidth 64 then
    (dst, copyDown n.toNat (dst + n.setWidth 64) (src + n.setWidth 64) m)
  else (dst, copyUp n.toNat dst src m)

/-- `memmove` of the user library, with its `int n`. -/
def User.memmove (vdst vsrc : Addr) (n : BitVec 32) (m : Memory) : Addr × Memory :=
  if vdst < vsrc then (vdst, copyUp n.toInt.toNat vdst vsrc m)
  else (vdst, copyDown n.toInt.toNat (vdst + n.signExtend 64) (vsrc + n.signExtend 64) m)

/-- `m'` has at `dst` the `n` bytes that `m` has at `src`, and is otherwise as `m`. -/
structure Moved (dst src : Addr) (n : Nat) (m m' : Memory) : Prop where
  copied : ∀ i < n, m' (dst + BitVec.ofNat 64 i) = m (src + BitVec.ofNat 64 i)
  frame : ∀ a, (∀ i < n, a ≠ dst + BitVec.ofNat 64 i) → m' a = m a

section Loops

variable {dst src : Addr} {n : Nat}

theorem offset_toNat {p : Addr} {i : Nat} (h : p.toNat + i < 2 ^ 64) : (p + ofNat 64 i).toNat = p.toNat + i := by
  rw [BitVec.toNat_add, BitVec.toNat_ofNat, Nat.mod_eq_of_lt (show i < 2 ^ 64 by omega), Nat.mod_eq_of_lt h]

theorem offset_succ (p : Addr) (i : Nat) : p + 1 + ofNat 64 i = p + ofNat 64 (i + 1) := by
  rw [BitVec.ofNat_add, BitVec.add_assoc, BitVec.add_comm 1]
  rfl

theorem offset_pred (p : Addr) (n : Nat) : p + ofNat 64 (n + 1) - 1 = p + ofNat 64 n := by
  rw [← offset_succ, BitVec.add_assoc, BitVec.add_comm 1, ← BitVec.add_assoc, BitVec.add_sub_cancel]

theorem offset_ne {p q : Addr} {i j : Nat} (hp : p.toNat + n ≤ 2 ^ 64) (hq : q.toNat + n ≤ 2 ^ 64) (hi : i < n) (hj : j < n)
    (hne : p.toNat + i ≠ q.toNat + j) : p + ofNat 64 i ≠ q + ofNat 64 j := by
  intro h
  have heq := congrArg BitVec.toNat h
  rw [offset_toNat (by omega), offset_toNat (by omega)] at heq
  exact hne heq

section
variable (m : Memory) (hdst : ∀ i j, i < j → j < n → dst + ofNat 64 i ≠ dst + ofNat 64 j)
include m hdst

/-- No byte of the source is overwritten before it is read. -/
theorem copyUp_moved (hunread : ∀ j i, j < i → i < n → src + ofNat 64 i ≠ dst + ofNat 64 j) :
    Moved dst src n m (copyUp n dst src m) := by
  induction n generalizing dst src m with
  | zero => exact ⟨fun i hi => absurd hi (Nat.not_lt_zero i), fun _ _ => rfl⟩
  | succ n ih =>
    rw [copyUp]
    have hrest := @ih (dst + 1) (src + 1) (update m dst (m src))
      (fun i j hij hj => by
        rw [offset_succ, offset_succ]
        exact hdst (i + 1) (j + 1) (by omega) (by omega))
      fun j i hji hi => by
        rw [offset_succ, offset_succ]
        exact hunread (j + 1) (i + 1) (by omega) (by omega)
    refine ⟨fun i hi => ?_, fun a ha => ?_⟩
    · cases i with
      | zero =>
        rw [BitVec.add_zero, BitVec.add_zero, hrest.frame, update_self]
        intro i hi
        have hne := hdst 0 (i + 1) (by omega) (by omega)
        rwa [BitVec.add_zero, ← offset_succ] at hne
      | succ i =>
        have hsrc := hunread 0 (i + 1) (by omega) hi
        rw [BitVec.add_zero] at hsrc
        rw [← offset_succ, hrest.copied i (by omega), offset_succ, update_of_ne hsrc]
    · have hne := ha 0 (by omega)
      rw [BitVec.add_zero] at hne
      rw [hrest.frame, update_of_ne hne]
      intro i hi
      rw [offset_succ]
      exact ha (i + 1) (by omega)

theorem copyDown_moved (hunread : ∀ j i, i < j → j < n → src + ofNat 64 i ≠ dst + ofNat 64 j) :
    Moved dst src n m (copyDown n (dst + ofNat 64 n) (src + ofNat 64 n) m) := by
  induction n generalizing m with
  | zero => exact ⟨fun i hi => absurd hi (Nat.not_lt_zero i), fun _ _ => rfl⟩
  | succ n ih =>
    rw [copyDown, offset_pred, offset_pred]
    have hrest := ih (update m (dst + ofNat 64 n) (m (src + ofNat 64 n)))
      (fun i j hij hj => hdst i j hij (by omega)) fun j i hij hj => hunread j i hij (by omega)
    refine ⟨fun i hi => ?_, fun a ha => ?_⟩
    · by_cases hin : i = n
      · subst hin
        rw [hrest.frame, update_self]
        exact fun j hj => (hdst j i hj hi).symm
      · rw [hrest.copied i (by omega), update_of_ne (hunread n i (by omega) (by omega))]
    · rw [hrest.frame a fun i hi => ha i (by omega), update_of_ne (ha n (by omega))]

end

end Loops

section Versions

variable {dst src : Addr} {n : BitVec 32} {m : Memory}

theorem memmove_moved (hsrc : src.toNat + n.toNat ≤ 2 ^ 64) (hdst : dst.toNat + n.toNat ≤ 2 ^ 64) :
    Moved dst src n.toNat m (memmove dst src n m).2 := by
  have hwide : n.setWidth 64 = ofNat 64 n.toNat := (BitVec.ofNat_toNat 64 n).symm
  have hinj : ∀ i j, i < j → j < n.toNat → dst + ofNat 64 i ≠ dst + ofNat 64 j :=
    fun i j hij hj => offset_ne hdst hdst (by omega) hj (by omega)
  unfold memmove
  split
  next hzero =>
    subst hzero
    exact ⟨fun i hi => absurd hi (Nat.not_lt_zero i), fun _ _ => rfl⟩
  next hpos =>
  rw [hwide]
  split
  next hover =>
    have hlt := BitVec.lt_def.mp hover.1
    exact copyDown_moved m hinj fun j i hij hj => offset_ne hsrc hdst (by omega) hj (by omega)
  next hapart =>
    rw [BitVec.lt_def, BitVec.lt_def] at hapart
    refine copyUp_moved m hinj fun j i hji hi => offset_ne hsrc hdst hi (by omega) ?_
    by_cases hlt : src.toNat < dst.toNat
    · -- the end of the source does not wrap, as that of the destination does not
      rw [offset_toNat (by omega)] at hapart
      omega
    · omega

theorem User.memmove_moved (hn : n.toNat < 2 ^ 31) (hsrc : src.toNat + n.toNat ≤ 2 ^ 64) (hdst : dst.toNat + n.toNat ≤ 2 ^ 64) :
    Moved dst src n.toNat m (User.memmove dst src n m).2 := by
  have hint : n.toInt = n.toNat := BitVec.toInt_eq_toNat_of_lt (by omega)
  have hinj : ∀ i j, i < j → j < n.toNat → dst + ofNat 64 i ≠ dst + ofNat 64 j :=
    fun i j hij hj => offset_ne hdst hdst (by omega) hj (by omega)
  have hwide : n.signExtend 64 = ofNat 64 n.toNat := by
    rw [BitVec.signExtend_eq_setWidth_of_msb_false, ← BitVec.ofNat_toNat]
    rw [BitVec.msb_eq_false_iff_two_mul_lt]
    omega
  unfold User.memmove
  rw [hint, Int.toNat_natCast, hwide]
  split
  next hlt =>
    rw [BitVec.lt_def] at hlt
    exact copyUp_moved m hinj fun j i hji hi => offset_ne hsrc hdst hi (by omega) (by omega)
  next hge =>
    rw [BitVec.lt_def] at hge
    exact copyDown_moved m hinj fun j i hij hj => offset_ne hsrc hdst (by omega) hj (by omega)

theorem Moved.unique {k : Nat} {m₁ m₂ : Memory} (h₁ : Moved dst src k m m₁) (h₂ : Moved dst src k m m₂) : m₁ = m₂ := by
  funext a
  by_cases ha : ∃ i < k, a = dst + ofNat 64 i
  · obtain ⟨i, hi, rfl⟩ := ha
    rw [h₁.copied i hi, h₂.copied i hi]
  · have hout : ∀ i < k, a ≠ dst + ofNat 64 i := fun i hi heq => ha ⟨i, hi, heq⟩
    rw [h₁.frame a hout, h₂.frame a hout]

/-- Both versions move the bytes of the source, however the two ranges overlap, and they agree. -/
theorem memmoves_agree (dst src : Addr) (n : BitVec 32) (m : Memory) (hn : n.toNat < 2 ^ 31)
    (hsrc : src.toNat + n.toNat ≤ 2 ^ 64) (hdst : dst.toNat + n.toNat ≤ 2 ^ 64) :
    Moved dst src n.toNat m (memmove dst src n m).2 ∧ Moved dst src n.toNat m (User.memmove dst src n m).2 ∧
      memmove dst src n m = User.memmove dst src n m := by
  have hkernel := memmove_moved (m := m) hsrc hdst
  have huser := User.memmove_moved (m := m) hn hsrc hdst
  refine ⟨hkernel, huser, Prod.ext ?_ (hkernel.unique huser)⟩
  unfold memmove User.memmove
  split <;> split <;> first | rfl | (split <;> rfl)

theorem memmoves_agree_overlap : Moved 4098 4096 3 (fun a => a.setWidth 8) (memmove 4098 4096 3 fun a => a.setWidth 8).2 :=
  (memmoves_agree 4098 4096 3 (fun a => a.setWidth 8) (by decide) (by decide) (by decide)).1

end Versions

end Xv6.Memmove
