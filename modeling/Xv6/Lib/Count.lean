import Mathlib.Algebra.BigOperators.Pi
import Mathlib.Algebra.BigOperators.Ring.Finset
import Mathlib.Algebra.Group.Pi.Lemmas
import Mathlib.Combinatorics.Enumerative.DoubleCounting

namespace Count

open Finset

variable {ι κ : Type} [DecidableEq κ] {S : Finset ι}

abbrev one (x : κ) : κ → ℤ := Pi.single x 1

theorem one_apply (x y : κ) : one x y = if y = x then 1 else 0 := Pi.single_apply x 1 y

def mark (o : Option κ) : κ → ℤ := fun x => if o = some x then 1 else 0

def holders (S : Finset ι) (h : ι → Option κ) (x : κ) : ℤ := ((S.filter fun i => h i = some x).card : ℤ)

@[simp]
theorem mark_none : mark (none : Option κ) = 0 := by
  funext x
  simp [mark]

@[simp]
theorem mark_some (x : κ) : mark (some x) = one x := by
  funext y
  by_cases hy : y = x
  · subst hy
    simp [mark]
  · simp [mark, hy, Ne.symm hy]

theorem mark_nonneg (o : Option κ) (x : κ) : 0 ≤ mark o x := by
  unfold mark
  split <;> decide

theorem holders_eq_sum (S : Finset ι) (h : ι → Option κ) (x : κ) : holders S h x = ∑ i ∈ S, mark (h i) x := by
  simp [holders, mark]

theorem holders_nonneg (S : Finset ι) (h : ι → Option κ) (x : κ) : 0 ≤ holders S h x := Int.natCast_nonneg _

section
variable {S : Finset ι} {h : ι → Option κ} {x : κ}

theorem holders_pos {i : ι} (hi : i ∈ S) (hx : h i = some x) : 1 ≤ holders S h x := by
  have hcard : 0 < (S.filter fun j => h j = some x).card :=
    card_pos.mpr ⟨i, mem_filter.mpr ⟨hi, hx⟩⟩
  unfold holders
  omega

theorem exists_of_holders_pos (hpos : 0 < holders S h x) : ∃ i ∈ S, h i = some x := by
  have hcard : 0 < (S.filter fun j => h j = some x).card := by
    unfold holders at hpos
    omega
  obtain ⟨i, hi⟩ := card_pos.mp hcard
  exact ⟨i, mem_filter.mp hi⟩

theorem holders_eq_of_le_one {i j : ι} (hle : holders S h x ≤ 1)
    (hi : i ∈ S) (hj : j ∈ S) (hxi : h i = some x) (hxj : h j = some x) : i = j := by
  have hcard : (S.filter fun k => h k = some x).card ≤ 1 := by
    unfold holders at hle
    omega
  exact card_le_one.mp hcard i (mem_filter.mpr ⟨hi, hxi⟩) j (mem_filter.mpr ⟨hj, hxj⟩)

end

theorem holders_mono {S S' : Finset ι} (hsub : S ⊆ S') (h : ι → Option κ) (x : κ) : holders S h x ≤ holders S' h x := by
  unfold holders
  exact_mod_cast card_le_card (filter_subset_filter _ hsub)

theorem holders_congr {h h' : ι → Option κ} (hsame : ∀ i ∈ S, h' i = h i) :
    holders S h' = holders S h := by
  funext x
  simp only [holders_eq_sum]
  exact sum_congr rfl fun i hi => by rw [hsame i hi]

theorem holders_none {h : ι → Option κ} (hnone : ∀ i ∈ S, h i = none) : holders S h = 0 := by
  funext x
  rw [holders_eq_sum]
  exact sum_eq_zero fun i hi => by rw [hnone i hi, mark_none, Pi.zero_apply]

theorem holders_change [DecidableEq ι] {h g : ι → Option κ} {i : ι} (hi : i ∈ S)
    (hsame : ∀ j ∈ S, j ≠ i → g j = h j) :
    holders S g = holders S h - mark (h i) + mark (g i) := by
  funext x
  have hold := add_sum_erase S (fun j => mark (h j) x) hi
  have hnew := add_sum_erase S (fun j => mark (g j) x) hi
  have hrest : ∑ j ∈ S.erase i, mark (g j) x = ∑ j ∈ S.erase i, mark (h j) x :=
    sum_congr rfl fun j hj => by
      rw [hsame j (mem_of_mem_erase hj) (ne_of_mem_erase hj)]
  simp only [Pi.add_apply, Pi.sub_apply, holders_eq_sum]
  omega

theorem holders_union [DecidableEq ι] {S S' : Finset ι} (hdisj : Disjoint S S') (h : ι → Option κ) :
    holders (S ∪ S') h = holders S h + holders S' h := by
  funext x
  simp only [Pi.add_apply, holders_eq_sum]
  exact sum_union hdisj

theorem holders_image {ι' : Type} [DecidableEq ι'] {f : ι → ι'} (hf : Function.Injective f)
    (h : ι' → Option κ) : holders (S.image f) h = holders S fun i => h (f i) := by
  funext x
  simp only [holders_eq_sum]
  exact sum_image fun i _ j _ hij => hf hij

theorem holders_biUnion {ι' : Type} [DecidableEq ι'] {f : ι → Finset ι'}
    (hdisj : ∀ i ∈ S, ∀ j ∈ S, i ≠ j → Disjoint (f i) (f j)) (h : ι' → Option κ) :
    holders (S.biUnion f) h = ∑ i ∈ S, holders (f i) h := by
  funext x
  rw [Finset.sum_apply]
  simp only [holders_eq_sum]
  exact sum_biUnion fun i hi j hj hij => hdisj i hi j hj hij

theorem holders_list (l : List κ) : holders (range l.length) (fun i => l[i]?) = fun x => (l.count x : ℤ) := by
  induction l using List.reverseRecOn with
  | nil =>
    funext x
    simp [holders]
  | append_singleton l a ih =>
    funext x
    have hsame : ∀ i ∈ range l.length, mark ((l ++ [a])[i]?) x = mark (l[i]?) x := fun i hi => by
      rw [List.getElem?_append_left (mem_range.mp hi)]
    have hold := congrFun ih x
    rw [holders_eq_sum] at hold ⊢
    rw [List.length_append, List.length_singleton, sum_range_succ, sum_congr rfl hsame, hold]
    simp only [List.getElem?_concat_length, mark_some, one_apply, List.count_append, List.count_singleton, beq_iff_eq]
    by_cases hx : x = a
    · simp [hx]
    · simp [hx, Ne.symm hx]

theorem holders_self {S : Finset κ} {c : κ → Bool} (x : κ) :
    holders S (fun a => if c a then some a else none) x = if x ∈ S ∧ c x then 1 else 0 := by
  rw [holders_eq_sum]
  have hterm : ∀ a ∈ S, mark (if c a then some a else none) x = if a = x then (if c x then 1 else 0) else (0 : ℤ) := by
    intro a _
    by_cases hax : a = x
    · subst hax
      by_cases hc : c a <;> simp [hc]
    · by_cases hc : c a <;> simp [hc, hax, Ne.symm hax]
  rw [sum_congr rfl hterm, sum_ite_eq']
  by_cases hx : x ∈ S <;> simp [hx]

@[irreducible]
def grid (n m : Nat) : Finset (Nat × Nat) := range n ×ˢ range m

theorem mem_grid {n m i j : Nat} : (i, j) ∈ grid n m ↔ i < n ∧ j < m := by
  simp [grid]

/-- If the slots are all in use, for objects of `P` and for no object twice, there are at most as many
slots as objects. -/
theorem card_le_of_holders {h : ι → Option κ} {P : Finset κ}
    (hfull : ∀ i ∈ S, ∃ x, x ∈ P ∧ h i = some x) (hone : ∀ x ∈ P, holders S h x ≤ 1) : S.card ≤ P.card := by
  refine card_le_card_of_forall_subsingleton (fun i x => h i = some x) hfull fun x hx => ?_
  intro i hi j hj
  exact holders_eq_of_le_one (hone x hx) hi.1 hj.1 hi.2 hj.2

end Count
