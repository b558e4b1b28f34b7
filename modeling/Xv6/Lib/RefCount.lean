import Mathlib.Data.Multiset.AddSub
import Mathlib.Logic.Function.Basic

namespace RefCount

open Function List

variable {H I : Type*} [DecidableEq H] [DecidableEq I] {ref : I → Nat} {l : List (H × I)} {a b : H} {i : I} {m : Multiset I}

/-- Every item counts the references to it that the list has. -/
def Counts (ref : I → Nat) (l : List (H × I)) : Prop := ∀ i, ref i = l.countP fun x => x.2 = i

def Holds (l : List (H × I)) (a : H) (m : Multiset I) : Prop := ∀ i, l.count (a, i) = m.count i

theorem Holds.mem (h : Holds l a m) (hi : i ∈ m) : (a, i) ∈ l := by
  have hpos := Multiset.count_pos.mpr hi
  rw [← h i] at hpos
  exact count_pos_iff.mp hpos

theorem Holds.take (h : Holds l a m) (i : I) : Holds ((a, i) :: l) a (i ::ₘ m) := by
  intro j
  rw [count_cons, Multiset.count_cons, h j]
  by_cases hji : j = i
  · simp [hji]
  · simp [hji, Ne.symm hji]

theorem Holds.drop (h : Holds l a m) (i : I) : Holds (l.erase (a, i)) a (m.erase i) := by
  intro j
  by_cases hji : j = i
  · rw [hji, count_erase_self, Multiset.count_erase_self, h i]
  · rw [count_erase_of_ne fun heq => hji (congrArg Prod.snd heq), Multiset.count_erase_of_ne hji, h j]

theorem count_take (hab : a ≠ b) (l : List (H × I)) (i j : I) : ((b, i) :: l).count (a, j) = l.count (a, j) :=
  count_cons_of_ne fun heq => hab (congrArg Prod.fst heq).symm

theorem count_drop (hab : a ≠ b) (l : List (H × I)) (i j : I) : (l.erase (b, i)).count (a, j) = l.count (a, j) :=
  count_erase_of_ne fun heq => hab (congrArg Prod.fst heq)

theorem Holds.give (h : Holds l a m) (hab : a ≠ b) (i : I) : Holds ((b, i) :: l.erase (a, i)) a (m.erase i) := fun j =>
  (count_take hab _ i j).trans (h.drop i j)

theorem Holds.receive (h : Holds l a m) (hab : a ≠ b) (i : I) : Holds ((a, i) :: l.erase (b, i)) a (i ::ₘ m) :=
  Holds.take (fun j => (count_drop hab l i j).trans (h j)) i

theorem countP_erase (ha : (a, i) ∈ l) (j : I) :
    (l.countP fun x => x.2 = j) = ((l.erase (a, i)).countP fun x => x.2 = j) + if i = j then 1 else 0 := by
  rw [(perm_cons_erase ha).countP_eq, countP_cons]
  simp

omit [DecidableEq H] in
theorem Counts.pos (h : Counts ref l) (ha : (a, i) ∈ l) : 0 < ref i := by
  rw [h i]
  exact countP_pos_iff.mpr ⟨_, ha, by simp⟩

omit [DecidableEq H] in
theorem Counts.take (h : Counts ref l) (a : H) (i : I) : Counts (update ref i (ref i + 1)) ((a, i) :: l) := by
  intro j
  rw [countP_cons, ← h j]
  by_cases hji : j = i
  · simp [hji]
  · simp [hji, Ne.symm hji]

section
variable (h : Counts ref l) (ha : (a, i) ∈ l)
include h ha

theorem Counts.drop : Counts (update ref i (ref i - 1)) (l.erase (a, i)) := by
  intro j
  have hcount := countP_erase ha j
  rw [← h j] at hcount
  by_cases hji : j = i
  · subst hji
    rw [if_pos rfl] at hcount
    rw [update_self]
    omega
  · rw [if_neg (Ne.symm hji)] at hcount
    rw [update_of_ne hji]
    omega

theorem Counts.move (b : H) : Counts ref ((b, i) :: l.erase (a, i)) := by
  intro j
  rw [h j, countP_erase ha j, countP_cons]
  simp

theorem Counts.two_le (hb : (b, i) ∈ l) (hab : a ≠ b) : 2 ≤ ref i := by
  have hne : (b, i) ≠ (a, i) := fun heq => hab (congrArg Prod.fst heq).symm
  have hrest : (b, i) ∈ l.erase (a, i) := (mem_erase_of_ne hne).mpr hb
  have hpos : 0 < (l.erase (a, i)).countP fun x => x.2 = i := countP_pos_iff.mpr ⟨_, hrest, by simp⟩
  have hcount := countP_erase ha i
  rw [if_pos rfl, ← h i] at hcount
  omega

end

theorem Counts.two_le_again (h : Counts ref l) (ha : Holds l a m) (hi : i ∈ m.erase i) : 2 ≤ ref i := by
  have htwo : 2 ≤ m.count i := by
    have hpos := Multiset.count_pos.mpr hi
    rw [Multiset.count_erase_self] at hpos
    omega
  have hle : l.count (a, i) ≤ l.countP fun x => x.2 = i := countP_mono_left fun x _ hx => by
    simp only [beq_iff_eq] at hx
    simp [hx]
  rw [ha i, ← h i] at hle
  exact htwo.trans hle

end RefCount
