import Mathlib.Data.List.Chain
import Mathlib.Data.List.Nodup
import Mathlib.Logic.Function.Basic

namespace LinkedRing

open List Function

variable {κ : Type*} {next prev next' prev' : κ → κ} {head i : κ} {l nodes xs ys : List κ}

def Linked (next prev : κ → κ) (l : List κ) : Prop := l.IsChain fun a b => next a = b ∧ prev b = a

def around (head : κ) (nodes : List κ) : List κ := head :: (nodes ++ [head])

theorem Linked.congr (h : Linked next prev l) (hn : ∀ x ∈ l.dropLast, next' x = next x)
    (hp : ∀ x ∈ l.tail, prev' x = prev x) : Linked next' prev' l := by
  induction l with
  | nil => exact .nil
  | cons a l ih =>
    cases l with
    | nil => exact .singleton a
    | cons b l =>
      obtain ⟨⟨hab, hba⟩, hrest⟩ := isChain_cons_cons.mp h
      have hnext : next' a = b := (hn a (by simp)).trans hab
      have hprev : prev' b = a := (hp b (by simp)).trans hba
      refine isChain_cons_cons.mpr ⟨⟨hnext, hprev⟩, ih hrest (fun x hx => hn x ?_) fun x hx => hp x ?_⟩
      · simp [hx]
      · exact mem_cons_of_mem b hx

theorem Linked.reverse (h : Linked next prev l) : Linked prev next l.reverse :=
  isChain_reverse.mpr (h.imp fun _ _ hab => ⟨hab.2, hab.1⟩)

theorem around_reverse : (around head nodes).reverse = around head nodes.reverse := by simp [around]

theorem around_append : around head (xs ++ ys) = (head :: xs) ++ (ys ++ [head]) := by simp [around]

/-- Follow `succ` from `a` to the first node that meets `p`, not past `stop`. -/
def scan [DecidableEq κ] (succ : κ → κ) (stop : κ) (p : κ → Bool) : Nat → κ → Option κ
  | 0, _ => none
  | fuel + 1, a => if a = stop then none else if p a then some a else scan succ stop p fuel (succ a)

variable [DecidableEq κ] {p : κ → Bool} {fuel : Nat}

theorem scan_from {a : κ} (h : Linked next prev (a :: (nodes ++ [head]))) (hd : head ∉ nodes)
    (hf : nodes.length < fuel) : scan next head p fuel (next a) = nodes.find? p := by
  induction nodes generalizing a fuel with
  | nil =>
    obtain ⟨⟨hab, -⟩, -⟩ := isChain_cons_cons.mp h
    obtain ⟨fuel, rfl⟩ : ∃ k, fuel = k + 1 := ⟨fuel - 1, by omega⟩
    simp [scan, hab]
  | cons b nodes ih =>
    obtain ⟨⟨hab, -⟩, hrest⟩ := isChain_cons_cons.mp h
    obtain ⟨fuel, rfl⟩ : ∃ k, fuel = k + 1 := ⟨fuel - 1, by omega⟩
    have hb : b ≠ head := fun he => hd (by simp [he])
    rw [hab, scan, if_neg hb, find?_cons]
    have hrec := ih hrest (fun he => hd (by simp [he])) (Nat.lt_of_succ_lt_succ hf)
    by_cases hp : p b
    · simp [hp]
    · simp [hp, hrec]

section
variable (h : Linked next prev (around head nodes)) (hd : head ∉ nodes) (hf : nodes.length < fuel)
include h hd hf

theorem scan_next : scan next head p fuel (next head) = nodes.find? p :=
  scan_from h hd hf

theorem scan_prev : scan prev head p fuel (prev head) = nodes.reverse.find? p := by
  have hback := h.reverse
  rw [around_reverse] at hback
  exact scan_next hback (by simpa using hd) (by simpa using hf)

end

theorem Linked.remove (h : Linked next prev (around head (xs ++ i :: ys))) (hd : (head :: (xs ++ i :: ys)).Nodup) :
    Linked (update next (prev i) (next i)) (update prev (next i) (prev i))
      (around head (xs ++ ys)) := by
  rw [around_append] at h
  obtain ⟨hfront, hback, hjoin⟩ := isChain_append.mp h
  obtain ⟨a, xs', ha⟩ : ∃ a xs', head :: xs = xs' ++ [a] :=
    ⟨_, _, (dropLast_append_getLast (cons_ne_nil head xs)).symm⟩
  obtain ⟨b, ys', hb⟩ : ∃ b ys', ys ++ [head] = b :: ys' := by
    cases ys with
    | nil => exact ⟨head, [], rfl⟩
    | cons b ys => exact ⟨b, ys ++ [head], rfl⟩
  have hprev : prev i = a := (hjoin a (by simp [ha]) i (by simp)).2
  obtain ⟨⟨hnext, -⟩, hrest⟩ : (next i = b ∧ prev b = i) ∧ Linked next prev (ys ++ [head]) := by
    rw [cons_append, hb] at hback
    rw [hb]
    exact isChain_cons_cons.mp hback
  rw [hprev, hnext, around_append]
  have hnodup : (xs' ++ a :: i :: ys).Nodup := by
    have heq : head :: (xs ++ i :: ys) = xs' ++ a :: i :: ys := by
      rw [← cons_append, ha]
      simp
    rwa [heq] at hd
  have hnodup' : (xs ++ i :: b :: ys').Nodup := by
    have heq : (xs ++ i :: ys) ++ [head] = xs ++ i :: b :: ys' := by
      rw [← hb]
      simp
    rw [← heq]
    exact (perm_append_singleton head _).nodup_iff.mpr hd
  refine isChain_append.mpr ⟨?_, ?_, ?_⟩
  · refine Linked.congr hfront (fun x hx => update_of_ne ?_ _ _) fun x hx => update_of_ne ?_ _ _
    · rw [ha, dropLast_concat] at hx
      rintro rfl
      exact (disjoint_of_nodup_append hnodup hx) (by simp)
    · rintro rfl
      exact (disjoint_of_nodup_append hnodup' hx) (by simp)
  · refine Linked.congr hrest (fun x hx => update_of_ne ?_ _ _) fun x hx => update_of_ne ?_ _ _
    · rw [dropLast_concat] at hx
      rintro rfl
      have := (nodup_cons.mp (nodup_append.mp hnodup).2.1).1
      exact this (mem_cons_of_mem i hx)
    · rw [hb] at hx
      rintro rfl
      have := (nodup_cons.mp (nodup_append.mp hnodup').2.1).2
      exact (nodup_cons.mp this).1 hx
  · intro x hx y hy
    rw [ha] at hx
    rw [hb] at hy
    obtain rfl : a = x := by simpa using hx
    obtain rfl : b = y := by simpa using hy
    exact ⟨update_self .., update_self ..⟩

theorem Linked.pushFront (h : Linked next prev (around head nodes)) (hd : (head :: nodes).Nodup)
    (hi : i ∉ head :: nodes) :
    Linked (update (update next i (next head)) head i)
      (update (update prev i head) (next head) i) (around head (i :: nodes)) := by
  have hih : i ≠ head := fun he => hi (by simp [he])
  obtain ⟨b, rest, hb⟩ : ∃ b rest, nodes ++ [head] = b :: rest := by
    cases nodes with
    | nil => exact ⟨head, [], rfl⟩
    | cons b nodes => exact ⟨b, nodes ++ [head], rfl⟩
  have hnodup : (b :: rest).Nodup := by
    rw [← hb]
    exact (perm_append_singleton head _).nodup_iff.mpr hd
  have hmem : ∀ x, x ∈ b :: rest ↔ x ∈ head :: nodes := by
    intro x
    rw [← hb]
    simp [or_comm]
  have hib : i ≠ b := fun he => hi ((hmem i).mp (by simp [he]))
  unfold around at h ⊢
  rw [hb] at h
  rw [cons_append, hb]
  obtain ⟨⟨hab, -⟩, hrest⟩ := isChain_cons_cons.mp h
  rw [hab]
  refine isChain_cons_cons.mpr ⟨⟨update_self .., ?_⟩,
    isChain_cons_cons.mpr ⟨⟨?_, update_self ..⟩, ?_⟩⟩
  · rw [update_of_ne hib, update_self]
  · rw [update_of_ne hih, update_self]
  · refine Linked.congr hrest (fun x hx => ?_) fun x hx => ?_
    · rw [← hb, dropLast_concat] at hx
      have hxi : x ≠ i := fun he => hi (mem_cons_of_mem head (he ▸ hx))
      have hxh : x ≠ head := fun he => (nodup_cons.mp hd).1 (he ▸ hx)
      rw [update_of_ne hxh, update_of_ne hxi]
    · have hxb : x ≠ b := fun he => (nodup_cons.mp hnodup).1 (he ▸ hx)
      have hxi : x ≠ i := fun he => hi ((hmem i).mp (he ▸ mem_cons_of_mem b hx))
      rw [update_of_ne hxb, update_of_ne hxi]

end LinkedRing
