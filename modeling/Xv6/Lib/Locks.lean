import Mathlib.Logic.Function.Basic

/-!
Spinlocks and their holders. `lock` is the state of the locks as the machine has it; `held` says which locks
each holder has by its place in the code. A ledger keeps the two in agreement.
-/

namespace Locks

open Function

variable {L C : Type*} {lock : L → Option C} {held : C → List L} {c d : C} {l : L}

/-- A lock names its holder and only its holder has it. -/
def Ledger (lock : L → Option C) (held : C → List L) : Prop := ∀ c l, lock l = some c ↔ l ∈ held c

theorem Ledger.unique (h : Ledger lock held) (hc : l ∈ held c) (hd : l ∈ held d) : c = d :=
  Option.some.inj (((h c l).mpr hc).symm.trans ((h d l).mpr hd))

theorem Ledger.not_held (h : Ledger lock held) (free : lock l = none) : l ∉ held c := by
  intro hc
  have hs := (h c l).mpr hc
  rw [free] at hs
  cases hs

variable [DecidableEq C]

theorem Ledger.keep (h : Ledger lock held) {same : List L} (hs : ∀ x, x ∈ same ↔ x ∈ held c) :
    Ledger lock (update held c same) := by
  intro d x
  by_cases hd : d = c
  · subst hd
    simp [hs, h d x]
  · simp [hd, h d x]

variable [DecidableEq L]

theorem Ledger.acquire (h : Ledger lock held) (free : lock l = none) :
    Ledger (update lock l (some c)) (update held c (l :: held c)) := by
  intro d x
  by_cases hx : x = l
  · subst hx
    by_cases hd : d = c
    · simp [hd]
    · simp [hd, Ne.symm hd, h.not_held free]
  · by_cases hd : d = c
    · subst hd
      simp [hx, h d x]
    · simp [hx, hd, h d x]

theorem Ledger.release (h : Ledger lock held) (hl : l ∈ held c) {rest : List L}
    (hrest : ∀ x, x ∈ rest ↔ x ∈ held c ∧ x ≠ l) :
    Ledger (update lock l none) (update held c rest) := by
  intro d x
  by_cases hd : d = c
  · subst hd
    by_cases hx : x = l
    · simp [hx, hrest]
    · simp [hx, hrest, h d x]
  · by_cases hx : x = l
    · subst hx
      simp only [update_self, update_of_ne hd, reduceCtorEq, false_iff]
      exact fun hx => hd (h.unique hx hl)
    · simp [hd, hx, h d x]

end Locks
