import Mathlib.Algebra.Group.Basic

namespace Prog

variable {ε σ τ α β : Type} {n : StateT σ (Except ε) α} {c : Prop} {e : ε} {a : α}

/-- Weakest precondition of a stateful computation that may fail: `Q` of the result and the final
state, or `E` of the failure. -/
structure wp (m : StateT σ (Except ε) α) (Q : α → σ → Prop) (E : ε → Prop) (s : σ) : Prop where
  run : match m s with
    | .ok (a, t) => Q a t
    | .error e => E e

section Rules

variable {m : StateT σ (Except ε) α} {f : α → StateT σ (Except ε) β} {Q : α → σ → Prop}
  {R : β → σ → Prop} {E : ε → Prop} {s : σ}

@[simp]
theorem wp_pure : wp (pure a) Q E s ↔ Q a s := ⟨fun h => h.run, fun h => ⟨h⟩⟩

@[simp]
theorem wp_bind : wp (m >>= f) R E s ↔ wp m (fun a t => wp (f a) R E t) E s := by
  have hbind : (m >>= f) s = match m s with
      | .ok (a, t) => f a t
      | .error e => .error e := by
    show StateT.bind m f s = _
    unfold StateT.bind
    cases m s <;> rfl
  constructor
  · rintro ⟨h⟩
    rw [hbind] at h
    refine ⟨?_⟩
    cases hm : m s with
    | error e => simpa [hm] using h
    | ok r => exact ⟨by simpa [hm] using h⟩
  · rintro ⟨h⟩
    refine ⟨?_⟩
    rw [hbind]
    cases hm : m s with
    | error e => simpa [hm] using h
    | ok r =>
      rw [hm] at h
      exact h.run

@[simp]
theorem wp_get {Q : σ → σ → Prop} : wp get Q E s ↔ Q s s := ⟨fun h => h.run, fun h => ⟨h⟩⟩

@[simp]
theorem wp_set {Q : PUnit → σ → Prop} {t : σ} : wp (set t) Q E s ↔ Q ⟨⟩ t := ⟨fun h => h.run, fun h => ⟨h⟩⟩

@[simp]
theorem wp_modify {Q : PUnit → σ → Prop} {g : σ → σ} : wp (modify g) Q E s ↔ Q ⟨⟩ (g s) :=
  ⟨fun h => h.run, fun h => ⟨h⟩⟩

@[simp]
theorem wp_throw : wp (throw e) Q E s ↔ E e := ⟨fun h => h.run, fun h => ⟨h⟩⟩

theorem wp_ite [Decidable c] :
    wp (if c then m else n) Q E s ↔ (c → wp m Q E s) ∧ (¬ c → wp n Q E s) := by
  by_cases hc : c <;> simp [hc]

section
variable {Q' : α → σ → Prop} {E' : ε → Prop} (h : wp m Q E s)
include h

theorem wp.mono (hQ : ∀ a t, Q a t → Q' a t) (hE : ∀ e, E e → E' e) : wp m Q' E' s := by
  obtain ⟨h⟩ := h
  refine ⟨?_⟩
  cases hm : m s with
  | error e =>
    rw [hm] at h
    exact hE e h
  | ok r =>
    rw [hm] at h
    exact hQ r.1 r.2 h

theorem wp.and (h' : wp m Q' E' s) : wp m (fun a t => Q a t ∧ Q' a t) (fun e => E e ∧ E' e) s := by
  obtain ⟨h⟩ := h
  obtain ⟨h'⟩ := h'
  refine ⟨?_⟩
  cases hm : m s with
  | error e =>
    rw [hm] at h h'
    exact ⟨h, h'⟩
  | ok r =>
    rw [hm] at h h'
    exact ⟨h, h'⟩

end

theorem wp_of_forall (hQ : ∀ a t, Q a t) (hE : ∀ e, E e) : wp m Q E s := by
  refine ⟨?_⟩
  cases m s with
  | error e => exact hE e
  | ok r => exact hQ r.1 r.2

theorem wp.of_ok {t : σ} (h : wp m Q E s) (hm : m s = .ok (a, t)) : Q a t := by
  obtain ⟨h⟩ := h
  rw [hm] at h
  exact h

theorem wp.of_error (h : wp m Q E s) (hm : m s = .error e) : E e := by
  obtain ⟨h⟩ := h
  rw [hm] at h
  exact h

theorem wp.total (h : wp m Q (fun _ => False) s) : ∃ a t, m s = .ok (a, t) ∧ Q a t := by
  cases hm : m s with
  | error e => exact (h.of_error hm).elim
  | ok r => exact ⟨r.1, r.2, rfl, h.of_ok hm⟩

theorem exists_ok (h : (m s).isOk = true) : ∃ a t, m s = .ok (a, t) := by
  cases hm : m s with
  | error e =>
    rw [hm] at h
    exact absurd h Bool.false_ne_true
  | ok r => exact ⟨r.1, r.2, rfl⟩

theorem wp.bind (h : wp m Q E s) (hf : ∀ a t, Q a t → wp (f a) R E t) : wp (m >>= f) R E s :=
  wp_bind.mpr (h.mono hf fun _ => id)

/-- A loop over a list keeps what each round keeps, whatever rounds came before. -/
theorem wp_bind_of_ok {t : σ} (h : m s = .ok (a, t)) : wp (m >>= f) R E s ↔ wp (f a) R E t := by
  rw [wp_bind]
  refine ⟨fun hw => hw.of_ok h, fun hw => ⟨?_⟩⟩
  rw [h]
  exact hw

theorem wp.not_bind (h : wp m (fun _ _ => False) (fun _ => True) s) : ¬ wp (m >>= f) R (fun _ => False) s := by
  intro hw
  obtain ⟨a, t, hrun, -⟩ := (wp_bind.mp hw).total
  exact h.of_ok hrun

theorem wp_forM {I : σ → Prop} {xs : List α} {g : α → StateT σ (Except ε) PUnit}
    (h : ∀ x ∈ xs, ∀ t, I t → wp (g x) (fun _ => I) E t) (hs : I s) :
    wp (xs.forM g) (fun _ => I) E s := by
  induction xs generalizing s with
  | nil => exact wp_pure.mpr hs
  | cons x xs ih =>
    show wp (g x >>= fun _ => xs.forM g) _ E s
    exact (h x List.mem_cons_self s hs).bind fun _ t ht => ih (fun y hy => h y (List.mem_cons_of_mem x hy)) ht

/-- A loop over `0, ..., n - 1`, with an invariant for each number of rounds done. -/
theorem wp_forM_range {I : Nat → σ → Prop} {n : Nat} {g : Nat → StateT σ (Except ε) PUnit} (h0 : I 0 s)
    (hstep : ∀ i < n, ∀ t, I i t → wp (g i) (fun _ => I (i + 1)) E t) :
    wp ((List.range n).forM g) (fun _ => I n) E s := by
  have hfrom : ∀ k i t, i + k = n → I i t → wp ((List.range' i k).forM g) (fun _ => I n) E t := by
    intro k
    induction k with
    | zero =>
      rintro i t rfl ht
      exact wp_pure.mpr ht
    | succ k ih =>
      intro i t hn ht
      show wp (g i >>= fun _ => (List.range' (i + 1) k).forM g) _ E t
      exact (hstep i (by omega) t ht).bind fun _ u hu => ih (i + 1) u (by omega) hu
  rw [List.range_eq_range']
  exact hfrom n 0 s (by omega) h0

end Rules

section Preserves

def Preserves (I : σ → Prop) (E : ε → Prop) (m : StateT σ (Except ε) α) : Prop := ∀ s, I s → wp m (fun _ => I) E s

variable {I : σ → Prop} {E : ε → Prop} {m : StateT σ (Except ε) α}

theorem Preserves.pure (a : α) : Preserves I E (pure a) := fun _ hs => wp_pure.mpr hs

theorem Preserves.bind {f : α → StateT σ (Except ε) β} (hm : Preserves I E m) (hf : ∀ a, Preserves I E (f a)) :
    Preserves I E (m >>= f) := fun s hs => (hm s hs).bind fun a t ht => hf a t ht

theorem Preserves.throw (h : E e) : Preserves I E (throw e : StateT σ (Except ε) α) := fun _ _ => wp_throw.mpr h

theorem Preserves.throw_bind {f : α → StateT σ (Except ε) β} (h : E e) : Preserves I E (MonadExcept.throw e >>= f) :=
  fun _ _ => wp_bind.mpr (wp_throw.mpr h)

theorem Preserves.ite [Decidable c] (hm : Preserves I E m)
    (hn : Preserves I E n) : Preserves I E (if c then m else n) := by
  split
  · exact hm
  · exact hn

theorem Preserves.ite_of [Decidable c] (hm : c → Preserves I E m)
    (hn : ¬ c → Preserves I E n) : Preserves I E (if c then m else n) := by
  split
  next hc => exact hm hc
  next hc => exact hn hc

theorem Preserves.get {f : σ → StateT σ (Except ε) β} (hf : ∀ s, Preserves I E (f s)) :
    Preserves I E (MonadState.get >>= f) := fun s hs => wp_bind.mpr (wp_get.mpr (hf s s hs))

theorem Preserves.forM {xs : List α} {g : α → StateT σ (Except ε) PUnit} (h : ∀ x ∈ xs, Preserves I E (g x)) :
    Preserves I E (xs.forM g) := fun _ hs => wp_forM (fun x hx t ht => h x hx t ht) hs

end Preserves

section Balance

variable {V : Type} [AddCommGroup V] (obs : σ → V) (E : ε → Prop)

/-- A ledger: if `obs` is ahead of some base by `d` before `m`, then it is ahead of the same base by
`f a` when `m` returns `a`. -/
def Balance (d : V) (m : StateT σ (Except ε) α) (f : α → V) : Prop :=
  ∀ base s, obs s = base + d → wp m (fun a t => obs t = base + f a) E s

variable {obs E} {d : V} {m : StateT σ (Except ε) α} {f : α → V}

theorem Balance.pure (h : d = f a) : Balance obs E d (pure a) f := by
  intro base s hs
  rw [wp_pure, hs, h]

theorem Balance.bind {g : α → StateT σ (Except ε) β} {h : β → V} (hm : Balance obs E d m f)
    (hg : ∀ a, Balance obs E (f a) (g a) h) : Balance obs E d (m >>= g) h :=
  fun base s hs => (hm base s hs).bind fun a t ht => hg a base t ht

theorem Balance.throw (h : E e) : Balance obs E d (throw e) f := fun _ _ _ => wp_throw.mpr h

theorem Balance.ite [Decidable c] (hm : Balance obs E d m f)
    (hn : Balance obs E d n f) : Balance obs E d (if c then m else n) f := by
  split
  · exact hm
  · exact hn

theorem Balance.of_same (h : ∀ s, wp m (fun _ t => obs t = obs s) E s) : Balance obs E d m fun _ => d := by
  intro base s hs
  exact (h s).mono (fun a t ht => ht.trans hs) fun _ => id

end Balance

end Prog
