import Mathlib.Data.List.Basic

namespace Transition

variable {σ ε : Type*} {step : σ → ε → Option σ} {start : σ}

/-- States reached from `start` by a list of events, the oldest event first. -/
inductive Run (step : σ → ε → Option σ) (start : σ) : List ε → σ → Prop
  | nil : Run step start [] start
  | snoc {evs s e s'} : Run step start evs s → step s e = some s' → Run step start (evs ++ [e]) s'

theorem Run.invariant {P : List ε → σ → Prop} (base : P [] start)
    (keep : ∀ {evs s e s'}, Run step start evs s → P evs s → step s e = some s' → P (evs ++ [e]) s')
    {evs : List ε} {s : σ} (h : Run step start evs s) : P evs s := by
  induction h with
  | nil => exact base
  | snoc previous hs ih => exact keep previous ih hs

/-- The executable form of a run. -/
def exec (step : σ → ε → Option σ) : σ → List ε → Option σ
  | s, [] => some s
  | s, e :: evs => (step s e).bind (exec step · evs)

theorem exec_mono {step' : σ → ε → Option σ} (h : ∀ {s e s'}, step s e = some s' → step' s e = some s') {s t : σ} {evs : List ε}
    (hexec : exec step s evs = some t) : exec step' s evs = some t := by
  induction evs generalizing s with
  | nil => exact hexec
  | cons e evs ih =>
    obtain ⟨m, hm, hrest⟩ := Option.bind_eq_some_iff.mp hexec
    exact Option.bind_eq_some_iff.mpr ⟨m, h hm, ih hrest⟩

/-- The steps of `step` that are taken only where `C` holds. -/
def guarded (step : σ → ε → Option σ) (C : σ → ε → Prop) [∀ s e, Decidable (C s e)] (s : σ) (e : ε) : Option σ :=
  if C s e then step s e else none

theorem guarded_eq_some {C : σ → ε → Prop} [∀ s e, Decidable (C s e)] {s s' : σ} {e : ε} :
    guarded step C s e = some s' ↔ C s e ∧ step s e = some s' := by
  simp [guarded]

theorem Run.append {evs later : List ε} {s t : σ} (h : Run step start evs s)
    (ht : exec step s later = some t) : Run step start (evs ++ later) t := by
  induction later generalizing evs s with
  | nil =>
    cases Option.some.inj ht
    simpa using h
  | cons e later ih =>
    obtain ⟨s', hs, hrest⟩ := Option.bind_eq_some_iff.mp ht
    have hh := ih (h.snoc hs) hrest
    simpa using hh

theorem run_of_exec {evs : List ε} {t : σ} (h : exec step start evs = some t) :
    Run step start evs t := by
  simpa using Run.append Run.nil h

theorem Run.step_at {evs : List ε} {t : σ} (h : Run step start evs t) {before after : List ε} {e : ε}
    (split : evs = before ++ e :: after) :
    ∃ s s', Run step start before s ∧ step s e = some s' := by
  induction h generalizing after with
  | nil => simp at split
  | @snoc evs s d s' previous hs ih =>
    rcases List.eq_nil_or_concat after with rfl | ⟨front, last, rfl⟩
    · obtain ⟨rfl, he⟩ := List.append_inj' split rfl
      cases List.cons.inj he |>.1
      exact ⟨s, s', previous, hs⟩
    · have hsplit : evs ++ [d] = (before ++ e :: front) ++ [last] := by simpa using split
      obtain ⟨hevs, _⟩ := List.append_inj' hsplit rfl
      exact ih hevs

/-- States reached from `start` by the steps of a relation. -/
inductive Path (step : σ → ε → σ → Prop) (start : σ) : List ε → σ → Prop
  | nil : Path step start [] start
  | snoc {evs s e s'} : Path step start evs s → step s e s' → Path step start (evs ++ [e]) s'

theorem Path.invariant {step : σ → ε → σ → Prop} {P : σ → Prop} (base : P start)
    (keep : ∀ {s e s'}, P s → step s e s' → P s') {evs : List ε} {s : σ} (h : Path step start evs s) : P s := by
  induction h with
  | nil => exact base
  | snoc _ hs ih => exact keep ih hs

end Transition
