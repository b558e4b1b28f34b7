import Mathlib.Data.List.Basic
import Mathlib.Logic.Function.Iterate

namespace Linked

open List

variable {α : Type*} {next next' : α → α} {l l' : List α} {a e x y : α}

/-- The nodes of `l` are linked one to the next, and the last to `e`. A circular list ends at its first
node. -/
def Seg (next : α → α) : List α → α → Prop
  | [], _ => True
  | x :: l, e => next x = l.headD e ∧ Seg next l e

theorem headD_append : (l ++ l').headD e = l.headD (l'.headD e) := by cases l <;> rfl

theorem seg_append : Seg next (l ++ l') e ↔ Seg next l (l'.headD e) ∧ Seg next l' e := by
  induction l with
  | nil => exact ⟨fun h => ⟨trivial, h⟩, fun h => h.2⟩
  | cons x l ih => rw [cons_append, Seg, Seg, ih, headD_append, and_assoc]

theorem Seg.congr (h : Seg next l e) (hn : ∀ x ∈ l, next' x = next x) : Seg next' l e := by
  induction l with
  | nil => trivial
  | cons x l ih => exact ⟨(hn x mem_cons_self).trans h.1, ih h.2 fun y hy => hn y (mem_cons_of_mem x hy)⟩

section
variable (h : Seg next (a :: l) a) (hx : x ∈ a :: l)
include h hx

theorem Seg.next_mem : next x ∈ a :: l := by
  obtain ⟨before, after, hsplit⟩ := append_of_mem hx
  rw [hsplit] at h ⊢
  have hnext := (seg_append.mp h).2.1
  cases after with
  | nil =>
    rw [hnext, ← hsplit]
    exact mem_cons_self
  | cons y after =>
    rw [hnext]
    simp

theorem Seg.split_next (hne : next x ≠ a) : ∃ before after, a :: l = before ++ x :: next x :: after := by
  obtain ⟨before, after, hsplit⟩ := append_of_mem hx
  rw [hsplit] at h
  have hnext := (seg_append.mp h).2.1
  cases after with
  | nil => exact absurd hnext hne
  | cons y after => exact ⟨before, after, by rw [hsplit, show next x = y from hnext]⟩

theorem Seg.around :
    ∃ way, Seg next (way ++ [x]) (next x) ∧ next x = (way ++ [x]).headD x ∧ (∀ y, y ∈ a :: l ↔ y ∈ way ++ [x]) ∧
      ((a :: l).Nodup → x ∉ way) := by
  obtain ⟨before, after, hsplit⟩ := append_of_mem hx
  rw [hsplit] at h
  obtain ⟨hbefore, hnext, hafter⟩ := seg_append.mp h
  have hfirst : ∀ e, (before ++ [x]).headD e = a := by
    intro e
    cases before with
    | nil => exact (cons.inj hsplit).1.symm
    | cons y before => exact (cons.inj hsplit).1.symm
  refine ⟨after ++ before, ?_, ?_, fun y => ?_, fun hnodup => ?_⟩
  · rw [append_assoc, seg_append, hfirst, seg_append]
    exact ⟨hafter, hbefore, rfl, trivial⟩
  · rw [append_assoc, headD_append, hfirst]
    exact hnext
  · rw [hsplit]
    simp only [mem_append, mem_cons, not_mem_nil, or_false]
    tauto
  · rw [hsplit, nodup_append, nodup_cons] at hnodup
    rw [mem_append, not_or]
    exact ⟨hnodup.2.1.1, fun hmem => hnodup.2.2 x hmem x mem_cons_self rfl⟩

end

end Linked
