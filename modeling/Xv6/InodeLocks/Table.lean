import Mathlib.Data.Finset.Card
import Xv6.Disk
import Xv6.InodeLocks.Acyclic

/-!
The table behind the counts. An inode that is referred to has one of the `NINODE` entries; `iget` panics when it
needs an entry and none is free.
-/

namespace Xv6.InodeLocks

open List Option Function
open Fs (ninode)

structure Entry where
  inum : Nat
  ref : Nat

abbrev Table := Nat → Entry

def Table.find (t : Table) (i : Nat) : Option Nat := (range ninode).find? fun k => 0 < (t k).ref ∧ (t k).inum = i

/-- `iget`; `none` is the panic. -/
def Table.iget (t : Table) (i : Nat) : Option Table :=
  match t.find i with
  | some k => some (update t k ⟨i, (t k).ref + 1⟩)
  | none =>
    match (range ninode).find? fun k => (t k).ref = 0 with
    | none => none
    | some k => some (update t k ⟨i, 1⟩)

/-- `ip->ref--` -/
def Table.deref (t : Table) (i : Nat) : Table :=
  match t.find i with
  | some k => update t k ⟨i, (t k).ref - 1⟩
  | none => t

structure Agrees (t : Table) (ref : Nat → Nat) : Prop where
  counted : ∀ k < ninode, 0 < (t k).ref → (t k).ref = ref (t k).inum
  found : ∀ i, 0 < ref i → ∃ k < ninode, 0 < (t k).ref ∧ (t k).inum = i
  once : ∀ k < ninode, ∀ l < ninode, 0 < (t k).ref → 0 < (t l).ref → (t k).inum = (t l).inum → k = l

section Table

variable {t u : Table} {ref : Nat → Nat} {i k : Nat}

theorem find_some (h : t.find i = some k) : k < ninode ∧ 0 < (t k).ref ∧ (t k).inum = i := by
  have hprop := find?_some h
  exact ⟨mem_range.mp (mem_of_find?_eq_some h), of_decide_eq_true hprop⟩

section
variable (h : Agrees t ref)
include h

theorem Agrees.find_none : t.find i = none ↔ ref i = 0 := by
  constructor
  · intro hnone
    by_contra hpos
    obtain ⟨k, hk, hkpos, hki⟩ := h.found i (Nat.pos_of_ne_zero hpos)
    have hmiss := find?_eq_none.mp hnone k (mem_range.mpr hk)
    exact hmiss (decide_eq_true ⟨hkpos, hki⟩)
  · intro hzero
    refine find?_eq_none.mpr fun k hk hhit => ?_
    obtain ⟨hpos, hki⟩ := of_decide_eq_true hhit
    have := h.counted k (mem_range.mp hk) hpos
    rw [hki, hzero] at this
    omega

theorem Agrees.set (hk : k < ninode) (hentry : 0 < (t k).ref ∧ (t k).inum = i ∨ (t k).ref = 0 ∧ ref i = 0) (n : Nat) :
    Agrees (update t k ⟨i, n⟩) (update ref i n) := by
  have hother : ∀ l < ninode, l ≠ k → 0 < (t l).ref → (t l).inum ≠ i := by
    intro l hl hlk hpos hli
    rcases hentry with ⟨hkpos, hki⟩ | ⟨-, hzero⟩
    · exact hlk (h.once l hl k hk hpos hkpos (hli.trans hki.symm))
    · have := h.counted l hl hpos
      rw [hli, hzero] at this
      omega
  have hself : update t k ⟨i, n⟩ k = ⟨i, n⟩ := update_self _ _ _
  have hne : ∀ l, l ≠ k → update t k ⟨i, n⟩ l = t l := fun l hl => update_of_ne hl _ _
  refine ⟨fun l hl hpos => ?_, fun j hj => ?_, fun l hl m hm hlpos hmpos heq => ?_⟩
  · by_cases hlk : l = k
    · rw [hlk, hself]
      exact (update_self i n ref).symm
    · rw [hne l hlk] at hpos ⊢
      rw [update_of_ne (hother l hl hlk hpos)]
      exact h.counted l hl hpos
  · by_cases hji : j = i
    · rw [hji, update_self] at hj
      exact ⟨k, hk, by rw [hself]; exact hj, by rw [hself]; exact hji.symm⟩
    · rw [update_of_ne hji] at hj
      obtain ⟨l, hl, hpos, hlj⟩ := h.found j hj
      have hlk : l ≠ k := by
        rintro rfl
        rcases hentry with ⟨-, hki⟩ | ⟨hzero, -⟩
        · exact hji (hlj.symm.trans hki)
        · omega
      exact ⟨l, hl, by rw [hne l hlk]; exact hpos, by rw [hne l hlk]; exact hlj⟩
  · by_cases hlk : l = k
    · by_cases hmk : m = k
      · rw [hlk, hmk]
      · rw [hlk, hself, hne m hmk] at heq
        rw [hne m hmk] at hmpos
        exact absurd heq.symm (hother m hm hmk hmpos)
    · rw [hne l hlk] at hlpos heq
      by_cases hmk : m = k
      · rw [hmk, hself] at heq
        exact absurd heq (hother l hl hlk hlpos)
      · rw [hne m hmk] at hmpos heq
        exact h.once l hl m hm hlpos hmpos heq

theorem Agrees.iget (hu : t.iget i = some u) : Agrees u (update ref i (ref i + 1)) := by
  unfold Table.iget at hu
  split at hu
  next k hk =>
    cases some.inj hu
    obtain ⟨hlt, hpos, hki⟩ := find_some hk
    have hcount := h.counted k hlt hpos
    rw [hki] at hcount
    rw [← hcount]
    exact h.set hlt (.inl ⟨hpos, hki⟩) _
  next hnone =>
    have hzero := h.find_none.mp hnone
    split at hu
    next => cases hu
    next k hk =>
      cases some.inj hu
      have hfree := find?_some hk
      rw [hzero]
      exact h.set (mem_range.mp (mem_of_find?_eq_some hk)) (.inr ⟨of_decide_eq_true hfree, hzero⟩) _

theorem Agrees.deref (hpos : 0 < ref i) : Agrees (t.deref i) (update ref i (ref i - 1)) := by
  unfold Table.deref
  split
  next k hk =>
    obtain ⟨hlt, hkpos, hki⟩ := find_some hk
    have hcount := h.counted k hlt hkpos
    rw [hki] at hcount
    rw [← hcount]
    exact h.set hlt (.inl ⟨hkpos, hki⟩) _
  next hnone =>
    have := h.find_none.mp hnone
    omega

theorem Agrees.iget_none : t.iget i = none ↔ ref i = 0 ∧ ∀ k < ninode, 0 < (t k).ref := by
  unfold Table.iget
  split
  next k hk =>
    refine ⟨nofun, fun ⟨hzero, _⟩ => ?_⟩
    rw [h.find_none.mpr hzero] at hk
    cases hk
  next hnone =>
    have hzero := h.find_none.mp hnone
    split
    next hfull =>
      refine ⟨fun _ => ⟨hzero, fun k hk => ?_⟩, fun _ => rfl⟩
      have hused := find?_eq_none.mp hfull k (mem_range.mpr hk)
      exact Nat.pos_of_ne_zero fun heq => hused (decide_eq_true heq)
    next k hk =>
      refine ⟨nofun, fun ⟨_, hused⟩ => ?_⟩
      have := hused k (mem_range.mp (mem_of_find?_eq_some hk))
      have hfree := find?_some hk
      have := of_decide_eq_true hfree
      omega

theorem Agrees.full_le (hfull : ∀ k < ninode, 0 < (t k).ref) {S : Finset Nat} (hS : ∀ i, 0 < ref i → i ∈ S) :
    ninode ≤ S.card := by
  have hmaps : ∀ k ∈ Finset.range ninode, (t k).inum ∈ S := by
    intro k hk
    have hlt := Finset.mem_range.mp hk
    exact hS _ (h.counted k hlt (hfull k hlt) ▸ hfull k hlt)
  have hinj : Set.InjOn (fun k => (t k).inum) (Finset.range ninode) := by
    intro k hk l hl heq
    have hk := Finset.mem_range.mp (Finset.mem_coe.mp hk)
    have hl := Finset.mem_range.mp (Finset.mem_coe.mp hl)
    exact h.once k hk l hl (hfull k hk) (hfull l hl) heq
  have hcard := Finset.card_le_card_of_injOn _ hmaps hinj
  rwa [Finset.card_range] at hcard

end

end Table

section Machine

variable {P F : Type} [DecidableEq P] [DecidableEq F]

/-- What the step of an event does to the table. -/
def Table.after (t : Table) (s : State P F) : Ev P F → Option Table
  | .step p _ _ _ =>
    match s.code p with
    | .iget i _ => t.iget i
    | .deref i _ => some (t.deref i)
    | _ => some t
  | _ => some t

inductive Kernel (P F : Type)
  | running (s : State P F) (itable : Table)
  /-- `panic("iget: no inodes")` -/
  | noInodes

def Kernel.step : Kernel P F → Ev P F → Option (Kernel P F)
  | .noInodes, _ => none
  | .running s t, e => (InodeLocks.step s e).map fun s' =>
    match t.after s e with
    | some u => .running s' u
    | none => .noInodes

variable {s s' : State P F} {t u : Table} {e : Ev P F} {p : P} {i : Nat}

theorem call_ref {cwd : Nat} {c : Call F} (h : s.call p cwd c = some s') : s'.ref = s.ref := by
  cases c with
  | access f | close f =>
    simp only [State.call] at h
    repeat' split at h
    all_goals cases h <;> rfl
  | _ => cases some.inj h; rfl

theorem act_ref {b : Bool} {inum : Option Nat} {f : F} (hget : ∀ i k, s.code p ≠ .iget i k) (hput : ∀ i k, s.code p ≠ .deref i k)
    (h : s.act p b inum f (s.code p) = some s') : s'.ref = s.ref := by
  generalize s.code p = code at hget hput h
  cases code with
  | iget i k => exact absurd rfl (hget i k)
  | deref i k => exact absurd rfl (hput i k)
  | done cwd => cases h
  | panic => cases h
  | acquire i k | install i k | load i k | last i k | ialloc type k =>
    simp only [State.act] at h
    repeat' split at h
    all_goals cases h <;> rfl
  | read i k | write i g k | release i k | choose k => cases some.inj h; rfl

theorem Agrees.step (h : Agrees t s.ref) (hs : Inv s) (hstep : step s e = some s') (hu : t.after s e = some u) : Agrees u s'.ref := by
  cases e with
  | call p c =>
    cases some.inj hu
    simp only [InodeLocks.step] at hstep
    split at hstep
    next => exact call_ref hstep ▸ h
    next => cases hstep
  | dup p q f =>
    cases some.inj hu
    simp only [InodeLocks.step] at hstep
    split at hstep
    next => cases some.inj hstep; exact h
    next => cases hstep
  | step p b inum f =>
    simp only [Table.after] at hu
    split at hu
    next i k hc =>
      simp only [InodeLocks.step, hc] at hstep
      cases some.inj hstep
      exact h.iget hu
    next i k hc =>
      cases some.inj hu
      simp only [InodeLocks.step, hc] at hstep
      cases some.inj hstep
      obtain ⟨L, hL⟩ := hs.locals p
      have hok := hL.ok
      rw [hc] at hok
      exact h.deref (hs.counts.pos (hL.mem_held hok.1))
    next hget hput =>
      cases some.inj hu
      exact act_ref hget hput hstep ▸ h

end Machine

end Xv6.InodeLocks
