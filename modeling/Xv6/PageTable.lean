import Mathlib.Tactic.Abel
import Xv6.Lib.Count
import Xv6.Memory

namespace Xv6.Vm

open Fs (put put_same put_ne)
open Count Option Finset

/-- The meaning of a three-level page table: the pages of its nodes, by the part of the page number
that leads to them, and the leaf entry of each virtual page. -/
structure Table where
  root : Nat
  mid : Nat → Option Nat
  low : Nat → Option Nat
  leaf : Nat → Pte

def interior : Option Nat → Pte
  | none => .zero
  | some c => pa2pte c pteV

structure Repr (heap : Nat → Nat → Pte) (T : Table) : Prop where
  top : ∀ i < 512, heap T.root i = interior (T.mid i)
  mid : ∀ q < 512 * 512, ∀ c, T.mid (q / 512) = some c → heap c (q % 512) = interior (T.low q)
  low : ∀ n < 512 * 512 * 512, ∀ c, T.low (n / 512) = some c → heap c (n % 512) = T.leaf n
  down : ∀ q, T.mid (q / 512) = none → T.low q = none
  void : ∀ n, T.low (n / 512) = none → T.leaf n = .zero
  alignedMid : ∀ i c, T.mid i = some c → c % pgsize = 0
  alignedLow : ∀ q c, T.low q = some c → c % pgsize = 0

/-- Virtual pages below `TRAPFRAME`. -/
def userTop : Nat := trapframe / pgsize

def Table.leafPage (T : Table) (n : Nat) : Option Nat := if (T.leaf n).has pteV then some (T.leaf n).pa else none

def Table.nodes (T : Table) : Nat → ℤ :=
  mark (some T.root) + holders (range 512) T.mid + holders (range (512 * 512)) T.low

/-- The pages the table owns: its nodes and the user pages it maps. -/
def Table.pages (T : Table) : Nat → ℤ := T.nodes + holders (range userTop) T.leafPage

theorem userTop_eq : userTop = 2 ^ 26 - 2 := by decide

theorem pa_pa2pte {c : Nat} (h : c % pgsize = 0) (flags : BitVec 10) : (pa2pte c flags).pa = c := by
  show c / pgsize * pgsize = c
  exact Nat.div_mul_cancel (Nat.dvd_of_mod_eq_zero h)

theorem zero_not_valid : Pte.zero.has pteV = false := by decide

theorem interior_valid (o : Option Nat) : (interior o).has pteV = o.isSome := by
  cases o with
  | none => decide
  | some c =>
    show decide (pteV &&& pteV ≠ 0) = true
    decide

section Nodes

variable {T : Table}

theorem Table.nodes_nonneg (T : Table) (x : Nat) : 0 ≤ T.nodes x := by
  have h1 := mark_nonneg (some T.root) x
  have h2 := holders_nonneg (range 512) T.mid x
  have h3 := holders_nonneg (range (512 * 512)) T.low x
  simp only [Table.nodes, Pi.add_apply]
  omega

theorem Table.pages_nonneg (T : Table) (x : Nat) : 0 ≤ T.pages x :=
  add_nonneg (T.nodes_nonneg x) (holders_nonneg _ _ x)

theorem Table.nodes_le_pages (T : Table) (x : Nat) : T.nodes x ≤ T.pages x :=
  le_add_of_nonneg_right (holders_nonneg _ _ x)

theorem Table.nodes_root (T : Table) : 1 ≤ T.nodes T.root := by
  have h2 := holders_nonneg (range 512) T.mid T.root
  have h3 := holders_nonneg (range (512 * 512)) T.low T.root
  simp only [Table.nodes, Pi.add_apply, mark_some, Pi.single_eq_same]
  omega

theorem Table.nodes_mid {i c : Nat} (hi : i < 512) (hc : T.mid i = some c) : 1 ≤ T.nodes c := by
  have h1 := mark_nonneg (some T.root) c
  have h2 := holders_pos (mem_range.mpr hi) hc
  have h3 := holders_nonneg (range (512 * 512)) T.low c
  simp only [Table.nodes, Pi.add_apply]
  omega

theorem Table.nodes_low {q c : Nat} (hq : q < 512 * 512) (hc : T.low q = some c) : 1 ≤ T.nodes c := by
  have h1 := mark_nonneg (some T.root) c
  have h2 := holders_nonneg (range 512) T.mid c
  have h3 := holders_pos (mem_range.mpr hq) hc
  simp only [Table.nodes, Pi.add_apply]
  omega

variable (hone : ∀ x, T.nodes x ≤ 1)

include hone

theorem Table.mid_ne_root {i c : Nat} (hi : i < 512) (hc : T.mid i = some c) : c ≠ T.root := by
  rintro rfl
  have h := hone T.root
  have h2 := holders_pos (mem_range.mpr hi) hc
  have h3 := holders_nonneg (range (512 * 512)) T.low T.root
  simp only [Table.nodes, Pi.add_apply, mark_some, Pi.single_eq_same] at h
  omega

theorem Table.low_ne_root {q c : Nat} (hq : q < 512 * 512) (hc : T.low q = some c) : c ≠ T.root := by
  rintro rfl
  have h := hone T.root
  have h2 := holders_nonneg (range 512) T.mid T.root
  have h3 := holders_pos (mem_range.mpr hq) hc
  simp only [Table.nodes, Pi.add_apply, mark_some, Pi.single_eq_same] at h
  omega

theorem Table.mid_ne_low {i q c d : Nat} (hi : i < 512) (hq : q < 512 * 512) (hc : T.mid i = some c)
    (hd : T.low q = some d) : c ≠ d := by
  rintro rfl
  have h := hone c
  have h1 := mark_nonneg (some T.root) c
  have h2 := holders_pos (mem_range.mpr hi) hc
  have h3 := holders_pos (mem_range.mpr hq) hd
  simp only [Table.nodes, Pi.add_apply] at h
  omega

theorem Table.mid_inj {i j c : Nat} (hi : i < 512) (hj : j < 512) (hc : T.mid i = some c) (hd : T.mid j = some c) :
    i = j := by
  have h := hone c
  have h1 := mark_nonneg (some T.root) c
  have h3 := holders_nonneg (range (512 * 512)) T.low c
  simp only [Table.nodes, Pi.add_apply] at h
  exact holders_eq_of_le_one (by omega) (mem_range.mpr hi) (mem_range.mpr hj) hc hd

theorem Table.low_inj {q r c : Nat} (hq : q < 512 * 512) (hr : r < 512 * 512) (hc : T.low q = some c)
    (hd : T.low r = some c) : q = r := by
  have h := hone c
  have h1 := mark_nonneg (some T.root) c
  have h2 := holders_nonneg (range 512) T.mid c
  simp only [Table.nodes, Pi.add_apply] at h
  exact holders_eq_of_le_one (by omega) (mem_range.mpr hq) (mem_range.mpr hr) hc hd

end Nodes

section Update

variable {heap : Nat → Nat → Pte} {T : Table} {heap' : Nat → Nat → Pte}

theorem Repr.frame (h : Repr heap T) (hsame : ∀ x, 1 ≤ T.nodes x → heap' x = heap x) :
    Repr heap' T where
  top i hi := by rw [hsame _ T.nodes_root, h.top i hi]
  mid q hq c hc := by
    rw [hsame c (T.nodes_mid (Nat.div_lt_of_lt_mul hq) hc), h.mid q hq c hc]
  low n hn c hc := by
    rw [hsame c (T.nodes_low (Nat.div_lt_of_lt_mul (by omega)) hc), h.low n hn c hc]
  down := h.down
  void := h.void
  alignedMid := h.alignedMid
  alignedLow := h.alignedLow

def Table.setLeaf (T : Table) (n : Nat) (e : Pte) : Table := { T with leaf := put T.leaf n e }

def Table.setMid (T : Table) (i : Nat) (o : Option Nat) : Table := { T with mid := put T.mid i o }

def Table.setLow (T : Table) (q : Nat) (o : Option Nat) : Table := { T with low := put T.low q o }

def store (heap : Nat → Nat → Pte) (page i : Nat) (e : Pte) : Nat → Nat → Pte := put heap page (put (heap page) i e)

theorem store_ne {page i x : Nat} {e : Pte} (h : x ≠ page) : store heap page i e x = heap x := put_ne _ _ _ h

theorem store_same {page i : Nat} {e : Pte} : store heap page i e page i = e := by
  simp [store]

theorem store_index_ne {page i j : Nat} {e : Pte} (h : j ≠ i) : store heap page i e page j = heap page j := by
  simp [store, put_ne _ _ _ h]

theorem store_of_ne {page i x j : Nat} {e : Pte} (h : x = page → j ≠ i) : store heap page i e x j = heap x j := by
  by_cases hx : x = page
  · rw [hx, store_index_ne (h hx)]
  · rw [store_ne hx]

variable (h : Repr heap T) (hone : ∀ x, T.nodes x ≤ 1)

include h hone

theorem Repr.setLeaf {n c : Nat} {e : Pte} (hn : n < 512 * 512 * 512) (hc : T.low (n / 512) = some c) :
    Repr (store heap c (n % 512) e) (T.setLeaf n e) where
  top i hi := by
    show store heap c (n % 512) e T.root i = interior (T.mid i)
    rw [store_ne (T.low_ne_root hone (Nat.div_lt_of_lt_mul (by omega)) hc).symm, h.top i hi]
  mid q hq c' hc' := by
    have hne : c' ≠ c := T.mid_ne_low hone (Nat.div_lt_of_lt_mul hq) (Nat.div_lt_of_lt_mul (by omega)) hc' hc
    rw [store_ne hne]
    exact h.mid q hq c' hc'
  low m hm c' hc' := by
    show store heap c (n % 512) e c' (m % 512) = put T.leaf n e m
    by_cases hcc : c' = c
    · subst hcc
      have hmn : m / 512 = n / 512 :=
        T.low_inj hone (Nat.div_lt_of_lt_mul (by omega)) (Nat.div_lt_of_lt_mul (by omega)) hc' hc
      by_cases hmod : m % 512 = n % 512
      · obtain rfl : m = n := by omega
        rw [store_same, put_same]
      · have hne : m ≠ n := by
          rintro rfl
          exact hmod rfl
        rw [store_index_ne hmod, put_ne _ _ _ hne, h.low m hm c' hc']
    · have hne : m ≠ n := by
        rintro rfl
        exact hcc (some.inj (hc'.symm.trans hc))
      rw [store_ne hcc, put_ne _ _ _ hne, h.low m hm c' hc']
  down := h.down
  void m hm := by
    have hne : m ≠ n := by
      rintro rfl
      simp [Table.setLeaf, hc] at hm
    exact (put_ne _ _ _ hne).trans (h.void m hm)
  alignedMid := h.alignedMid
  alignedLow := h.alignedLow

theorem Repr.linkMid {i : Nat} {o : Option Nat} (hvoid : ∀ q, q / 512 = i → T.low q = none)
    (hset : heap' T.root i = interior o) (hnew : ∀ c, o = some c → c % pgsize = 0 ∧ ∀ j, heap' c j = .zero)
    (hsame : ∀ x, 1 ≤ T.nodes x → ∀ j, (x = T.root → j ≠ i) → heap' x j = heap x j) : Repr heap' (T.setMid i o) := by
  constructor
  · intro j hj
    show heap' T.root j = interior (put T.mid i o j)
    by_cases hji : j = i
    · rw [hji, put_same, hset]
    · rw [put_ne _ _ _ hji, hsame _ T.nodes_root _ fun _ => hji, h.top j hj]
  · intro q hq c hc
    replace hc : put T.mid i o (q / 512) = some c := hc
    show heap' c (q % 512) = interior (T.low q)
    by_cases hqi : q / 512 = i
    · rw [hqi, put_same] at hc
      rw [(hnew c hc).2, hvoid q hqi]
      rfl
    · rw [put_ne _ _ _ hqi] at hc
      have hi : q / 512 < 512 := Nat.div_lt_of_lt_mul hq
      rw [hsame c (T.nodes_mid hi hc) _ fun he => absurd he (T.mid_ne_root hone hi hc), h.mid q hq c hc]
  · intro n hn c hc
    have hq : n / 512 < 512 * 512 := Nat.div_lt_of_lt_mul (by omega)
    show heap' c (n % 512) = T.leaf n
    rw [hsame c (T.nodes_low hq hc) _ fun he => absurd he (T.low_ne_root hone hq hc), h.low n hn c hc]
  · intro q hq
    replace hq : put T.mid i o (q / 512) = none := hq
    by_cases hqi : q / 512 = i
    · exact hvoid q hqi
    · rw [put_ne _ _ _ hqi] at hq
      exact h.down q hq
  · exact h.void
  · intro j c hc
    replace hc : put T.mid i o j = some c := hc
    by_cases hji : j = i
    · rw [hji, put_same] at hc
      exact (hnew c hc).1
    · rw [put_ne _ _ _ hji] at hc
      exact h.alignedMid j c hc
  · exact h.alignedLow

theorem Repr.linkLow {q c1 : Nat} {o : Option Nat} (hq : q < 512 * 512)
    (hc1 : T.mid (q / 512) = some c1) (hvoid : ∀ n, n / 512 = q → T.leaf n = .zero) (hset : heap' c1 (q % 512) = interior o)
    (hnew : ∀ c, o = some c → c % pgsize = 0 ∧ ∀ j, heap' c j = .zero)
    (hsame : ∀ x, 1 ≤ T.nodes x → ∀ j, (x = c1 → j ≠ q % 512) → heap' x j = heap x j) : Repr heap' (T.setLow q o) := by
  have hq1 : q / 512 < 512 := Nat.div_lt_of_lt_mul hq
  constructor
  · intro j hj
    show heap' T.root j = interior (T.mid j)
    rw [hsame _ T.nodes_root _ fun he => absurd he.symm (T.mid_ne_root hone hq1 hc1), h.top j hj]
  · intro r hr c hc
    replace hc : T.mid (r / 512) = some c := hc
    show heap' c (r % 512) = interior (put T.low q o r)
    have hr1 : r / 512 < 512 := Nat.div_lt_of_lt_mul hr
    by_cases hrq : r = q
    · subst hrq
      rw [some.inj (hc.symm.trans hc1), put_same, hset]
    · rw [put_ne _ _ _ hrq, hsame c (T.nodes_mid hr1 hc) _ ?_, h.mid r hr c hc]
      rintro rfl hmod
      have hdiv := T.mid_inj hone hr1 hq1 hc hc1
      omega
  · intro n hn c hc
    replace hc : put T.low q o (n / 512) = some c := hc
    have hn1 : n / 512 < 512 * 512 := Nat.div_lt_of_lt_mul (by omega)
    show heap' c (n % 512) = T.leaf n
    by_cases hnq : n / 512 = q
    · rw [hnq, put_same] at hc
      rw [(hnew c hc).2, hvoid n hnq]
    · rw [put_ne _ _ _ hnq] at hc
      rw [hsame c (T.nodes_low hn1 hc) _ fun he => absurd he.symm (T.mid_ne_low hone hq1 hn1 hc1 hc), h.low n hn c hc]
  · intro r hr
    replace hr : T.mid (r / 512) = none := hr
    have hrq : r ≠ q := by
      rintro rfl
      rw [hc1] at hr
      exact some_ne_none _ hr
    exact (put_ne _ _ _ hrq).trans (h.down r hr)
  · intro n hn
    replace hn : put T.low q o (n / 512) = none := hn
    by_cases hnq : n / 512 = q
    · exact hvoid n hnq
    · rw [put_ne _ _ _ hnq] at hn
      exact h.void n hn
  · exact h.alignedMid
  · intro r c hc
    replace hc : put T.low q o r = some c := hc
    by_cases hrq : r = q
    · rw [hrq, put_same] at hc
      exact (hnew c hc).1
    · rw [put_ne _ _ _ hrq] at hc
      exact h.alignedLow r c hc

omit h hone in
theorem store_fresh {page i c : Nat} {e : Pte} (hfresh : T.nodes c ≤ 0) {x j : Nat} (hx : 1 ≤ T.nodes x) (hj : x = page → j ≠ i) :
    store (put heap c fun _ => .zero) page i e x j = heap x j := by
  have hne : x ≠ c := by
    rintro rfl
    omega
  rw [store_of_ne hj, put_ne _ _ _ hne]

omit h hone in
theorem store_new {page i c : Nat} {e : Pte} (hfresh : T.nodes c ≤ 0) (hpage : 1 ≤ T.nodes page) (j : Nat) :
    store (put heap c fun _ => .zero) page i e c j = .zero := by
  have hne : c ≠ page := by
    rintro rfl
    omega
  rw [store_ne hne, put_same]

theorem Repr.addMid {i c : Nat} (hnone : T.mid i = none) (hc : c % pgsize = 0) (hfresh : T.nodes c ≤ 0) :
    Repr (store (put heap c fun _ => .zero) T.root i (pa2pte c pteV)) (T.setMid i (some c)) := by
  refine h.linkMid hone (fun q hq => h.down q (hq ▸ hnone)) store_same ?_ fun x hx j => store_fresh hfresh hx
  rintro _ ⟨⟩
  exact ⟨hc, store_new hfresh T.nodes_root⟩

theorem Repr.addLow {q c c1 : Nat} (hq : q < 512 * 512) (hc1 : T.mid (q / 512) = some c1) (hnone : T.low q = none)
    (hc : c % pgsize = 0) (hfresh : T.nodes c ≤ 0) :
    Repr (store (put heap c fun _ => .zero) c1 (q % 512) (pa2pte c pteV)) (T.setLow q (some c)) := by
  refine h.linkLow hone hq hc1 (fun n hn => h.void n (hn ▸ hnone)) store_same ?_ fun x hx j => store_fresh hfresh hx
  rintro _ ⟨⟩
  exact ⟨hc, store_new hfresh (T.nodes_mid (Nat.div_lt_of_lt_mul hq) hc1)⟩

theorem Repr.dropLow {q c1 : Nat} (hq : q < 512 * 512) (hc1 : T.mid (q / 512) = some c1)
    (hvoid : ∀ n, n / 512 = q → T.leaf n = .zero) : Repr (store heap c1 (q % 512) .zero) (T.setLow q none) :=
  h.linkLow hone hq hc1 hvoid store_same (by rintro _ ⟨⟩) fun _ _ _ => store_of_ne

theorem Repr.dropMid {i : Nat} (hvoid : ∀ q, q / 512 = i → T.low q = none) :
    Repr (store heap T.root i .zero) (T.setMid i none) :=
  h.linkMid hone hvoid store_same (by rintro _ ⟨⟩) fun _ _ _ => store_of_ne

end Update

section Pages

variable {T : Table}

theorem Table.nodes_setMid {i : Nat} {o : Option Nat} (hi : i < 512) :
    (T.setMid i o).nodes = T.nodes - mark (T.mid i) + mark o := by
  have hchange : holders (range 512) (put T.mid i o) = _ :=
    holders_change (mem_range.mpr hi) fun j _ hj => put_ne _ _ _ hj
  simp only [Table.nodes, Table.setMid, hchange, put_same]
  abel

theorem Table.nodes_setLow {q : Nat} {o : Option Nat} (hq : q < 512 * 512) :
    (T.setLow q o).nodes = T.nodes - mark (T.low q) + mark o := by
  have hchange : holders (range (512 * 512)) (put T.low q o) = _ :=
    holders_change (mem_range.mpr hq) fun j _ hj => put_ne _ _ _ hj
  simp only [Table.nodes, Table.setLow, hchange, put_same]
  abel

theorem Table.pages_setMid {i : Nat} {o : Option Nat} (hi : i < 512) :
    (T.setMid i o).pages = T.pages - mark (T.mid i) + mark o := by
  show (T.setMid i o).nodes + holders _ T.leafPage = _
  rw [T.nodes_setMid hi]
  unfold Table.pages
  abel

theorem Table.pages_setLow {q : Nat} {o : Option Nat} (hq : q < 512 * 512) :
    (T.setLow q o).pages = T.pages - mark (T.low q) + mark o := by
  show (T.setLow q o).nodes + holders _ T.leafPage = _
  rw [T.nodes_setLow hq]
  unfold Table.pages
  abel

def Pte.page (e : Pte) : Option Nat := if e.has pteV then some e.pa else none

theorem Table.pages_setLeaf {n : Nat} {e : Pte} (hn : n < userTop) :
    (T.setLeaf n e).pages = T.pages - mark (T.leafPage n) + mark e.page := by
  have hchange : holders (range userTop) (T.setLeaf n e).leafPage =
      holders (range userTop) T.leafPage - mark (T.leafPage n) + mark ((T.setLeaf n e).leafPage n) := by
    refine holders_change (mem_range.mpr hn) fun j _ hj => ?_
    simp [Table.leafPage, Table.setLeaf, put_ne _ _ _ hj]
  have hnew : (T.setLeaf n e).leafPage n = e.page := by
    simp [Table.leafPage, Table.setLeaf, Pte.page]
  show T.nodes + holders _ (T.setLeaf n e).leafPage = _
  rw [hchange, hnew]
  unfold Table.pages
  abel

theorem Table.pages_setLeaf_high {n : Nat} {e : Pte} (hn : userTop ≤ n) : (T.setLeaf n e).pages = T.pages := by
  have hsame : holders (range userTop) (T.setLeaf n e).leafPage = holders (range userTop) T.leafPage := by
    refine holders_congr fun j hj => ?_
    have hne : j ≠ n := by
      have := mem_range.mp hj
      omega
    simp [Table.leafPage, Table.setLeaf, put_ne _ _ _ hne]
  show T.nodes + holders _ (T.setLeaf n e).leafPage = _
  rw [hsame]
  rfl

end Pages

end Xv6.Vm
