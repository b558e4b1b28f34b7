import Xv6.Lib.Prog
import Xv6.PageTable

namespace Xv6.Vm

open Fs (put put_same put_ne)
open Count Prog Option Table

abbrev kernbase : Nat := 0x80000000

def Mem.inRange (m : Mem) (x : Nat) : ℤ := if x % pgsize = 0 ∧ m.kend ≤ x ∧ x < phystop then 1 else 0

/-- Every managed page is free or in use, once. -/
structure Ledger (m : Mem) (use : Nat → ℤ) : Prop where
  total : ∀ x, (m.freelist.count x : ℤ) + use x = m.inRange x
  nonneg : ∀ x, 0 ≤ use x
  bounds : kernbase ≤ m.kend

/-- What an operation on one table leaves alone: the pages in `rest`. -/
structure Frame (rest : Nat → ℤ) (m m' : Mem) : Prop where
  layout : m'.layout = m.layout
  heap : ∀ x, 1 ≤ rest x → m'.heap x = m.heap x

/-- The heap holds the table, and its pages and `rest` are what is in use. -/
structure Owns (m : Mem) (T : Table) (rest : Nat → ℤ) : Prop where
  repr : Repr m.heap T
  ledger : Ledger m (T.pages + rest)
  nonneg : ∀ x, 0 ≤ rest x

abbrev noFault : Fault → Prop := fun _ => False

section Ledger

variable {m : Mem} {use : Nat → ℤ}

theorem Mem.inRange_le_one (m : Mem) (x : Nat) : m.inRange x ≤ 1 := by
  unfold Mem.inRange
  split <;> omega

theorem Ledger.le_one (h : Ledger m use) (x : Nat) : use x ≤ 1 := by
  have := h.total x
  have := m.inRange_le_one x
  omega

theorem Ledger.mem_range (h : Ledger m use) {x : Nat} (hx : 1 ≤ use x) :
    x % pgsize = 0 ∧ m.kend ≤ x ∧ x < phystop := by
  have htotal := h.total x
  by_contra hout
  rw [Mem.inRange, if_neg hout] at htotal
  omega

theorem Ledger.fresh (h : Ledger m (use + one x)) (hnn : ∀ y, 0 ≤ use y) : use x = 0 := by
  have h1 := h.le_one x
  have h2 := hnn x
  simp only [Pi.add_apply, Pi.single_eq_same] at h1
  omega

theorem Frame.refl {rest : Nat → ℤ} (m : Mem) : Frame rest m m := ⟨rfl, fun _ _ => rfl⟩

theorem Frame.trans {rest : Nat → ℤ} {m m' m'' : Mem} (h : Frame rest m m') (h' : Frame rest m' m'') :
    Frame rest m m'' :=
  ⟨h'.layout.trans h.layout, fun x hx => (h'.heap x hx).trans (h.heap x hx)⟩

theorem Frame.weaken {rest rest' : Nat → ℤ} {m m' : Mem} (h : Frame rest m m') (hle : ∀ x, rest' x ≤ rest x) :
    Frame rest' m m' := ⟨h.layout, fun x hx => h.heap x (hx.trans (hle x))⟩

theorem kalloc_ledger (h : Ledger m use) :
    wp kalloc (fun r m' => (r = none → m' = m) ∧ Frame use m m' ∧ m'.heap = m.heap ∧
      ∀ pa, r = some pa → Ledger m' (use + one pa)) noFault m := by
  unfold kalloc
  rw [wp_bind, wp_get]
  cases hlist : m.freelist with
  | nil =>
    rw [wp_pure]
    exact ⟨fun _ => rfl, .refl m, rfl, by simp⟩
  | cons r free =>
    rw [wp_bind, wp_set, wp_pure]
    refine ⟨by simp, ⟨rfl, fun _ _ => rfl⟩, rfl, ?_⟩
    rintro pa ⟨rfl⟩
    refine ⟨fun x => ?_, fun x => ?_, h.bounds⟩
    · have htotal := h.total x
      rw [hlist, List.count_cons] at htotal
      simp only [Pi.add_apply, one_apply, beq_iff_eq] at htotal ⊢
      show _ = m.inRange x
      by_cases hx : x = r
      · subst hx
        simp at htotal ⊢
        omega
      · simp [hx, Ne.symm hx] at htotal ⊢
        omega
    · have := h.nonneg x
      simp only [Pi.add_apply, one_apply]
      split <;> omega

theorem Ledger.free {pa : Nat} (h : Ledger m (use + one pa)) (hnn : ∀ x, 0 ≤ use x) :
    Ledger { m with freelist := pa :: m.freelist } use := by
  refine ⟨fun x => ?_, hnn, h.bounds⟩
  have htotal := h.total x
  show ((pa :: m.freelist).count x : ℤ) + use x = m.inRange x
  rw [List.count_cons]
  simp only [Pi.add_apply, one_apply] at htotal
  by_cases hx : x = pa
  · subst hx
    simp at htotal ⊢
    omega
  · simp only [hx, if_false] at htotal
    simp [Ne.symm hx]
    omega

theorem wp_kfree {pa : Nat} {Q : Unit → Mem → Prop} (hpa : pa % pgsize = 0 ∧ m.kend ≤ pa ∧ pa < phystop)
    (hQ : Q () { m with freelist := pa :: m.freelist }) : wp (kfree pa) Q noFault m := by
  have hcheck : ¬ (pa % pgsize ≠ 0 ∨ pa < m.kend ∨ pa ≥ phystop) := by omega
  unfold kfree
  rw [wp_bind, wp_get, if_neg hcheck]
  simpa using hQ

theorem kfree_ledger {pa : Nat} (h : Ledger m (use + one pa)) (hnn : ∀ x, 0 ≤ use x) :
    wp (kfree pa) (fun _ m' => m' = { m with freelist := pa :: m.freelist } ∧ Ledger m' use) noFault m := by
  have hpos : 1 ≤ (use + one pa) pa := by
    have := hnn pa
    simp only [Pi.add_apply, Pi.single_eq_same]
    omega
  exact wp_kfree (h.mem_range hpos) ⟨rfl, h.free hnn⟩

end Ledger

section Walk

variable {m : Mem} {T : Table} {rest : Nat → ℤ} {E : Fault → Prop} {va : Nat}

@[simp]
theorem wp_pte {page i : Nat} {Q : Pte → Mem → Prop} :
    wp (pte page i) Q E m ↔ Q (m.heap page i) m := by
  unfold pte
  rw [wp_bind, wp_get, wp_pure]

@[simp]
theorem wp_setPte {page i : Nat} {v : Pte} {Q : Unit → Mem → Prop} :
    wp (setPte page i v) Q E m ↔ Q () { m with heap := store m.heap page i v } := wp_modify

@[simp]
theorem wp_clearPage {page : Nat} {Q : Unit → Mem → Prop} :
    wp (clearPage page) Q E m ↔ Q () { m with heap := put m.heap page fun _ => .zero } := wp_modify

theorem Owns.add_le_one (h : Owns m T rest) (x : Nat) : T.pages x + rest x ≤ 1 := h.ledger.le_one x

theorem Owns.nodes_le_one (h : Owns m T rest) (x : Nat) : T.nodes x ≤ 1 := by
  have := h.add_le_one x
  have := h.nonneg x
  have := T.nodes_le_pages x
  omega

theorem Owns.ne_of_rest (h : Owns m T rest) {x c : Nat} (hx : 1 ≤ rest x) (hc : 1 ≤ T.nodes c) : x ≠ c := by
  rintro rfl
  have := h.add_le_one x
  have := T.nodes_le_pages x
  omega

structure Step (rest : Nat → ℤ) (m : Mem) (T : Table) (m' : Mem) (T' : Table) : Prop where
  owns : Owns m' T' rest
  frame : Frame rest m m'
  root : T'.root = T.root

theorem Step.refl (h : Owns m T rest) : Step rest m T m T := ⟨h, .refl m, rfl⟩

theorem Step.trans {m' m'' : Mem} {T' T'' : Table} (h : Step rest m T m' T') (h' : Step rest m' T' m'' T'') :
    Step rest m T m'' T'' := ⟨h'.owns, h.frame.trans h'.frame, h'.root.trans h.root⟩

section
variable {c : Nat} (h : Owns m T (rest + one c))
include h

theorem Owns.ledger_add : Ledger m (T.pages + rest + one c) := by
  rw [add_assoc]
  exact h.ledger

theorem Owns.fresh (hnn : ∀ x, 0 ≤ rest x) : T.pages c = 0 ∧ rest c = 0 := by
  have hzero := h.ledger_add.fresh fun x => add_nonneg (T.pages_nonneg x) (hnn x)
  have := T.pages_nonneg c
  have := hnn c
  simp only [Pi.add_apply] at hzero
  omega

theorem Owns.aligned (hnn : ∀ x, 0 ≤ rest x) : c % pgsize = 0 := by
  refine (h.ledger.mem_range ?_).1
  have := T.pages_nonneg c
  have := hnn c
  simp only [Pi.add_apply, Pi.single_eq_same]
  omega

end

theorem Owns.link {page i c : Nat} {e : Pte} {T' : Table} (h : Owns m T (rest + one c)) (hnn : ∀ x, 0 ≤ rest x)
    (hpage : 1 ≤ T.nodes page) (hrepr : T.nodes c ≤ 0 → Repr (store (put m.heap c fun _ => .zero) page i e) T')
    (hroot : T'.root = T.root) (hpages : T'.pages + rest = T.pages + (rest + one c)) :
    Step rest m T { m with heap := store (put m.heap c fun _ => .zero) page i e } T' := by
  obtain ⟨hzero, hrest⟩ := h.fresh hnn
  refine ⟨⟨hrepr (hzero ▸ T.nodes_le_pages c), ?_, hnn⟩, ⟨rfl, fun x hx => ?_⟩, hroot⟩
  · rw [hpages]
    exact ⟨h.ledger.total, h.ledger.nonneg, h.ledger.bounds⟩
  · have hle : 1 ≤ (rest + one c) x := hx.trans (le_add_of_nonneg_right (by simp only [one_apply]; split <;> omega))
    have hxc : x ≠ c := by
      rintro rfl
      omega
    show store _ page _ _ x = m.heap x
    rw [store_ne (h.ne_of_rest hle hpage), put_ne _ _ _ hxc]

theorem Owns.addMid {i c : Nat} (h : Owns m T (rest + one c)) (hnn : ∀ x, 0 ≤ rest x) (hi : i < 512)
    (hnone : T.mid i = none) :
    Step rest m T { m with heap := store (put m.heap c fun _ => .zero) T.root i (pa2pte c pteV) }
      (T.setMid i (some c)) := by
  refine h.link hnn T.nodes_root (h.repr.addMid h.nodes_le_one hnone (h.aligned hnn)) rfl ?_
  rw [T.pages_setMid hi, hnone, mark_none, mark_some]
  abel

theorem Owns.addLow {q c c1 : Nat} (h : Owns m T (rest + one c)) (hnn : ∀ x, 0 ≤ rest x) (hq : q < 512 * 512)
    (hc1 : T.mid (q / 512) = some c1) (hnone : T.low q = none) :
    Step rest m T { m with heap := store (put m.heap c fun _ => .zero) c1 (q % 512) (pa2pte c pteV) }
      (T.setLow q (some c)) := by
  refine h.link hnn (T.nodes_mid (Nat.div_lt_of_lt_mul hq) hc1)
    (h.repr.addLow h.nodes_le_one hq hc1 hnone (h.aligned hnn)) rfl ?_
  rw [T.pages_setLow hq, hnone, mark_none, mark_some]
  abel

theorem Owns.kalloc (h : Owns m T rest) :
    wp kalloc (fun r m' => m'.heap = m.heap ∧ Frame rest m m' ∧ (r = none → Owns m' T rest) ∧
      ∀ pa, r = some pa → Owns m' T (rest + one pa)) noFault m := by
  refine (kalloc_ledger h.ledger).mono ?_ fun _ => id
  rintro r m' ⟨hnone, hframe, hheap, hsome⟩
  refine ⟨hheap, hframe.weaken fun x => ?_, fun hr => hnone hr ▸ h, fun pa hpa => ⟨hheap ▸ h.repr, ?_, fun x => ?_⟩⟩
  · have := T.pages_nonneg x
    simp only [Pi.add_apply]
    omega
  · rw [← add_assoc]
    exact hsome pa hpa
  · have := h.nonneg x
    simp only [Pi.add_apply, one_apply]
    split <;> omega

theorem px_two (hva : va < maxva) : px 2 va = va / pgsize / 512 / 512 := by
  simp only [px, maxva, pgsize] at *
  omega

theorem px_one (va : Nat) : px 1 va = va / pgsize / 512 % 512 := by
  rw [Nat.div_div_eq_div_mul]
  rfl

theorem px_zero (va : Nat) : px 0 va = va / pgsize % 512 := rfl

theorem vpn_lt (hva : va < maxva) : va / pgsize < 512 * 512 * 256 := by
  simp only [maxva, pgsize] at *
  omega

theorem wp_walk_false {Q : Option (Nat × Nat) → Mem → Prop} (hR : Repr m.heap T)
    (hva : va < maxva) :
    wp (walk T.root va false) Q E m ↔
      Q ((T.low (va / pgsize / 512)).map fun c => (c, va / pgsize % 512)) m := by
  have hn := vpn_lt hva
  have hq : va / pgsize / 512 < 512 * 512 := by omega
  have hi : va / pgsize / 512 / 512 < 512 := by omega
  have htop := hR.top _ hi
  simp only [walk, walkLoop, Nat.reduceAdd, if_neg (Nat.not_le.mpr hva), ge_iff_le, px_two hva, px_one, px_zero, wp_bind,
    wp_pte, htop, interior_valid]
  cases hmid : T.mid (va / pgsize / 512 / 512) with
  | none => simp [hR.down _ hmid]
  | some c1 =>
    have hc1 := pa_pa2pte (hR.alignedMid _ c1 hmid) pteV
    have hlow := hR.mid _ hq c1 hmid
    simp only [isSome_some, if_true, hc1, wp_bind, wp_pte, interior, hlow]
    cases hc : T.low (va / pgsize / 512) with
    | none => simp [zero_not_valid]
    | some c =>
      have hv : (pa2pte c pteV).has pteV = true := interior_valid (some c)
      simp [hv, pa_pa2pte (hR.alignedLow _ c hc)]

/-- What `walk` with allocation may do: add nodes, for which it takes free pages. -/
abbrev Grown (rest : Nat → ℤ) (m : Mem) (T : Table) (m' : Mem) (T' : Table) : Prop :=
  Step rest m T m' T' ∧ T'.leaf = T.leaf

theorem walkLoop_one {va c1 : Nat} (h : Owns m T rest) (hva : va < maxva)
    (hc1 : T.mid (va / pgsize / 512 / 512) = some c1) :
    wp (walkLoop va true 1 c1) (fun r m' => ∃ T', Grown rest m T m' T' ∧
      ∀ c, r = some c → T'.low (va / pgsize / 512) = some c) noFault m := by
  have hq : va / pgsize / 512 < 512 * 512 := by
    have := vpn_lt hva
    omega
  have hentry := h.repr.mid _ hq c1 hc1
  simp only [walkLoop, Nat.reduceAdd, px_one, wp_bind, wp_pte, hentry, interior_valid]
  cases hlow : T.low (va / pgsize / 512) with
  | some c =>
    simp only [isSome_some, if_true, wp_pure, interior, pa_pa2pte (h.repr.alignedLow _ c hlow)]
    exact ⟨T, ⟨.refl h, rfl⟩, fun d hd => hlow.trans hd⟩
  | none =>
    simp only [isSome_none, Bool.false_eq_true, if_false, Bool.not_true]
    refine h.kalloc.bind ?_
    rintro r m1 ⟨hheap, hframe, hnone, hsome⟩
    cases r with
    | none =>
      rw [wp_pure]
      exact ⟨T, ⟨⟨hnone rfl, hframe, rfl⟩, rfl⟩, by simp⟩
    | some page =>
      simp only [wp_bind, wp_clearPage, wp_setPte, wp_pure]
      have hadd := (hsome page rfl).addLow h.nonneg hq hc1 hlow
      exact ⟨_, ⟨⟨hadd.owns, hframe.trans hadd.frame, hadd.root⟩, rfl⟩, fun c hc => (put_same _ _ _).trans hc⟩

theorem walk_true (h : Owns m T rest) (hva : va < maxva) :
    wp (walk T.root va true) (fun r m' => ∃ T', Grown rest m T m' T' ∧
      ∀ x, r = some x → T'.low (va / pgsize / 512) = some x.1 ∧ x.2 = va / pgsize % 512) noFault m := by
  have hi : va / pgsize / 512 / 512 < 512 := by
    have := vpn_lt hva
    omega
  have hentry := h.repr.top _ hi
  unfold walk
  rw [if_neg (Nat.not_le.mpr hva), wp_bind]
  refine wp.mono (Q := fun r m' => ∃ T', Grown rest m T m' T' ∧
    ∀ c, r = some c → T'.low (va / pgsize / 512) = some c) ?_ ?_ fun _ => id
  · rw [walkLoop]
    simp only [Nat.reduceAdd, px_two hva, wp_bind, wp_pte, hentry, interior_valid]
    cases hmid : T.mid (va / pgsize / 512 / 512) with
    | some c1 =>
      simp only [isSome_some, if_true, interior, pa_pa2pte (h.repr.alignedMid _ c1 hmid)]
      exact walkLoop_one h hva hmid
    | none =>
      simp only [isSome_none, Bool.false_eq_true, if_false, Bool.not_true]
      refine h.kalloc.bind ?_
      rintro r m1 ⟨hheap, hframe, hnone, hsome⟩
      cases r with
      | none =>
        rw [wp_pure]
        exact ⟨T, ⟨⟨hnone rfl, hframe, rfl⟩, rfl⟩, by simp⟩
      | some page =>
        simp only [wp_bind, wp_clearPage, wp_setPte]
        have hadd := (hsome page rfl).addMid h.nonneg hi hmid
        refine (walkLoop_one hadd.owns hva (put_same _ _ _)).mono ?_ fun _ => id
        rintro r m2 ⟨T', ⟨hstep, hleaf⟩, hfound⟩
        exact ⟨T', ⟨⟨hstep.owns, (hframe.trans hadd.frame).trans hstep.frame, hstep.root⟩, hleaf⟩, hfound⟩
  · rintro r m' ⟨T', hgrown, hfound⟩
    rw [wp_pure]
    refine ⟨T', hgrown, ?_⟩
    rintro x hx
    obtain ⟨c, hc, rfl⟩ := map_eq_some_iff.mp hx
    exact ⟨hfound c hc, rfl⟩

end Walk

section Leaves

variable {m : Mem} {T : Table} {rest : Nat → ℤ}

theorem Pte.has_or_left {f g flag : BitVec 10} {n : Nat} (h : (Pte.mk n f).has flag = true) (n' : Nat) :
    (Pte.mk n' (f ||| g)).has flag = true := by
  simp only [Pte.has, decide_eq_true_eq] at h ⊢
  intro hzero
  apply h
  ext i hi
  have hbit := congrArg (fun v : BitVec 10 => v[i]) hzero
  simp only [BitVec.getElem_and, BitVec.getElem_or, BitVec.ofNat_eq_ofNat, BitVec.getElem_zero] at hbit ⊢
  revert hbit
  cases f[i] <;> cases flag[i] <;> simp

theorem Pte.page_pa2pte {pa : Nat} (hpa : pa % pgsize = 0) (perm : BitVec 10) :
    (pa2pte pa (perm ||| pteV)).page = some pa := by
  have hv : (pa2pte pa (perm ||| pteV)).has pteV = true := by
    rw [BitVec.or_comm]
    exact Pte.has_or_left (n := 0) (by decide) _
  rw [Pte.page, if_pos hv, pa_pa2pte hpa]

theorem Owns.setLeaf {rest' : Nat → ℤ} {n c : Nat} {e : Pte} (h : Owns m T rest) (hn : n < 512 * 512 * 512)
    (hc : T.low (n / 512) = some c) (hpages : (T.setLeaf n e).pages + rest' = T.pages + rest)
    (hnn : ∀ x, 0 ≤ rest' x) :
    Owns { m with heap := store m.heap c (n % 512) e } (T.setLeaf n e) rest' ∧
      Frame rest m { m with heap := store m.heap c (n % 512) e } := by
  refine ⟨⟨h.repr.setLeaf h.nodes_le_one hn hc, ?_, hnn⟩, rfl, fun x hx => ?_⟩
  · rw [hpages]
    exact ⟨h.ledger.total, h.ledger.nonneg, h.ledger.bounds⟩
  · exact store_ne (h.ne_of_rest hx (T.nodes_low (Nat.div_lt_of_lt_mul (by omega)) hc))

theorem mappages_one {rest' : Nat → ℤ} {va pa : Nat} {perm : BitVec 10} (h : Owns m T rest) (hva : va % pgsize = 0)
    (hlt : va < maxva) (hfree : (T.leaf (va / pgsize)).has pteV = false)
    (hpages : ∀ T' : Table, T'.leaf = T.leaf →
      (T'.setLeaf (va / pgsize) (pa2pte pa (perm ||| pteV))).pages + rest' = T'.pages + rest)
    (hnn : ∀ x, 0 ≤ rest' x) :
    wp (mappages T.root va pgsize pa perm) (fun ok m' => ∃ T', T'.root = T.root ∧ Frame rest m m' ∧
      (ok = true → Owns m' T' rest' ∧ T'.leaf = put T.leaf (va / pgsize) (pa2pte pa (perm ||| pteV))) ∧
      (ok = false → Owns m' T' rest ∧ T'.leaf = T.leaf)) noFault m := by
  have hn : va / pgsize < 512 * 512 * 512 := (vpn_lt hlt).trans (by decide)
  have hva' : ¬ va % pgsize ≠ 0 := fun hne => hne hva
  unfold mappages
  rw [if_neg hva', if_neg (by decide), if_neg (by decide), show pgsize / pgsize = 1 from rfl, mapLoop]
  refine (walk_true h hlt).bind ?_
  rintro r m1 ⟨T1, ⟨hstep, hleaf⟩, hfound⟩
  cases r with
  | none =>
    rw [wp_pure]
    exact ⟨T1, hstep.root, hstep.frame, by simp, fun _ => ⟨hstep.owns, hleaf⟩⟩
  | some x =>
    obtain ⟨c, k⟩ := x
    obtain ⟨hc, rfl⟩ : T1.low (va / pgsize / 512) = some c ∧ k = va / pgsize % 512 := hfound (c, k) rfl
    have hentry := hstep.owns.repr.low _ hn c hc
    simp only [wp_bind, wp_pte, hentry, hleaf, hfree, Bool.false_eq_true, if_false, wp_setPte, mapLoop, wp_pure]
    obtain ⟨howns, hframe⟩ := hstep.owns.setLeaf hn hc (hpages T1 hleaf) hnn
    refine ⟨T1.setLeaf _ _, hstep.root, hstep.frame.trans hframe, fun _ => ⟨howns, ?_⟩, by simp⟩
    rw [setLeaf, hleaf]

theorem mappages_user (va pa : Nat) (perm : BitVec 10) (h : Owns m T (rest + one pa)) (hnn : ∀ x, 0 ≤ rest x)
    (hva : va % pgsize = 0) (hlt : va / pgsize < userTop) (hfree : (T.leaf (va / pgsize)).has pteV = false) :
    wp (mappages T.root va pgsize pa perm) (fun ok m' => ∃ T', T'.root = T.root ∧ Frame (rest + one pa) m m' ∧
      (ok = true → Owns m' T' rest ∧ T'.leaf = put T.leaf (va / pgsize) (pa2pte pa (perm ||| pteV))) ∧
      (ok = false → Owns m' T' (rest + one pa) ∧ T'.leaf = T.leaf)) noFault m := by
  have hmax : va < maxva := by
    rw [userTop_eq] at hlt
    simp only [maxva, pgsize] at *
    omega
  refine mappages_one h hva hmax hfree (fun T' hT' => ?_) hnn
  have hnone : T'.leafPage (va / pgsize) = none := by
    simp [leafPage, hT', hfree]
  rw [T'.pages_setLeaf hlt, hnone, Pte.page_pa2pte (h.aligned hnn), mark_none, mark_some]
  abel

theorem mappages_high (va pa : Nat) (perm : BitVec 10) (h : Owns m T rest) (hva : va % pgsize = 0)
    (hlt : va < maxva) (hhigh : userTop ≤ va / pgsize) (hfree : (T.leaf (va / pgsize)).has pteV = false) :
    wp (mappages T.root va pgsize pa perm) (fun ok m' => ∃ T', T'.root = T.root ∧ Frame rest m m' ∧
      (ok = true → Owns m' T' rest ∧ T'.leaf = put T.leaf (va / pgsize) (pa2pte pa (perm ||| pteV))) ∧
      (ok = false → Owns m' T' rest ∧ T'.leaf = T.leaf)) noFault m :=
  mappages_one h hva hlt hfree (fun T' _ => by rw [T'.pages_setLeaf_high hhigh]) h.nonneg

def Pte.Leaf (e : Pte) : Prop := e.has pteV = true ∧ e.flags ≠ pteV

theorem Repr.low_of_leaf {heap : Nat → Nat → Pte} {n : Nat} (h : Repr heap T) (hleaf : (T.leaf n).Leaf) :
    ∃ c, T.low (n / 512) = some c := by
  cases hc : T.low (n / 512) with
  | some c => exact ⟨c, rfl⟩
  | none =>
    rw [h.void n hc] at hleaf
    exact absurd hleaf.1 (by decide)

theorem Owns.leaf_mem_range {v : Nat} (h : Owns m T rest) (hv : v < userTop) (hvalid : (T.leaf v).has pteV = true) :
    (T.leaf v).pa % pgsize = 0 ∧ m.kend ≤ (T.leaf v).pa ∧ (T.leaf v).pa < phystop := by
  refine h.ledger.mem_range ?_
  have h1 := holders_pos (h := T.leafPage) (Finset.mem_range.mpr hv) (if_pos hvalid)
  have h2 := T.nodes_nonneg (T.leaf v).pa
  have h3 := h.nonneg (T.leaf v).pa
  simp only [pages, Pi.add_apply]
  omega

def Table.clear (T : Table) (lo k : Nat) : Table :=
  { T with leaf := fun v => if lo ≤ v ∧ v < lo + k then .zero else T.leaf v }

theorem Table.clear_zero (T : Table) (lo : Nat) : T.clear lo 0 = T := by
  have hnone : ∀ v, ¬ (lo ≤ v ∧ v < lo + 0) := by omega
  simp only [clear, hnone, if_false]

theorem Table.clear_succ (T : Table) (lo k : Nat) : (T.setLeaf lo .zero).clear (lo + 1) k = T.clear lo (k + 1) := by
  simp only [clear, setLeaf, mk.injEq, true_and]
  funext v
  by_cases hv : v = lo
  · subst hv
    simp
  · rw [put_ne _ _ _ hv]
    split
    · rw [if_pos (by omega)]
    · rw [if_neg (by omega)]

theorem unmapLoop_user (k a : Nat) (ha : a % pgsize = 0) (h : Owns m T rest) (htop : a / pgsize + k ≤ userTop)
    (hleaf : ∀ v, a / pgsize ≤ v → v < a / pgsize + k → (T.leaf v).Leaf) :
    wp (unmapLoop T.root true k a) (fun _ m' => Step rest m T m' (T.clear (a / pgsize) k)) noFault m := by
  induction k generalizing a m T with
  | zero =>
    rw [unmapLoop, wp_pure, T.clear_zero]
    exact .refl h
  | succ k ih =>
    have hlt : a / pgsize < userTop := by omega
    have hmax : a < maxva := by
      rw [userTop_eq] at hlt
      simp only [maxva, pgsize] at *
      omega
    have hn : a / pgsize < 512 * 512 * 512 := (vpn_lt hmax).trans (by decide)
    have hthis : (T.leaf (a / pgsize)).Leaf := hleaf _ le_rfl (by omega)
    obtain ⟨c, hc⟩ := h.repr.low_of_leaf hthis
    have hpage : T.leafPage (a / pgsize) = some (T.leaf (a / pgsize)).pa := if_pos hthis.1
    rw [unmapLoop, wp_bind, wp_walk_false h.repr hmax, hc]
    simp only [map_some, wp_bind, wp_pte, h.repr.low _ hn c hc, hthis.1, hthis.2, Bool.not_true,
      Bool.false_eq_true, if_false, if_true]
    refine wp_kfree (h.leaf_mem_range hlt hthis.1) ?_
    rw [wp_setPte]
    -- the page goes to the free list as the entry is cleared
    have hnn : ∀ x, 0 ≤ ((T.setLeaf (a / pgsize) .zero).pages + rest) x :=
      fun x => add_nonneg (pages_nonneg _ x) (h.nonneg x)
    have hmove : T.pages + rest = (T.setLeaf (a / pgsize) .zero).pages + rest + one (T.leaf (a / pgsize)).pa := by
      rw [T.pages_setLeaf hlt, hpage, show Pte.zero.page = none from rfl, mark_none, mark_some]
      abel
    have hfreed := (hmove ▸ h.ledger).free hnn
    have hstep : Step rest m T { m with
        heap := store m.heap c (a / pgsize % 512) .zero, freelist := (T.leaf (a / pgsize)).pa :: m.freelist }
        (T.setLeaf (a / pgsize) .zero) :=
      ⟨⟨h.repr.setLeaf h.nodes_le_one hn hc, ⟨hfreed.total, hfreed.nonneg, hfreed.bounds⟩, h.nonneg⟩,
        ⟨rfl, fun x hx => store_ne (h.ne_of_rest hx (T.nodes_low (Nat.div_lt_of_lt_mul (by omega)) hc))⟩, rfl⟩
    have hnext : (a + pgsize) / pgsize = a / pgsize + 1 := Nat.add_div_right a (by decide)
    have hrest := ih (m := _) (T := T.setLeaf (a / pgsize) .zero) (a + pgsize) (by simpa using ha) hstep.owns
      (by omega) fun v hv hvk => by
        have hne : v ≠ a / pgsize := by omega
        show (put T.leaf (a / pgsize) .zero v).Leaf
        rw [put_ne _ _ _ hne]
        exact hleaf v (by omega) (by omega)
    refine hrest.mono ?_ fun _ => id
    intro _ m' hm'
    rw [hnext, T.clear_succ] at hm'
    exact hstep.trans hm'

theorem uvmunmap_user {k a : Nat} (ha : a % pgsize = 0) (h : Owns m T rest) (htop : a / pgsize + k ≤ userTop)
    (hleaf : ∀ v, a / pgsize ≤ v → v < a / pgsize + k → (T.leaf v).Leaf) :
    wp (uvmunmap T.root a k true) (fun _ m' => Step rest m T m' (T.clear (a / pgsize) k)) noFault m := by
  unfold uvmunmap
  rw [if_neg (fun hne => hne ha)]
  exact unmapLoop_user k a ha h htop hleaf

theorem uvmunmap_high {a : Nat} (ha : a % pgsize = 0) (h : Owns m T rest) (hmax : a < maxva)
    (hhigh : userTop ≤ a / pgsize) (hleaf : (T.leaf (a / pgsize)).Leaf) :
    wp (uvmunmap T.root a 1 false) (fun _ m' => Step rest m T m' (T.setLeaf (a / pgsize) .zero)) noFault m := by
  have hn : a / pgsize < 512 * 512 * 512 := (vpn_lt hmax).trans (by decide)
  obtain ⟨c, hc⟩ := h.repr.low_of_leaf hleaf
  unfold uvmunmap
  rw [if_neg (fun hne => hne ha), unmapLoop, wp_bind, wp_walk_false h.repr hmax, hc]
  simp only [map_some, wp_bind, wp_pte, h.repr.low _ hn c hc, hleaf.1, hleaf.2, Bool.not_true,
    Bool.false_eq_true, if_false, wp_setPte, unmapLoop, wp_pure]
  obtain ⟨howns, hframe⟩ := h.setLeaf hn hc (e := .zero) (by rw [T.pages_setLeaf_high hhigh]) h.nonneg
  exact ⟨howns, hframe, rfl⟩

end Leaves

section Freewalk

variable {m : Mem} {T : Table} {rest : Nat → ℤ}

/-- The nodes below the first `k` entries of the node for `i` are cut off. -/
def Table.dropLows (T : Table) (i k : Nat) : Table :=
  { T with low := fun q => if q / 512 = i ∧ q % 512 < k then none else T.low q }

def Table.dropMids (T : Table) (k : Nat) : Table :=
  { T with
    mid := fun i => if i < k then none else T.mid i
    low := fun q => if q / 512 < k then none else T.low q }

theorem Table.dropLows_succ (T : Table) {i k : Nat} (hk : k < 512) :
    (T.dropLows i k).setLow (512 * i + k) none = T.dropLows i (k + 1) := by
  simp only [dropLows, setLow, mk.injEq, true_and, and_true]
  funext q
  by_cases hq : q = 512 * i + k
  · subst hq
    rw [put_same, if_pos (by omega)]
  · rw [put_ne _ _ _ hq]
    split
    · rw [if_pos (by omega)]
    · rw [if_neg (by omega)]

theorem Table.dropMids_succ (T : Table) (k : Nat) :
    ((T.dropMids k).dropLows k 512).setMid k none = T.dropMids (k + 1) := by
  simp only [dropLows, dropMids, setMid, mk.injEq, true_and, and_true]
  constructor
  · funext i
    by_cases hi : i = k
    · subst hi
      rw [put_same, if_pos (by omega)]
    · rw [put_ne _ _ _ hi]
      split
      · rw [if_pos (by omega)]
      · rw [if_neg (by omega)]
  · funext q
    by_cases hq : q / 512 = k
    · rw [if_pos ⟨hq, Nat.mod_lt _ (by decide)⟩, if_pos (by omega)]
    · rw [if_neg (by omega)]
      split
      · rw [if_pos (by omega)]
      · rw [if_neg (by omega)]

theorem freewalk_bottom {c d : Nat} (hvoid : ∀ i < 512, (m.heap c i).has pteV = false)
    (hc : c % pgsize = 0 ∧ m.kend ≤ c ∧ c < phystop) :
    wp (freewalk (d + 1) c) (fun _ m' => m' = { m with freelist := c :: m.freelist }) noFault m := by
  rw [freewalk]
  refine wp.bind (Q := fun _ m' => m' = m) (wp_forM_range (I := fun _ m' => m' = m) rfl ?_) ?_
  · rintro i hi t rfl
    simp [hvoid i hi]
  · rintro _ _ rfl
    exact wp_kfree hc rfl

theorem interior_not_leaf (c : Nat) : (pa2pte c pteV).has (pteR ||| pteW ||| pteX) = false := by
  show decide (pteV &&& (pteR ||| pteW ||| pteX) ≠ 0) = false
  decide

section
variable (h : Owns m T rest)
include h

theorem Owns.mem_range {c : Nat} (hc : 1 ≤ T.nodes c) : c % pgsize = 0 ∧ m.kend ≤ c ∧ c < phystop := by
  refine h.ledger.mem_range ?_
  have := T.nodes_le_pages c
  have := h.nonneg c
  simp only [Pi.add_apply]
  omega

theorem root_ne_zero : T.root ≠ 0 := by
  have := (h.mem_range T.nodes_root).2.1
  have := h.ledger.bounds
  simp only [kernbase] at *
  omega

theorem Owns.dropLow {q c c1 : Nat} (hq : q < 512 * 512) (hc1 : T.mid (q / 512) = some c1)
    (hc : T.low q = some c) (hvoid : ∀ n, T.leaf n = .zero) :
    Step rest m T { m with heap := store m.heap c1 (q % 512) .zero, freelist := c :: m.freelist } (T.setLow q none) := by
  have hmove : T.pages + rest = (T.setLow q none).pages + rest + one c := by
    rw [T.pages_setLow hq, hc, mark_none, mark_some]
    abel
  have hfreed := (hmove ▸ h.ledger).free fun x => add_nonneg (pages_nonneg _ x) (h.nonneg x)
  refine ⟨⟨h.repr.dropLow h.nodes_le_one hq hc1 fun n _ => hvoid n, ?_, h.nonneg⟩, ⟨rfl, fun x hx => ?_⟩, rfl⟩
  · exact ⟨hfreed.total, hfreed.nonneg, hfreed.bounds⟩
  · exact store_ne (h.ne_of_rest hx (T.nodes_mid (Nat.div_lt_of_lt_mul hq) hc1))

theorem Owns.dropMid {i c1 : Nat} (hi : i < 512) (hc1 : T.mid i = some c1)
    (hvoid : ∀ q, q / 512 = i → T.low q = none) :
    Step rest m T { m with heap := store m.heap T.root i .zero, freelist := c1 :: m.freelist } (T.setMid i none) := by
  have hmove : T.pages + rest = (T.setMid i none).pages + rest + one c1 := by
    rw [T.pages_setMid hi, hc1, mark_none, mark_some]
    abel
  have hfreed := (hmove ▸ h.ledger).free fun x => add_nonneg (pages_nonneg _ x) (h.nonneg x)
  refine ⟨⟨h.repr.dropMid h.nodes_le_one hvoid, ?_, h.nonneg⟩, ⟨rfl, fun x hx => ?_⟩, rfl⟩
  · exact ⟨hfreed.total, hfreed.nonneg, hfreed.bounds⟩
  · exact store_ne (h.ne_of_rest hx T.nodes_root)

theorem freewalk_middle {i c1 d : Nat} (hi : i < 512) (hc1 : T.mid i = some c1)
    (hvoid : ∀ n, T.leaf n = .zero) :
    wp (freewalk (d + 2) c1) (fun _ m' => ∃ m1, m' = { m1 with freelist := c1 :: m1.freelist } ∧
      Step rest m T m1 (T.dropLows i 512)) noFault m := by
  have hstart : T.dropLows i 0 = T := by
    have hnone : ∀ q, ¬ (q / 512 = i ∧ q % 512 < 0) := by omega
    simp only [dropLows, hnone, if_false]
  rw [freewalk]
  refine wp.bind (Q := fun _ t => Step rest m T t (T.dropLows i 512))
    (wp_forM_range (I := fun k t => Step rest m T t (T.dropLows i k)) ?_ ?_) ?_
  · rw [hstart]
    exact .refl h
  · intro k hk t ht
    have hq : 512 * i + k < 512 * 512 := by omega
    have hdiv : (512 * i + k) / 512 = i := by omega
    have hmod : (512 * i + k) % 512 = k := by omega
    have hmid : (T.dropLows i k).mid ((512 * i + k) / 512) = some c1 := (congrArg T.mid hdiv).trans hc1
    have hentry := ht.owns.repr.mid _ hq c1 hmid
    rw [hmod] at hentry
    rw [wp_bind, wp_pte, hentry, interior_valid, ← T.dropLows_succ hk]
    cases hlow : (T.dropLows i k).low (512 * i + k) with
    | none =>
      simp only [isSome_none, Bool.false_eq_true, if_false, wp_pure]
      rw [setLow, ← hlow, Fs.put_eq_self]
      exact ht
    | some c =>
      have hnode : 1 ≤ (T.dropLows i k).nodes c := nodes_low hq hlow
      simp only [isSome_some, if_true, interior, interior_not_leaf, Bool.false_eq_true, if_false,
        pa_pa2pte (ht.owns.repr.alignedLow _ c hlow)]
      refine (freewalk_bottom (fun j hj => ?_) (ht.owns.mem_range hnode)).bind ?_
      · have hleaf := ht.owns.repr.low (512 * (512 * i + k) + j) (by omega) c (by
          rw [show (512 * (512 * i + k) + j) / 512 = 512 * i + k by omega]
          exact hlow)
        rw [show (512 * (512 * i + k) + j) % 512 = j by omega] at hleaf
        rw [hleaf]
        exact (congrArg (Pte.has · pteV) (hvoid _)).trans zero_not_valid
      · rintro _ _ rfl
        rw [wp_setPte]
        have hdrop := ht.owns.dropLow hq hmid hlow hvoid
        rw [hmod] at hdrop
        exact ht.trans hdrop
  · intro _ t ht
    exact wp_kfree (ht.owns.mem_range (nodes_mid (T := T.dropLows i 512) hi hc1)) ⟨t, rfl, ht⟩

theorem freewalk_root (hvoid : ∀ n, T.leaf n = .zero) :
    wp (freewalk 3 T.root) (fun _ m' => Ledger m' rest ∧ Frame rest m m') noFault m := by
  have hstart : T.dropMids 0 = T := by
    simp only [dropMids, Nat.not_lt_zero, if_false]
  rw [freewalk]
  refine wp.bind (Q := fun _ t => Step rest m T t (T.dropMids 512))
    (wp_forM_range (I := fun k t => Step rest m T t (T.dropMids k)) ?_ ?_) ?_
  · rw [hstart]
    exact .refl h
  · intro k hk t ht
    have hentry : t.heap T.root k = _ := ht.owns.repr.top k hk
    rw [wp_bind, wp_pte, hentry, interior_valid, ← T.dropMids_succ]
    cases hmid : (T.dropMids k).mid k with
    | none =>
      have hsame : ((T.dropMids k).dropLows k 512).setMid k none = T.dropMids k := by
        have hlows : (T.dropMids k).dropLows k 512 = T.dropMids k := by
          simp only [dropLows, dropMids, mk.injEq, true_and, and_true]
          funext q
          by_cases hq : q / 512 = k
          · have hnone : T.low q = none := (if_neg (by omega)).symm.trans (ht.owns.repr.down q (hq ▸ hmid))
            simp [hnone]
          · rw [if_neg (by omega)]
        rw [hlows, setMid, ← hmid, Fs.put_eq_self]
      simp only [isSome_none, Bool.false_eq_true, if_false, wp_pure]
      rw [hsame]
      exact ht
    | some c1 =>
      simp only [isSome_some, if_true, interior, interior_not_leaf, Bool.false_eq_true, if_false,
        pa_pa2pte (ht.owns.repr.alignedMid _ c1 hmid)]
      refine (freewalk_middle ht.owns hk hmid hvoid).bind ?_
      rintro _ _ ⟨t1, rfl, ht1⟩
      rw [wp_setPte]
      refine ht.trans (ht1.trans (ht1.owns.dropMid hk hmid fun q hq => ?_))
      exact if_pos ⟨hq, Nat.mod_lt _ (by decide)⟩
  · intro _ t ht
    have hpages : (T.dropMids 512).pages = one T.root := by
      have hmid : holders (Finset.range 512) (T.dropMids 512).mid = 0 :=
        holders_none fun i hi => if_pos (Finset.mem_range.mp hi)
      have hlow : holders (Finset.range (512 * 512)) (T.dropMids 512).low = 0 :=
        holders_none fun q hq => if_pos (Nat.div_lt_of_lt_mul (Finset.mem_range.mp hq))
      have hleaf : holders (Finset.range userTop) (T.dropMids 512).leafPage = 0 :=
        holders_none fun n _ => by
          show (if (T.leaf n).has pteV then _ else none) = none
          rw [hvoid n, zero_not_valid]
          rfl
      rw [pages, nodes, hmid, hlow, hleaf, mark_some]
      simp only [add_zero]
      rfl
    refine wp_kfree (ht.owns.mem_range (T.dropMids 512).nodes_root) ⟨?_, ht.frame.trans ⟨rfl, fun _ _ => rfl⟩⟩
    refine Ledger.free ?_ h.nonneg
    rw [add_comm, ← hpages]
    exact ht.owns.ledger

end

end Freewalk

end Xv6.Vm
