import Xv6.Sv39.Memory

/-!
The tree that `walk` follows through memory, and what `walk` and a store to one of its entries do to it.
-/

namespace Xv6.Sv39

open Prog List

section Entries

variable {pa : Nat} {perm w : Pte}

theorem has_or_pteV : has (w ||| pteV) pteV = true := by
  have hbit : ((w ||| pteV) &&& pteV).getLsbD 0 = true := by
    rw [BitVec.getLsbD_and, BitVec.getLsbD_or]
    have h1 : pteV.getLsbD 0 = true := by decide
    rw [h1, Bool.or_true, Bool.and_true]
  have hne : (w ||| pteV) &&& pteV ≠ 0 := by
    intro h
    rw [h] at hbit
    exact absurd hbit (by decide)
  simpa [has] using hne

theorem ne_zero_of_has (h : has w pteV = true) : w ≠ 0 := by
  rintro rfl
  exact absurd h (by decide)

theorem pa2pte_uint64 (x : Nat) : pa2pte (uint64 pa + x) = pa2pte (pa + x) := by
  have hmod : BitVec.ofNat 64 (uint64 pa + x) = BitVec.ofNat 64 (pa + x) := by
    apply BitVec.eq_of_toNat_eq
    simp only [BitVec.toNat_ofNat, uint64]
    omega
  rw [pa2pte, hmod, pa2pte]

theorem pte2pa_pa2pte (halign : pgsize ∣ pa) (hpa : pa < 2 ^ 56) (hperm : perm.toNat < 2 ^ 10) :
    pte2pa (pa2pte pa ||| perm) = pa ∧ pteFlags (pa2pte pa ||| perm) = perm := by
  obtain ⟨k, rfl⟩ := halign
  have hword : (pa2pte (pgsize * k) ||| perm).toNat = 2 ^ 10 * k + perm.toNat := by
    have hpte : (pa2pte (pgsize * k)).toNat = 2 ^ 10 * k := by
      simp only [pa2pte, BitVec.toNat_shiftLeft, BitVec.toNat_ushiftRight, BitVec.toNat_ofNat, Nat.shiftLeft_eq,
        Nat.shiftRight_eq_div_pow, pgsize] at *
      omega
    rw [BitVec.toNat_or, hpte, ← Nat.two_pow_add_eq_or_of_lt hperm]
  constructor
  · simp only [pte2pa, BitVec.toNat_shiftLeft, BitVec.toNat_ushiftRight, hword, Nat.shiftLeft_eq,
      Nat.shiftRight_eq_div_pow, pgsize] at *
    omega
  · apply BitVec.eq_of_toNat_eq
    have hmask : (0x3FF : Pte).toNat = 2 ^ 10 - 1 := by decide
    rw [pteFlags, BitVec.toNat_and, hword, hmask, Nat.and_two_pow_sub_one_eq_mod]
    omega

end Entries

section Tree

variable {mem mem' mem'' : Nat → Byte} {l p i va vb a x q : Nat} {S T T' : List Nat} {w : Pte}

def nodes (mem : Nat → Byte) : (level p : Nat) → List Nat
  | 0, p => [p]
  | level + 1, p => p :: (range 512).flatMap fun i =>
    if has (load mem (p + 8 * i)) pteV then nodes mem level (pte2pa (load mem (p + 8 * i))) else []

def below (mem : Nat → Byte) (level p i : Nat) : List Nat :=
  if has (load mem (p + 8 * i)) pteV then nodes mem level (pte2pa (load mem (p + 8 * i))) else []

def entry (mem : Nat → Byte) (va : Nat) : (level p : Nat) → Pte
  | 0, p => load mem (slot p 0 va)
  | level + 1, p =>
    let e := load mem (slot p (level + 1) va)
    if has e pteV then entry mem va level (pte2pa e) else 0

theorem nodes_zero : nodes mem 0 p = [p] := rfl

theorem nodes_succ : nodes mem (l + 1) p = p :: (range 512).flatMap (below mem l p) := rfl

theorem below_valid (hv : has (load mem (p + 8 * i)) pteV = true) :
    below mem l p i = nodes mem l (pte2pa (load mem (p + 8 * i))) := if_pos hv

theorem below_invalid (hv : ¬ has (load mem (p + 8 * i)) pteV = true) : below mem l p i = [] := if_neg hv

-- unfolding them would enumerate the 512 entries of a node
attribute [irreducible] nodes below

theorem entry_eq : entry mem va l p = ((find mem va l p).map (load mem)).getD 0 := by
  induction l generalizing p with
  | zero => rfl
  | succ l ih =>
    rw [entry, find]
    by_cases hv : has (load mem (slot p (l + 1) va)) pteV = true
    · simp only [hv, if_true, ih]
    · simp only [hv, Bool.false_eq_true, if_false, Option.map_none, Option.getD_none]

theorem lookup_of_entry (h : entry mem va 2 p = w) (hw : w ≠ 0) : lookup mem p va = some w := by
  rw [entry_eq] at h
  unfold lookup
  cases hf : (find mem va 2 p).map (load mem) with
  | none =>
    rw [hf, Option.getD_none] at h
    exact absurd h.symm hw
  | some e =>
    rw [hf, Option.getD_some] at h
    rw [h]

theorem self_mem_nodes : p ∈ nodes mem l p := by
  cases l with
  | zero => exact nodes_zero ▸ mem_singleton_self p
  | succ l => exact nodes_succ ▸ mem_cons_self

theorem mem_nodes_of_below (hi : i < 512) (hq : q ∈ below mem l p i) : q ∈ nodes mem (l + 1) p := by
  rw [nodes_succ]
  exact mem_cons_of_mem p (mem_flatMap.mpr ⟨i, mem_range.mpr hi, hq⟩)

def SameOn (mem mem' : Nat → Byte) (S : List Nat) : Prop := ∀ x, pgrounddown x ∈ S → mem' x = mem x

theorem SameOn.load (h : SameOn mem mem' S) (hp : pgsize ∣ p) (hi : i < 512) (hS : p ∈ S) :
    load mem' (p + 8 * i) = load mem (p + 8 * i) := by
  apply load_congr
  intro j hj
  apply h
  have hpage : pgrounddown (p + 8 * i + j) = p := by
    simp only [pgrounddown, pgsize] at *
    omega
  rwa [hpage]

theorem nodes_congr (hp : pgsize ∣ p) (h : SameOn mem mem' (nodes mem l p)) :
    nodes mem' l p = nodes mem l p ∧ ∀ va, entry mem' va l p = entry mem va l p ∧
      find mem' va l p = find mem va l p := by
  induction l generalizing p with
  | zero =>
    refine ⟨by rw [nodes_zero, nodes_zero], fun va => ⟨?_, rfl⟩⟩
    exact h.load hp px_lt self_mem_nodes
  | succ l ih =>
    have hload : ∀ i < 512, Sv39.load mem' (p + 8 * i) = Sv39.load mem (p + 8 * i) := fun i hi =>
      h.load hp hi self_mem_nodes
    have hchild : ∀ i < 512, has (Sv39.load mem (p + 8 * i)) pteV = true →
        nodes mem' l (pte2pa (Sv39.load mem (p + 8 * i))) = nodes mem l (pte2pa (Sv39.load mem (p + 8 * i))) ∧
          ∀ va, entry mem' va l (pte2pa (Sv39.load mem (p + 8 * i))) =
              entry mem va l (pte2pa (Sv39.load mem (p + 8 * i))) ∧
            find mem' va l (pte2pa (Sv39.load mem (p + 8 * i))) =
              find mem va l (pte2pa (Sv39.load mem (p + 8 * i))) := by
      intro i hi hv
      refine ih pgsize_dvd_pte2pa fun x hx => h x (mem_nodes_of_below hi ?_)
      rwa [below_valid hv]
    constructor
    · rw [nodes_succ, nodes_succ]
      refine congrArg (cons p) (flatMap_congr fun i hi => ?_)
      have hi := mem_range.mp hi
      by_cases hv : has (Sv39.load mem (p + 8 * i)) pteV = true
      · rw [below_valid hv, below_valid (by rw [hload i hi]; exact hv), hload i hi]
        exact (hchild i hi hv).1
      · rw [below_invalid hv, below_invalid (by rw [hload i hi]; exact hv)]
    · intro va
      have hi : px (l + 1) va < 512 := px_lt
      rw [entry, entry, find, find, slot, hload _ hi]
      by_cases hv : has (Sv39.load mem (p + 8 * px (l + 1) va)) pteV = true
      · simp only [hv, if_true]
        exact (hchild _ hi hv).2 va
      · simp only [hv, if_false, Bool.false_eq_true, and_self]

structure Change (l p : Nat) (mem mem' : Nat → Byte) (T : List Nat) : Prop where
  grown : (nodes mem' l p).Perm (nodes mem l p ++ T)
  frame : ∀ x, pgrounddown x ∉ nodes mem l p → pgrounddown x ∉ T → mem' x = mem x

theorem Change.refl : Change l p mem mem [] := ⟨by rw [append_nil], fun _ _ _ => rfl⟩

theorem Change.trans (h : Change l p mem mem' T) (h' : Change l p mem' mem'' T') :
    Change l p mem mem'' (T ++ T') where
  grown := by
    rw [← append_assoc]
    exact h'.grown.trans (h.grown.append_right T')
  frame := by
    intro x hx hT
    rw [mem_append, not_or] at hT
    have hx' : pgrounddown x ∉ nodes mem' l p := by
      rw [h.grown.mem_iff, mem_append, not_or]
      exact ⟨hx, hT.1⟩
    rw [h'.frame x hx' hT.2, h.frame x hx hT.1]

theorem flatMap_grow {L : List Nat} {f f' : Nat → List Nat} (hL : L.Nodup) (hi : i ∈ L)
    (hne : ∀ j ∈ L, j ≠ i → f' j = f j) (hgrow : (f' i).Perm (f i ++ T)) :
    (L.flatMap f').Perm (L.flatMap f ++ T) := by
  induction L with
  | nil => cases hi
  | cons j L ih =>
    obtain ⟨hj, hL⟩ := nodup_cons.mp hL
    rw [flatMap_cons, flatMap_cons]
    by_cases hji : j = i
    · subst hji
      have hrest : L.flatMap f' = L.flatMap f := flatMap_congr fun k hk =>
        hne k (mem_cons_of_mem j hk) fun heq => hj (heq ▸ hk)
      rw [hrest, append_assoc]
      have hmove : (f j ++ T ++ L.flatMap f).Perm (f j ++ (L.flatMap f ++ T)) := by
        rw [append_assoc]
        exact List.Perm.append_left _ perm_append_comm
      exact (hgrow.append_right _).trans hmove
    · have hi : i ∈ L := (mem_cons.mp hi).resolve_left fun heq => hji heq.symm
      rw [hne j mem_cons_self hji, append_assoc]
      exact List.Perm.append_left _ (ih hL hi fun k hk => hne k (mem_cons_of_mem j hk))

theorem below_disjoint (h : (nodes mem (l + 1) p).Nodup) : (∀ i < 512, p ∉ below mem l p i) ∧
    ∀ i < 512, ∀ j < 512, i ≠ j → (below mem l p i).Disjoint (below mem l p j) := by
  rw [nodes_succ, nodup_cons, nodup_flatMap] at h
  obtain ⟨hself, -, hpair⟩ := h
  refine ⟨fun i hi hmem => hself (mem_flatMap.mpr ⟨i, mem_range.mpr hi, hmem⟩), fun i hi j hj hij => ?_⟩
  have hsymm : Std.Symm (Function.onFun List.Disjoint (below mem l p)) := ⟨fun _ _ h => h.symm⟩
  exact hpair.forall (mem_range.mpr hi) (mem_range.mpr hj) hij

theorem same_below (hp : pgsize ∣ p) (hnodup : (nodes mem (l + 1) p ++ T).Nodup) (hi : i < 512)
    (hframe : ∀ x, pgrounddown x ∉ below mem l p i → pgrounddown x ∉ T → mem' x = mem x) {j : Nat} (hj : j < 512) :
    load mem' (p + 8 * j) = load mem (p + 8 * j) ∧ (j ≠ i → below mem' l p j = below mem l p j ∧
      ∀ va, has (load mem (p + 8 * j)) pteV = true →
        entry mem' va l (pte2pa (load mem (p + 8 * j))) = entry mem va l (pte2pa (load mem (p + 8 * j)))) := by
  obtain ⟨hnodes, -, hT⟩ := nodup_append.mp hnodup
  obtain ⟨hself, hdis⟩ := below_disjoint hnodes
  have hload : load mem' (p + 8 * j) = load mem (p + 8 * j) := by
    refine SameOn.load (S := [p]) (fun x hx => ?_) hp hj (mem_singleton_self p)
    have hx := mem_singleton.mp hx
    refine hframe x (by rw [hx]; exact hself i hi) ?_
    rw [hx]
    exact fun hmem => hT p self_mem_nodes p hmem rfl
  refine ⟨hload, fun hji => ?_⟩
  have hsame : SameOn mem mem' (below mem l p j) := by
    intro x hx
    refine hframe x (fun hmem => hdis j hj i hi hji hx hmem) fun hmem => ?_
    exact hT _ (mem_nodes_of_below hj hx) _ hmem rfl
  constructor
  · by_cases hv : has (load mem (p + 8 * j)) pteV = true
    · rw [below_valid hv] at hsame
      rw [below_valid hv, below_valid (by rw [hload]; exact hv), hload]
      exact (nodes_congr pgsize_dvd_pte2pa hsame).1
    · rw [below_invalid hv, below_invalid (by rw [hload]; exact hv)]
  · intro va hv
    rw [below_valid hv] at hsame
    exact ((nodes_congr pgsize_dvd_pte2pa hsame).2 va).1

theorem Change.up {c : Nat} (h : Change l c mem mem' T) (hp : pgsize ∣ p) (hi : i < 512)
    (hv : has (load mem (p + 8 * i)) pteV = true) (hc : pte2pa (load mem (p + 8 * i)) = c)
    (hnodup : (nodes mem (l + 1) p ++ T).Nodup) :
    Change (l + 1) p mem mem' T ∧ load mem' (p + 8 * i) = load mem (p + 8 * i) ∧
      ∀ vb, entry mem' vb (l + 1) p = if px (l + 1) vb = i then entry mem' vb l c else entry mem vb (l + 1) p := by
  subst hc
  have hframe : ∀ x, pgrounddown x ∉ below mem l p i → pgrounddown x ∉ T → mem' x = mem x := by
    rw [below_valid hv]
    exact h.frame
  have hsame := fun j (hj : j < 512) => same_below hp hnodup hi hframe hj
  refine ⟨⟨?_, fun x hx hT => ?_⟩, (hsame i hi).1, fun vb => ?_⟩
  · rw [nodes_succ, nodes_succ, cons_append]
    refine List.Perm.cons p (flatMap_grow nodup_range (mem_range.mpr hi) (fun j hj hji => ?_) ?_)
    · exact ((hsame j (mem_range.mp hj)).2 hji).1
    · rw [below_valid hv, below_valid (by rw [(hsame i hi).1]; exact hv), (hsame i hi).1]
      exact h.grown
  · exact hframe x (fun hmem => hx (mem_nodes_of_below hi hmem)) hT
  · have hlt : px (l + 1) vb < 512 := px_lt
    have hl := (hsame _ hlt).1
    by_cases hpx : px (l + 1) vb = i
    · rw [if_pos hpx, entry, slot, hl, hpx, if_pos hv]
    · rw [if_neg hpx, entry, entry, slot, hl]
      by_cases hv' : has (load mem (p + 8 * px (l + 1) vb)) pteV = true
      · simp only [hv', if_true]
        exact ((hsame _ hlt).2 hpx).2 vb hv'
      · simp only [hv', if_false, Bool.false_eq_true]

end Tree

section Attach

variable {mem : Nat → Byte} {l p i q : Nat}

theorem nodes_fresh (hq : ∀ j < 512, load mem (q + 8 * j) = 0) : nodes mem l q = [q] ∧ ∀ vb, entry mem vb l q = 0 := by
  have hzero : has 0 pteV = false := by decide
  cases l with
  | zero => exact ⟨nodes_zero, fun vb => hq _ px_lt⟩
  | succ l =>
    constructor
    · rw [nodes_succ, flatMap_eq_nil_iff.mpr]
      intro j hj
      exact below_invalid (by rw [hq j (mem_range.mp hj), hzero]; decide)
    · intro vb
      rw [entry, slot, hq _ px_lt, hzero]
      rfl

/-- Memory after `walk` has put the page `q` under the entry `i` of `p`. -/
def attached (mem : Nat → Byte) (p i q : Nat) : Nat → Byte :=
  store (blit mem q pgsize fun _ => 0) (p + 8 * i) (pa2pte q ||| pteV)

section
variable (hp : pgsize ∣ p) (hq : pgsize ∣ q)
include hp hq

theorem attached_frame (hi : i < 512) {x : Nat} (hxp : pgrounddown x ≠ p)
    (hxq : pgrounddown x ≠ q) : attached mem p i q x = mem x := by
  simp only [attached, store, blit, pgrounddown, pgsize] at *
  rw [if_neg (by omega), if_neg (by omega)]

theorem attached_load (hpq : p ≠ q) (hi : i < 512) {j : Nat} (hj : j < 512) :
    load (attached mem p i q) (p + 8 * j) = (if j = i then pa2pte q ||| pteV else load mem (p + 8 * j)) ∧
      load (attached mem p i q) (q + 8 * j) = 0 := by
  unfold attached
  simp only [pgsize] at hp hq
  constructor
  · split
    next hji => rw [hji, load_store]
    next hji => rw [load_store_ne (by omega), load_blit_ne (by simp only [pgsize]; omega)]
  · rw [load_store_ne (by omega), load_blit_zero (by omega) (by simp only [pgsize]; omega)]

theorem attach (hlt : q < 2 ^ 56) (hi : i < 512)
    (hnone : has (load mem (p + 8 * i)) pteV = false) (hnodup : (nodes mem (l + 1) p ++ [q]).Nodup) :
    Change (l + 1) p mem (attached mem p i q) [q] ∧
      (has (load (attached mem p i q) (p + 8 * i)) pteV = true ∧
        pte2pa (load (attached mem p i q) (p + 8 * i)) = q) ∧
      nodes (attached mem p i q) l q = [q] ∧
      ∀ vb, entry (attached mem p i q) vb (l + 1) p = entry mem vb (l + 1) p := by
  obtain ⟨hnodes, -, hdisq⟩ := nodup_append.mp hnodup
  obtain ⟨hself, hdis⟩ := below_disjoint hnodes
  have hpq : p ≠ q := hdisq p self_mem_nodes q (mem_singleton_self q)
  have hload := fun j (hj : j < 512) => @attached_load mem p i q hp hq hpq hi j hj
  obtain ⟨hfresh, hzero⟩ := nodes_fresh (l := l) fun j hj => (hload j hj).2
  have hnew : load (attached mem p i q) (p + 8 * i) = pa2pte q ||| pteV := by rw [(hload i hi).1, if_pos rfl]
  have hpte : pte2pa (pa2pte q ||| pteV) = q := (pte2pa_pa2pte hq hlt (by decide)).1
  have hframe : ∀ x, pgrounddown x ≠ p → pgrounddown x ≠ q → attached mem p i q x = mem x := fun x hxp hxq =>
    attached_frame hp hq hi hxp hxq
  -- the parts under the other entries keep their pages
  have hsame : ∀ j < 512, j ≠ i → SameOn mem (attached mem p i q) (below mem l p j) := by
    intro j hj hji x hx
    refine hframe x ?_ ?_
    · intro heq
      exact hself j hj (heq ▸ hx)
    · intro heq
      exact hdisq _ (mem_nodes_of_below hj hx) q (mem_singleton_self q) heq
  have hbelow : ∀ j < 512, j ≠ i → below (attached mem p i q) l p j = below mem l p j := by
    intro j hj hji
    have hs := hsame j hj hji
    have hsl : load (attached mem p i q) (p + 8 * j) = load mem (p + 8 * j) := by rw [(hload j hj).1, if_neg hji]
    by_cases hv : has (load mem (p + 8 * j)) pteV = true
    · rw [below_valid hv] at hs
      rw [below_valid hv, below_valid (by rw [hsl]; exact hv), hsl]
      exact (nodes_congr pgsize_dvd_pte2pa hs).1
    · rw [below_invalid hv, below_invalid (by rw [hsl]; exact hv)]
  refine ⟨⟨?_, fun x hx hxq => ?_⟩, ⟨by rw [hnew, has_or_pteV], by rw [hnew, hpte]⟩, hfresh, fun vb => ?_⟩
  · rw [nodes_succ, nodes_succ, cons_append]
    refine List.Perm.cons p (flatMap_grow nodup_range (mem_range.mpr hi) (fun j hj hji => ?_) ?_)
    · exact hbelow j (mem_range.mp hj) hji
    · rw [below_valid (by rw [hnew, has_or_pteV]), hnew, hpte, hfresh, below_invalid (by rw [hnone]; decide),
        nil_append]
  · refine hframe x ?_ ?_
    · rintro rfl
      exact hx self_mem_nodes
    · rintro rfl
      exact hxq (mem_singleton_self _)
  · have hlt' : px (l + 1) vb < 512 := px_lt
    rw [entry, entry, slot, (hload _ hlt').1]
    by_cases hpx : px (l + 1) vb = i
    · rw [if_pos hpx, has_or_pteV, hpte, hzero vb, hpx, hnone]
      rfl
    · rw [if_neg hpx]
      by_cases hv : has (load mem (p + 8 * px (l + 1) vb)) pteV = true
      · have hs := hsame _ hlt' hpx
        rw [below_valid hv] at hs
        simp only [hv, if_true]
        exact ((nodes_congr pgsize_dvd_pte2pa hs).2 vb).1
      · simp only [hv, if_false, Bool.false_eq_true]

end

end Attach

section Walk

variable {s : Machine} {E : String → Prop} {F : List Nat} {l p va : Nat}

/-- The free list from `head` on. -/
def FreeList (mem : Nat → Byte) : (head : Nat) → List Nat → Prop
  | head, [] => head = 0
  | head, r :: rest => head = r ∧ r ≠ 0 ∧ pgsize ∣ r ∧ r < phystop ∧ FreeList mem (load mem r).toNat rest

theorem FreeList.congr {mem mem' : Nat → Byte} {head : Nat} (h : FreeList mem head F) (hsame : SameOn mem mem' F) :
    FreeList mem' head F := by
  induction F generalizing head with
  | nil => exact h
  | cons r rest ih =>
    obtain ⟨hhead, hne, halign, hlt, hrest⟩ := h
    have hload := hsame.load halign (by norm_num : 0 < 512) mem_cons_self
    rw [Nat.mul_zero, Nat.add_zero] at hload
    refine ⟨hhead, hne, halign, hlt, ?_⟩
    rw [hload]
    exact ih hrest fun x hx => hsame x (mem_cons_of_mem r hx)

theorem wp_kalloc (h : FreeList s.mem s.freelist F) : wp kalloc (fun r t => t.mem = s.mem ∧ t.kend = s.kend ∧
    (r = 0 ∧ F = [] ∧ t.freelist = s.freelist ∨
      ∃ rest, F = r :: rest ∧ r ≠ 0 ∧ pgsize ∣ r ∧ r < phystop ∧ FreeList t.mem t.freelist rest)) E s := by
  simp only [kalloc, wp_bind, wp_get, wp_ite, wp_read, wp_modify, wp_pure]
  cases F with
  | nil =>
    have hzero : s.freelist = 0 := h
    exact ⟨fun hne => absurd hzero hne, fun _ => ⟨trivial, trivial, .inl ⟨hzero, rfl, trivial⟩⟩⟩
  | cons r rest =>
    obtain ⟨hhead, hne, halign, hlt, hrest⟩ := h
    rw [hhead]
    exact ⟨fun _ => ⟨trivial, trivial, .inr ⟨rest, rfl, hne, halign, hlt, hrest⟩⟩, fun hz => absurd hne hz⟩

structure Walked (l p va : Nat) (s t : Machine) (F : List Nat) (r : Option Nat) (T F' : List Nat) : Prop where
  split : F = T ++ F'
  change : Change l p s.mem t.mem T
  entry : ∀ vb, entry t.mem vb l p = entry s.mem vb l p
  free : FreeList t.mem t.freelist F'
  kend : t.kend = s.kend
  found : ∀ a, r = some a → find t.mem va l p = some a

theorem wp_walkLoop_true (hp : pgsize ∣ p) (hnodup : (nodes s.mem l p ++ F).Nodup)
    (hfree : FreeList s.mem s.freelist F) :
    wp (walkLoop va true l p) (fun r t => ∃ T F', Walked l p va s t F r T F') E s := by
  induction l generalizing p s F with
  | zero =>
    simp only [walkLoop, wp_pure]
    refine ⟨[], F, rfl, .refl, fun _ => rfl, hfree, rfl, fun a ha => ?_⟩
    rw [← ha]
    rfl
  | succ l ih =>
    have hi : px (l + 1) va < 512 := px_lt
    simp only [walkLoop, wp_bind, wp_read, wp_ite, slot]
    refine ⟨fun hv => ?_, fun hv => ⟨fun h => absurd h (by decide), fun _ => ?_⟩⟩
    · have hsub : (nodes s.mem l (pte2pa (load s.mem (p + 8 * px (l + 1) va))) ++ F).Nodup := by
        obtain ⟨hn, hF, hdis⟩ := nodup_append.mp hnodup
        rw [nodes_succ, nodup_cons, nodup_flatMap] at hn
        have hin := hn.2.1 _ (mem_range.mpr hi)
        rw [below_valid hv] at hin
        refine nodup_append.mpr ⟨hin, hF, fun a ha => hdis a (mem_nodes_of_below hi ?_)⟩
        rwa [below_valid hv]
      refine (ih pgsize_dvd_pte2pa hsub hfree).mono ?_ fun _ => id
      rintro r t ⟨T, F', hw⟩
      have hn : (nodes s.mem (l + 1) p ++ T).Nodup := by
        rw [hw.split, ← append_assoc] at hnodup
        exact (nodup_append.mp hnodup).1
      obtain ⟨hchange, hload, hentry⟩ := hw.change.up hp hi hv rfl hn
      refine ⟨T, F', hw.split, hchange, fun vb => ?_, hw.free, hw.kend, fun a ha => ?_⟩
      · rw [hentry vb]
        split
        next hpx => rw [hw.entry vb, Sv39.entry, slot, hpx, if_pos hv]
        next => rfl
      · rw [find, slot, hload, if_pos hv]
        exact hw.found a ha
    · have hnone : has (load s.mem (p + 8 * px (l + 1) va)) pteV = false := by simpa using hv
      refine (wp_kalloc hfree).mono ?_ fun _ => id
      rintro q t ⟨hmem, hkend, hcase⟩
      refine ⟨?_, fun hne => ?_⟩
      · rintro rfl
        rcases hcase with ⟨-, hF, hhead⟩ | ⟨rest, -, hne, -⟩
        · refine wp_pure.mpr ⟨[], F, rfl, ?_, fun vb => by rw [hmem], by rw [hmem, hhead]; exact hfree, hkend, ?_⟩
          · rw [hmem]
            exact .refl
          · rintro a ⟨⟩
        · exact absurd rfl hne
      · rcases hcase with ⟨hz, -⟩ | ⟨rest, rfl, -, halign, hlt, hfree'⟩
        · exact absurd hz hne
        have hsplit : (nodes s.mem (l + 1) p ++ [q] ++ rest).Nodup := by
          rwa [append_assoc, singleton_append]
        obtain ⟨hnq, hrest, hdisrest⟩ := nodup_append.mp hsplit
        obtain ⟨hch, ⟨hv', hpte⟩, hfresh, hent⟩ := attach hp halign (hlt.trans (by norm_num)) hi hnone hnq
        simp only [wp_memmove, wp_write]
        rw [hmem]
        have hmem2 : store (blit s.mem q pgsize fun _ => 0) (p + 8 * px (l + 1) va) (pa2pte q ||| pteV) =
          attached s.mem p (px (l + 1) va) q := rfl
        rw [hmem2]
        have hfree2 : FreeList (attached s.mem p (px (l + 1) va) q) t.freelist rest := by
          refine (hmem ▸ hfree').congr fun x hx => hch.frame x ?_ ?_
          · exact fun hmem => hdisrest _ (mem_append_left _ hmem) _ hx rfl
          · exact fun hmem => hdisrest _ (mem_append_right _ hmem) _ hx rfl
        have hnodup2 : (nodes (attached s.mem p (px (l + 1) va) q) l q ++ rest).Nodup := by
          rw [hfresh]
          refine nodup_append.mpr ⟨nodup_singleton q, hrest, fun a ha => ?_⟩
          exact hdisrest a (mem_append_right _ ha)
        refine (@ih { t with mem := attached s.mem p (px (l + 1) va) q } rest q halign hnodup2 hfree2).mono ?_ fun _ => id
        rintro r u ⟨T, F', hw⟩
        have hsplit' := hw.split
        have hn : (nodes (attached s.mem p (px (l + 1) va) q) (l + 1) p ++ T).Nodup := by
          rw [(hch.grown.append_right T).nodup_iff]
          rw [hsplit', ← append_assoc] at hsplit
          exact (nodup_append.mp hsplit).1
        obtain ⟨hchange, hload, hentry⟩ := hw.change.up hp hi hv' hpte hn
        refine ⟨q :: T, F', by rw [hsplit']; rfl, hch.trans hchange, fun vb => ?_, hw.free, hw.kend.trans hkend,
          fun a ha => ?_⟩
        · rw [hentry vb, ← hent vb]
          split
          next hpx => rw [hw.entry vb, Sv39.entry, slot, hpx, if_pos hv', hpte]
          next => rfl
        · rw [find, slot, hload, if_pos hv', hpte]
          exact hw.found a ha

end Walk

section Write

variable {mem : Nat → Byte} {l p va a : Nat} {w : Pte}

theorem write_entry (hp : pgsize ∣ p) (hnodup : (nodes mem l p).Nodup) (hf : find mem va l p = some a) :
    Change l p mem (store mem a w) [] ∧
      ∀ vb, entry (store mem a w) vb l p = if ∀ k ≤ l, px k vb = px k va then w else entry mem vb l p := by
  induction l generalizing p with
  | zero =>
    rw [find, Option.some.injEq] at hf
    subst hf
    refine ⟨⟨by rw [nodes_zero, nodes_zero, append_nil], fun x hx _ => ?_⟩, fun vb => ?_⟩
    · have hlt := @px_lt 0 va
      have hx : pgrounddown x ≠ p := fun heq => hx (heq ▸ self_mem_nodes)
      rw [store, blit, if_neg]
      simp only [slot, pgrounddown, pgsize] at *
      omega
    · have h8 : ∀ v, 8 ∣ slot p 0 v := fun v => Nat.dvd_add ((by norm_num : 8 ∣ pgsize).trans hp) (Dvd.intro _ rfl)
      rw [entry, load_store_of_dvd (h8 va) (h8 vb)]
      have hiff : slot p 0 vb = slot p 0 va ↔ ∀ k ≤ 0, px k vb = px k va := by
        simp only [slot, Nat.le_zero, forall_eq]
        omega
      simp only [hiff, entry]
  | succ l ih =>
    have hi : px (l + 1) va < 512 := px_lt
    rw [find, slot] at hf
    by_cases hv : has (load mem (p + 8 * px (l + 1) va)) pteV = true
    · rw [if_pos hv] at hf
      have hchild : (nodes mem l (pte2pa (load mem (p + 8 * px (l + 1) va)))).Nodup := by
        rw [nodes_succ, nodup_cons, nodup_flatMap] at hnodup
        have hin := hnodup.2.1 _ (mem_range.mpr hi)
        rwa [below_valid hv] at hin
      obtain ⟨hch, hent⟩ := ih pgsize_dvd_pte2pa hchild hf
      obtain ⟨hchange, -, hentry⟩ := hch.up hp hi hv rfl (by rwa [append_nil])
      refine ⟨hchange, fun vb => ?_⟩
      rw [hentry vb]
      have hall : (∀ k ≤ l + 1, px k vb = px k va) ↔ px (l + 1) vb = px (l + 1) va ∧ ∀ k ≤ l, px k vb = px k va := by
        constructor
        · exact fun h => ⟨h (l + 1) (Nat.le_refl _), fun k hk => h k (by omega)⟩
        · rintro ⟨h, h'⟩ k hk
          rcases Nat.eq_or_lt_of_le hk with rfl | hk
          · exact h
          · exact h' k (by omega)
      by_cases hpx : px (l + 1) vb = px (l + 1) va
      · have hdown : entry mem vb (l + 1) p = entry mem vb l (pte2pa (load mem (p + 8 * px (l + 1) va))) := by
          rw [entry, slot, hpx, if_pos hv]
        simp only [hpx, if_true, hent vb, hall, true_and, hdown]
      · simp only [hall, hpx, false_and, if_false]
    · rw [if_neg hv] at hf
      cases hf

theorem same_page_iff {vb : Nat} (hva : va < maxva) (hvb : vb < maxva) :
    (∀ k ≤ 2, px k vb = px k va) ↔ vb / pgsize = va / pgsize := by
  constructor
  · intro h
    have h0 := h 0 (by norm_num)
    have h1 := h 1 (by norm_num)
    have h2 := h 2 (by norm_num)
    simp only [px, maxva, pgsize] at *
    omega
  · exact fun h k _ => px_page h

end Write

end Xv6.Sv39
