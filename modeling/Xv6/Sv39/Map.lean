import Xv6.Sv39.Tree

/-!
The page table as a map from pages to entries, and what `mappages` and `uvmunmap` do to it.
-/

namespace Xv6.Sv39

open Prog List Nat

section Code

def mapLoop (pagetable : Nat) (perm : Pte) (last : Nat) : (fuel a pa : Nat) → M Bool
  | 0, _, _ => return true
  | fuel + 1, a, pa => do
    match ← walk pagetable a true with
    | none => return false
    | some pte =>
      let e ← read pte
      if has e pteV then throw "mappages: remap"
      write pte (pa2pte pa ||| perm ||| pteV)
      if a = last then return true
      else mapLoop pagetable perm last fuel (uint64 (a + pgsize)) (uint64 (pa + pgsize))

/-- `true` for 0, `false` for -1. -/
def mappages (pagetable va size pa : Nat) (perm : Pte) : M Bool := do
  if va % pgsize ≠ 0 then throw "mappages: va not aligned"
  if size % pgsize ≠ 0 then throw "mappages: size not aligned"
  if size = 0 then throw "mappages: size"
  mapLoop pagetable perm (uint64 (va + size - pgsize)) (size / pgsize) va pa

/-- `if(do_free)` of `uvmunmap`. -/
def freeFrame (doFree : Bool) (e : Pte) : M Unit := if doFree then kfree (pte2pa e) else return ()

def unmapLoop (pagetable : Nat) (doFree : Bool) (stop : Nat) : (fuel a : Nat) → M Unit
  | 0, _ => return ()
  | fuel + 1, a => do
    if a < stop then
      match ← walk pagetable a false with
      | none => throw "uvmunmap: walk"
      | some pte =>
        let e ← read pte
        if !has e pteV then throw "uvmunmap: not mapped"
        if pteFlags e = pteV then throw "uvmunmap: not a leaf"
        freeFrame doFree e
        write pte 0
        unmapLoop pagetable doFree stop fuel (uint64 (a + pgsize))

def uvmunmap (pagetable va npages : Nat) (doFree : Bool) : M Unit := do
  if va % pgsize ≠ 0 then throw "uvmunmap: not aligned"
  unmapLoop pagetable doFree (uint64 (va + npages * pgsize)) npages va

end Code

section Map

variable {s t : Machine} {E : String → Prop} {root va a n : Nat} {F : List Nat} {perm w : Pte}

/-- A page table, a tree whose nodes are distinct pages, beside the free list. -/
structure WellFormed (s : Machine) (root : Nat) (F : List Nat) : Prop where
  aligned : pgsize ∣ root
  nodup : (nodes s.mem 2 root ++ F).Nodup
  free : FreeList s.mem s.freelist F

theorem WellFormed.nodes_nodup (h : WellFormed s root F) : (nodes s.mem 2 root).Nodup := (nodup_append.mp h.nodup).1

theorem WellFormed.disjoint (h : WellFormed s root F) {x : Nat} (hx : x ∈ nodes s.mem 2 root) : x ∉ F :=
  fun hF => (nodup_append.mp h.nodup).2.2 x hx x hF rfl

/-- The pages of the table and the free ones are moved about, with the pages `G` added to them. No other
page is written. -/
structure Moves (s t : Machine) (root : Nat) (F F' G : List Nat) : Prop where
  pages : (nodes t.mem 2 root ++ F').Perm (nodes s.mem 2 root ++ F ++ G)
  frame : ∀ x, pgrounddown x ∉ nodes s.mem 2 root ++ F ++ G → t.mem x = s.mem x
  kend : t.kend = s.kend

theorem Moves.refl : Moves s s root F F [] := ⟨by rw [append_nil], fun _ _ => rfl, rfl⟩

theorem Moves.trans {u : Machine} {F' F'' G G' : List Nat} (h : Moves s t root F F' G) (h' : Moves t u root F' F'' G') :
    Moves s u root F F'' (G ++ G') where
  pages := by
    rw [← append_assoc]
    exact h'.pages.trans (h.pages.append_right G')
  frame := by
    intro x hx
    rw [← append_assoc, mem_append, not_or] at hx
    rw [h'.frame x, h.frame x hx.1]
    rw [mem_append, h.pages.mem_iff, not_or]
    exact hx
  kend := h'.kend.trans h.kend

theorem wp_walk_true (h : WellFormed s root F) (hva : va < maxva) : wp (walk root va true)
    (fun r t => (∃ F', WellFormed t root F' ∧ Moves s t root F F' []) ∧
      (∀ vb, entry t.mem vb 2 root = entry s.mem vb 2 root) ∧
      ∀ a, r = some a → find t.mem va 2 root = some a) E s := by
  simp only [walk, wp_bind, wp_ite, ge_iff_le, not_le.mpr hva, false_implies, true_and, not_false_eq_true,
    true_implies]
  refine (wp_walkLoop_true h.aligned h.nodup h.free).mono ?_ fun _ => id
  rintro r t ⟨T, F', hw⟩
  have hpages : (nodes t.mem 2 root ++ F').Perm (nodes s.mem 2 root ++ F) := by
    rw [hw.split, ← append_assoc]
    exact hw.change.grown.append_right F'
  refine ⟨⟨F', ⟨h.aligned, hpages.nodup_iff.mpr h.nodup, hw.free⟩, ?_, fun x hx => ?_, hw.kend⟩, hw.entry, hw.found⟩
  · rwa [append_nil]
  · rw [append_nil, mem_append, not_or] at hx
    refine hw.change.frame x hx.1 fun hT => hx.2 ?_
    rw [hw.split]
    exact mem_append_left F' hT

theorem WellFormed.write (h : WellFormed s root F) (hva : va < maxva) (hf : find s.mem va 2 root = some a) (w : Pte) :
    WellFormed { s with mem := store s.mem a w } root F ∧ Moves s { s with mem := store s.mem a w } root F F [] ∧
      ∀ vb < maxva, entry (store s.mem a w) vb 2 root =
        if vb / pgsize = va / pgsize then w else entry s.mem vb 2 root := by
  obtain ⟨hch, hent⟩ := @write_entry s.mem 2 root va a w h.aligned h.nodes_nodup hf
  have hperm := hch.grown
  rw [append_nil] at hperm
  refine ⟨⟨h.aligned, ?_, ?_⟩, ⟨?_, fun x hx => ?_, rfl⟩, fun vb hvb => ?_⟩
  · rw [(hperm.append_right F).nodup_iff]
    exact h.nodup
  · refine h.free.congr fun x hx => hch.frame x (fun hmem => h.disjoint hmem hx) not_mem_nil
  · rw [append_nil]
    exact hperm.append_right F
  · rw [append_nil, mem_append, not_or] at hx
    exact hch.frame x hx.1 not_mem_nil
  · simp only [hent vb, same_page_iff hva hvb]

theorem entry_of_find {mem : Nat → Byte} {l p : Nat} (hf : find mem va l p = some a) : load mem a = entry mem va l p := by
  rw [entry_eq, hf, Option.map_some, Option.getD_some]

theorem in_first_page {v : Nat} (ha : pgsize ∣ a) : v / pgsize = a / pgsize ↔ a ≤ v ∧ v < a + pgsize := by
  simp only [pgsize] at *
  omega

def Mapped (s t : Machine) (root a k : Nat) (f : Nat → Pte) : Prop :=
  ∀ v < maxva, entry t.mem v 2 root = if a ≤ v ∧ v < a + k * pgsize then f v else entry s.mem v 2 root

theorem Mapped.cons {s t u : Machine} {root a k : Nat} {f g : Nat → Pte} (ha : pgsize ∣ a)
    (h : ∀ v < maxva, entry t.mem v 2 root = if v / pgsize = a / pgsize then f v else entry s.mem v 2 root)
    (h' : Mapped t u root (a + pgsize) k g) (hfg : ∀ v, a + pgsize ≤ v → g v = f v) :
    Mapped s u root a (k + 1) f := by
  intro v hv
  rw [h' v hv, h v hv]
  simp only [in_first_page ha]
  by_cases hfirst : a ≤ v ∧ v < a + pgsize
  · rw [if_neg (by omega), if_pos hfirst, if_pos (by simp only [pgsize] at *; omega)]
  · by_cases hrest : a + pgsize ≤ v ∧ v < a + pgsize + k * pgsize
    · rw [if_pos hrest, hfg v hrest.1, if_pos (by simp only [pgsize] at *; omega)]
    · rw [if_neg hrest, if_neg hfirst, if_neg (by simp only [pgsize] at *; omega)]

theorem Mapped.none {s : Machine} {root a : Nat} {f : Nat → Pte} : Mapped s s root a 0 f := by
  intro v _
  rw [zero_mul, add_zero, if_neg (by omega)]

theorem wp_mapRound {Q : Bool → Machine → Prop} {last fuel pa : Nat} (h : WellFormed s root F) (hva : a < maxva)
    (hfail : ∀ t F', WellFormed t root F' → Moves s t root F F' [] →
      (∀ vb, entry t.mem vb 2 root = entry s.mem vb 2 root) → Q false t)
    (hremap : has (entry s.mem a 2 root) pteV = true → E "mappages: remap")
    (hnext : ∀ t F', WellFormed t root F' → Moves s t root F F' [] → (∀ v < maxva, entry t.mem v 2 root =
      if v / pgsize = a / pgsize then pa2pte pa ||| perm ||| pteV else entry s.mem v 2 root) →
      wp (if a = last then pure true else mapLoop root perm last fuel (uint64 (a + pgsize)) (uint64 (pa + pgsize))) Q E t) :
    wp (mapLoop root perm last (fuel + 1) a pa) Q E s := by
  simp only [mapLoop]
  refine (wp_walk_true h hva).bind ?_
  rintro r t ⟨⟨F', ht, hmoves⟩, hentry, hfound⟩
  cases r with
  | none => exact wp_pure.mpr (hfail t F' ht hmoves hentry)
  | some pte =>
    have hf := hfound pte rfl
    have hload : load t.mem pte = entry s.mem a 2 root := by rw [entry_of_find hf, hentry]
    simp only [wp_bind, wp_read, wp_ite, wp_throw, wp_pure, hload]
    refine ⟨hremap, fun _ => ?_⟩
    obtain ⟨hwf, hmoves', hset⟩ := ht.write hva hf (pa2pte pa ||| perm ||| pteV)
    rw [wp_write]
    have hrest := hnext _ F' hwf (hmoves.trans hmoves') fun v hv => by rw [hset v hv, hentry]
    rw [wp_ite] at hrest
    simpa only [wp_pure] using hrest

theorem wp_mapLoop {pa : Nat} (h : WellFormed s root F) (ha : pgsize ∣ a) (hn : a + (n + 1) * pgsize ≤ maxva) :
    wp (mapLoop root perm (a + n * pgsize) (n + 1) a pa) (fun ok t => ∃ k ≤ n + 1, (ok = true → k = n + 1) ∧
      (∃ F', WellFormed t root F') ∧
      Mapped s t root a k fun v => pa2pte (pa + (pgrounddown v - a)) ||| perm ||| pteV)
      (fun e => e = "mappages: remap" ∧ ∃ v, a ≤ v ∧ v < a + (n + 1) * pgsize ∧
        has (entry s.mem v 2 root) pteV = true) s := by
  have hpos : 0 < pgsize := by norm_num
  have hfirst : ∀ v, v / pgsize = a / pgsize → pgrounddown v - a = 0 := by
    intro v hv
    simp only [pgrounddown, pgsize] at *
    omega
  induction n generalizing s a pa F with
  | zero =>
    refine wp_mapRound h (by omega) (fun t F' ht _ hent => ?_) (fun hv => ⟨rfl, a, le_refl a, by omega, hv⟩)
      fun t F' ht _ hset => ?_
    · exact ⟨0, by omega, by rintro ⟨⟩, ⟨F', ht⟩, fun v hv => by rw [hent, zero_mul, add_zero, if_neg (by omega)]⟩
    · rw [if_pos (by omega), wp_pure]
      refine ⟨1, le_refl 1, fun _ => rfl, ⟨F', ht⟩, Mapped.cons ha (fun v hv => ?_) .none fun _ _ => rfl⟩
      rw [hset v hv]
      split
      next hpage => rw [hfirst v hpage, add_zero]
      next => rfl
  | succ n ih =>
    have hsucc : (n + 1 + 1) * pgsize = pgsize + (n + 1) * pgsize := by ring
    have hsucc' : (n + 1) * pgsize = pgsize + n * pgsize := by ring
    refine wp_mapRound h (by omega) (fun t F' ht _ hent => ?_) (fun hv => ⟨rfl, a, le_refl a, by omega, hv⟩)
      fun t F' ht _ hset => ?_
    · exact ⟨0, by omega, by rintro ⟨⟩, ⟨F', ht⟩, fun v hv => by rw [hent, zero_mul, add_zero, if_neg (by omega)]⟩
    · have haddr : uint64 (a + pgsize) = a + pgsize := by
        apply mod_eq_of_lt
        simp only [maxva, pgsize] at *
        omega
      have hlast : a + (n + 1) * pgsize = a + pgsize + n * pgsize := by omega
      have ha' : pgsize ∣ a + pgsize := dvd_add ha (dvd_refl pgsize)
      rw [if_neg (by omega), haddr, hlast]
      refine (ih ht ha' (by omega) ?_).mono ?_ ?_
      · intro v hv
        simp only [pgrounddown, pgsize] at *
        omega
      · rintro ok u ⟨k, hk, hok, hu, hmap⟩
        refine ⟨k + 1, by omega, fun h => by rw [hok h], hu, Mapped.cons ha (fun v hv => ?_) hmap fun v hv => ?_⟩
        · rw [hset v hv]
          split
          next hpage => rw [hfirst v hpage, add_zero]
          next => rfl
        · have hoff : pa + pgsize + (pgrounddown v - (a + pgsize)) = pa + (pgrounddown v - a) := by
            simp only [pgrounddown, pgsize] at *
            omega
          rw [pa2pte_uint64, hoff]
      · rintro e ⟨he, v, hv, hlt, hvalid⟩
        refine ⟨he, v, by omega, by omega, ?_⟩
        rwa [hset v (by omega), if_neg] at hvalid
        rw [in_first_page ha]
        omega

theorem wp_mappages_one {pa : Nat} (h : WellFormed s root F) (ha : pgsize ∣ a) (hva : a < maxva)
    (hnone : has (entry s.mem a 2 root) pteV = false) : wp (mappages root a pgsize pa perm)
      (fun ok t => ∃ F', WellFormed t root F' ∧ Moves s t root F F' [] ∧ ∀ v < maxva, entry t.mem v 2 root =
        if ok = true ∧ v / pgsize = a / pgsize then pa2pte pa ||| perm ||| pteV else entry s.mem v 2 root) E s := by
  have hlast : uint64 (a + pgsize - pgsize) = a := by
    rw [Nat.add_sub_cancel]
    apply mod_eq_of_lt
    simp only [maxva] at *
    omega
  have hpos : pgsize ≠ 0 ∧ pgsize % pgsize = 0 ∧ pgsize / pgsize = 0 + 1 := by norm_num
  simp only [mappages, wp_bind, wp_ite, mod_eq_zero_of_dvd ha, hpos.1, hpos.2.1, hpos.2.2, hlast, ne_eq,
    not_true_eq_false, false_implies, true_and, not_false_eq_true, true_implies]
  refine wp_mapRound h hva (fun t F' ht hmoves hent => ?_) (fun hv => ?_) fun t F' ht hmoves hset => ?_
  · exact ⟨F', ht, hmoves, fun v _ => by rw [hent, if_neg (by simp)]⟩
  · rw [hnone] at hv
    cases hv
  · rw [if_pos rfl, wp_pure]
    exact ⟨F', ht, hmoves, fun v hv => by simp only [hset v hv, true_and]⟩

end Map

section Unmap

variable {s t : Machine} {E : String → Prop} {root a n pa : Nat} {F : List Nat} {doFree : Bool}

/-- What `uvmunmap` asks of an entry. -/
def Leaf (e : Pte) : Prop := has e pteV = true ∧ pteFlags e ≠ pteV

def frames (s : Machine) (root a n : Nat) : List Nat :=
  (range n).map fun i => pte2pa (entry s.mem (a + i * pgsize) 2 root)

/-- Frames that may be freed: pages of the allocator, each mapped once, that are neither free nor pages
of the table. -/
structure Freeable (s : Machine) (root : Nat) (F fs : List Nat) : Prop where
  nodup : (nodes s.mem 2 root ++ F ++ fs).Nodup
  ram : ∀ f ∈ fs, f ≠ 0 ∧ pgsize ∣ f ∧ s.kend ≤ f ∧ f < phystop

theorem frames_succ : frames s root a (n + 1) = pte2pa (entry s.mem a 2 root) :: frames s root (a + pgsize) n := by
  unfold frames
  rw [range_succ_eq_map, map_cons, map_map, zero_mul, add_zero]
  refine congrArg (cons _) (map_congr_left fun i _ => ?_)
  have haddr : a + succ i * pgsize = a + pgsize + i * pgsize := by
    rw [succ_mul]
    omega
  rw [Function.comp_apply, haddr]

theorem FreeList.head_lt {mem : Nat → Byte} {head : Nat} (h : FreeList mem head F) : head < 2 ^ 64 := by
  cases F with
  | nil =>
    have : head = 0 := h
    omega
  | cons r rest =>
    obtain ⟨rfl, -, -, hlt, -⟩ := h
    simp only [phystop] at hlt
    omega

theorem wp_kfree (h : WellFormed s root F) (hne : pa ≠ 0) (halign : pgsize ∣ pa) (hkend : s.kend ≤ pa)
    (hlt : pa < phystop) (hnode : pa ∉ nodes s.mem 2 root) (hF : pa ∉ F) :
    wp (kfree pa) (fun _ t => WellFormed t root (pa :: F) ∧ Moves s t root F (pa :: F) [pa] ∧
      ∀ v, entry t.mem v 2 root = entry s.mem v 2 root ∧ find t.mem v 2 root = find s.mem v 2 root) E s := by
  have hcheck : ¬ (pa % pgsize ≠ 0 ∨ pa < s.kend ∨ pa ≥ phystop) := by
    have := mod_eq_zero_of_dvd halign
    omega
  simp only [kfree, wp_bind, wp_get, wp_ite, hcheck, false_implies, true_and, not_false_eq_true, true_implies, wp_write,
    wp_modify]
  have hother : ∀ S : List Nat, pa ∉ S → SameOn s.mem (store s.mem pa (BitVec.ofNat 64 s.freelist)) S := by
    intro S hS x hx
    have hxp : pgrounddown x ≠ pa := fun heq => hS (heq ▸ hx)
    simp only [store, blit, pgrounddown, pgsize] at *
    rw [if_neg (by omega)]
  obtain ⟨hnodes, hsame⟩ := nodes_congr h.aligned (hother _ hnode)
  refine ⟨⟨h.aligned, ?_, rfl, hne, halign, hlt, ?_⟩, ⟨?_, fun x hx => ?_, rfl⟩, hsame⟩
  · rw [hnodes, perm_middle.nodup_iff, nodup_cons, mem_append, not_or]
    exact ⟨⟨hnode, hF⟩, h.nodup⟩
  · rw [load_store, BitVec.toNat_ofNat, mod_eq_of_lt h.free.head_lt]
    exact h.free.congr (hother F hF)
  · rw [hnodes, append_assoc]
    exact List.Perm.append_left _ (perm_append_singleton pa F).symm
  · rw [mem_append, not_or] at hx
    exact hother [pgrounddown x] (fun hmem => hx.2 (mem_singleton.mp hmem ▸ mem_singleton_self _)) x
      (mem_singleton_self _)

theorem wp_freeFrame {fs : List Nat} {e : Pte} (h : WellFormed s root F)
    (hfree : doFree = true → Freeable s root F (pte2pa e :: fs)) :
    wp (freeFrame doFree e) (fun _ t => ∃ F', WellFormed t root F' ∧
      Moves s t root F F' (if doFree then [pte2pa e] else []) ∧ (doFree = true → Freeable t root F' fs) ∧
      ∀ v, entry t.mem v 2 root = entry s.mem v 2 root ∧ find t.mem v 2 root = find s.mem v 2 root) E s := by
  cases doFree with
  | false => exact wp_pure.mpr ⟨F, h, .refl, by rintro ⟨⟩, fun _ => ⟨rfl, rfl⟩⟩
  | true =>
    obtain ⟨hnodup, hram⟩ := hfree rfl
    obtain ⟨hne, halign, hkend, hlt⟩ := hram _ mem_cons_self
    rw [perm_middle.nodup_iff, nodup_cons] at hnodup
    obtain ⟨hnot, hnodup⟩ := hnodup
    rw [mem_append, mem_append, not_or, not_or] at hnot
    refine (wp_kfree h hne halign hkend hlt hnot.1.1 hnot.1.2).mono ?_ fun _ => id
    rintro _ t ⟨hwf, hmoves, hsame⟩
    refine ⟨_, hwf, hmoves, fun _ => ⟨?_, fun f hf => ?_⟩, hsame⟩
    · have hperm : (nodes t.mem 2 root ++ pte2pa e :: F ++ fs).Perm (pte2pa e :: (nodes s.mem 2 root ++ F ++ fs)) := by
        refine (hmoves.pages.append_right fs).trans ?_
        rw [append_assoc _ [pte2pa e] fs]
        exact perm_middle
      rw [hperm.nodup_iff, nodup_cons, mem_append, mem_append, not_or, not_or]
      exact ⟨hnot, hnodup⟩
    · rw [hmoves.kend]
      exact hram f (mem_cons_of_mem _ hf)

def freed (s : Machine) (root : Nat) (doFree : Bool) (a n : Nat) : List Nat := if doFree then frames s root a n else []

section
variable (h : WellFormed s root F) (ha : pgsize ∣ a) (hn : a + n * pgsize ≤ maxva)
  (hfree : doFree = true → Freeable s root F (frames s root a n))
include h ha hn hfree

theorem wp_unmapLoop : wp (unmapLoop root doFree (a + n * pgsize) n a) (fun _ t => (∃ F', WellFormed t root F' ∧
      Moves s t root F F' (freed s root doFree a n)) ∧ Mapped s t root a n fun _ => 0)
      (fun _ => ∃ v, a ≤ v ∧ v < a + n * pgsize ∧ ¬ Leaf (entry s.mem v 2 root)) s := by
  have hpos : 0 < pgsize := by norm_num
  induction n generalizing s a F with
  | zero =>
    have hnone : freed s root doFree a 0 = [] := by cases doFree <;> rfl
    exact wp_pure.mpr ⟨⟨F, h, hnone ▸ .refl⟩, .none⟩
  | succ n ih =>
    have hsucc : (n + 1) * pgsize = pgsize + n * pgsize := by ring
    have hva : a < maxva := by omega
    have hin : a < a + (n + 1) * pgsize := by omega
    simp only [unmapLoop, if_pos hin]
    refine (wp_walk_false hva).bind ?_
    rintro r t ⟨rfl, rfl⟩
    cases hf : find t.mem a 2 root with
    | none =>
      have hzero : entry t.mem a 2 root = 0 := by rw [entry_eq, hf]; rfl
      refine wp_throw.mpr ⟨a, le_refl a, hin, ?_⟩
      rw [hzero]
      rintro ⟨hv, -⟩
      exact absurd hv (by decide)
    | some pte =>
      have hload : load t.mem pte = entry t.mem a 2 root := entry_of_find hf
      simp only [wp_bind, wp_read, wp_ite, wp_throw, hload]
      refine ⟨fun hv => ⟨a, le_refl a, hin, fun hl => ?_⟩, fun hv => ⟨fun hl => ⟨a, le_refl a, hin, fun h => h.2 hl⟩,
        fun hl => ?_⟩⟩
      · simp [hl.1] at hv
      · rw [frames_succ] at hfree
        refine (wp_freeFrame h hfree).mono ?_ fun _ => id
        rintro _ u ⟨F', hu, hmoves, hfree', hsame⟩
        obtain ⟨hwf, hmoves', hset⟩ := hu.write hva ((hsame a).2.trans hf) 0
        rw [wp_write]
        have haddr : uint64 (a + pgsize) = a + pgsize := by
          apply mod_eq_of_lt
          simp only [maxva, pgsize] at *
          omega
        have hstop : a + (n + 1) * pgsize = a + pgsize + n * pgsize := by omega
        have ha' : pgsize ∣ a + pgsize := dvd_add ha (dvd_refl pgsize)
        have hset' : ∀ v < maxva, entry (store u.mem pte 0) v 2 root =
            if v / pgsize = a / pgsize then 0 else entry t.mem v 2 root := fun v hv => by
          rw [hset v hv, (hsame v).1]
        -- the entries of the pages that follow are the same
        have hlater : ∀ v, a + pgsize ≤ v → v < a + pgsize + n * pgsize →
            entry (store u.mem pte 0) v 2 root = entry t.mem v 2 root := by
          intro v hle hlt
          rw [hset' v (by omega), if_neg]
          rw [in_first_page ha]
          omega
        have hframes : frames { u with mem := store u.mem pte 0 } root (a + pgsize) n = frames t root (a + pgsize) n := by
          unfold frames
          refine map_congr_left fun i hi => ?_
          have hi := mem_range.mp hi
          have hmul : i * pgsize < n * pgsize := mul_lt_mul_of_pos_right hi hpos
          rw [hlater _ (by omega) (by omega)]
        rw [haddr, hstop]
        refine (@ih { u with mem := store u.mem pte 0 } (a + pgsize) F' hwf ha' (by omega) ?_).mono ?_ ?_
        · intro hd
          rw [hframes]
          obtain ⟨hnodup, hram⟩ := hfree' hd
          refine ⟨?_, hram⟩
          have hpages := hmoves'.pages
          rw [append_nil] at hpages
          rw [(hpages.append_right _).nodup_iff]
          exact hnodup
        · rintro _ v ⟨⟨F'', hv, hlast⟩, hmap⟩
          refine ⟨⟨F'', hv, ?_⟩, Mapped.cons ha hset' hmap fun _ _ => rfl⟩
          have hall := (hmoves.trans hmoves').trans hlast
          have hfreed : (if doFree then [pte2pa (entry t.mem a 2 root)] else []) ++ [] ++
              freed { u with mem := store u.mem pte 0 } root doFree (a + pgsize) n = freed t root doFree a (n + 1) := by
            unfold freed
            rw [hframes, frames_succ]
            cases doFree <;> rfl
          rwa [hfreed] at hall
        · rintro e ⟨v, hle, hlt, hbad⟩
          refine ⟨v, by omega, by omega, ?_⟩
          rwa [hlater v hle hlt] at hbad

theorem wp_uvmunmap : wp (uvmunmap root a n doFree) (fun _ t => (∃ F', WellFormed t root F' ∧
      Moves s t root F F' (freed s root doFree a n)) ∧ Mapped s t root a n fun _ => 0)
      (fun _ => ∃ v, a ≤ v ∧ v < a + n * pgsize ∧ ¬ Leaf (entry s.mem v 2 root)) s := by
  have hstop : uint64 (a + n * pgsize) = a + n * pgsize := by
    apply mod_eq_of_lt
    simp only [maxva, pgsize] at *
    omega
  simp only [uvmunmap, wp_bind, wp_ite, mod_eq_zero_of_dvd ha, ne_eq, not_true_eq_false, false_implies, true_and,
    not_false_eq_true, true_implies, hstop]
  exact wp_unmapLoop h ha hn hfree

end

end Unmap

section Table

variable {s : Machine} {root : Nat} {F : List Nat}

/-- The page table is a finite map from the pages below `MAXVA` to entries, for any free list.
`mappages` gives entries to a prefix of its range, the whole of it if it returns 0, and leaves every
other page as it was; it panics only if a page of the range was valid already. `uvmunmap` takes away the
entries of its range and no other; it panics only at a page that is no valid leaf. The table is a tree
of distinct pages before and after. `PTE2PA` and `PTE_FLAGS` recover what an entry was made of. -/
theorem pagetable_is_map (h : WellFormed s root F) :
    (∀ (va size pa : Nat) (perm : Pte), pgsize ∣ va → pgsize ∣ size → 0 < size → va + size ≤ maxva →
      wp (mappages root va size pa perm) (fun ok t => ∃ k ≤ size / pgsize, (ok = true → k = size / pgsize) ∧
        (∀ v < maxva, va ≤ v → v < va + k * pgsize →
          lookup t.mem root v = some (pa2pte (pa + (pgrounddown v - va)) ||| perm ||| pteV)) ∧
        (∀ v < maxva, ¬ (va ≤ v ∧ v < va + k * pgsize) → entry t.mem v 2 root = entry s.mem v 2 root) ∧
        ∃ F', WellFormed t root F')
        (fun e => e = "mappages: remap" ∧ ∃ v, va ≤ v ∧ v < va + size ∧ has (entry s.mem v 2 root) pteV = true) s) ∧
    (∀ (va npages : Nat) (doFree : Bool), pgsize ∣ va → va + npages * pgsize ≤ maxva →
      (doFree = true → Freeable s root F (frames s root va npages)) →
      wp (uvmunmap root va npages doFree) (fun _ t =>
        (∀ v < maxva, entry t.mem v 2 root =
          if va ≤ v ∧ v < va + npages * pgsize then 0 else entry s.mem v 2 root) ∧
        ∃ F', WellFormed t root F')
        (fun _ => ∃ v, va ≤ v ∧ v < va + npages * pgsize ∧ ¬ Leaf (entry s.mem v 2 root)) s) ∧
    ∀ (pa : Nat) (perm : Pte), pgsize ∣ pa → pa < 2 ^ 56 → perm.toNat < 2 ^ 10 →
      pte2pa (pa2pte pa ||| perm) = pa ∧ pteFlags (pa2pte pa ||| perm) = perm := by
  refine ⟨fun va size pa perm hva hsize hpos hmax => ?_, fun va npages doFree hva hmax hfree => ?_,
    fun pa perm => pte2pa_pa2pte⟩
  · obtain ⟨n, rfl⟩ : ∃ n, size = (n + 1) * pgsize := by
      obtain ⟨k, rfl⟩ := hsize
      have hk : 0 < k := Nat.pos_of_mul_pos_left hpos
      exact ⟨k - 1, by rw [Nat.sub_add_cancel hk, Nat.mul_comm]⟩
    have hsucc : (n + 1) * pgsize = pgsize + n * pgsize := by ring
    have hdiv : (n + 1) * pgsize / pgsize = n + 1 := Nat.mul_div_cancel _ (by norm_num)
    have hlast : uint64 (va + (n + 1) * pgsize - pgsize) = va + n * pgsize := by
      have hsub : va + (n + 1) * pgsize - pgsize = va + n * pgsize := by omega
      rw [hsub]
      apply mod_eq_of_lt
      simp only [maxva, pgsize] at *
      omega
    have hmod : va % pgsize = 0 ∧ (n + 1) * pgsize % pgsize = 0 :=
      ⟨mod_eq_zero_of_dvd hva, mul_mod_left _ _⟩
    simp only [mappages, wp_bind, wp_ite, hmod.1, hmod.2, ne_eq, not_true_eq_false, false_implies, true_and,
      not_false_eq_true, true_implies, ne_of_gt hpos, hlast, hdiv]
    refine (wp_mapLoop h hva hmax).mono ?_ fun _ => id
    rintro ok t ⟨k, hk, hok, hwf, hmap⟩
    refine ⟨k, hk, hok, fun v hv hle hlt => ?_, fun v hv hout => ?_, hwf⟩
    · have hentry := hmap v hv
      rw [if_pos ⟨hle, hlt⟩] at hentry
      exact lookup_of_entry hentry (ne_zero_of_has has_or_pteV)
    · rw [hmap v hv, if_neg hout]
  · refine (wp_uvmunmap h hva hmax hfree).mono ?_ fun _ => id
    rintro _ t ⟨⟨F', hwf, -⟩, hmap⟩
    exact ⟨hmap, F', hwf⟩

def bare : Machine := ⟨store (store (fun _ => 0) 0x3000 0x4000) 0x2000 0x3000, 0x2000, 0x1000⟩

theorem bare_load {a : Nat} (ha : 8 ∣ a) : load bare.mem a = if a = 0x2000 then 0x3000 else if a = 0x3000 then 0x4000 else 0 := by
  have hload := @load_store_of_dvd (store (fun _ => 0) 0x3000 0x4000) 0x2000 a 0x3000 (by norm_num) ha
  rwa [@load_store_of_dvd (fun _ => 0) 0x3000 a 0x4000 (by norm_num) ha, load_zero] at hload

theorem bare_nodes : nodes bare.mem 2 0x1000 = [0x1000] ∧ ∀ va, entry bare.mem va 2 0x1000 = 0 := by
  refine nodes_fresh fun j hj => ?_
  rw [bare_load (by omega), if_neg (by omega), if_neg (by omega)]

theorem bare_wellFormed : WellFormed bare 0x1000 [0x2000, 0x3000, 0x4000] := by
  refine ⟨by norm_num, by rw [bare_nodes.1]; decide, rfl, by norm_num, by norm_num, by norm_num, ?_⟩
  rw [bare_load (by norm_num), if_pos rfl]
  refine ⟨by decide, by norm_num, by norm_num, by norm_num, ?_⟩
  rw [bare_load (by norm_num), if_neg (by norm_num), if_pos rfl]
  refine ⟨by decide, by norm_num, by norm_num, by norm_num, ?_⟩
  rw [bare_load (by norm_num), if_neg (by norm_num), if_neg (by norm_num)]
  rfl

/-- Page 0 is mapped to the frame at `KERNBASE`. -/
theorem bare_map : ∃ t, mappages 0x1000 0 4096 0x80000000 pteR bare = .ok (true, t) ∧
    lookup t.mem 0x1000 0 = some (pa2pte 0x80000000 ||| pteR ||| pteV) := by
  have hmapped : ((mappages 0x1000 0 4096 0x80000000 pteR bare).toOption.map Prod.fst) = some true := by
    decide +kernel
  obtain ⟨ok, t, hrun⟩ := exists_ok (m := mappages 0x1000 0 4096 0x80000000 pteR) (s := bare) (by decide +kernel)
  rw [hrun] at hmapped
  obtain rfl : ok = true := Option.some.inj hmapped
  obtain ⟨k, -, hk, hmap, -⟩ := ((pagetable_is_map bare_wellFormed).1 0 4096 0x80000000 pteR (by norm_num) (by norm_num)
    (by norm_num) (by norm_num)).of_ok hrun
  rw [hk rfl] at hmap
  exact ⟨t, hrun, hmap 0 (by norm_num) (le_refl 0) (by norm_num)⟩

end Table

end Xv6.Sv39
