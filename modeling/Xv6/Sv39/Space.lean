import Xv6.Sv39.Map

namespace Xv6.Sv39

open Prog List

section Code

abbrev trapframe : Nat := maxva - 2 * pgsize

def pgroundup (n : Nat) : Nat := uint64 (n + (pgsize - 1)) / pgsize * pgsize

def uvmdealloc (pagetable oldsz newsz : Nat) : M Nat :=
  if newsz ≥ oldsz then return oldsz
  else if pgroundup newsz < pgroundup oldsz then do
    uvmunmap pagetable (pgroundup newsz) ((pgroundup oldsz - pgroundup newsz) / pgsize) true
    return newsz
  else return newsz

def allocLoop (pagetable oldsz newsz : Nat) (xperm : Pte) : (fuel a : Nat) → M Bool
  | 0, _ => return true
  | fuel + 1, a =>
    if a < newsz then do
      let mem ← kalloc
      if mem = 0 then
        let _ ← uvmdealloc pagetable a oldsz
        return false
      else
        let ok ← mappages pagetable a pgsize mem (pteR ||| pteU ||| xperm)
        if ok then allocLoop pagetable oldsz newsz xperm fuel (uint64 (a + pgsize))
        else
          kfree mem
          let _ ← uvmdealloc pagetable a oldsz
          return false
    else return true

/-- The new size, or 0. -/
def uvmalloc (pagetable oldsz newsz : Nat) (xperm : Pte) : M Nat :=
  if newsz < oldsz then return oldsz
  else do
    let ok ← allocLoop pagetable (pgroundup oldsz) newsz xperm (newsz / pgsize + 1) (pgroundup oldsz)
    if ok then return newsz else return 0

/-- The size of the process if it returns 0, `none` for -1. -/
def growproc (pagetable sz : Nat) (n : Int) : M (Option Nat) :=
  if n > 0 then do
    let r ← uvmalloc pagetable sz (((sz : Int) + n) % 2 ^ 64).toNat pteW
    if r = 0 then return none else return some r
  else if n < 0 then do
    let r ← uvmdealloc pagetable sz (((sz : Int) + n) % 2 ^ 64).toNat
    return some r
  else return some sz

/-- What `sbrk` returns and the size of the process after it. -/
def sysSbrk (pagetable sz : Nat) (n : Int) : M (Int × Nat) := do
  match ← growproc pagetable sz n with
  | none => return (-1, sz)
  | some newsz => return (sz, newsz)

end Code

section Space

variable {s t u : Machine} {E : String → Prop} {root n m k : Nat} {F : List Nat}

/-- Virtual pages below `TRAPFRAME`. -/
abbrev userTop : Nat := trapframe / pgsize

theorem userTop_lt {i : Nat} (hi : i < userTop) : i * pgsize < maxva := by
  simp only [userTop, trapframe, maxva, pgsize] at *
  omega

def npages (sz : Nat) : Nat := (sz + (pgsize - 1)) / pgsize

def pageEntry (s : Machine) (root i : Nat) : Pte := entry s.mem (i * pgsize) 2 root

/-- A page table that maps the first `n` pages, and no other page below `TRAPFRAME`, each to a frame of
its own. -/
structure Space (s : Machine) (root n : Nat) (F : List Nat) : Prop where
  wf : WellFormed s root F
  owned : Freeable s root F (frames s root 0 n)
  ram : ∀ r ∈ nodes s.mem 2 root ++ F, s.kend ≤ r
  mapped : ∀ i < n, Leaf (pageEntry s root i)
  void : ∀ i, n ≤ i → i < userTop → pageEntry s root i = 0

/-- The first `k` pages keep their frames and contents, and the pages from `TRAPFRAME` on their entries. -/
structure Kept (s t : Machine) (root k : Nat) : Prop where
  entries : ∀ i < k, pageEntry t root i = pageEntry s root i
  contents : ∀ i < k, ∀ x, pgrounddown x = pte2pa (pageEntry s root i) → t.mem x = s.mem x
  high : ∀ i, userTop ≤ i → i * pgsize < maxva → pageEntry t root i = pageEntry s root i

/-- From `n` pages to `m`: nothing is lost. -/
structure Resized (s t : Machine) (root n m : Nat) (F F' : List Nat) : Prop where
  space : Space t root m F'
  kept : Kept s t root (min n m)
  pages : (nodes t.mem 2 root ++ F' ++ frames t root 0 m).Perm (nodes s.mem 2 root ++ F ++ frames s root 0 n)
  kend : t.kend = s.kend

theorem Kept.refl : Kept s s root k := ⟨fun _ _ => rfl, fun _ _ _ _ => rfl, fun _ _ _ => rfl⟩

theorem Kept.trans (h : Kept s t root k) (h' : Kept t u root k) : Kept s u root k where
  entries := fun i hi => (h'.entries i hi).trans (h.entries i hi)
  contents := fun i hi x hx => by
    rw [h'.contents i hi x (by rw [h.entries i hi, hx]), h.contents i hi x hx]
  high := fun i hi hlt => (h'.high i hi hlt).trans (h.high i hi hlt)

theorem Kept.mono (h : Kept s t root k) (hm : m ≤ k) : Kept s t root m :=
  ⟨fun i hi => h.entries i (by omega), fun i hi => h.contents i (by omega), h.high⟩

theorem frames_eq : frames s root 0 n = (range n).map fun i => pte2pa (pageEntry s root i) := by
  simp only [frames, pageEntry, Nat.zero_add]

theorem frames_add : frames s root 0 (n + k) = frames s root 0 n ++ frames s root (n * pgsize) k := by
  simp only [frames, range_add, map_append, map_map, Function.comp_def, Nat.zero_add, Nat.add_mul]

theorem frames_congr (h : ∀ i < n, pageEntry t root i = pageEntry s root i) : frames t root 0 n = frames s root 0 n := by
  rw [frames_eq, frames_eq]
  exact map_congr_left fun i hi => by rw [h i (mem_range.mp hi)]

theorem entry_page {mem : Nat → Byte} {va vb l p : Nat} (h : va / pgsize = vb / pgsize) : entry mem va l p = entry mem vb l p := by
  rw [entry_eq, entry_eq, find_page h]

theorem length_le_of_ram {fs : List Nat} (hnodup : fs.Nodup) (h : ∀ f ∈ fs, pgsize ∣ f ∧ f < phystop) :
    fs.length ≤ phystop / pgsize := by
  have hsub : fs ⊆ (range (phystop / pgsize)).map (pgsize * ·) := by
    intro f hf
    obtain ⟨⟨j, rfl⟩, hlt⟩ := h f hf
    refine mem_map.mpr ⟨j, mem_range.mpr ?_, rfl⟩
    simp only [phystop, pgsize] at *
    omega
  have hle := (subperm_of_subset hnodup hsub).length_le
  rwa [length_map, length_range] at hle

theorem Space.le_ram (h : Space s root n F) : n ≤ phystop / pgsize := by
  have hnodup := (nodup_append.mp h.owned.nodup).2.1
  have hlen := length_le_of_ram hnodup fun f hf => ⟨(h.owned.ram f hf).2.1, (h.owned.ram f hf).2.2.2⟩
  simpa [frames] using hlen

theorem Space.lt_top (h : Space s root n F) : n < userTop := by
  have := h.le_ram
  simp only [userTop, phystop, trapframe, maxva, pgsize] at *
  omega

theorem mem_frames {i : Nat} (hi : i < n) : pte2pa (pageEntry s root i) ∈ frames s root 0 n := by
  rw [frames_eq]
  exact mem_map.mpr ⟨i, mem_range.mpr hi, rfl⟩

section
variable (h : Space s root n F)
include h

theorem Space.apart {i x : Nat} (hi : i < n) (hx : pgrounddown x = pte2pa (pageEntry s root i)) :
    pgrounddown x ∉ nodes s.mem 2 root ++ F := fun hmem =>
  (nodup_append.mp h.owned.nodup).2.2 _ hmem _ (hx ▸ mem_frames hi) rfl

theorem Space.resized {F' : List Nat} (hwf : WellFormed t root F') (hkend : t.kend = s.kend)
    (hpages : (nodes t.mem 2 root ++ F' ++ frames t root 0 m).Perm (nodes s.mem 2 root ++ F ++ frames s root 0 n))
    (hkept : Kept s t root (min n m))
    (hram : ∀ f ∈ frames t root 0 m, f ∈ frames s root 0 n ∨ f ≠ 0 ∧ pgsize ∣ f ∧ f < phystop)
    (hleaf : ∀ i, n ≤ i → i < m → Leaf (pageEntry t root i))
    (hvoid : ∀ i, m ≤ i → i < userTop → pageEntry t root i = 0) : Resized s t root n m F F' := by
  have hlow : ∀ r ∈ nodes t.mem 2 root ++ F' ++ frames t root 0 m, t.kend ≤ r := by
    intro r hr
    rw [hkend]
    rcases mem_append.mp (hpages.mem_iff.mp hr) with hr | hr
    · exact h.ram r hr
    · exact (h.owned.ram r hr).2.2.1
  refine ⟨⟨hwf, ⟨hpages.nodup_iff.mpr h.owned.nodup, fun f hf => ?_⟩, fun r hr => hlow r (mem_append_left _ hr),
    fun i hi => ?_, hvoid⟩, hkept, hpages, hkend⟩
  · have hk := hlow f (mem_append_right _ hf)
    rcases hram f hf with hin | ⟨hne, hdvd, hlt⟩
    · obtain ⟨hne, hdvd, -, hlt⟩ := h.owned.ram f hin
      exact ⟨hne, hdvd, hk, hlt⟩
    · exact ⟨hne, hdvd, hk, hlt⟩
  · by_cases hin : i < n
    · rw [hkept.entries i (lt_min hin hi)]
      exact h.mapped i hin
    · exact hleaf i (by omega) hi

theorem Space.unmap (hm : m ≤ n) : wp (uvmunmap root (m * pgsize) (n - m) true)
    (fun _ t => ∃ F', Resized s t root n m F F') E s := by
  have htop := h.lt_top
  obtain ⟨k, rfl⟩ := Nat.exists_eq_add_of_le hm
  rw [Nat.add_sub_cancel_left]
  have hmax : m * pgsize + k * pgsize ≤ maxva := by
    simp only [userTop, trapframe, maxva, pgsize] at *
    omega
  have howned := h.owned
  rw [frames_add] at howned
  have hfree : Freeable s root F (frames s root (m * pgsize) k) := by
    refine ⟨?_, fun f hf => howned.ram f (mem_append_right _ hf)⟩
    have hnodup := howned.nodup
    rw [← append_assoc, append_assoc _ (frames s root 0 m), (perm_append_comm.append_left _).nodup_iff,
      ← append_assoc] at hnodup
    exact (nodup_append.mp hnodup).1
  refine (wp_uvmunmap h.wf (Nat.dvd_mul_left _ _) hmax fun _ => hfree).mono ?_ ?_
  · rintro _ t ⟨⟨F', hwf, hmoves⟩, hmap⟩
    have hfreed : freed s root true (m * pgsize) k = frames s root (m * pgsize) k := rfl
    rw [hfreed] at hmoves
    have hentry : ∀ i, i * pgsize < maxva → pageEntry t root i =
        if m ≤ i ∧ i < m + k then 0 else pageEntry s root i := by
      intro i hi
      have heq := hmap (i * pgsize) hi
      have hiff : m * pgsize ≤ i * pgsize ∧ i * pgsize < m * pgsize + k * pgsize ↔ m ≤ i ∧ i < m + k := by
        simp only [pgsize]
        omega
      simp only [hiff] at heq
      exact heq
    have hsame : ∀ i < m, pageEntry t root i = pageEntry s root i := fun i hi => by
      rw [hentry i (userTop_lt (by omega)), if_neg (by omega)]
    have hframes := frames_congr hsame
    have hpages : (nodes t.mem 2 root ++ F' ++ frames t root 0 m).Perm
        (nodes s.mem 2 root ++ F ++ (frames s root 0 m ++ frames s root (m * pgsize) k)) := by
      rw [hframes]
      refine (hmoves.pages.append_right _).trans ?_
      rw [append_assoc]
      exact perm_append_comm.append_left _
    have hkept : Kept s t root m := by
      refine ⟨hsame, fun i hi x hx => hmoves.frame x fun hmem => ?_, fun i hi hi' => ?_⟩
      · have hdis := howned.nodup
        rw [(perm_append_comm.append_left _).nodup_iff, ← append_assoc] at hdis
        exact (nodup_append.mp hdis).2.2 _ hmem _ (hx ▸ mem_frames hi) rfl
      · rw [hentry i hi', if_neg (by omega)]
    refine ⟨F', h.resized hwf hmoves.kend (by rwa [frames_add]) (by rwa [min_eq_right hm]) (fun f hf => .inl ?_)
      (fun i hi hi' => absurd hi' (by omega)) fun i hi hi' => ?_⟩
    · rw [frames_add, ← hframes]
      exact mem_append_left _ hf
    · rw [hentry i (userTop_lt hi')]
      split
      next => rfl
      next hout => exact h.void i (by omega) hi'
  · rintro e ⟨v, hle, hlt, hbad⟩
    refine absurd ?_ hbad
    have hi : v / pgsize < m + k := by
      simp only [pgsize] at *
      omega
    have hpage : entry s.mem v 2 root = pageEntry s root (v / pgsize) :=
      entry_page (Nat.mul_div_cancel _ (by norm_num)).symm
    rw [hpage]
    exact h.mapped _ hi

theorem Resized.refl : Resized s s root n n F F := ⟨h, .refl, .refl _, rfl⟩

end

theorem Resized.trans {F' F'' : List Nat} {j : Nat} (h : Resized s t root n m F F') (h' : Resized t u root m j F' F'')
    (hle : min n j ≤ m) : Resized s u root n j F F'' where
  space := h'.space
  kept := (h.kept.mono (by omega)).trans (h'.kept.mono (by omega))
  pages := h'.pages.trans h.pages
  kend := h'.kend.trans h.kend

theorem pgroundup_eq {sz : Nat} (h : npages sz ≤ phystop / pgsize) : pgroundup sz = npages sz * pgsize := by
  simp only [pgroundup, npages, uint64, phystop, pgsize] at *
  omega

theorem wp_uvmdealloc {oldsz : Nat} (newsz : Nat) (h : Space s root (npages oldsz) F) : wp (uvmdealloc root oldsz newsz)
    (fun r t => r = min oldsz newsz ∧ ∃ F', Resized s t root (npages oldsz) (npages r) F F') E s := by
  have hram := h.le_ram
  unfold uvmdealloc
  by_cases hsz : newsz ≥ oldsz
  · rw [if_pos hsz, wp_pure, min_eq_left hsz]
    exact ⟨rfl, F, .refl h⟩
  · have hle : npages newsz ≤ npages oldsz := by
      simp only [npages, pgsize]
      omega
    have hmin : min oldsz newsz = newsz := min_eq_right (by omega)
    rw [if_neg hsz, hmin, pgroundup_eq hram, pgroundup_eq (hle.trans hram)]
    by_cases hlt : npages newsz * pgsize < npages oldsz * pgsize
    · have hdiff : (npages oldsz * pgsize - npages newsz * pgsize) / pgsize = npages oldsz - npages newsz := by
        rw [← Nat.sub_mul, Nat.mul_div_cancel _ (by norm_num)]
      rw [if_pos hlt, hdiff]
      refine (h.unmap hle).bind ?_
      rintro _ t hres
      exact wp_pure.mpr ⟨rfl, hres⟩
    · have hsame : npages newsz = npages oldsz := by
        simp only [pgsize] at hlt
        omega
      rw [if_neg hlt, wp_pure, hsame]
      exact ⟨rfl, F, .refl h⟩

theorem Space.undo {lo : Nat} (h : Space s root k F) (hlo : lo ≤ k) : wp (uvmdealloc root (k * pgsize) (lo * pgsize))
    (fun _ t => ∃ F', Resized s t root k lo F F') E s := by
  have hmul : ∀ j, npages (j * pgsize) = j := fun j => by
    simp only [npages, pgsize]
    omega
  have hdealloc := @wp_uvmdealloc s E root F (k * pgsize) (lo * pgsize) (by rwa [hmul])
  refine hdealloc.mono ?_ fun _ => id
  rintro r t ⟨rfl, F', hres⟩
  rw [min_eq_right (Nat.mul_le_mul_right _ hlo), hmul, hmul] at hres
  exact ⟨F', hres⟩

theorem alloc_leaf {q : Nat} (hq : pgsize ∣ q) (hlt : q < phystop) :
    Leaf (pa2pte q ||| (pteR ||| pteU ||| pteW) ||| pteV) ∧ pte2pa (pa2pte q ||| (pteR ||| pteU ||| pteW) ||| pteV) = q := by
  have hword : pa2pte q ||| (pteR ||| pteU ||| pteW) ||| pteV = pa2pte q ||| 0x17 := by
    rw [BitVec.or_assoc]
    rfl
  obtain ⟨hpa, hflags⟩ := @pte2pa_pa2pte q 0x17 hq (hlt.trans (by norm_num)) (by decide)
  refine ⟨⟨has_or_pteV, ?_⟩, by rw [hword, hpa]⟩
  rw [hword, hflags]
  decide

theorem Space.resized_same {F' : List Nat} (h : Space s root k F) (hwf : WellFormed t root F')
    (hpages : (nodes t.mem 2 root ++ F').Perm (nodes s.mem 2 root ++ F))
    (hentry : ∀ i, i * pgsize < maxva → pageEntry t root i = pageEntry s root i)
    (hframe : ∀ x, pgrounddown x ∉ nodes s.mem 2 root ++ F → t.mem x = s.mem x) (hkend : t.kend = s.kend) :
    Resized s t root k k F F' := by
  have htop := h.lt_top
  have hframes : frames t root 0 k = frames s root 0 k := frames_congr fun i hi => hentry i (userTop_lt (by omega))
  have hkept : Kept s t root k :=
    ⟨fun i hi => hentry i (userTop_lt (by omega)), fun i hi x hx => hframe x (h.apart hi hx), fun i _ hi' => hentry i hi'⟩
  refine h.resized hwf hkend ?_ (by rwa [min_self]) (fun f hf => .inl (hframes ▸ hf)) (fun i hi hi' => absurd hi' (by omega))
    fun i hi hi' => ?_
  · rw [hframes]
    exact hpages.append_right _
  · rw [hentry i (userTop_lt hi')]
    exact h.void i hi hi'

theorem Space.map {q : Nat} {F₁ : List Nat} (h : Space s root k (q :: F₁)) (hmem : t.mem = s.mem) (hkend : t.kend = s.kend)
    (hfree : FreeList t.mem t.freelist F₁) (hq : q ≠ 0 ∧ pgsize ∣ q ∧ q < phystop) :
    wp (mappages root (k * pgsize) pgsize q (pteR ||| pteU ||| pteW)) (fun ok u => ∃ F',
      (ok = true → Resized s u root k (k + 1) (q :: F₁) F') ∧
      (ok = false → ∀ E', wp (kfree q) (fun _ v => ∃ F'', Resized s v root k k (q :: F₁) F'') E' u)) E t := by
  have htop := h.lt_top
  have hnodup := h.owned.nodup
  -- `q` is apart from the table, the free pages and the frames
  have hsplit : (nodes s.mem 2 root ++ q :: F₁ ++ frames s root 0 k).Perm (q :: (nodes s.mem 2 root ++ F₁ ++ frames s root 0 k)) :=
    perm_middle.append_right _
  rw [hsplit.nodup_iff, nodup_cons] at hnodup
  obtain ⟨hqnot, hnodup⟩ := hnodup
  have hwf : WellFormed t root F₁ := ⟨h.wf.aligned, by rw [hmem]; exact (nodup_append.mp hnodup).1, hfree⟩
  have hnone : has (entry t.mem (k * pgsize) 2 root) pteV = false := by
    have hvoid := h.void k (Nat.le_refl k) htop
    rw [hmem]
    unfold pageEntry at hvoid
    rw [hvoid]
    decide
  refine (wp_mappages_one hwf (Nat.dvd_mul_left _ _) (userTop_lt htop) hnone).mono ?_ fun _ => id
  rintro ok u ⟨F', hu, hmoves, hset⟩
  obtain ⟨hleaf, hpte⟩ := alloc_leaf hq.2.1 hq.2.2
  have hpages := hmoves.pages
  rw [append_nil, hmem] at hpages
  have hframe : ∀ x, pgrounddown x ∉ nodes s.mem 2 root ++ F₁ → u.mem x = s.mem x := by
    intro x hx
    rw [hmoves.frame x (by rwa [append_nil, hmem]), hmem]
  have hentry : ∀ i, i * pgsize < maxva → pageEntry u root i = if ok = true ∧ i = k
      then pa2pte q ||| (pteR ||| pteU ||| pteW) ||| pteV else pageEntry s root i := by
    intro i hi
    have heq := hset (i * pgsize) hi
    rw [Nat.mul_div_cancel _ (by norm_num), Nat.mul_div_cancel _ (by norm_num), hmem] at heq
    exact heq
  have hkept : Kept s u root k := by
    refine ⟨fun i hi => ?_, fun i hi x hx => hframe x fun hmem => h.apart hi hx ?_, fun i hi hi' => ?_⟩
    · rw [hentry i (userTop_lt (by omega)), if_neg (by omega)]
    · exact mem_append.mpr ((mem_append.mp hmem).imp id (mem_cons_of_mem q))
    · rw [hentry i hi', if_neg (by omega)]
  have hframes := frames_congr hkept.entries
  have hqkend : s.kend ≤ q := h.ram q (mem_append_right _ mem_cons_self)
  refine ⟨F', fun hok => ?_, fun hok E' => ?_⟩
  · subst hok
    have hnew : frames u root 0 (k + 1) = frames s root 0 k ++ [q] := by
      have hone : frames u root (k * pgsize) 1 = [q] := by
        have hk := hentry k (userTop_lt htop)
        rw [if_pos ⟨rfl, rfl⟩] at hk
        have hlist : frames u root (k * pgsize) 1 = [pte2pa (pageEntry u root k)] := by
          simp [frames, pageEntry]
        rw [hlist, hk, hpte]
      rw [frames_add, hframes, hone]
    have hall : (nodes u.mem 2 root ++ F' ++ frames u root 0 (k + 1)).Perm
        (nodes s.mem 2 root ++ q :: F₁ ++ frames s root 0 k) := by
      rw [hnew, ← append_assoc]
      refine ((hpages.append_right _).append_right [q]).trans ?_
      exact (perm_append_singleton q _).trans hsplit.symm
    refine h.resized hu (hmoves.kend.trans hkend) hall (by rwa [min_eq_left (Nat.le_succ k)]) (fun f hf => ?_)
      (fun i hi hi' => ?_) fun i hi hi' => ?_
    · rw [hnew, mem_append, mem_singleton] at hf
      rcases hf with hf | rfl
      · exact .inl hf
      · exact .inr hq
    · rw [hentry i (userTop_lt (by omega)), if_pos ⟨rfl, by omega⟩]
      exact hleaf
    · rw [hentry i (userTop_lt hi'), if_neg (by omega)]
      exact h.void i (by omega) hi'
  · subst hok
    have hnot : q ∉ nodes u.mem 2 root ++ F' := by
      rw [hpages.mem_iff]
      exact fun hmem => hqnot (mem_append_left _ hmem)
    rw [mem_append, not_or] at hnot
    refine (wp_kfree hu hq.1 hq.2.1 (by rw [hmoves.kend, hkend]; exact hqkend) hq.2.2 hnot.1 hnot.2).mono ?_ fun _ => id
    rintro _ v ⟨hv, hmoves', hsame⟩
    have hall : (nodes u.mem 2 root ++ F' ++ [q]).Perm (nodes s.mem 2 root ++ q :: F₁) :=
      (hpages.append_right [q]).trans ((perm_append_singleton q _).trans perm_middle.symm)
    have hpage : ∀ i, i * pgsize < maxva → pageEntry v root i = pageEntry s root i := by
      intro i hi
      have heq := hentry i hi
      rw [if_neg (by simp)] at heq
      exact ((hsame (i * pgsize)).1).trans heq
    have hbytes : ∀ x, pgrounddown x ∉ nodes s.mem 2 root ++ q :: F₁ → v.mem x = s.mem x := by
      intro x hx
      rw [hmoves'.frame x (by rwa [hall.mem_iff]), hframe x fun hin => hx ?_]
      exact mem_append.mpr ((mem_append.mp hin).imp id (mem_cons_of_mem _))
    exact ⟨_, h.resized_same hv (hmoves'.pages.trans hall) hpage hbytes (hmoves'.kend.trans (hmoves.kend.trans hkend))⟩

theorem wp_allocLoop {lo newsz fuel : Nat} (h : Space s root k F) (hlo : lo ≤ k) (hfuel : npages newsz ≤ k + fuel) :
    wp (allocLoop root (lo * pgsize) newsz pteW fuel (k * pgsize)) (fun ok t => ∃ F',
      (ok = true → Resized s t root k (max k (npages newsz)) F F') ∧ (ok = false → Resized s t root k lo F F')) E s := by
  have hdone : npages newsz ≤ k → ∃ F', (true = true → Resized s s root k (max k (npages newsz)) F F') ∧
      (true = false → Resized s s root k lo F F') := by
    intro hle
    rw [max_eq_left hle]
    exact ⟨F, fun _ => .refl h, fun hfalse => Bool.noConfusion hfalse⟩
  induction fuel generalizing s k F with
  | zero => exact wp_pure.mpr (hdone hfuel)
  | succ fuel ih =>
    rw [allocLoop]
    by_cases hlt : k * pgsize < newsz
    · have htop := h.lt_top
      have hround : uint64 (k * pgsize + pgsize) = (k + 1) * pgsize := by
        simp only [userTop, trapframe, maxva, pgsize, uint64] at *
        omega
      have hmore : k < npages newsz := by
        simp only [npages, pgsize] at *
        omega
      -- back to `lo` pages
      have hundo : ∀ {t F₁}, Resized s t root k k F F₁ → wp (do
          let _ ← uvmdealloc root (k * pgsize) (lo * pgsize)
          return false) (fun ok t => ∃ F', (ok = true → Resized s t root k (max k (npages newsz)) F F') ∧
            (ok = false → Resized s t root k lo F F')) E t := by
        intro t F₁ ht
        refine (ht.space.undo hlo).bind ?_
        rintro _ u ⟨F', hu⟩
        exact wp_pure.mpr ⟨F', fun hfalse => Bool.noConfusion hfalse, fun _ => ht.trans hu (min_le_left _ _)⟩
      rw [if_pos hlt]
      refine (wp_kalloc h.wf.free).bind ?_
      rintro q t ⟨hmem, hkend, ⟨rfl, rfl, hhead⟩ | ⟨F₁, rfl, hne, halign, hltq, hfree⟩⟩
      · rw [if_pos rfl]
        have ht : t = s := by
          cases s
          cases t
          simp_all
        rw [ht]
        exact hundo (.refl h)
      · rw [if_neg hne]
        refine (h.map hmem hkend hfree ⟨hne, halign, hltq⟩).bind ?_
        rintro ok u ⟨F', hok, hfail⟩
        cases ok with
        | true =>
          have hu := hok rfl
          rw [if_pos rfl, hround]
          refine (ih hu.space (by omega) (by omega) ?_).mono ?_ fun _ => id
          · intro hle
            rw [max_eq_left hle]
            exact ⟨F', fun _ => .refl hu.space, fun hfalse => Bool.noConfusion hfalse⟩
          · rintro ok v ⟨F'', hv, hv'⟩
            rw [max_eq_right (by omega)] at hv ⊢
            exact ⟨F'', fun hok => hu.trans (hv hok) (by omega), fun hok => hu.trans (hv' hok) (by omega)⟩
        | false =>
          rw [if_neg (by decide)]
          refine (hfail rfl _).bind ?_
          rintro _ v ⟨F'', hv⟩
          exact hundo hv
    · rw [if_neg hlt]
      refine wp_pure.mpr (hdone ?_)
      simp only [npages, pgsize] at *
      omega

theorem wp_uvmalloc {oldsz newsz : Nat} (h : Space s root (npages oldsz) F) (hle : oldsz ≤ newsz) :
    wp (uvmalloc root oldsz newsz pteW) (fun r t => ∃ F', r = newsz ∧ Resized s t root (npages oldsz) (npages newsz) F F' ∨
      r = 0 ∧ Resized s t root (npages oldsz) (npages oldsz) F F') E s := by
  have hmono : npages oldsz ≤ npages newsz := Nat.div_le_div_right (Nat.add_le_add_right hle _)
  have hfuel : npages newsz ≤ npages oldsz + (newsz / pgsize + 1) := by
    simp only [npages, pgsize]
    omega
  unfold uvmalloc
  rw [if_neg (by omega), pgroundup_eq h.le_ram]
  refine (wp_allocLoop h (Nat.le_refl _) hfuel).bind ?_
  rintro ok t ⟨F', hok, hfail⟩
  rw [max_eq_right hmono] at hok
  cases ok with
  | true =>
    rw [if_pos rfl]
    exact wp_pure.mpr ⟨F', .inl ⟨rfl, hok rfl⟩⟩
  | false =>
    rw [if_neg (by decide)]
    exact wp_pure.mpr ⟨F', .inr ⟨rfl, hfail rfl⟩⟩

/-- What `growproc` has done for its return value. -/
def Grown (s t : Machine) (root sz : Nat) (n : Int) (F : List Nat) : Option Nat → Prop
  | some newsz => (newsz : Int) = sz + n ∧ ∃ F', Resized s t root (npages sz) (npages newsz) F F'
  | none => (0 < n ∨ (sz : Int) + n < 0) ∧ ∃ F', Resized s t root (npages sz) (npages sz) F F'

theorem wp_growproc {sz : Nat} {n : Int} (h : Space s root (npages sz) F) (hpos : 0 ≤ sz + n) (hn : n < 2 ^ 31) :
    wp (growproc root sz n) (fun r t => Grown s t root sz n F r) E s := by
  have hram := h.le_ram
  have hsz : sz ≤ phystop := by
    simp only [npages, pgsize, phystop] at *
    omega
  have hnew : (((((sz : Int) + n) % 2 ^ 64).toNat : Nat) : Int) = sz + n := by
    simp only [phystop] at hsz
    omega
  unfold growproc
  generalize ((((sz : Int) + n) % 2 ^ 64).toNat : Nat) = newsz at hnew ⊢
  by_cases hgt : n > 0
  · rw [if_pos hgt]
    refine (wp_uvmalloc h (by omega : sz ≤ newsz)).bind ?_
    rintro r t ⟨F', ⟨rfl, hres⟩ | ⟨rfl, hres⟩⟩
    · rw [if_neg (by omega)]
      exact wp_pure.mpr ⟨hnew, F', hres⟩
    · rw [if_pos rfl]
      exact wp_pure.mpr ⟨.inl hgt, F', hres⟩
  · rw [if_neg hgt]
    by_cases hlt : n < 0
    · rw [if_pos hlt]
      refine (wp_uvmdealloc newsz h).bind ?_
      rintro r t ⟨rfl, F', hres⟩
      rw [min_eq_right (by omega)] at hres ⊢
      exact wp_pure.mpr ⟨hnew, F', hres⟩
    · rw [if_neg hlt]
      exact wp_pure.mpr ⟨by omega, F, .refl h⟩

theorem growproc_negative {sz : Nat} {n : Int} (hneg : (sz : Int) + n < 0) (hlow : -2 ^ 31 ≤ n) (s : Machine) :
    growproc root sz n s = .ok (some sz, s) := by
  have hwrap : sz ≤ (((sz : Int) + n) % 2 ^ 64).toNat := by omega
  rw [growproc, if_neg (by omega), if_pos (by omega), uvmdealloc, if_pos hwrap]
  rfl

/-- `growproc` does what it reports, and so does `sbrk`, exactly if the size does not become negative. -/
theorem growproc_exact {sz : Nat} {n : Int} (h : Space s root (npages sz) F) (hlow : -2 ^ 31 ≤ n) (hn : n < 2 ^ 31) :
    wp (growproc root sz n) (fun r t => Grown s t root sz n F r ∧ ∀ newsz, r = some newsz →
      ∀ i < userTop, (has (pageEntry t root i) pteV = true ↔ i < npages newsz)) (fun _ => False) s ∧
    wp (sysSbrk root sz n) (fun r t => r.1 = sz ∧ Grown s t root sz n F (some r.2) ∨
      r = (-1, sz) ∧ Grown s t root sz n F none) (fun _ => False) s ↔ 0 ≤ sz + n := by
  refine ⟨fun hwp => ?_, fun hpos => ⟨(wp_growproc h hpos hn).mono ?_ fun _ => id, ?_⟩⟩
  · by_contra hneg
    have hsize := (hwp.1.of_ok (growproc_negative (by omega) hlow s)).1.1
    omega
  · rintro r t hr
    refine ⟨hr, ?_⟩
    rintro newsz rfl i hi
    obtain ⟨-, F', hres⟩ := hr
    constructor
    · intro hv
      by_contra hge
      rw [hres.space.void i (by omega) hi] at hv
      exact absurd hv (by decide)
    · intro hlt
      exact (hres.space.mapped i hlt).1
  · unfold sysSbrk
    refine (wp_growproc h hpos hn).bind ?_
    rintro (_ | newsz) t hr
    · exact wp_pure.mpr (.inr ⟨rfl, hr⟩)
    · exact wp_pure.mpr (.inl ⟨rfl, hr⟩)

theorem bare_space : Space bare 0x1000 (npages 0) [0x2000, 0x3000, 0x4000] := by
  have hzero : npages 0 = 0 := rfl
  rw [hzero]
  refine ⟨bare_wellFormed, ⟨?_, ?_⟩, fun r hr => ?_, fun i hi => absurd hi (Nat.not_lt_zero i), fun i _ _ => bare_nodes.2 _⟩
  · have hnodup := bare_wellFormed.nodup
    simpa [frames] using hnodup
  · intro f hf
    simp [frames] at hf
  · rw [bare_nodes.1] at hr
    fin_cases hr <;> norm_num [bare]

/-- Two pages for the page table, one for the process. -/
theorem growproc_exact_bare : ∃ t, growproc 0x1000 0 100 bare = .ok (some 100, t) ∧
    has (pageEntry t 0x1000 0) pteV = true ∧ has (pageEntry t 0x1000 1) pteV = false := by
  have hsize : ((growproc 0x1000 0 100 bare).toOption.map Prod.fst) = some (some 100) := by
    decide +kernel
  obtain ⟨r, t, hrun, -, hmap⟩ :=
    ((growproc_exact (n := 100) bare_space (by norm_num) (by norm_num)).mpr (by norm_num)).1.total
  rw [hrun] at hsize
  obtain rfl : r = some 100 := Option.some.inj hsize
  refine ⟨t, hrun, (hmap 100 rfl 0 (by norm_num)).mpr (by decide), ?_⟩
  rw [Bool.eq_false_iff]
  exact fun hv => absurd ((hmap 100 rfl 1 (by norm_num)).mp hv) (by decide)

/-- A shrink below 0 is reported as done and changes nothing, the size included. -/
theorem growproc_underflow : Space bare 0x1000 (npages 0) [0x2000, 0x3000, 0x4000] ∧
    growproc 0x1000 0 (-1) bare = .ok (some 0, bare) ∧ sysSbrk 0x1000 0 (-1) bare = .ok ((0, 0), bare) ∧
    ∀ s : Machine, growproc 0x1000 4096 (-8192) s = .ok (some 4096, s) ∧
      sysSbrk 0x1000 4096 (-8192) s = .ok ((4096, 4096), s) :=
  ⟨bare_space, rfl, rfl, fun _ => ⟨rfl, rfl⟩⟩

end Space

end Xv6.Sv39
