import Xv6.Sv39.Memory

namespace Xv6.Sv39

open Prog Nat

section Code

/-- The loop of `copyout`, which runs at most `len` rounds. -/
def copyoutLoop (pagetable : Nat) : (fuel dstva : Nat) → (src : Nat → Byte) → (len : Nat) → M Bool
  | 0, _, _, _ => return true
  | fuel + 1, dstva, src, len => do
    if len = 0 then return true
    let va0 := pgrounddown dstva
    if va0 ≥ maxva then return false
    match ← walk pagetable va0 false with
    | none => return false
    | some pte =>
      let e ← read pte
      if !has e pteW then return false
      let pa0 ← walkaddr pagetable va0
      if pa0 = 0 then return false
      let n := min (pgsize - (dstva - va0)) len
      memmove (pa0 + (dstva - va0)) n src
      copyoutLoop pagetable fuel (uint64 (va0 + pgsize)) (fun i => src (n + i)) (len - n)

/-- `true` for 0, `false` for -1. -/
def copyout (pagetable dstva : Nat) (src : Nat → Byte) (len : Nat) : M Bool :=
  copyoutLoop pagetable len dstva src len

/-- The loop of `copyin`, with the bytes it moves to `dst`. -/
def copyinLoop (pagetable : Nat) : (fuel srcva len : Nat) → M (Bool × List Byte)
  | 0, _, _ => return (true, [])
  | fuel + 1, srcva, len => do
    if len = 0 then return (true, [])
    let va0 := pgrounddown srcva
    let pa0 ← walkaddr pagetable va0
    if pa0 = 0 then return (false, [])
    let n := min (pgsize - (srcva - va0)) len
    let m ← get
    let bytes := (List.range n).map fun i => m.mem (pa0 + (srcva - va0) + i)
    let rest ← copyinLoop pagetable fuel (uint64 (va0 + pgsize)) (len - n)
    return (rest.1, bytes ++ rest.2)

/-- `true` for 0, `false` for -1, and the bytes moved to `dst`. -/
def copyin (pagetable srcva len : Nat) : M (Bool × List Byte) := copyinLoop pagetable len srcva len

end Code

section UserTables

variable {mem : Nat → Byte} {pagetable va vb : Nat} {e : Pte}

/-- The page of `va` is below `MAXVA`, valid and `PTE_U`. -/
def Readable (mem : Nat → Byte) (pagetable va : Nat) : Prop :=
  va < maxva ∧ ∃ e, lookup mem pagetable va = some e ∧ has e pteV = true ∧ has e pteU = true

def Writable (mem : Nat → Byte) (pagetable va : Nat) : Prop :=
  va < maxva ∧ ∃ e, lookup mem pagetable va = some e ∧ has e pteV = true ∧ has e pteU = true ∧ has e pteW = true

/-- The physical address of the user's byte at `va`. -/
def physAddr (mem : Nat → Byte) (pagetable va : Nat) : Nat :=
  ((lookup mem pagetable va).map pte2pa).getD 0 + va % pgsize

def userByte (mem : Nat → Byte) (pagetable va : Nat) : Byte := mem (physAddr mem pagetable va)

/-- A page table of a process: its user pages have frames of their own, which are neither page 0 nor
pages of the table. -/
structure UserTable (mem : Nat → Byte) (pagetable : Nat) : Prop where
  aligned : pgsize ∣ pagetable
  frame_pos : ∀ va e, va < maxva → lookup mem pagetable va = some e → has e pteV = true → has e pteU = true →
    pte2pa e ≠ 0
  frame_inj : ∀ va vb, Readable mem pagetable va → Readable mem pagetable vb →
    physAddr mem pagetable va = physAddr mem pagetable vb → va = vb
  frame_path : ∀ va vb, Readable mem pagetable va → vb < maxva → ∀ a ∈ path mem vb 2 pagetable,
    a / pgsize ≠ physAddr mem pagetable va / pgsize

theorem Writable.readable (h : Writable mem pagetable va) : Readable mem pagetable va := by
  obtain ⟨hva, e, he, hv, hu, -⟩ := h
  exact ⟨hva, e, he, hv, hu⟩

section
variable (h : va / pgsize = vb / pgsize)
include h

theorem lt_maxva_page : va < maxva ↔ vb < maxva := by
  simp only [pgsize, maxva] at *
  omega

theorem readable_page : Readable mem pagetable va ↔ Readable mem pagetable vb := by
  unfold Readable
  rw [lt_maxva_page h, lookup_page h]

theorem writable_page : Writable mem pagetable va ↔ Writable mem pagetable vb := by
  unfold Writable
  rw [lt_maxva_page h, lookup_page h]

end

theorem pgrounddown_page : pgrounddown va / pgsize = va / pgsize := by
  simp only [pgrounddown, pgsize]
  omega

theorem physAddr_page (h : va / pgsize = vb / pgsize) (hle : va ≤ vb) :
    physAddr mem pagetable vb = physAddr mem pagetable va + (vb - va) := by
  unfold physAddr
  rw [lookup_page h]
  simp only [pgsize] at *
  omega

theorem physAddr_pgrounddown :
    physAddr mem pagetable va = physAddr mem pagetable (pgrounddown va) + (va - pgrounddown va) := by
  apply physAddr_page pgrounddown_page
  simp only [pgrounddown, pgsize]
  omega

theorem wp_walkaddr {s : Machine} {E : String → Prop} (va : Nat) (ht : UserTable s.mem pagetable) :
    wp (walkaddr pagetable (pgrounddown va))
      (fun r t => t = s ∧ (r ≠ 0 ↔ Readable s.mem pagetable va) ∧
        (r ≠ 0 → r = physAddr s.mem pagetable (pgrounddown va))) E s := by
  have hpage := @readable_page s.mem pagetable (pgrounddown va) va pgrounddown_page
  rw [← hpage]
  have hoff : pgrounddown va % pgsize = 0 := by
    simp only [pgrounddown, pgsize]
    omega
  generalize pgrounddown va = va0 at *
  simp only [walkaddr, wp_bind, wp_ite, wp_pure]
  refine ⟨fun hge => ?_, fun hlt => ?_⟩
  · exact ⟨trivial, ⟨fun h => absurd rfl h, fun h => absurd h.1 (by omega)⟩, fun h => absurd rfl h⟩
  · have hva : va0 < maxva := by omega
    refine (wp_walk_false hva).mono ?_ fun _ => id
    rintro r t ⟨rfl, rfl⟩
    cases hf : find t.mem va0 2 pagetable with
    | none =>
      have hnone : lookup t.mem pagetable va0 = none := by simp [lookup, hf]
      simp [Readable, hnone]
    | some a =>
      have hsome : lookup t.mem pagetable va0 = some (load t.mem a) := by simp [lookup, hf]
      simp only [wp_bind, wp_read, wp_ite, wp_pure, Readable, hsome, Option.some.injEq, exists_eq_left',
        physAddr, Option.map_some, Option.getD_some, hoff, add_zero]
      refine ⟨fun hv => ?_, fun hv => ⟨fun hu => ?_, fun hu => ?_⟩⟩
      · simp_all
      · simp_all
      · have hv' : has (load t.mem a) pteV = true := by simpa using hv
        have hu' : has (load t.mem a) pteU = true := by simpa using hu
        have hpos := ht.frame_pos va0 _ hva hsome hv' hu'
        exact ⟨trivial, ⟨fun _ => ⟨hva, hv', hu'⟩, fun _ => hpos⟩, fun _ => trivial⟩

def onePage : Nat → Byte :=
  store (store (store (store (fun _ => 0) 0x1000 (pa2pte 0x2000 ||| pteV)) 0x2000 (pa2pte 0x3000 ||| pteV))
    0x3000 (pa2pte 0x4000 ||| (pteV ||| pteR ||| pteW ||| pteU))) 0x4000 0x6968

theorem onePage_load {a : Nat} (h : 8 ∣ a) : load onePage a =
    if a = 0x4000 then 0x6968 else if a = 0x3000 then 0x1017 else if a = 0x2000 then 0xC01
      else if a = 0x1000 then 0x801 else 0 := by
  unfold onePage
  rw [load_store_of_dvd (by norm_num) h, load_store_of_dvd (by norm_num) h, load_store_of_dvd (by norm_num) h,
    load_store_of_dvd (by norm_num) h, load_zero]
  rfl

theorem onePage_slot {level : Nat} {p : Nat} (hp : p = 0x1000 ∨ p = 0x2000 ∨ p = 0x3000) :
    load onePage (slot p level va) = if px level va = 0 then load onePage p else 0 := by
  have hlt := @px_lt level va
  by_cases h0 : px level va = 0
  · rw [slot, h0, if_pos rfl, mul_zero, add_zero]
  · rw [if_neg h0, slot, onePage_load (by omega), if_neg (by omega), if_neg (by omega), if_neg (by omega),
      if_neg (by omega)]

theorem px_zero_iff (hva : va < maxva) : (px 2 va = 0 ∧ px 1 va = 0 ∧ px 0 va = 0) ↔ va < pgsize := by
  simp only [px, maxva, pgsize] at *
  omega

theorem onePage_node : load onePage 0x1000 = 0x801 ∧ has 0x801 pteV = true ∧ pte2pa 0x801 = 0x2000 ∧
    load onePage 0x2000 = 0xC01 ∧ has 0xC01 pteV = true ∧ pte2pa 0xC01 = 0x3000 ∧ has 0 pteV = false :=
  ⟨onePage_load (by norm_num), by decide, by decide, onePage_load (by norm_num), by decide, by decide, by decide⟩

theorem onePage_find : find onePage va 2 0x1000 =
    if px 2 va = 0 ∧ px 1 va = 0 then some (slot 0x3000 0 va) else none := by
  obtain ⟨h1, hv1, hp1, h2, hv2, hp2, hv0⟩ := onePage_node
  simp only [find, onePage_slot, true_or, h1]
  by_cases h : px 2 va = 0
  · simp only [h, if_true, hv1, hp1, onePage_slot, true_or, or_true, h2, zero_add, true_and]
    by_cases h' : px 1 va = 0
    · simp only [h', if_true, hv2, hp2]
    · simp only [h', if_false, hv0, Bool.false_eq_true]
  · simp only [h, if_false, hv0, Bool.false_eq_true, false_and]

theorem onePage_path {a : Nat} (h : a ∈ path onePage va 2 0x1000) : a / pgsize ≤ 3 := by
  obtain ⟨h1, hv1, hp1, h2, hv2, hp2, hv0⟩ := onePage_node
  have hslot : ∀ p l, p ≤ 0x3000 → pgsize ∣ p → slot p l va / pgsize ≤ 3 := by
    intro p l hp hdvd
    have := @px_lt l va
    simp only [slot, pgsize] at *
    omega
  simp only [path, onePage_slot, true_or, h1, List.mem_cons] at h
  rcases h with rfl | h
  · exact hslot _ _ (by norm_num) (by norm_num)
  · by_cases hx : px 2 va = 0
    · simp only [hx, if_true, hv1, hp1, onePage_slot, true_or, or_true, h2, zero_add, List.mem_cons] at h
      rcases h with rfl | h
      · exact hslot _ _ (by norm_num) (by norm_num)
      · by_cases hy : px 1 va = 0
        · simp only [hy, if_true, hv2, hp2, List.mem_singleton] at h
          exact h ▸ hslot _ _ (by norm_num) (by norm_num)
        · simp only [hy, if_false, hv0, Bool.false_eq_true, List.not_mem_nil] at h
    · simp only [hx, if_false, hv0, Bool.false_eq_true, List.not_mem_nil] at h

theorem onePage_lookup : lookup onePage 0x1000 va =
    if px 2 va = 0 ∧ px 1 va = 0 then some (if px 0 va = 0 then 0x1017 else 0) else none := by
  have h3 : load onePage 0x3000 = 0x1017 := onePage_load (by norm_num)
  rw [lookup, onePage_find]
  split
  next => rw [Option.map_some, onePage_slot (.inr (.inr rfl)), h3]
  next => rfl

theorem onePage_readable : Readable onePage 0x1000 va ↔ va < pgsize := by
  have hflags : has 0x1017 pteV = true ∧ has 0x1017 pteU = true := by decide
  constructor
  · rintro ⟨hva, e, he, hv, -⟩
    rw [← px_zero_iff hva]
    rw [onePage_lookup] at he
    split at he
    next h =>
      split at he
      next h0 => exact ⟨h.1, h.2, h0⟩
      next =>
        cases he
        exact absurd hv (by decide)
    next => cases he
  · intro h
    have hva : va < maxva := by
      simp only [pgsize, maxva] at *
      omega
    obtain ⟨h2, h1, h0⟩ := (px_zero_iff hva).mpr h
    exact ⟨hva, 0x1017, by rw [onePage_lookup, if_pos ⟨h2, h1⟩, if_pos h0], hflags.1, hflags.2⟩

theorem onePage_physAddr (h : va < pgsize) : physAddr onePage 0x1000 va = 0x4000 + va := by
  have hva : va < maxva := by
    simp only [pgsize, maxva] at *
    omega
  obtain ⟨h2, h1, h0⟩ := (px_zero_iff hva).mpr h
  have hpa : pte2pa 0x1017 = 0x4000 := by decide
  rw [physAddr, onePage_lookup, if_pos ⟨h2, h1⟩, if_pos h0, Option.map_some, Option.getD_some, hpa,
    mod_eq_of_lt h]

theorem onePage_userTable : UserTable onePage 0x1000 where
  aligned := by norm_num
  frame_pos := by
    intro va e hva he hv hu
    have hlt := onePage_readable.mp ⟨hva, e, he, hv, hu⟩
    have haddr := onePage_physAddr hlt
    rw [physAddr, he, mod_eq_of_lt hlt] at haddr
    simp only [Option.map_some, Option.getD_some] at haddr
    omega
  frame_inj := by
    intro va vb ha hb h
    rw [onePage_physAddr (onePage_readable.mp ha), onePage_physAddr (onePage_readable.mp hb)] at h
    omega
  frame_path := by
    intro va vb ha _ a hmem
    have hle := onePage_path hmem
    rw [onePage_physAddr (onePage_readable.mp ha)]
    simp only [pgsize] at *
    omega

end UserTables

section Copyin

variable {s : Machine} {E : String → Prop} {pagetable : Nat}

def userBytes (mem : Nat → Byte) (pagetable va n : Nat) : List Byte :=
  (List.range n).map fun i => userByte mem pagetable (va + i)

theorem userBytes_add {mem : Nat → Byte} {va n k : Nat} :
    userBytes mem pagetable va (n + k) = userBytes mem pagetable va n ++ userBytes mem pagetable (va + n) k := by
  simp only [userBytes, List.range_add, List.map_append, List.map_map, Function.comp_def, add_assoc]

theorem piece {va va0 len n : Nat} (h0 : va0 = pgrounddown va) (hn : n = min (pgsize - (va - va0)) len) :
    (∀ i < n, va / pgsize = (va + i) / pgsize) ∧ (n < len → va + n = va0 + pgsize) ∧
      (0 < len → 0 < n) ∧ n ≤ len ∧ va0 ≤ va ∧ va < va0 + pgsize := by
  subst h0 hn
  simp only [pgrounddown, pgsize]
  refine ⟨fun i hi => ?_, ?_, ?_, ?_, ?_, ?_⟩ <;> omega

theorem uint64_next {va va0 n : Nat} (hva : va < maxva) (hle : va0 ≤ va) (h : va + n = va0 + pgsize) :
    uint64 (va0 + pgsize) = va + n := by
  rw [h]
  apply mod_eq_of_lt
  simp only [maxva, pgsize] at *
  omega

theorem forall_lt_add {P : Nat → Prop} {n k : Nat} :
    (∀ i < n + k, P i) ↔ (∀ i < n, P i) ∧ ∀ i < k, P (n + i) := by
  refine ⟨fun h => ⟨fun i hi => h i (by omega), fun i hi => h (n + i) (by omega)⟩, fun h i hi => ?_⟩
  by_cases hin : i < n
  · exact h.1 i hin
  · obtain ⟨j, rfl⟩ := Nat.exists_eq_add_of_le (Nat.not_lt.mp hin)
    exact h.2 j (by omega)

theorem wp_copyinLoop (ht : UserTable s.mem pagetable) {fuel srcva len : Nat} (hf : len ≤ fuel) :
    wp (copyinLoop pagetable fuel srcva len) (fun r t => t = s ∧
      (r.1 = true ↔ ∀ i < len, Readable s.mem pagetable (srcva + i)) ∧
      (r.1 = true → r.2 = userBytes s.mem pagetable srcva len)) E s := by
  induction fuel generalizing srcva len with
  | zero =>
    obtain rfl : len = 0 := by omega
    simp [copyinLoop, userBytes]
  | succ fuel ih =>
    simp only [copyinLoop, wp_bind, wp_ite, wp_pure]
    refine ⟨?_, fun hlen => ?_⟩
    · rintro rfl
      simp [userBytes]
    · have hpos : 0 < len := by omega
      refine (wp_walkaddr srcva ht).mono ?_ fun _ => id
      rintro pa0 t ⟨rfl, hpa, haddr⟩
      refine ⟨?_, fun hne => ?_⟩
      · rintro rfl
        have hnot : ¬ Readable t.mem pagetable srcva := fun h => absurd rfl (hpa.mpr h)
        refine ⟨rfl, ⟨fun h => absurd h Bool.false_ne_true, fun h => absurd (h 0 hpos) hnot⟩,
          fun h => absurd h Bool.false_ne_true⟩
      · have hread := hpa.mp hne
        have hbase := haddr hne
        generalize hn : min (pgsize - (srcva - pgrounddown srcva)) len = n
        obtain ⟨hsame, hnext, hnpos, hnle, hle, hlt⟩ := piece rfl hn.symm
        have hfirst : ∀ i < n, Readable t.mem pagetable (srcva + i) := fun i hi =>
          (readable_page (hsame i hi)).mp hread
        have hbytes : ((List.range n).map fun i => t.mem (pa0 + (srcva - pgrounddown srcva) + i)) =
            userBytes t.mem pagetable srcva n := by
          apply List.map_congr_left
          intro i hi
          have hi := hsame i (List.mem_range.mp hi)
          rw [userByte, physAddr_page hi (le_add_right _ _), physAddr_pgrounddown, hbase,
            Nat.add_sub_cancel_left]
        simp only [wp_get]
        rw [hbytes]
        obtain ⟨k, rfl⟩ := Nat.exists_eq_add_of_le hnle
        rw [Nat.add_sub_cancel_left]
        refine (ih (by omega)).mono ?_ fun _ => id
        rintro r u ⟨rfl, hok, hrest⟩
        rw [forall_lt_add, userBytes_add]
        -- with nothing left the next address does not matter
        rcases Nat.eq_zero_or_pos k with rfl | hk
        · simp only [Nat.not_lt_zero, false_implies, implies_true, iff_true] at hok
          exact ⟨rfl, ⟨fun _ => ⟨hfirst, by simp⟩, fun _ => hok⟩, fun _ => by rw [hrest hok]; simp [userBytes]⟩
        · have haddr' := uint64_next hread.1 hle (hnext (by omega))
          rw [haddr'] at hok hrest
          simp only [← add_assoc]
          exact ⟨trivial, ⟨fun h => ⟨hfirst, hok.mp h⟩, fun h => hok.mpr h.2⟩, fun h => by rw [hrest h]⟩

end Copyin

section Copyout

variable {s t u : Machine} {E : String → Prop} {pagetable dstva n k : Nat} {src : Nat → Byte} {va : Nat}

/-- The bytes `[dstva, dstva + k)` of the address space were set to `src`, and nothing else. -/
structure Written (s t : Machine) (pagetable dstva : Nat) (src : Nat → Byte) (k : Nat) : Prop where
  copied : ∀ i < k, t.mem (physAddr s.mem pagetable (dstva + i)) = src i
  frame : ∀ x, (∀ i < k, x ≠ physAddr s.mem pagetable (dstva + i)) → t.mem x = s.mem x
  freelist : t.freelist = s.freelist
  kend : t.kend = s.kend

theorem Written.zero : Written s s pagetable dstva src 0 where
  copied := fun i hi => absurd hi (not_lt_zero i)
  frame := fun _ _ => rfl
  freelist := rfl
  kend := rfl

section
variable (hw : Written s t pagetable dstva src k) (ht : UserTable s.mem pagetable) (hr : ∀ i < k, Readable s.mem pagetable (dstva + i))
include hw ht hr

theorem Written.load_path {va a : Nat} (hva : va < maxva)
    (ha : a ∈ path s.mem va 2 pagetable) : load t.mem a = load s.mem a := by
  apply load_congr
  intro j hj
  apply hw.frame
  intro i hi heq
  have hne := ht.frame_path _ va (hr i hi) hva a ha
  have h8 := path_aligned ht.aligned ha
  rw [← heq] at hne
  simp only [pgsize] at hne
  omega

theorem Written.lookup (hva : va < maxva) : lookup t.mem pagetable va = lookup s.mem pagetable va :=
  lookup_congr fun _ ha => hw.load_path ht hr hva ha

theorem Written.physAddr (hva : va < maxva) : physAddr t.mem pagetable va = physAddr s.mem pagetable va := by
  unfold Sv39.physAddr
  rw [hw.lookup ht hr hva]

theorem Written.readable (va : Nat) : Readable t.mem pagetable va ↔ Readable s.mem pagetable va := by
  unfold Readable
  exact and_congr_right fun hva => by rw [hw.lookup ht hr hva]

theorem Written.writable (va : Nat) : Writable t.mem pagetable va ↔ Writable s.mem pagetable va := by
  unfold Writable
  exact and_congr_right fun hva => by rw [hw.lookup ht hr hva]

theorem Written.userTable : UserTable t.mem pagetable where
  aligned := ht.aligned
  frame_pos := by
    intro va e hva he
    rw [hw.lookup ht hr hva] at he
    exact ht.frame_pos va e hva he
  frame_inj := by
    intro va vb ha hb h
    rw [hw.readable ht hr] at ha hb
    rw [hw.physAddr ht hr ha.1, hw.physAddr ht hr hb.1] at h
    exact ht.frame_inj va vb ha hb h
  frame_path := by
    intro va vb ha hvb a hmem
    rw [hw.readable ht hr] at ha
    rw [(path_congr fun _ h => hw.load_path ht hr hvb h).1] at hmem
    rw [hw.physAddr ht hr ha.1]
    exact ht.frame_path va vb ha hvb a hmem

end

theorem Written.append (hw : Written s t pagetable dstva src n)
    (hw' : Written t u pagetable (dstva + n) (fun i => src (n + i)) k) (ht : UserTable s.mem pagetable)
    (hr : ∀ i < n + k, Readable s.mem pagetable (dstva + i)) : Written s u pagetable dstva src (n + k) := by
  have hr' : ∀ i < n, Readable s.mem pagetable (dstva + i) := fun i hi => hr i (by omega)
  have haddr : ∀ i < k, Sv39.physAddr t.mem pagetable (dstva + n + i) =
      Sv39.physAddr s.mem pagetable (dstva + (n + i)) := by
    intro i hi
    rw [add_assoc]
    exact hw.physAddr ht hr' (hr (n + i) (by omega)).1
  refine ⟨fun i hi => ?_, fun x hx => ?_, hw'.freelist.trans hw.freelist, hw'.kend.trans hw.kend⟩
  · by_cases hin : i < n
    · rw [hw'.frame, hw.copied i hin]
      intro j hj heq
      rw [haddr j hj] at heq
      have := ht.frame_inj _ _ (hr i hi) (hr (n + j) (by omega)) heq
      omega
    · obtain ⟨j, rfl⟩ := Nat.exists_eq_add_of_le (Nat.not_lt.mp hin)
      rw [← haddr j (by omega)]
      exact hw'.copied j (by omega)
  · rw [hw'.frame, hw.frame x fun i hi => hx i (by omega)]
    intro i hi
    rw [haddr i hi]
    exact hx (n + i) (by omega)

theorem written_blit {pa0 : Nat} (hpa : pa0 = physAddr s.mem pagetable (pgrounddown dstva))
    (hsame : ∀ i < n, dstva / pgsize = (dstva + i) / pgsize) :
    Written s { s with mem := blit s.mem (pa0 + (dstva - pgrounddown dstva)) n src } pagetable dstva src n := by
  have haddr : ∀ i < n, physAddr s.mem pagetable (dstva + i) = pa0 + (dstva - pgrounddown dstva) + i := by
    intro i hi
    rw [physAddr_page (hsame i hi) (Nat.le_add_right _ _), physAddr_pgrounddown, hpa, Nat.add_sub_cancel_left]
  refine ⟨fun i hi => ?_, fun x hx => ?_, rfl, rfl⟩
  · simp [blit, haddr i hi, hi]
  · simp only [blit]
    rw [if_neg]
    rintro ⟨hle, hlt⟩
    obtain ⟨i, rfl⟩ := Nat.exists_eq_add_of_le hle
    exact hx i (by omega) (haddr i (by omega)).symm

theorem writable_iff {mem : Nat → Byte} {e : Pte} (he : lookup mem pagetable va = some e) :
    Writable mem pagetable va ↔ Readable mem pagetable va ∧ has e pteW = true := by
  unfold Writable Readable
  simp only [he, Option.some.injEq, exists_eq_left', and_assoc]

/-- How far `copyout` came with `len` bytes to copy, and why it stopped. -/
structure CopiedOut (s t : Machine) (pagetable dstva : Nat) (src : Nat → Byte) (len : Nat) (ok : Bool) (k : Nat) :
    Prop where
  le : k ≤ len
  written : Written s t pagetable dstva src k
  writable : ∀ i < k, Writable s.mem pagetable (dstva + i)
  done : ok = true → k = len
  stopped : ok = false → k < len ∧ ¬ Writable s.mem pagetable (dstva + k) ∧ (k = 0 ∨ pgsize ∣ dstva + k)

theorem CopiedOut.none {len : Nat} (hlen : 0 < len) (h : ¬ Writable s.mem pagetable dstva) :
    CopiedOut s s pagetable dstva src len false 0 where
  le := zero_le len
  written := .zero
  writable := fun i hi => absurd hi (not_lt_zero i)
  done := fun h => absurd h Bool.false_ne_true
  stopped := fun _ => ⟨hlen, h, .inl rfl⟩

theorem CopiedOut.all : CopiedOut s s pagetable dstva src 0 true 0 where
  le := le_refl 0
  written := .zero
  writable := fun i hi => absurd hi (not_lt_zero i)
  done := fun _ => rfl
  stopped := by rintro ⟨⟩

theorem CopiedOut.start {ok : Bool} (h : CopiedOut s t pagetable n src 0 ok k) :
    CopiedOut s t pagetable dstva src 0 ok k := by
  obtain rfl : k = 0 := le_zero.mp h.le
  refine ⟨h.le, ⟨fun i hi => absurd hi (not_lt_zero i), fun x _ => ?_, h.written.freelist, h.written.kend⟩,
    fun i hi => absurd hi (not_lt_zero i), fun _ => rfl, fun hok => absurd (h.stopped hok).1 (not_lt_zero 0)⟩
  exact h.written.frame x fun i hi => absurd hi (not_lt_zero i)

theorem CopiedOut.append {len : Nat} {ok : Bool} (hw : Written s t pagetable dstva src n)
    (hn : ∀ i < n, Writable s.mem pagetable (dstva + i)) (ht : UserTable s.mem pagetable)
    (hpage : 0 < len → pgsize ∣ dstva + n)
    (h : CopiedOut t u pagetable (dstva + n) (fun i => src (n + i)) len ok k) :
    CopiedOut s u pagetable dstva src (n + len) ok (n + k) := by
  have hr : ∀ i < n, Readable s.mem pagetable (dstva + i) := fun i hi => (hn i hi).readable
  have hwr : ∀ i < n + k, Writable s.mem pagetable (dstva + i) := by
    rw [forall_lt_add]
    refine ⟨hn, fun i hi => ?_⟩
    rw [← add_assoc, ← hw.writable ht hr]
    exact h.writable i hi
  refine ⟨Nat.add_le_add_left h.le n, hw.append h.written ht fun i hi => (hwr i hi).readable, hwr, fun hok => ?_,
    fun hok => ?_⟩
  · rw [h.done hok]
  · obtain ⟨hlt, hnot, hstop⟩ := h.stopped hok
    rw [hw.writable ht hr, add_assoc] at hnot
    refine ⟨Nat.add_lt_add_left hlt n, hnot, .inr ?_⟩
    rcases hstop with rfl | hstop
    · exact hpage hlt
    · rwa [← add_assoc]

theorem wp_copyoutLoop (ht : UserTable s.mem pagetable) {fuel len : Nat} (hf : len ≤ fuel) :
    wp (copyoutLoop pagetable fuel dstva src len)
      (fun r t => ∃ k, CopiedOut s t pagetable dstva src len r k) E s := by
  induction fuel generalizing s dstva src len with
  | zero =>
    obtain rfl : len = 0 := by omega
    exact wp_pure.mpr ⟨0, .all⟩
  | succ fuel ih =>
    simp only [copyoutLoop, wp_bind, wp_ite, wp_pure]
    refine ⟨?_, fun hlen => ⟨fun hge => ?_, fun hlt => ?_⟩⟩
    · rintro rfl
      exact ⟨0, .all⟩
    · refine ⟨0, .none (by omega) fun h => ?_⟩
      exact absurd ((lt_maxva_page pgrounddown_page).mpr h.1) (not_lt.mpr hge)
    · have hpos : 0 < len := by omega
      refine (wp_walk_false (not_le.mp hlt)).mono ?_ fun _ => id
      rintro r t ⟨rfl, rfl⟩
      rw [find_page pgrounddown_page]
      cases hfind : find t.mem dstva 2 pagetable with
      | none =>
        have hnone : lookup t.mem pagetable dstva = none := by simp [lookup, hfind]
        refine wp_pure.mpr ⟨0, .none hpos ?_⟩
        rintro ⟨-, e, he, -⟩
        rw [hnone] at he
        cases he
      | some a =>
        have hsome : lookup t.mem pagetable dstva = some (load t.mem a) := by simp [lookup, hfind]
        simp only [wp_bind, wp_read, wp_ite, wp_pure]
        refine ⟨fun hro => ⟨0, .none hpos fun h => ?_⟩, fun hw => ?_⟩
        · have := ((writable_iff hsome).mp h).2
          simp [this] at hro
        · refine (wp_walkaddr dstva ht).mono ?_ fun _ => id
          rintro pa0 u ⟨rfl, hpa, haddr⟩
          refine ⟨?_, fun hne => ?_⟩
          · rintro rfl
            exact ⟨0, .none hpos fun h => absurd rfl (hpa.mpr h.readable)⟩
          · have hwr : Writable u.mem pagetable dstva := (writable_iff hsome).mpr ⟨hpa.mp hne, by simpa using hw⟩
            simp only [wp_memmove]
            generalize hn : min (pgsize - (dstva - pgrounddown dstva)) len = n
            obtain ⟨hsame, hnext, hnpos, hnle, hle, hlt'⟩ := piece rfl hn.symm
            have hfirst : ∀ i < n, Writable u.mem pagetable (dstva + i) := fun i hi =>
              (writable_page (hsame i hi)).mp hwr
            have hwritten := @written_blit u pagetable dstva n src pa0 (haddr hne) hsame
            obtain ⟨k, rfl⟩ := Nat.exists_eq_add_of_le hnle
            rw [Nat.add_sub_cancel_left]
            have ht' := hwritten.userTable ht fun i hi => (hfirst i hi).readable
            refine (ih ht' (by omega)).mono ?_ fun _ => id
            rintro r v ⟨j, hout⟩
            refine ⟨n + j, .append hwritten hfirst ht (fun hk => ?_) ?_⟩
            · rw [hnext (by omega)]
              exact Nat.dvd_add (Dvd.intro_left _ rfl) (Nat.dvd_refl pgsize)
            · rcases Nat.eq_zero_or_pos k with rfl | hk
              · exact hout.start
              · rwa [uint64_next hwr.1 hle (hnext (by omega))] at hout

theorem Written.userByte (hw : Written s t pagetable dstva src k) (ht : UserTable s.mem pagetable)
    (hr : ∀ i < k, Readable s.mem pagetable (dstva + i)) {va : Nat} (hva : Readable s.mem pagetable va) :
    userByte t.mem pagetable va =
      if dstva ≤ va ∧ va < dstva + k then src (va - dstva) else userByte s.mem pagetable va := by
  unfold Sv39.userByte
  rw [hw.physAddr ht hr hva.1]
  split
  next h =>
    obtain ⟨i, rfl⟩ := Nat.exists_eq_add_of_le h.1
    rw [hw.copied i (by omega), Nat.add_sub_cancel_left]
  next h =>
    apply hw.frame
    intro i hi heq
    have := ht.frame_inj va (dstva + i) hva (hr i hi) heq
    omega

/-- `copyin` and `copyout` never panic, for any address and any length; an address past `2 ^ 64` is one
past `MAXVA`. `copyin` leaves memory alone and returns 0 if and only if every page that
`[srcva, srcva + len)` touches may be read by the user; then `dst` holds the bytes of the range.
`copyout` returns 0 if and only if every page touched may be written too. It sets a prefix of its range
to `src`, all of it or up to a page boundary, and no other byte nor any entry of the page table. -/
theorem user_copies_exact (ht : UserTable s.mem pagetable) (va len : Nat) (src : Nat → Byte) :
    wp (copyin pagetable va len) (fun r t => t = s ∧
      (r.1 = true ↔ ∀ i < len, Readable s.mem pagetable (va + i)) ∧
      (r.1 = true → r.2 = userBytes s.mem pagetable va len)) (fun _ => False) s ∧
    wp (copyout pagetable va src len) (fun r t =>
      (r = true ↔ ∀ i < len, Writable s.mem pagetable (va + i)) ∧
      ∃ k ≤ len, (r = true → k = len) ∧ (r = false → k = 0 ∨ pgsize ∣ va + k) ∧
        (∀ vb < maxva, lookup t.mem pagetable vb = lookup s.mem pagetable vb) ∧
        (∀ vb, Readable s.mem pagetable vb → userByte t.mem pagetable vb =
          if va ≤ vb ∧ vb < va + k then src (vb - va) else userByte s.mem pagetable vb) ∧
        (∀ x, (∀ vb, va ≤ vb → vb < va + k → x ≠ physAddr s.mem pagetable vb) → t.mem x = s.mem x) ∧
        t.freelist = s.freelist) (fun _ => False) s := by
  refine ⟨wp_copyinLoop ht (le_refl len), (wp_copyoutLoop ht (le_refl len)).mono ?_ fun _ => id⟩
  rintro r t ⟨k, h⟩
  have hr : ∀ i < k, Readable s.mem pagetable (va + i) := fun i hi => (h.writable i hi).readable
  refine ⟨⟨fun hok i hi => h.writable i (h.done hok ▸ hi), fun hall => ?_⟩, k, h.le, h.done,
    fun hno => (h.stopped hno).2.2, fun vb hvb => h.written.lookup ht hr hvb,
    fun vb hvb => h.written.userByte ht hr hvb, fun x hx => ?_, h.written.freelist⟩
  · cases r with
    | true => rfl
    | false =>
      obtain ⟨hlt, hnot, -⟩ := h.stopped rfl
      exact absurd (hall k hlt) hnot
  · exact h.written.frame x fun i hi => hx (va + i) (le_add_right _ _) (by omega)

/-- A range that leaves the one page of the table: the call fails, with the end of the page written. -/
theorem onePage_copies : wp (copyout 0x1000 4095 (fun _ => 7) 2) (fun r _ => r = false ∧
    ∃ k ≤ 2, k = 0 ∨ pgsize ∣ 4095 + k) (fun _ => False) ⟨onePage, 0, 0⟩ := by
  refine (@user_copies_exact ⟨onePage, 0, 0⟩ 0x1000 onePage_userTable 4095 2 fun _ => 7).2.mono ?_ fun _ => id
  rintro r t ⟨hr, k, hk, -, hpage, -⟩
  cases r with
  | false => exact ⟨rfl, k, hk, hpage rfl⟩
  | true =>
    have hread := (hr.mp rfl 1 (by norm_num)).readable
    exact absurd (onePage_readable.mp hread) (by norm_num)

/-- What a `copyout` that returns 0 has written `copyin` reads back, any part of it and across pages: the copy
does not change the page table through which it is read. -/
theorem copyout_copyin (ht : UserTable s.mem pagetable) {off len : Nat} (hn : off + n ≤ len) :
    wp (do
        let ok ← copyout pagetable dstva src len
        let r ← copyin pagetable (dstva + off) n
        return (ok, r))
      (fun x _ => x.1 = true → x.2 = (true, (List.range n).map fun i => src (off + i))) (fun _ => False) s := by
  simp only [copyout, copyin, wp_bind]
  refine (wp_copyoutLoop ht (le_refl len)).mono ?_ fun _ => id
  rintro ok t ⟨k, h⟩
  have hr : ∀ i < k, Readable s.mem pagetable (dstva + i) := fun i hi => (h.writable i hi).readable
  refine (wp_copyinLoop (h.written.userTable ht hr) (le_refl n)).mono ?_ fun _ => id
  rintro r u ⟨-, hread, hbytes⟩
  refine wp_pure.mpr fun hok => ?_
  obtain rfl := h.done hok
  have hin : ∀ i < n, Readable s.mem pagetable (dstva + off + i) := fun i hi => by
    rw [add_assoc]
    exact hr _ (by omega)
  have hdone := hread.mpr fun i hi => (h.written.readable ht hr _).mpr (hin i hi)
  refine Prod.ext hdone ((hbytes hdone).trans (List.map_congr_left fun i hi => ?_))
  have hi := List.mem_range.mp hi
  rw [h.written.userByte ht hr (hin i hi), if_pos (by omega), add_assoc, Nat.add_sub_cancel_left]

theorem onePage_copyout_copyin : wp (do
      let ok ← copyout 0x1000 4000 (fun i => .ofNat 8 i) 9
      let r ← copyin 0x1000 4005 2
      return (ok, r))
    (fun x _ => x.1 = true → x.2 = (true, [5, 6])) (fun _ => False) ⟨onePage, 0, 0⟩ :=
  @copyout_copyin ⟨onePage, 0, 0⟩ 0x1000 4000 2 (fun i => .ofNat 8 i) onePage_userTable 5 9 (by norm_num)

end Copyout

end Xv6.Sv39
