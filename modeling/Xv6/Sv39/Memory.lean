import Mathlib
import Xv6.Lib.Prog

namespace Xv6.Sv39

open Prog

abbrev Byte := BitVec 8

abbrev Pte := BitVec 64

abbrev pgsize : Nat := 4096
abbrev phystop : Nat := 0x88000000
abbrev maxva : Nat := 2 ^ 38

def uint64 (n : Nat) : Nat := n % 2 ^ 64

def pgrounddown (a : Nat) : Nat := a / pgsize * pgsize

def pteV : Pte := 1
def pteR : Pte := 2
def pteW : Pte := 4
def pteX : Pte := 8
def pteU : Pte := 16

/-- `PA2PTE(pa)`. -/
def pa2pte (pa : Nat) : Pte := (BitVec.ofNat 64 pa >>> 12) <<< 10

/-- `PTE2PA(pte)`. -/
def pte2pa (pte : Pte) : Nat := ((pte >>> 10) <<< 12).toNat

/-- `PTE_FLAGS(pte)`. -/
def pteFlags (pte : Pte) : Pte := pte &&& 0x3FF

def has (pte flag : Pte) : Bool := pte &&& flag ≠ 0

/-- `PX(level, va)`. -/
def px (level va : Nat) : Nat := va / 2 ^ (12 + 9 * level) % 512

/-- Physical memory by byte address, the head of the free list, which is linked through the first
word of each free page, and the address of the symbol `end`. -/
structure Machine where
  mem : Nat → Byte
  freelist : Nat
  kend : Nat

/-- The argument is the message of `panic`. -/
abbrev M := StateT Machine (Except String)

def load (mem : Nat → Byte) (a : Nat) : Pte :=
  BitVec.ofNat 64 ((List.range 8).foldr (fun i n => (mem (a + i)).toNat + 256 * n) 0)

/-- Memory with the bytes `[a, a + n)` set to `src`. -/
def blit (mem : Nat → Byte) (a n : Nat) (src : Nat → Byte) : Nat → Byte :=
  fun x => if a ≤ x ∧ x < a + n then src (x - a) else mem x

def store (mem : Nat → Byte) (a : Nat) (w : Pte) : Nat → Byte :=
  blit mem a 8 fun i => BitVec.ofNat 8 (w.toNat / 256 ^ i)

def read (a : Nat) : M Pte := return load (← get).mem a

def write (a : Nat) (w : Pte) : M Unit := modify fun m => { m with mem := store m.mem a w }

/-- `memmove` and `memset` into physical memory. -/
def memmove (a n : Nat) (src : Nat → Byte) : M Unit := modify fun m => { m with mem := blit m.mem a n src }

def kfree (pa : Nat) : M Unit := do
  let m ← get
  if pa % pgsize ≠ 0 ∨ pa < m.kend ∨ pa ≥ phystop then throw "kfree"
  write pa (BitVec.ofNat 64 m.freelist)
  modify fun m => { m with freelist := pa }

/-- The page, or 0. -/
def kalloc : M Nat := do
  let r := (← get).freelist
  if r ≠ 0 then
    let next ← read r
    modify fun m => { m with freelist := next.toNat }
  return r

/-- `&pagetable[PX(level, va)]`. -/
def slot (pagetable level va : Nat) : Nat := pagetable + 8 * px level va

def walkLoop (va : Nat) (alloc : Bool) : (level : Nat) → (pagetable : Nat) → M (Option Nat)
  | 0, pagetable => return some (slot pagetable 0 va)
  | level + 1, pagetable => do
    let e ← read (slot pagetable (level + 1) va)
    if has e pteV then walkLoop va alloc level (pte2pa e)
    else if !alloc then return none
    else
      let page ← kalloc
      if page = 0 then return none
      else
        memmove page pgsize fun _ => 0
        write (slot pagetable (level + 1) va) (pa2pte page ||| pteV)
        walkLoop va alloc level page

/-- The address of the entry for `va`, or the null pointer. -/
def walk (pagetable va : Nat) (alloc : Bool) : M (Option Nat) := do
  if va ≥ maxva then throw "walk"
  walkLoop va alloc 2 pagetable

def walkaddr (pagetable va : Nat) : M Nat := do
  if va ≥ maxva then return 0
  match ← walk pagetable va false with
  | none => return 0
  | some a =>
    let e ← read a
    if !has e pteV then return 0
    if !has e pteU then return 0
    return pte2pa e

section Lookup

def find (mem : Nat → Byte) (va : Nat) : (level : Nat) → (pagetable : Nat) → Option Nat
  | 0, pagetable => some (slot pagetable 0 va)
  | level + 1, pagetable =>
    let e := load mem (slot pagetable (level + 1) va)
    if has e pteV then find mem va level (pte2pa e) else none

def path (mem : Nat → Byte) (va : Nat) : (level : Nat) → (pagetable : Nat) → List Nat
  | 0, pagetable => [slot pagetable 0 va]
  | level + 1, pagetable =>
    let e := load mem (slot pagetable (level + 1) va)
    slot pagetable (level + 1) va :: if has e pteV then path mem va level (pte2pa e) else []

/-- What the page table says of `va`. -/
def lookup (mem : Nat → Byte) (pagetable va : Nat) : Option Pte :=
  (find mem va 2 pagetable).map (load mem)

variable {mem mem' : Nat → Byte} {pagetable level va vb a : Nat} {s : Machine} {E : String → Prop}

@[simp]
theorem wp_read {Q : Pte → Machine → Prop} : wp (read a) Q E s ↔ Q (load s.mem a) s := by
  simp only [read, wp_bind, wp_get, wp_pure]

@[simp]
theorem wp_write {w : Pte} {Q : PUnit → Machine → Prop} :
    wp (write a w) Q E s ↔ Q ⟨⟩ { s with mem := store s.mem a w } := by
  simp only [write, wp_modify]

@[simp]
theorem wp_memmove {n : Nat} {src : Nat → Byte} {Q : PUnit → Machine → Prop} :
    wp (memmove a n src) Q E s ↔ Q ⟨⟩ { s with mem := blit s.mem a n src } := by
  simp only [memmove, wp_modify]

theorem px_lt : px level va < 512 := Nat.mod_lt _ (by norm_num)

theorem pgsize_dvd_pte2pa {e : Pte} : pgsize ∣ pte2pa e := by
  unfold pte2pa
  rw [BitVec.toNat_shiftLeft, Nat.shiftLeft_eq]
  exact (Nat.dvd_mod_iff (by norm_num)).mpr (Dvd.intro_left _ rfl)

section
variable (h : va / pgsize = vb / pgsize)
include h

theorem px_page : px level va = px level vb := by
  unfold px
  have hpow : 2 ^ (12 + 9 * level) = pgsize * 2 ^ (9 * level) := by
    rw [Nat.pow_add]
  rw [hpow, ← Nat.div_div_eq_div_mul, ← Nat.div_div_eq_div_mul, h]

theorem find_page : find mem va level pagetable = find mem vb level pagetable := by
  have hslot : ∀ l p, slot p l va = slot p l vb := fun l p => by rw [slot, slot, px_page h]
  induction level generalizing pagetable with
  | zero => rw [find, find, hslot]
  | succ level ih => rw [find, find, hslot, ih]

theorem lookup_page : lookup mem pagetable va = lookup mem pagetable vb := by
  unfold lookup
  rw [find_page h]

end

theorem mem_path_of_find (h : find mem va level pagetable = some a) : a ∈ path mem va level pagetable := by
  induction level generalizing pagetable with
  | zero =>
    simp only [find, Option.some.injEq] at h
    simp [path, h]
  | succ level ih =>
    simp only [find] at h
    simp only [path]
    split at h
    next hv =>
      rw [if_pos hv]
      exact List.mem_cons_of_mem _ (ih h)
    next => cases h

theorem path_aligned (hp : pgsize ∣ pagetable) (h : a ∈ path mem va level pagetable) : 8 ∣ a := by
  have hslot : ∀ {l p : Nat}, pgsize ∣ p → 8 ∣ slot p l va := fun {l p} hp =>
    Nat.dvd_add ((by norm_num : 8 ∣ pgsize).trans hp) (Dvd.intro _ rfl)
  induction level generalizing pagetable with
  | zero =>
    simp only [path, List.mem_singleton] at h
    exact h ▸ hslot hp
  | succ level ih =>
    simp only [path, List.mem_cons] at h
    rcases h with rfl | h
    · exact hslot hp
    · split at h
      next => exact ih pgsize_dvd_pte2pa h
      next => cases h

theorem path_congr (h : ∀ a ∈ path mem va level pagetable, load mem' a = load mem a) :
    path mem' va level pagetable = path mem va level pagetable ∧
      find mem' va level pagetable = find mem va level pagetable := by
  induction level generalizing pagetable with
  | zero => exact ⟨rfl, rfl⟩
  | succ level ih =>
    simp only [path, List.mem_cons, forall_eq_or_imp] at h
    simp only [path, find, h.1]
    split
    next hv =>
      rw [if_pos hv] at h
      obtain ⟨hpath, hfind⟩ := ih h.2
      exact ⟨by rw [hpath], hfind⟩
    next => exact ⟨rfl, rfl⟩

theorem lookup_congr (h : ∀ a ∈ path mem va 2 pagetable, load mem' a = load mem a) :
    lookup mem' pagetable va = lookup mem pagetable va := by
  unfold lookup
  rw [(path_congr h).2]
  cases hf : find mem va 2 pagetable with
  | none => rw [Option.map_none, Option.map_none]
  | some a => rw [Option.map_some, Option.map_some, h a (mem_path_of_find hf)]

theorem load_congr (h : ∀ i < 8, mem' (a + i) = mem (a + i)) : load mem' a = load mem a := by
  have hbytes := List.foldr_ext (fun i n => (mem' (a + i)).toNat + 256 * n)
    (fun i n => (mem (a + i)).toNat + 256 * n) 0 (l := List.range 8) fun i hi n => by
      rw [h i (List.mem_range.mp hi)]
  rw [load, load, hbytes]

theorem load_blit_ne {n : Nat} {src : Nat → Byte} {b : Nat} (h : a + n ≤ b ∨ b + 8 ≤ a) :
    load (blit mem a n src) b = load mem b := by
  apply load_congr
  intro i hi
  rw [blit, if_neg (by omega)]

theorem load_zero : load (fun _ => 0) a = 0 := rfl

theorem load_blit_zero {n b : Nat} (hle : a ≤ b) (hlt : b + 8 ≤ a + n) : load (blit mem a n fun _ => 0) b = 0 := by
  have hzero : load (blit mem a n fun _ => 0) b = load (fun _ => 0) b := by
    apply load_congr
    intro i hi
    rw [blit, if_pos (by omega)]
  rw [hzero, load_zero]

theorem load_store_ne {b : Nat} {w : Pte} (h : a + 8 ≤ b ∨ b + 8 ≤ a) : load (store mem a w) b = load mem b :=
  load_blit_ne h

theorem load_store {w : Pte} : load (store mem a w) a = w := by
  have hbyte : ∀ i < 8, (store mem a w (a + i)).toNat = w.toNat / 256 ^ i % 256 := by
    intro i hi
    rw [store, blit, if_pos (by omega), Nat.add_sub_cancel_left, BitVec.toNat_ofNat]
  have hw := w.isLt
  apply BitVec.eq_of_toNat_eq
  rw [load, BitVec.toNat_ofNat]
  simp only [List.range_succ, List.range_zero, List.nil_append, List.cons_append, List.foldr_cons, List.foldr_nil]
  rw [hbyte 0, hbyte 1, hbyte 2, hbyte 3, hbyte 4, hbyte 5, hbyte 6, hbyte 7] <;> omega

attribute [irreducible] load

theorem load_store_of_dvd {b : Nat} {w : Pte} (ha : 8 ∣ a) (hb : 8 ∣ b) :
    load (store mem a w) b = if b = a then w else load mem b := by
  split
  next h => rw [h, load_store]
  next h => rw [load_store_ne (by omega)]

theorem wp_walkLoop_false : wp (walkLoop va false level pagetable)
    (fun r t => t = s ∧ r = find s.mem va level pagetable) E s := by
  induction level generalizing pagetable with
  | zero => simp [walkLoop, find]
  | succ level ih =>
    simp only [walkLoop, wp_bind, wp_read, wp_ite, find]
    refine ⟨fun hv => ?_, fun hv => ?_⟩
    · rw [if_pos hv]
      exact ih
    · rw [if_neg hv]
      simp

theorem wp_walk_false (hva : va < maxva) : wp (walk pagetable va false)
    (fun r t => t = s ∧ r = find s.mem va 2 pagetable) E s := by
  simp only [walk, wp_bind, wp_ite, ge_iff_le, Nat.not_le.mpr hva, false_implies, true_and, not_false_eq_true,
    true_implies]
  exact wp_walkLoop_false

end Lookup

end Xv6.Sv39
