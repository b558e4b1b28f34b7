import Mathlib.Tactic.Ring
import Xv6.Lib.Linked
import Xv6.Lib.Run

/-!
The allocator of user programs. An address is a byte address; a block is a number of units of
`sizeof(Header)`, its header the first of them.
-/

namespace Xv6.Umalloc

open List Function

abbrev Blk := Nat × Nat

def Blk.stop (x : Blk) : Nat := x.1 + 16 * x.2

def uint (n : Nat) : Nat := n % 2 ^ 32

structure Hdr where
  ptr : Nat
  size : Nat

/-- The headers, `freep`, and the regions that `sbrk` has delivered. -/
structure Heap where
  mem : Nat → Hdr
  freep : Nat
  regions : List Blk

/-- What `sbrk` returns, given the regions before and the units asked for; `none` is -1. -/
abbrev Sbrk := List Blk → Nat → Option Nat

/-- The search of `free`. -/
def findSlot (mem : Nat → Hdr) (bp : Nat) : (fuel p : Nat) → Option Nat
  | 0, _ => none
  | fuel + 1, p =>
    if bp > p ∧ bp < (mem p).ptr then some p
    else if p ≥ (mem p).ptr ∧ (bp > p ∨ bp < (mem p).ptr) then some p
    else findSlot mem bp fuel (mem p).ptr

def joinNext (mem : Nat → Hdr) (p bp : Nat) : Nat → Hdr :=
  if bp + 16 * (mem bp).size = (mem p).ptr then
    update mem bp ⟨(mem (mem p).ptr).ptr, uint ((mem bp).size + (mem (mem p).ptr).size)⟩
  else update mem bp { mem bp with ptr := (mem p).ptr }

def joinPrev (mem : Nat → Hdr) (p bp : Nat) : Nat → Hdr :=
  if p + 16 * (mem p).size = bp then
    update mem p ⟨(mem bp).ptr, uint ((mem p).size + (mem bp).size)⟩
  else update mem p { mem p with ptr := bp }

def free (fuel : Nat) (h : Heap) (ap : Nat) : Option Heap :=
  match findSlot h.mem (ap - 16) fuel h.freep with
  | none => none
  | some p => some { h with mem := joinPrev (joinNext h.mem p (ap - 16)) p (ap - 16), freep := p }

def morecore (sbrk : Sbrk) (fuel : Nat) (h : Heap) (nu : Nat) : Option (Heap × Nat) :=
  let nu := if nu < 4096 then 4096 else nu
  match sbrk h.regions nu with
  | none => some (h, 0)
  | some p =>
    let h := { h with mem := update h.mem p { h.mem p with size := nu }, regions := h.regions ++ [(p, nu)] }
    match free fuel h (p + 16) with
    | none => none
    | some h => some (h, h.freep)

def takeBlock (h : Heap) (prevp p nunits : Nat) : Heap × Nat :=
  if (h.mem p).size = nunits then
    ({ h with mem := update h.mem prevp { h.mem prevp with ptr := (h.mem p).ptr }, freep := prevp }, p + 16)
  else
    let size := (h.mem p).size - nunits
    let mem := update h.mem p { h.mem p with size := size }
    let q := p + 16 * size
    ({ h with mem := update mem q { mem q with size := nunits }, freep := prevp }, q + 16)

def mallocLoop (sbrk : Sbrk) (nunits : Nat) : (fuel : Nat) → Heap → (prevp p : Nat) → Option (Heap × Nat)
  | 0, _, _, _ => none
  | fuel + 1, h, prevp, p =>
    if (h.mem p).size ≥ nunits then some (takeBlock h prevp p nunits)
    else if p = h.freep then
      match morecore sbrk fuel h nunits with
      | none => none
      | some (h, p) => if p = 0 then some (h, 0) else mallocLoop sbrk nunits fuel h p (h.mem p).ptr
    else mallocLoop sbrk nunits fuel h p (h.mem p).ptr

def nunits (nbytes : Nat) : Nat := uint ((nbytes + 15) / 16 + 1)

/-- The first call makes `base` the only block of the free list. -/
def initialise (base : Nat) (h : Heap) : Heap :=
  if h.freep = 0 then { h with mem := update h.mem base ⟨base, 0⟩, freep := base } else h

def malloc (base : Nat) (sbrk : Sbrk) (fuel : Nat) (h : Heap) (nbytes : Nat) : Option (Heap × Nat) :=
  mallocLoop sbrk (nunits nbytes) fuel (initialise base h) (initialise base h).freep
    ((initialise base h).mem (initialise base h).freep).ptr

/-- The heap with the blocks that `malloc` has returned and that are not yet freed. -/
structure State where
  heap : Heap
  live : List Blk

inductive Call
  | malloc (nbytes : Nat) (sbrk : Sbrk)
  | free (ap : Nat)

/-- A call that returns. `contract` is what is asked of `sbrk`. -/
inductive Step (base : Nat) (contract : Sbrk → Prop) : State → Call → State → Prop
  | malloc {s nbytes sbrk fuel h p} (hn : nbytes ≤ 2 ^ 30) (hsbrk : contract sbrk)
      (hcall : malloc base sbrk fuel s.heap nbytes = some (h, p)) :
      Step base contract s (.malloc nbytes sbrk) ⟨h, if p = 0 then s.live else (p - 16, (h.mem (p - 16)).size) :: s.live⟩
  | free {s bp size fuel h} (hlive : (bp, size) ∈ s.live) (hcall : free fuel s.heap (bp + 16) = some h) :
      Step base contract s (.free (bp + 16)) ⟨h, s.live.erase (bp, size)⟩

def units (bs : List Blk) : Nat := (bs.map Prod.snd).sum

/-- `sbrk` returns fresh regions, each above all earlier ones and above `base`. -/
def Fresh (base : Nat) (sbrk : Sbrk) : Prop :=
  ∀ regions nu a, sbrk regions nu = some a → base + 16 ≤ a ∧ ∀ r ∈ regions, Blk.stop r ≤ a

/-- All that `sbrk` delivers is less than `2^32` units. -/
def Bounded (sbrk : Sbrk) : Prop := ∀ regions nu a, sbrk regions nu = some a → units regions + nu < 2 ^ 32

def initial : State := ⟨⟨fun _ => ⟨0, 0⟩, 0, []⟩, []⟩

def Apart (x y : Blk) : Prop := x.stop ≤ y.1 ∨ y.stop ≤ x.1

/-- Blocks that account for all that `sbrk` has delivered. -/
structure Accounts (base : Nat) (regions bs : List Blk) : Prop where
  apart : bs.Pairwise Apart
  good : ∀ x ∈ bs, 0 < x.2 ∧ base + 16 ≤ x.1
  top : ∀ a, (∀ r ∈ regions, Blk.stop r ≤ a) → ∀ x ∈ bs, x.stop ≤ a
  total : units bs = units regions

/-- Adjacent blocks are joined. -/
inductive Joins : List Blk → List Blk → Prop
  | perm {l l' : List Blk} : l.Perm l' → Joins l l'
  | join (a n m : Nat) (l : List Blk) : Joins ((a, n) :: (a + 16 * n, m) :: l) ((a, n + m) :: l)
  | trans {l l' l'' : List Blk} : Joins l l' → Joins l' l'' → Joins l l''

section Accounts

variable {base a n m : Nat} {regions bs bs' : List Blk} {x y : Blk}

theorem Apart.symm (h : Apart x y) : Apart y x := Or.symm h

@[simp] theorem units_cons : units (x :: bs) = x.2 + units bs := rfl

@[simp] theorem units_append : units (bs ++ bs') = units bs + units bs' := by simp [units]

theorem units_perm (h : bs.Perm bs') : units bs = units bs' := (h.map _).sum_nat

theorem Accounts.perm (h : Accounts base regions bs) (hp : bs.Perm bs') : Accounts base regions bs' where
  apart := (hp.pairwise_iff fun hxy => Apart.symm hxy).mp h.apart
  good x hx := h.good x (hp.mem_iff.mpr hx)
  top a ha x hx := h.top a ha x (hp.mem_iff.mpr hx)
  total := by rw [← units_perm hp, h.total]

theorem Accounts.join (h : Accounts base regions ((a, n) :: (a + 16 * n, m) :: bs)) : Accounts base regions ((a, n + m) :: bs) where
  apart := by
    obtain ⟨hfirst, hrest⟩ := pairwise_cons.mp h.apart
    obtain ⟨hsecond, hbs⟩ := pairwise_cons.mp hrest
    refine pairwise_cons.mpr ⟨fun y hy => ?_, hbs⟩
    have h1 := hfirst y (mem_cons_of_mem _ hy)
    have h2 := hsecond y hy
    have hpos := (h.good y (mem_cons_of_mem _ (mem_cons_of_mem _ hy))).1
    simp only [Apart, Blk.stop] at *
    omega
  good x hx := by
    rcases mem_cons.mp hx with rfl | hx
    · have hgood := h.good _ mem_cons_self
      exact ⟨Nat.add_pos_left hgood.1 m, hgood.2⟩
    · exact h.good x (mem_cons_of_mem _ (mem_cons_of_mem _ hx))
  top b hb x hx := by
    rcases mem_cons.mp hx with rfl | hx
    · have htop := h.top b hb _ (mem_cons_of_mem _ mem_cons_self)
      simp only [Blk.stop] at *
      omega
    · exact h.top b hb x (mem_cons_of_mem _ (mem_cons_of_mem _ hx))
  total := by
    rw [← h.total]
    simp only [units_cons]
    omega

theorem Accounts.joins (h : Accounts base regions bs) (hj : Joins bs bs') : Accounts base regions bs' := by
  induction hj with
  | perm hp => exact h.perm hp
  | join a n m l => exact h.join
  | trans _ _ ih ih' => exact ih' (ih h)

theorem Joins.append (h : Joins bs bs') (l : List Blk) : Joins (bs ++ l) (bs' ++ l) := by
  induction h with
  | perm hp => exact .perm (hp.append_right l)
  | join a n m l' => exact .join a n m (l' ++ l)
  | trans _ _ ih ih' => exact ih.trans ih'

theorem Accounts.split (h : Accounts base regions ((a, n + m) :: bs)) (hn : 0 < n) (hm : 0 < m) :
    Accounts base regions ((a, n) :: (a + 16 * n, m) :: bs) where
  apart := by
    obtain ⟨hfirst, hbs⟩ := pairwise_cons.mp h.apart
    refine pairwise_cons.mpr ⟨fun y hy => ?_, pairwise_cons.mpr ⟨fun y hy => ?_, hbs⟩⟩
    · rcases mem_cons.mp hy with rfl | hy
      · exact .inl le_rfl
      · have hy' := hfirst y hy
        simp only [Apart, Blk.stop] at *
        omega
    · have hy' := hfirst y hy
      simp only [Apart, Blk.stop] at *
      omega
  good x hx := by
    have hgood := (h.good _ mem_cons_self).2
    rcases mem_cons.mp hx with rfl | hx
    · exact ⟨hn, hgood⟩
    · rcases mem_cons.mp hx with rfl | hx
      · exact ⟨hm, Nat.le_add_right_of_le hgood⟩
      · exact h.good x (mem_cons_of_mem _ hx)
  top b hb x hx := by
    have htop := h.top b hb _ mem_cons_self
    rcases mem_cons.mp hx with rfl | hx
    · simp only [Blk.stop] at *
      omega
    · rcases mem_cons.mp hx with rfl | hx
      · simp only [Blk.stop] at *
        omega
      · exact h.top b hb x (mem_cons_of_mem _ hx)
  total := by
    rw [← h.total]
    simp only [units_cons]
    omega

theorem Accounts.grow (h : Accounts base regions bs) (hbase : base + 16 ≤ a) (hn : 0 < n) (habove : ∀ r ∈ regions, Blk.stop r ≤ a) :
    Accounts base (regions ++ [(a, n)]) ((a, n) :: bs) where
  apart := pairwise_cons.mpr ⟨fun y hy => .inr (h.top a habove y hy), h.apart⟩
  good x hx := by
    rcases mem_cons.mp hx with rfl | hx
    · exact ⟨hn, hbase⟩
    · exact h.good x hx
  top b hb x hx := by
    rcases mem_cons.mp hx with rfl | hx
    · exact hb _ (mem_append_right _ mem_cons_self)
    · exact h.top b (fun r hr => hb r (mem_append_left _ hr)) x hx
  total := by
    simp only [units_cons, units_append, h.total]
    exact Nat.add_comm _ _

end Accounts

end Xv6.Umalloc
