import Mathlib.Data.Set.Card
import Xv6.PageSteps

namespace Xv6

open Fs (put put_same put_ne put_eq_self)
open Vm (Mem Table Ledger Owns npages)
open Count Transition Finset

inductive Place
  | free (i : Nat)
  | kernel (i : Nat)
  | root (p : Nat)
  | mid (p i : Nat)
  | low (p q : Nat)
  | leaf (p v : Nat)
  | trapframe (p : Nat)
  | pipe (pa : Nat)
  deriving DecidableEq

def child (heap : Nat → Nat → Vm.Pte) (page i : Nat) : Option Nat := (heap page i).page

def lowNode (heap : Nat → Nat → Vm.Pte) (root q : Nat) : Option Nat :=
  (child heap root (q / 512)).bind fun c => child heap c (q % 512)

def leafEntry (heap : Nat → Nat → Vm.Pte) (root v : Nat) : Option Vm.Pte :=
  (lowNode heap root (v / 512)).map fun c => heap c (v % 512)

/-- The page in a place: a slot of the free list, a page of the kernel, a node of the page table of
process `p`, a page below its size, its trapframe, or a pipe. -/
def Kernel.holds (s : Kernel) (pages : List (KernelUse × Nat)) : Place → Option Nat
  | .free i => s.mem.freelist[i]?
  | .kernel i => (pages.map Prod.snd)[i]?
  | .root p => if p < nproc ∧ (s.proc p).pagetable ≠ 0 then some (s.proc p).pagetable else none
  | .mid p i =>
    if p < nproc ∧ (s.proc p).pagetable ≠ 0 ∧ i < 512 then child s.mem.heap (s.proc p).pagetable i else none
  | .low p q =>
    if p < nproc ∧ (s.proc p).pagetable ≠ 0 ∧ q < 512 * 512 then lowNode s.mem.heap (s.proc p).pagetable q else none
  | .leaf p v =>
    if p < nproc ∧ (s.proc p).pagetable ≠ 0 ∧ v * Vm.pgsize < (s.proc p).sz then
      (leafEntry s.mem.heap (s.proc p).pagetable v).bind Vm.Pte.page
    else none
  | .trapframe p => if p < nproc then trapframePage (s.proc p) else none
  | .pipe pa => if (s.pipe pa).isSome then some pa else none

def Machine.Managed (mc : Machine) (x : Nat) : Prop :=
  x % Vm.pgsize = 0 ∧ Vm.pgroundup mc.kend ≤ x ∧ x < Vm.phystop

instance (mc : Machine) (x : Nat) : Decidable (mc.Managed x) := inferInstanceAs (Decidable (_ ∧ _))

section Table

variable {heap : Nat → Nat → Vm.Pte} {t : Table}

theorem child_interior {page i : Nat} {o : Option Nat} (hentry : heap page i = Vm.interior o)
    (halign : ∀ c, o = some c → c % Vm.pgsize = 0) : child heap page i = o := by
  cases o with
  | none => rw [child, hentry]; rfl
  | some c =>
    have hv : (Vm.interior (some c)).has Vm.pteV = true := Vm.interior_valid (some c)
    rw [child, hentry, Vm.Pte.page, if_pos hv, Vm.interior, Vm.pa_pa2pte (halign c rfl)]

section
variable (h : Vm.Repr heap t)
include h

theorem child_root {i : Nat} (hi : i < 512) : child heap t.root i = t.mid i :=
  child_interior (h.top i hi) (h.alignedMid i)

theorem lowNode_eq {q : Nat} (hq : q < 512 * 512) : lowNode heap t.root q = t.low q := by
  rw [lowNode, child_root h (Nat.div_lt_of_lt_mul hq)]
  cases hc : t.mid (q / 512) with
  | none => exact (h.down q hc).symm
  | some c => exact child_interior (h.mid q hq c hc) (h.alignedLow q)

theorem leafEntry_eq {v : Nat} (hv : v < 512 * 512 * 512) :
    leafEntry heap t.root v = (t.low (v / 512)).map fun _ => t.leaf v := by
  rw [leafEntry, lowNode_eq h (Nat.div_lt_of_lt_mul (by omega))]
  cases hc : t.low (v / 512) with
  | none => rfl
  | some c => exact congrArg some (h.low v hv c hc)

theorem leafEntry_page {v : Nat} (hv : v < 512 * 512 * 512) : (leafEntry heap t.root v).bind Vm.Pte.page = t.leafPage v := by
  rw [leafEntry_eq h hv]
  cases hc : t.low (v / 512) with
  | some c => rfl
  | none =>
    have hzero : t.leafPage v = none := by
      rw [Table.leafPage, h.void v hc, Vm.zero_not_valid]
      rfl
    exact hzero.symm

end

end Table

section Places

variable {kp : Base} {T : Nat → Option Table} {s : Kernel} {pages : List (KernelUse × Nat)} {w : Place}

theorem mul_lt_iff_npages (v sz : Nat) : v * Vm.pgsize < sz ↔ v < npages sz := by
  simp only [npages, Vm.pgsize]
  omega

def Place.kind : Place → Nat
  | .free _ => 0
  | .kernel _ => 1
  | .root _ => 2
  | .mid _ _ => 3
  | .low _ _ => 4
  | .leaf _ _ => 5
  | .trapframe _ => 6
  | .pipe _ => 7

section
variable {S S' : Finset Place} {a : Nat} (hS : ∀ w ∈ S, w.kind < a)
include hS

theorem disjoint_of_kind (hS' : ∀ w ∈ S', a ≤ w.kind) : Disjoint S S' := by
  rw [disjoint_left]
  intro w hw hw'
  have := hS w hw
  have := hS' w hw'
  omega

theorem below_union (hS' : ∀ w ∈ S', w.kind < a) :
    ∀ w ∈ S ∪ S', w.kind < a := fun w hw => (mem_union.mp hw).elim (hS w) (hS' w)

end

theorem below_image {S : Finset Nat} {f : Nat → Place} {a : Nat} (hf : ∀ i, (f i).kind < a) :
    ∀ w ∈ S.image f, w.kind < a := by
  intro w hw
  obtain ⟨i, -, rfl⟩ := mem_image.mp hw
  exact hf i

theorem above_image {S : Finset Nat} {f : Nat → Place} {a : Nat} (hf : ∀ i, a ≤ (f i).kind) :
    ∀ w ∈ S.image f, a ≤ w.kind := by
  intro w hw
  obtain ⟨i, -, rfl⟩ := mem_image.mp hw
  exact hf i

def tablePlaces (p : Nat) : Finset Place :=
  {Place.root p} ∪ (range 512).image (Place.mid p) ∪ (range (512 * 512)).image (Place.low p) ∪
    (range Vm.userTop).image (Place.leaf p)

theorem holders_tablePlaces (h : PagesAt kp T 0 s) {p : Nat} (hp : p < nproc) :
    holders (tablePlaces p) (s.holds pages) = pagesOf (T p) := by
  have hsplit : holders (tablePlaces p) (s.holds pages) = mark (s.holds pages (.root p)) +
      holders (range 512) (fun i => s.holds pages (.mid p i)) +
      holders (range (512 * 512)) (fun q => s.holds pages (.low p q)) +
      holders (range Vm.userTop) (fun v => s.holds pages (.leaf p v)) := by
    have hroot : holders {Place.root p} (s.holds pages) = mark (s.holds pages (.root p)) := by
      funext x
      rw [holders_eq_sum, sum_singleton]
    unfold tablePlaces
    rw [holders_union, holders_union, holders_union, hroot, holders_image, holders_image, holders_image]
    · exact fun i j hij => (Place.leaf.inj hij).2
    · exact fun i j hij => (Place.low.inj hij).2
    · exact fun i j hij => (Place.mid.inj hij).2
    · exact disjoint_of_kind (a := 3) (by simp [Place.kind]) (above_image fun _ => by simp [Place.kind])
    · exact disjoint_of_kind (a := 4) (below_union (by simp [Place.kind]) (below_image fun _ => by simp [Place.kind]))
        (above_image fun _ => by simp [Place.kind])
    · exact disjoint_of_kind (a := 5) (below_union (below_union (by simp [Place.kind])
        (below_image fun _ => by simp [Place.kind])) (below_image fun _ => by simp [Place.kind]))
        (above_image fun _ => by simp [Place.kind])
  have hspace := h.space p hp
  rw [hsplit]
  cases ht : T p with
  | none =>
    rw [ht] at hspace
    have hzero : (s.proc p).pagetable = 0 := hspace
    have h1 : s.holds pages (.root p) = none := if_neg (by simp [hzero])
    have h2 : ∀ i, s.holds pages (.mid p i) = none := fun i => if_neg (by simp [hzero])
    have h3 : ∀ q, s.holds pages (.low p q) = none := fun q => if_neg (by simp [hzero])
    have h4 : ∀ v, s.holds pages (.leaf p v) = none := fun v => if_neg (by simp [hzero])
    rw [h1, holders_none fun i _ => h2 i, holders_none fun i _ => h3 i, holders_none fun i _ => h4 i, mark_none]
    rfl
  | some t =>
    rw [ht] at hspace
    obtain ⟨hroot, huser, -⟩ := hspace
    have hrepr := h.repr p hp t ht
    have hne : (s.proc p).pagetable ≠ 0 := hroot ▸ Vm.root_ne_zero (h.take hp ht)
    have h1 : s.holds pages (.root p) = some t.root := by
      rw [Kernel.holds, if_pos ⟨hp, hne⟩, hroot]
    have h2 : ∀ i ∈ range 512, s.holds pages (.mid p i) = t.mid i := fun i hi => by
      have hi := mem_range.mp hi
      rw [Kernel.holds, if_pos ⟨hp, hne, hi⟩, hroot, child_root hrepr hi]
    have h3 : ∀ q ∈ range (512 * 512), s.holds pages (.low p q) = t.low q := fun q hq => by
      have hq := mem_range.mp hq
      rw [Kernel.holds, if_pos ⟨hp, hne, hq⟩, hroot, lowNode_eq hrepr hq]
    have h4 : ∀ v ∈ range Vm.userTop, s.holds pages (.leaf p v) = t.leafPage v := fun v hv => by
      have hv := mem_range.mp hv
      have hlt : v < 512 * 512 * 512 := by
        rw [Vm.userTop_eq] at hv
        omega
      by_cases hsz : v * Vm.pgsize < (s.proc p).sz
      · rw [Kernel.holds, if_pos ⟨hp, hne, hsz⟩, hroot, leafEntry_page hrepr hlt]
      · have hvoid := huser.void v (by rw [mul_lt_iff_npages] at hsz; omega) hv
        rw [Kernel.holds, if_neg (by simp [hsz]), Table.leafPage, hvoid, Vm.zero_not_valid]
        rfl
    rw [h1, holders_congr h2, holders_congr h3, holders_congr h4]
    rfl

def managedPages (mem : Mem) : Finset Nat :=
  (range Vm.phystop).filter fun x => x % Vm.pgsize = 0 ∧ mem.kend ≤ x

@[irreducible]
def allTables (n : Nat) : Finset Place := (range n).biUnion tablePlaces

theorem mem_allTables {n : Nat} : w ∈ allTables n ↔ ∃ p < n, w ∈ tablePlaces p := by
  rw [allTables]
  simp only [mem_biUnion, mem_range]

def places (s : Kernel) (pages : List (KernelUse × Nat)) : Finset Place :=
  (range s.mem.freelist.length).image Place.free ∪ (range (pages.map Prod.snd).length).image Place.kernel ∪
    allTables nproc ∪ (range nproc).image Place.trapframe ∪
    (managedPages s.mem).image Place.pipe

theorem mem_managedPages {mem : Mem} {x : Nat} :
    x ∈ managedPages mem ↔ x % Vm.pgsize = 0 ∧ mem.kend ≤ x ∧ x < Vm.phystop := by
  simp only [managedPages, mem_filter, mem_range]
  tauto

theorem kind_tablePlaces {p : Nat} (hw : w ∈ tablePlaces p) : 2 ≤ w.kind ∧ w.kind < 6 := by
  simp only [tablePlaces, mem_union, mem_singleton, mem_image] at hw
  rcases hw with ((rfl | ⟨_, -, rfl⟩) | ⟨_, -, rfl⟩) | ⟨_, -, rfl⟩ <;> simp [Place.kind]

theorem kind_allTables {n : Nat} (hw : w ∈ allTables n) : 2 ≤ w.kind ∧ w.kind < 6 := by
  obtain ⟨p, -, hw⟩ := mem_allTables.mp hw
  exact kind_tablePlaces hw

theorem holders_places (h : PagesAt ⟨s.mem.layout, usedPages pages⟩ T 0 s) (x : Nat) :
    holders (places s pages) (s.holds pages) x = s.mem.inRange x := by
  have htables : holders (allTables nproc) (s.holds pages) = tablePages T := by
    rw [allTables, holders_biUnion]
    · exact sum_congr rfl fun p hp => holders_tablePlaces h (mem_range.mp hp)
    · intro p _ q _ hpq
      rw [disjoint_left]
      intro w hw hw'
      simp only [tablePlaces, mem_union, mem_singleton, mem_image] at hw hw'
      rcases hw with ((rfl | ⟨_, -, rfl⟩) | ⟨_, -, rfl⟩) | ⟨_, -, rfl⟩ <;> simp [hpq, Ne.symm hpq] at hw'
  have hfree : holders (range s.mem.freelist.length) (fun i => s.holds pages (.free i)) x = s.mem.freelist.count x :=
    congrFun (holders_list s.mem.freelist) x
  have hkernel : holders (range (pages.map Prod.snd).length) (fun i => s.holds pages (.kernel i)) x =
      usedPages pages x := congrFun (holders_list (pages.map Prod.snd)) x
  have htraps : holders (range nproc) (fun p => s.holds pages (.trapframe p)) =
      holders (range nproc) fun p => trapframePage (s.proc p) :=
    holders_congr fun p hp => if_pos (mem_range.mp hp)
  have hpipes : holders (managedPages s.mem) (fun pa => s.holds pages (.pipe pa)) x = pipePages s.pipe x := by
    rw [show (fun pa => s.holds pages (.pipe pa)) = fun pa => if (s.pipe pa).isSome then some pa else none from rfl,
      holders_self, pipePages]
    by_cases hx : (s.pipe x).isSome
    · have hmem : x ∈ managedPages s.mem := by
        refine mem_managedPages.mpr (h.ledger.mem_range ?_)
        have h1 := tablePages_nonneg T x
        have h2 := holders_nonneg (range nproc) (fun p => trapframePage (s.proc p)) x
        have h3 : 0 ≤ usedPages pages x := h.kernel x
        simp only [inUse, Pi.add_apply, Pi.zero_apply, pipePages, hx, if_true]
        omega
      rw [if_pos ⟨hmem, hx⟩, if_pos hx]
    · rw [if_neg (fun hc => hx hc.2), if_neg hx]
  have htotal := h.ledger.total x
  have hlow : ∀ a, 2 ≤ a → ∀ w ∈ (range s.mem.freelist.length).image Place.free ∪
      (range (pages.map Prod.snd).length).image Place.kernel, w.kind < a := fun a ha =>
    below_union (below_image fun _ => by simp only [Place.kind]; omega) (below_image fun _ => by simp only [Place.kind]; omega)
  unfold places
  rw [holders_union, holders_union, holders_union, holders_union, holders_image, holders_image, holders_image,
    holders_image, htables, htraps]
  · simp only [inUse, Pi.add_apply, Pi.zero_apply] at htotal ⊢
    rw [hfree, hkernel, hpipes]
    omega
  · exact fun i j hij => Place.pipe.inj hij
  · exact fun i j hij => Place.trapframe.inj hij
  · exact fun i j hij => Place.kernel.inj hij
  · exact fun i j hij => Place.free.inj hij
  · exact disjoint_of_kind (a := 1) (below_image fun _ => by simp [Place.kind]) (above_image fun _ => by simp [Place.kind])
  · exact disjoint_of_kind (a := 2) (hlow 2 le_rfl) fun w hw => (kind_allTables hw).1
  · exact disjoint_of_kind (a := 6) (below_union (hlow 6 (by decide)) fun w hw => (kind_allTables hw).2)
      (above_image fun _ => by simp [Place.kind])
  · exact disjoint_of_kind (a := 7) (below_union (below_union (hlow 7 (by decide)) fun w hw =>
      (kind_allTables hw).2.trans (by decide)) (below_image fun _ => by simp [Place.kind]))
      (above_image fun _ => by simp [Place.kind])

theorem mem_places (h : PagesAt kp T 0 s) {x : Nat} (hw : s.holds pages w = some x) : w ∈ places s pages := by
  simp only [places, mem_union]
  cases w with
  | free i =>
    obtain ⟨hi, -⟩ := List.getElem?_eq_some_iff.mp hw
    simp [hi]
  | kernel i =>
    obtain ⟨hi, -⟩ := List.getElem?_eq_some_iff.mp hw
    rw [List.length_map] at hi
    simp [hi]
  | root p | mid p i | low p q =>
    obtain ⟨hc, -⟩ := Option.ite_none_right_eq_some.mp hw
    refine .inl (.inl (.inr (mem_allTables.mpr ⟨p, hc.1, ?_⟩)))
    simp [tablePlaces, hc]
  | leaf p v =>
    obtain ⟨⟨hp, hne, hv⟩, -⟩ := Option.ite_none_right_eq_some.mp hw
    refine .inl (.inl (.inr (mem_allTables.mpr ⟨p, hp, ?_⟩)))
    have hspace := h.space p hp
    cases ht : T p with
    | none =>
      rw [ht] at hspace
      exact absurd hspace hne
    | some t =>
      rw [ht] at hspace
      have hle := hspace.2.1.le
      rw [mul_lt_iff_npages] at hv
      simp only [tablePlaces, mem_union]
      exact .inr (mem_image_of_mem _ (mem_range.mpr (hv.trans_le hle)))
  | trapframe p =>
    obtain ⟨hp, -⟩ := Option.ite_none_right_eq_some.mp hw
    exact .inl (.inr (mem_image_of_mem _ (mem_range.mpr hp)))
  | pipe pa =>
    obtain ⟨hpi, -⟩ := Option.ite_none_right_eq_some.mp hw
    refine .inr (mem_image_of_mem _ (mem_managedPages.mpr (h.ledger.mem_range ?_)))
    have h1 := tablePages_nonneg T pa
    have h2 := holders_nonneg (range nproc) (fun p => trapframePage (s.proc p)) pa
    have h3 := h.kernel pa
    simp only [inUse, Pi.add_apply, Pi.zero_apply, pipePages, hpi, if_true]
    omega

section
variable (h : PagesAt ⟨s.mem.layout, usedPages pages⟩ T 0 s)
include h

theorem holds_mem_range {x : Nat}
    (hw : s.holds pages w = some x) : x % Vm.pgsize = 0 ∧ s.mem.kend ≤ x ∧ x < Vm.phystop := by
  have hpos := holders_pos (mem_places h hw) hw
  rw [holders_places h] at hpos
  by_contra hout
  rw [Mem.inRange, if_neg hout] at hpos
  exact absurd hpos (by decide)

theorem holds_unique {w w' : Place} {x : Nat} (hw : s.holds pages w = some x) (hw' : s.holds pages w' = some x) : w = w' := by
  refine holders_eq_of_le_one ?_ (mem_places h hw) (mem_places h hw') hw hw'
  rw [holders_places h]
  exact s.mem.inRange_le_one x

theorem holds_exists {x : Nat}
    (hx : x % Vm.pgsize = 0 ∧ s.mem.kend ≤ x ∧ x < Vm.phystop) : ∃ w, s.holds pages w = some x := by
  have hone : holders (places s pages) (s.holds pages) x = 1 := by
    rw [holders_places h, Mem.inRange, if_pos hx]
  obtain ⟨w, -, hw⟩ := exists_of_holders_pos (hone ▸ Int.one_pos)
  exact ⟨w, hw⟩

end

theorem mem_freelist_iff (pages : List (KernelUse × Nat)) {x : Nat} : x ∈ s.mem.freelist ↔ ∃ i, s.holds pages (.free i) = some x :=
  List.mem_iff_getElem?

theorem freelist_nodup (h : PagesAt kp T 0 s) : s.mem.freelist.Nodup := by
  refine List.nodup_iff_count_le_one.mpr fun x => ?_
  have htotal := h.ledger.total x
  have hle := s.mem.inRange_le_one x
  have hnn := h.ledger.nonneg x
  omega

/-- The machine has 128 MB of memory, so the sum fits. -/
theorem freelist_length_le (h : PagesAt kp T 0 s) : s.mem.freelist.length ≤ 32768 := by
  have hsub : s.mem.freelist.toFinset ⊆ (range 32768).image fun i => Vm.kernbase + Vm.pgsize * i := by
    intro x hx
    have hcount : 0 < s.mem.freelist.count x := List.count_pos_iff.mpr (List.mem_toFinset.mp hx)
    have hin : x % Vm.pgsize = 0 ∧ s.mem.kend ≤ x ∧ x < Vm.phystop := by
      by_contra hout
      have htotal := h.ledger.total x
      have hnn := h.ledger.nonneg x
      rw [Mem.inRange, if_neg hout] at htotal
      omega
    have hlow := h.ledger.bounds
    refine mem_image.mpr ⟨(x - Vm.kernbase) / Vm.pgsize, mem_range.mpr ?_, ?_⟩ <;>
      simp only [Vm.pgsize, Vm.phystop, Vm.kernbase] at * <;> omega
  calc s.mem.freelist.length = s.mem.freelist.toFinset.card := (List.toFinset_card_of_nodup (freelist_nodup h)).symm
    _ ≤ _ := card_le_card hsub
    _ ≤ (range 32768).card := card_image_le
    _ = 32768 := card_range _

theorem freemem_eq (h : PagesAt kp T 0 s) : Vm.freemem s.mem = 4096 * s.mem.freelist.length := by
  have hle := freelist_length_le h
  unfold Vm.freemem
  generalize s.mem.freelist.length = n at hle ⊢
  rw [Int.bmod_eq_of_le_mul_two (by omega) (by omega), Int.mul_comm]

end Places

theorem managed_iff {mc : Machine} {x : Nat} : mc.Managed x ↔ x % Vm.pgsize = 0 ∧ mc.kend ≤ x ∧ x < Vm.phystop := by
  have hlow := mc.loaded
  have hhigh := mc.fits
  simp only [Machine.Managed, Vm.pgroundup, Vm.uint64, Vm.pgsize, Vm.phystop] at *
  omega

variable {mc : Machine} {sb : Fs.Superblock} {disk : Fs.Disk} {pages : List (KernelUse × Nat)} {s0 s : Kernel}
  {evs : List Ev}

theorem run_pages (hboot : boot mc.uses (mc.bare sb disk) = .ok (pages, s0)) (hrun : Run step s0 evs s) :
    PagesOk ⟨mc.toLayout, usedPages pages⟩ 0 s :=
  Run.invariant (P := fun _ s => PagesOk ⟨mc.toLayout, usedPages pages⟩ 0 s) (boot_pages hboot)
    (fun _ h hstep => step_pages h hstep) hrun

/-- In every state at a system-call boundary, each page of `[PGROUNDUP(end), PHYSTOP)` is in one place. -/
theorem page_in_one_place (hboot : boot mc.uses (mc.bare sb disk) = .ok (pages, s0)) (hrun : Run step s0 evs s) :
    (∀ x, mc.Managed x → ∃! w, s.holds pages w = some x) ∧ (∀ w x, s.holds pages w = some x → mc.Managed x) ∧
      Vm.freemem s.mem =
        4096 * ({x | mc.Managed x ∧ ∀ w, s.holds pages w = some x → ∃ i, w = .free i}.ncard : ℤ) := by
  obtain ⟨T, h⟩ := run_pages hboot hrun
  have hlayout : s.mem.layout = mc.toLayout := h.layout
  rw [← hlayout] at h
  have hmanaged : ∀ x, mc.Managed x ↔ x % Vm.pgsize = 0 ∧ s.mem.kend ≤ x ∧ x < Vm.phystop := fun x => by
    rw [managed_iff, show s.mem.kend = mc.kend from congrArg Vm.Layout.kend hlayout]
  refine ⟨fun x hx => ?_, fun w x hw => (hmanaged x).mpr (holds_mem_range h hw), ?_⟩
  · obtain ⟨w, hw⟩ := holds_exists h ((hmanaged x).mp hx)
    exact ⟨w, hw, fun w' hw' => holds_unique h hw' hw⟩
  · have hset : {x | mc.Managed x ∧ ∀ w, s.holds pages w = some x → ∃ i, w = .free i} = ↑s.mem.freelist.toFinset := by
      ext x
      simp only [Set.mem_ofPred_eq, mem_coe, List.mem_toFinset, mem_freelist_iff pages]
      constructor
      · rintro ⟨hx, hall⟩
        obtain ⟨w, hw⟩ := holds_exists h ((hmanaged x).mp hx)
        obtain ⟨i, rfl⟩ := hall w hw
        exact ⟨i, hw⟩
      · rintro ⟨i, hi⟩
        exact ⟨(hmanaged x).mpr (holds_mem_range h hi), fun w hw => ⟨i, holds_unique h hw hi⟩⟩
    rw [hset, Set.ncard_coe_finset, List.toFinset_card_of_nodup (freelist_nodup h), freemem_eq h]

def smallMachine : Machine where
  kend := Vm.phystop - 64 * Vm.pgsize
  tramp := Vm.kernbase
  uses := [.node 0, .kstack 0, .virtio 0]
  loaded := by decide
  fits := by decide

def smallBoot : Except KFault (List (KernelUse × Nat) × Kernel) :=
  boot smallMachine.uses (smallMachine.bare ⟨2000, 200, 30, 2, 32, 45⟩ fun _ _ => 0)

/-- The first process forks, grows and shrinks, runs out of memory, opens a pipe and closes one end;
the child exits and is waited for. -/
def smallRun : List Ev :=
  [.call 0 .fork, .call 1 (.sbrk 9000), .call 0 (.sbrk 5000), .call 0 (.sbrk (-3000)), .call 0 (.sbrk 1000000),
    .call 0 (.pipe 16), .call 0 (.close 0), .store 0 0 3 .zero, .call 1 .exit, .call 0 (.wait 0)]

def ranOk {α : Type} (r : Except KFault (α × Kernel)) (evs : List Ev) : Bool :=
  match r with
  | .ok (_, s0) => (Transition.exec step s0 evs).any fun s => decide (Running s 0)
  | .error _ => false

theorem exists_run {α : Type} {r : Except KFault (α × Kernel)} {evs : List Ev} (h : ranOk r evs = true) :
    ∃ a s0 s, r = .ok (a, s0) ∧ Run step s0 evs s ∧ Running s 0 := by
  cases r with
  | error e => exact absurd h nofun
  | ok x =>
    obtain ⟨s, hs, hrunning⟩ := (Option.any_eq_true _ _).mp h
    exact ⟨x.1, x.2, s, rfl, run_of_exec hs, of_decide_eq_true hrunning⟩

set_option maxRecDepth 20000 in
theorem smallRun_ok : ranOk smallBoot smallRun = true := by decide +kernel

theorem smallMachine_page_in_one_place : ∃ pages s0 s, smallBoot = .ok (pages, s0) ∧ Run step s0 smallRun s ∧
    ∃! w, s.holds pages w = some (Vm.phystop - Vm.pgsize) := by
  obtain ⟨pages, s0, s, hboot, hrun, -⟩ := exists_run smallRun_ok
  exact ⟨pages, s0, s, hboot, hrun, (page_in_one_place hboot hrun).1 _ (by decide)⟩

end Xv6
