import Xv6.Umalloc.Heap

namespace Xv6.Umalloc

open List Prod Function

/-- The free list from `base` around to it: in the order of the addresses, with a gap after every block. -/
structure FreeList (base : Nat) (h : Heap) (F : List Blk) : Prop where
  first : ∃ L, F = (base, 0) :: L
  links : Linked.Seg (fun a => (h.mem a).ptr) (F.map Prod.fst) base
  sizes : ∀ x ∈ F, (h.mem x.1).size = x.2
  sorted : F.Pairwise fun x y => x.stop < y.1
  start : h.freep ∈ F.map Prod.fst

/-- Where the search of `free` stops. -/
def IsSlot (mem : Nat → Hdr) (bp p : Nat) : Prop :=
  bp > p ∧ bp < (mem p).ptr ∨ p ≥ (mem p).ptr ∧ (bp > p ∨ bp < (mem p).ptr)

section Search

variable {base b p : Nat} {h : Heap} {mem : Nat → Hdr} {F : List Blk}

theorem findSlot_mono {fuel k r : Nat} (hr : findSlot mem b fuel p = some r) : findSlot mem b (fuel + k) p = some r := by
  induction fuel generalizing p with
  | zero => exact nomatch hr
  | succ fuel ih =>
    rw [Nat.add_right_comm, findSlot]
    rw [findSlot] at hr
    split at hr
    next h1 => rw [if_pos h1, hr]
    next h1 =>
      rw [if_neg h1]
      split at hr
      next h2 => rw [if_pos h2, hr]
      next h2 =>
        rw [if_neg h2]
        exact ih hr

theorem FreeList.cons (h' : FreeList base h F) : ∃ L, F.map fst = base :: L := by
  obtain ⟨L, rfl⟩ := h'.first
  exact ⟨L.map fst, rfl⟩

theorem FreeList.next_mem (h' : FreeList base h F) (hp : p ∈ F.map fst) : (h.mem p).ptr ∈ F.map fst := by
  obtain ⟨L, hL⟩ := h'.cons
  have hlinks := h'.links
  rw [hL] at hlinks hp ⊢
  exact hlinks.next_mem hp

theorem findSlot_isSlot (h' : FreeList base h F) {fuel r : Nat} (hp : p ∈ F.map fst) (hr : findSlot h.mem b fuel p = some r) :
    r ∈ F.map fst ∧ IsSlot h.mem b r := by
  induction fuel generalizing p with
  | zero => exact nomatch hr
  | succ fuel ih =>
    rw [findSlot] at hr
    split at hr
    next hstop =>
      cases hr
      exact ⟨hp, .inl hstop⟩
    next =>
      split at hr
      next hstop =>
        cases hr
        exact ⟨hp, .inr hstop⟩
      next => exact ih (h'.next_mem hp) hr

theorem findSlot_terminates {way : List Nat} {e : Nat} (hway : Linked.Seg (fun a => (mem a).ptr) way e)
    (hslot : ∃ p ∈ way, IsSlot mem b p) : ∃ r, findSlot mem b way.length (way.headD e) = some r := by
  induction way with
  | nil =>
    obtain ⟨p, hp, -⟩ := hslot
    exact absurd hp not_mem_nil
  | cons p way ih =>
    rw [length_cons, findSlot]
    split
    next => exact ⟨_, rfl⟩
    next h1 =>
      split
      next => exact ⟨_, rfl⟩
      next h2 =>
        have hp : ¬ IsSlot mem b p := fun hp => hp.elim h1 h2
        have hrest : ∃ q ∈ way, IsSlot mem b q := by
          obtain ⟨q, hq, hstop⟩ := hslot
          rcases mem_cons.mp hq with rfl | hq
          · exact absurd hstop hp
          · exact ⟨q, hq, hstop⟩
        have hnext : (mem p).ptr = way.headD e := hway.1
        rw [headD_cons, hnext]
        exact ih hway.2 hrest

theorem FreeList.ptr {X Y : List Blk} {x : Blk} (h' : FreeList base h (X ++ x :: Y)) : (h.mem x.1).ptr = (Y.map fst).headD base := by
  have hlinks := h'.links
  rw [map_append, map_cons] at hlinks
  exact (Linked.seg_append.mp hlinks).2.1

theorem FreeList.slot_split (h' : FreeList base h F) (hbase : base < b) (hp : p ∈ F.map fst) (hslot : IsSlot h.mem b p) :
    ∃ X x Y, F = X ++ x :: Y ∧ x.1 = p ∧ p < b ∧ ∀ y ∈ Y, b < y.1 := by
  obtain ⟨x, hx, rfl⟩ := mem_map.mp hp
  obtain ⟨X, Y, rfl⟩ := append_of_mem hx
  have hptr := h'.ptr
  have hsorted := (pairwise_append.mp h'.sorted).2.1
  refine ⟨X, x, Y, rfl, rfl, ?_⟩
  cases Y with
  | nil =>
    rw [map_nil, headD_nil] at hptr
    refine ⟨?_, fun y hy => absurd hy not_mem_nil⟩
    rcases hslot with ⟨hlt, -⟩ | ⟨-, hlt | hlt⟩
    · exact hlt
    · exact hlt
    · omega
  | cons y Y =>
    rw [map_cons, headD_cons] at hptr
    obtain ⟨hx', hy'⟩ := pairwise_cons.mp hsorted
    have hxy := hx' y mem_cons_self
    unfold Blk.stop at hxy
    have hrange : x.1 < b ∧ b < y.1 := by
      unfold IsSlot at hslot
      omega
    refine ⟨hrange.1, fun z hz => ?_⟩
    rcases mem_cons.mp hz with rfl | hz
    · exact hrange.2
    · have hyz := (pairwise_cons.mp hy').1 z hz
      unfold Blk.stop at hyz
      omega

theorem exists_slot {x : Blk} {Y : List Blk} (hsorted : (x :: Y).Pairwise fun x y => Blk.stop x < y.1) (hx : x.1 < b)
    (hne : ∀ y ∈ Y, y.1 ≠ b) : ∃ A z B, x :: Y = A ++ z :: B ∧ z.1 < b ∧ ∀ y ∈ B, b < y.1 := by
  induction Y generalizing x with
  | nil => exact ⟨[], x, [], rfl, hx, fun y hy => absurd hy not_mem_nil⟩
  | cons y Y ih =>
    obtain ⟨hxY, hY⟩ := pairwise_cons.mp hsorted
    by_cases hy : y.1 < b
    · obtain ⟨A, z, B, hsplit, hz, hB⟩ := ih hY hy fun w hw => hne w (mem_cons_of_mem y hw)
      exact ⟨x :: A, z, B, by rw [hsplit]; rfl, hz, hB⟩
    · refine ⟨[], x, y :: Y, rfl, hx, fun w hw => ?_⟩
      have hyb := hne y mem_cons_self
      rcases mem_cons.mp hw with rfl | hw
      · omega
      · have hyw := (pairwise_cons.mp hY).1 w hw
        unfold Blk.stop at hyw
        omega

theorem FreeList.nodup (h' : FreeList base h F) : (F.map fst).Nodup := by
  rw [List.Nodup, pairwise_map]
  refine h'.sorted.imp fun {x y} hxy => ?_
  unfold Blk.stop at hxy
  omega

section
variable (h' : FreeList base h F) (hbase : base < b) (hne : ∀ y ∈ F, y.1 ≠ b)
include h' hbase hne

theorem FreeList.exists_isSlot : ∃ p ∈ F.map fst, IsSlot h.mem b p := by
  obtain ⟨L, hL⟩ := h'.first
  have hsorted := h'.sorted
  rw [hL] at hsorted hne
  obtain ⟨A, z, B, hsplit, hz, hB⟩ := exists_slot hsorted hbase fun y hy => hne y (mem_cons_of_mem _ hy)
  rw [← hL] at hsplit
  subst hsplit
  refine ⟨z.1, by simp, ?_⟩
  have hptr := h'.ptr
  cases B with
  | nil =>
    have hbz : base ≤ z.1 := by
      have hmem : (base, 0) ∈ A ++ [z] := hL ▸ mem_cons_self
      rcases mem_append.mp hmem with hA | hz'
      · have hlt := (pairwise_append.mp h'.sorted).2.2 _ hA z mem_cons_self
        unfold Blk.stop at hlt
        omega
      · rw [← mem_singleton.mp hz']
    rw [map_nil, headD_nil] at hptr
    exact .inr ⟨by rw [hptr]; exact hbz, .inl hz⟩
  | cons y B =>
    rw [map_cons, headD_cons] at hptr
    exact .inl ⟨hz, by rw [hptr]; exact hB y mem_cons_self⟩

theorem FreeList.findSlot :
    ∃ fuel X x Y, Umalloc.findSlot h.mem b fuel h.freep = some x.1 ∧ F = X ++ x :: Y ∧ x.1 < b ∧ ∀ y ∈ Y, b < y.1 := by
  obtain ⟨L, hL⟩ := h'.cons
  have hlinks := h'.links
  have hstart := h'.start
  rw [hL] at hlinks hstart
  obtain ⟨way, hway, hnext, hall, -⟩ := hlinks.around hstart
  obtain ⟨p, hp, hslot⟩ := h'.exists_isSlot hbase hne
  rw [hL] at hp
  obtain ⟨r, hr⟩ : ∃ r, Umalloc.findSlot h.mem b ((way ++ [h.freep]).length + 1) h.freep = some r := by
    rw [Umalloc.findSlot]
    split
    next => exact ⟨_, rfl⟩
    next =>
      split
      next => exact ⟨_, rfl⟩
      next =>
        obtain ⟨r, hr⟩ := findSlot_terminates hway ⟨p, (hall p).mp hp, hslot⟩
        have hhead : (way ++ [h.freep]).headD (h.mem h.freep).ptr = (h.mem h.freep).ptr := by
          have hnext' : (h.mem h.freep).ptr = (way ++ [h.freep]).headD h.freep := hnext
          cases way with
          | nil => exact hnext'.symm
          | cons a way => exact hnext'.symm
        rw [hhead] at hr
        exact ⟨r, hr⟩
  obtain ⟨hmem, hstop⟩ := findSlot_isSlot h' (h'.start) hr
  obtain ⟨X, x, Y, hsplit, hx, hlt, hY⟩ := h'.slot_split hbase hmem hstop
  exact ⟨_, X, x, Y, hx ▸ hr, hsplit, hx ▸ hlt, hY⟩

end

end Search

section Free

variable {base b n : Nat} {h : Heap} {F X Y : List Blk} {p : Blk}

theorem uint_eq {m : Nat} (hm : m < 2 ^ 32) : uint m = m := Nat.mod_eq_of_lt hm

theorem FreeList.seg_after (h' : FreeList base h (X ++ Y)) : Linked.Seg (fun a => (h.mem a).ptr) (Y.map fst) base := by
  have hlinks := h'.links
  rw [map_append] at hlinks
  exact (Linked.seg_append.mp hlinks).2

structure NextJoined (base : Nat) (h : Heap) (b n : Nat) (Y : List Blk) (mem : Nat → Hdr) (n' : Nat) (Y' : List Blk) : Prop where
  mem : mem = update h.mem b ⟨(Y'.map Prod.fst).headD base, n'⟩
  joins : Joins ((b, n) :: Y) ((b, n') :: Y')
  gap : ∀ y ∈ Y', b + 16 * n' < y.1
  sub : Y'.Sublist Y
  links : Linked.Seg (fun a => (h.mem a).ptr) (Y'.map Prod.fst) base

theorem joinNext_spec (h' : FreeList base h (X ++ p :: Y)) (hsize : (h.mem b).size = n) (hbase : base < b)
    (hafter : ∀ y ∈ Y, b + 16 * n ≤ y.1) (hsmall : units Y + n < 2 ^ 32) :
    ∃ n' Y', NextJoined base h b n Y (joinNext h.mem p.1 b) n' Y' := by
  have hptr := h'.ptr
  have hlinked : FreeList base h ((X ++ [p]) ++ Y) := by rwa [append_assoc]
  have hkeep : ∀ {q}, (h.mem p.1).ptr = q → b + 16 * n ≠ q → joinNext h.mem p.1 b = update h.mem b ⟨q, n⟩ := by
    rintro q rfl hne
    rw [joinNext, hsize, if_neg hne, ← hsize]
  cases Y with
  | nil => exact ⟨n, [], hkeep hptr (by show b + 16 * n ≠ base; omega), .perm (.refl _), nofun, .slnil, trivial⟩
  | cons q Y =>
    rw [map_cons, headD_cons] at hptr
    have hq : FreeList base h ((X ++ [p]) ++ q :: Y) := hlinked
    have hsorted := pairwise_cons.mp (pairwise_append.mp hq.sorted).2.1
    by_cases hadj : b + 16 * n = q.1
    · rw [units_cons] at hsmall
      refine ⟨n + q.2, Y, ?_, ?_, fun y hy => ?_, sublist_cons_self q Y, hq.seg_after.2⟩
      · rw [joinNext, hptr, hsize, if_pos hadj, hq.ptr, hq.sizes q (by simp), uint_eq (by omega)]
      · have hjoin := Joins.join b n q.2 Y
        rwa [hadj] at hjoin
      · have hlt := hsorted.1 y hy
        unfold Blk.stop at hlt
        omega
    · refine ⟨n, q :: Y, hkeep hptr hadj, .perm (.refl _), fun y hy => ?_, .refl _, hlinked.seg_after⟩
      have hle := hafter q mem_cons_self
      rcases mem_cons.mp hy with rfl | hy
      · omega
      · have hlt := hsorted.1 y hy
        unfold Blk.stop at hlt
        omega

/-- What `free` leaves of the free list. -/
structure Freed (base : Nat) (h : Heap) (F : List Blk) (b n : Nat) (h' : Heap) (F' : List Blk) : Prop where
  list : FreeList base h' F'
  joins : Joins ((b, n) :: F.tail) F'.tail
  frame : ∀ a, a ≠ b → a ∉ F.map Prod.fst → h'.mem a = h.mem a
  regions : h'.regions = h.regions

theorem joinPrev_spec {mem : Nat → Hdr} {n' : Nat} {Y' : List Blk} (h' : FreeList base h (X ++ p :: Y))
    (hn : NextJoined base h b n Y mem n' Y') (hp : p.stop ≤ b) (hpb : p.1 < b) (hb : ∀ x ∈ X ++ p :: Y, x.1 ≠ b)
    (hsmall : p.2 + n' < 2 ^ 32) :
    ∃ Z, (Z = p :: (b, n') :: Y' ∧ p.stop < b ∨ Z = (p.1, p.2 + n') :: Y' ∧ p.stop = b) ∧
      Linked.Seg (fun a => (joinPrev mem p.1 b a).ptr) (Z.map fst) base ∧
      (∀ x ∈ Z, (joinPrev mem p.1 b x.1).size = x.2) ∧ ∀ a, a ≠ b → a ≠ p.1 → joinPrev mem p.1 b a = h.mem a := by
  have hne : p.1 ≠ b := Nat.ne_of_lt hpb
  have hsub : ∀ y ∈ Y', y ∈ X ++ p :: Y := fun y hy => mem_append_right _ (mem_cons_of_mem p (hn.sub.subset hy))
  have hmemp : mem p.1 = h.mem p.1 := by rw [hn.mem, update_of_ne hne]
  have hmemb : mem b = ⟨(Y'.map fst).headD base, n'⟩ := by rw [hn.mem, update_self]
  have hsize : (h.mem p.1).size = p.2 := h'.sizes p (by simp)
  have hYp : ∀ y ∈ Y', y.1 ≠ p.1 := fun y hy => by
    have hlt := (pairwise_cons.mp (pairwise_append.mp h'.sorted).2.1).1 y (hn.sub.subset hy)
    unfold Blk.stop at hlt
    omega
  have hother : ∀ v a, a ≠ b → a ≠ p.1 → update mem p.1 v a = h.mem a := fun v a hab hap => by
    rw [update_of_ne hap, hn.mem, update_of_ne hab]
  have hseg : ∀ v, Linked.Seg (fun a => (update mem p.1 v a).ptr) (Y'.map fst) base := fun v => by
    refine hn.links.congr fun a ha => ?_
    obtain ⟨y, hy, rfl⟩ := mem_map.mp ha
    show (update mem p.1 v y.1).ptr = (h.mem y.1).ptr
    rw [hother v y.1 (hb y (hsub y hy)) (hYp y hy)]
  have hsizes : ∀ v, ∀ y ∈ Y', (update mem p.1 v y.1).size = y.2 := fun v y hy => by
    rw [hother v y.1 (hb y (hsub y hy)) (hYp y hy), h'.sizes y (hsub y hy)]
  unfold joinPrev
  rw [hmemp, hsize]
  by_cases hadj : p.1 + 16 * p.2 = b
  · rw [if_pos hadj, hmemb]
    dsimp only
    rw [uint_eq hsmall]
    refine ⟨(p.1, p.2 + n') :: Y', .inr ⟨rfl, hadj⟩, ⟨?_, hseg _⟩, fun x hx => ?_, hother _⟩
    · show (update mem p.1 _ p.1).ptr = _
      rw [update_self]
    · rcases mem_cons.mp hx with rfl | hx
      · rw [update_self]
      · exact hsizes _ x hx
  · rw [if_neg hadj]
    refine ⟨p :: (b, n') :: Y', .inl ⟨rfl, lt_of_le_of_ne hp hadj⟩, ⟨?_, ?_, hseg _⟩, fun x hx => ?_, hother _⟩
    · show (update mem p.1 _ p.1).ptr = b
      rw [update_self]
    · show (update mem p.1 _ b).ptr = _
      rw [update_of_ne hne.symm, hmemb]
    · rcases mem_cons.mp hx with rfl | hx
      · rw [update_self]
        exact hsize
      · rcases mem_cons.mp hx with rfl | hx
        · rw [update_of_ne hne.symm, hmemb]
        · exact hsizes _ x hx

theorem Joins.units {l l' : List Blk} (hj : Joins l l') : Umalloc.units l = Umalloc.units l' := by
  induction hj with
  | perm hp => exact units_perm hp
  | join a n m l =>
    simp only [units_cons]
    omega
  | trans _ _ ih ih' => exact ih.trans ih'

theorem Joins.cons {l l' : List Blk} (hj : Joins l l') (x : Blk) : Joins (x :: l) (x :: l') := by
  have hmove : ∀ l : List Blk, (x :: l).Perm (l ++ [x]) := fun l => (perm_append_singleton x l).symm
  exact (Joins.perm (hmove l)).trans ((hj.append [x]).trans (.perm (hmove l').symm))

theorem insert_spec {mem : Nat → Hdr} {n' : Nat} {Y' Z : List Blk} (h' : FreeList base h (X ++ p :: Y))
    (hn : NextJoined base h b n Y mem n' Y') (hpb : p.1 < b) (hb : ∀ x ∈ X ++ p :: Y, x.1 ≠ b)
    (hZ : Z = p :: (b, n') :: Y' ∧ p.stop < b ∨ Z = (p.1, p.2 + n') :: Y' ∧ p.stop = b)
    (hseg : Linked.Seg (fun a => (joinPrev mem p.1 b a).ptr) (Z.map fst) base)
    (hsizes : ∀ x ∈ Z, (joinPrev mem p.1 b x.1).size = x.2)
    (hother : ∀ a, a ≠ b → a ≠ p.1 → joinPrev mem p.1 b a = h.mem a) :
    Freed base h (X ++ p :: Y) b n { h with mem := joinPrev mem p.1 b, freep := p.1 } (X ++ Z) := by
  obtain ⟨hX, hpY, hcross⟩ := pairwise_append.mp h'.sorted
  obtain ⟨hp, hY⟩ := pairwise_cons.mp hpY
  have hY' : Y'.Pairwise fun x y => Blk.stop x < y.1 := hY.sublist hn.sub
  have hhead : (Z.map fst).headD base = p.1 := by
    rcases hZ with ⟨rfl, -⟩ | ⟨rfl, -⟩ <;> rfl
  have hXp : ∀ x ∈ X, x.stop < p.1 := fun x hx => hcross x hx p mem_cons_self
  have hXmem : ∀ x ∈ X, joinPrev mem p.1 b x.1 = h.mem x.1 := fun x hx => by
    have hlt := hXp x hx
    unfold Blk.stop at hlt
    exact hother x.1 (hb x (mem_append_left _ hx)) (by omega)
  have hZlow : ∀ z ∈ Z, p.1 ≤ z.1 := by
    have hlow : ∀ y ∈ Y', p.1 ≤ y.1 := fun y hy => by
      have hlt := hp y (hn.sub.subset hy)
      unfold Blk.stop at hlt
      omega
    intro z hz
    rcases hZ with ⟨rfl, -⟩ | ⟨rfl, -⟩
    · rcases mem_cons.mp hz with rfl | hz
      · exact le_rfl
      · rcases mem_cons.mp hz with rfl | hz
        · exact hpb.le
        · exact hlow z hz
    · rcases mem_cons.mp hz with rfl | hz
      · exact le_rfl
      · exact hlow z hz
  have hZsorted : Z.Pairwise fun x y => Blk.stop x < y.1 := by
    have hgap := hn.gap
    rcases hZ with ⟨rfl, hlt⟩ | ⟨rfl, heq⟩
    · refine pairwise_cons.mpr ⟨fun y hy => ?_, pairwise_cons.mpr ⟨hgap, hY'⟩⟩
      rcases mem_cons.mp hy with rfl | hy
      · exact hlt
      · exact hp y (hn.sub.subset hy)
    · refine pairwise_cons.mpr ⟨fun y hy => ?_, hY'⟩
      have hlt := hgap y hy
      unfold Blk.stop at heq ⊢
      dsimp only
      omega
  have hjoin : Joins ((b, n) :: p :: Y) Z := by
    refine (Joins.perm (.swap p (b, n) Y)).trans ((hn.joins.cons p).trans ?_)
    rcases hZ with ⟨rfl, -⟩ | ⟨rfl, heq⟩
    · exact .perm (.refl _)
    · have hpair := Joins.join p.1 p.2 n' Y'
      unfold Blk.stop at heq
      rwa [heq] at hpair
  obtain ⟨L, hL⟩ := h'.first
  refine ⟨⟨?_, ?_, fun x hx => ?_, ?_, ?_⟩, ?_, fun a hab ha => ?_, rfl⟩
  · cases X with
    | nil =>
      obtain ⟨rfl, -⟩ := cons.inj hL
      rcases hZ with ⟨rfl, -⟩ | ⟨-, heq⟩
      · exact ⟨_, rfl⟩
      · exact absurd heq (Nat.ne_of_lt hpb)
    | cons x X => exact ⟨X ++ Z, by rw [(cons.inj hL).1, cons_append]⟩
  · rw [map_append, Linked.seg_append, hhead]
    have hlinks := h'.links
    rw [map_append, Linked.seg_append] at hlinks
    refine ⟨hlinks.1.congr fun a ha => ?_, hseg⟩
    obtain ⟨x, hx, rfl⟩ := mem_map.mp ha
    exact congrArg Hdr.ptr (hXmem x hx)
  · rcases mem_append.mp hx with hx | hx
    · show (joinPrev mem p.1 b x.1).size = x.2
      rw [hXmem x hx, h'.sizes x (mem_append_left _ hx)]
    · exact hsizes x hx
  · exact pairwise_append.mpr ⟨hX, hZsorted, fun x hx z hz => lt_of_lt_of_le (hXp x hx) (hZlow z hz)⟩
  · show p.1 ∈ (X ++ Z).map fst
    rcases hZ with ⟨rfl, -⟩ | ⟨rfl, -⟩ <;> simp
  · cases X with
    | nil =>
      obtain ⟨rfl, -⟩ := cons.inj hL
      rcases hZ with ⟨rfl, -⟩ | ⟨-, heq⟩
      · exact hn.joins
      · exact absurd heq (Nat.ne_of_lt hpb)
    | cons x X =>
      have hfront : ((b, n) :: (X ++ p :: Y)).Perm (((b, n) :: p :: Y) ++ X) := (perm_append_comm).cons (b, n)
      exact (Joins.perm hfront).trans ((hjoin.append X).trans (.perm perm_append_comm))
  · refine hother a hab fun hap => ha ?_
    rw [hap]
    simp

theorem free_spec (h' : FreeList base h F) (hsize : (h.mem b).size = n) (hn : 0 < n) (hbase : base + 16 ≤ b)
    (hapart : ∀ x ∈ F.tail, Apart (b, n) x ∧ 0 < x.2) (hsmall : units F.tail + n < 2 ^ 32) :
    ∃ fuel h₁ F₁, free fuel h (b + 16) = some h₁ ∧ Freed base h F b n h₁ F₁ := by
  obtain ⟨L, hL⟩ := h'.first
  have htail : F.tail = L := by rw [hL]; rfl
  rw [htail] at hapart hsmall
  have hunits : units F = units L := by rw [hL, units_cons, Nat.zero_add]
  have hne : ∀ x ∈ F, x.1 ≠ b := by
    intro x hx heq
    rw [hL] at hx
    rcases mem_cons.mp hx with rfl | hx
    · dsimp only at heq
      omega
    · obtain ⟨hap, hpos⟩ := hapart x hx
      simp only [Apart, Blk.stop] at hap
      omega
  obtain ⟨fuel, X, p, Y, hfind, rfl, hpb, hY⟩ := h'.findSlot (show base < b by omega) hne
  have hsub : ∀ y ∈ Y, y ∈ L := by
    intro y hy
    cases X with
    | nil => exact (cons.inj hL).2 ▸ hy
    | cons x X => exact (cons.inj hL).2 ▸ mem_append_right _ (mem_cons_of_mem p hy)
  have hafter : ∀ y ∈ Y, b + 16 * n ≤ y.1 := by
    intro y hy
    have hby := hY y hy
    obtain ⟨hap, hpos⟩ := hapart y (hsub y hy)
    simp only [Apart, Blk.stop] at hap
    omega
  have hbefore : p.stop ≤ b := by
    cases X with
    | nil =>
      obtain ⟨rfl, -⟩ := cons.inj hL
      exact hpb.le
    | cons x X =>
      obtain ⟨hap, hpos⟩ := hapart p ((cons.inj hL).2 ▸ mem_append_right _ mem_cons_self)
      simp only [Apart, Blk.stop] at hap ⊢
      omega
  rw [units_append, units_cons] at hunits
  obtain ⟨n', Y', hnext⟩ := joinNext_spec h' hsize (by omega) hafter (by omega)
  have hcount := hnext.joins.units
  rw [units_cons, units_cons] at hcount
  obtain ⟨Z, hZ, hseg, hsizes, hother⟩ := joinPrev_spec h' hnext hbefore hpb hne (by dsimp only at hcount; omega)
  refine ⟨fuel, _, X ++ Z, ?_, insert_spec h' hnext hpb hne hZ hseg hsizes hother⟩
  rw [free, Nat.add_sub_cancel, hfind]

theorem free_mono {fuel k : Nat} {h₁ : Heap} {ap : Nat} (hr : free fuel h ap = some h₁) : free (fuel + k) h ap = some h₁ := by
  unfold free at hr ⊢
  split at hr
  next => exact nomatch hr
  next p hp =>
    rw [findSlot_mono hp]
    exact hr

end Free

end Xv6.Umalloc
