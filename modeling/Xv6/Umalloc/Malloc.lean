import Xv6.Umalloc.FreeList

namespace Xv6.Umalloc

open List Function

/-- A sound heap: the free list `F`, and with it and the live blocks everything that `sbrk` has delivered. -/
structure Ok (base : Nat) (h : Heap) (F live : List Blk) : Prop where
  list : FreeList base h F
  accounts : Accounts base h.regions (F.tail ++ live)
  held : ∀ x ∈ live, (h.mem x.1).size = x.2
  small : units h.regions < 2 ^ 32

section Ok

variable {base b n nu q pr : Nat} {h : Heap} {F live : List Blk} {sbrk : Sbrk}

theorem Joins.covers {l l' : List Blk} (hj : Joins l l') {x : Blk} (hx : x ∈ l) : ∃ y ∈ l', x.2 ≤ y.2 := by
  induction hj generalizing x with
  | perm hp => exact ⟨x, hp.mem_iff.mp hx, le_rfl⟩
  | join a n m l =>
    rcases mem_cons.mp hx with rfl | hx
    · exact ⟨_, mem_cons_self, Nat.le_add_right n m⟩
    · rcases mem_cons.mp hx with rfl | hx
      · exact ⟨_, mem_cons_self, Nat.le_add_left m n⟩
      · exact ⟨x, mem_cons_of_mem _ hx, le_rfl⟩
  | trans _ _ ih ih' =>
    obtain ⟨y, hy, hxy⟩ := ih hx
    obtain ⟨z, hz, hyz⟩ := ih' hy
    exact ⟨z, hz, hxy.trans hyz⟩

theorem Ok.live_first (hok : Ok base h F live) (hlive : (b, n) ∈ live) :
    Accounts base h.regions ((b, n) :: (F.tail ++ live.erase (b, n))) := by
  refine hok.accounts.perm ?_
  have hperm := (perm_cons_erase hlive).append_left F.tail
  exact hperm.trans perm_middle

theorem Apart.ne {x y : Blk} (h : Apart x y) (hx : 0 < x.2) (hy : 0 < y.2) : x.1 ≠ y.1 := by
  unfold Apart Blk.stop at h
  omega

theorem Accounts.header_ne {regions bs : List Blk} (hacc : Accounts base regions ((b, n) :: bs)) {x : Blk} (hx : x ∈ bs) : x.1 ≠ b :=
  ((pairwise_cons.mp hacc.apart).1 x hx).symm.ne (hacc.good x (mem_cons_of_mem _ hx)).1
    (hacc.good _ mem_cons_self).1

theorem Ok.header_notMem (hok : Ok base h F live) {x : Blk} (hx : x ∈ live) : x.1 ∉ F.map Prod.fst := by
  obtain ⟨L, hL⟩ := hok.list.first
  have hgood := hok.accounts.good x (mem_append_right _ hx)
  intro hmem
  obtain ⟨y, hy, hyx⟩ := mem_map.mp hmem
  rw [hL] at hy
  rcases mem_cons.mp hy with rfl | hy
  · dsimp only at hyx
    omega
  · have hyt : y ∈ F.tail := by rw [hL]; exact hy
    exact ((pairwise_append.mp hok.accounts.apart).2.2 y hyt x hx).ne
      (hok.accounts.good y (mem_append_left _ hyt)).1 hgood.1 hyx

theorem free_ok (hok : Ok base h F live) (hlive : (b, n) ∈ live) :
    ∃ fuel h₁ F₁, free fuel h (b + 16) = some h₁ ∧ Ok base h₁ F₁ (live.erase (b, n)) ∧ (∃ y ∈ F₁.tail, n ≤ y.2) := by
  have hacc := hok.live_first hlive
  obtain ⟨hapart, -⟩ := pairwise_cons.mp hacc.apart
  have hgood := hacc.good _ mem_cons_self
  have htotal := hacc.total
  rw [units_cons, units_append] at htotal
  have hsmall := hok.small
  obtain ⟨fuel, h₁, F₁, hfree, hfreed⟩ := free_spec hok.list (hok.held _ hlive) hgood.1 hgood.2
    (fun x hx => ⟨hapart x (mem_append_left _ hx), (hok.accounts.good x (mem_append_left _ hx)).1⟩)
    (by dsimp only at htotal; omega)
  refine ⟨fuel, h₁, F₁, hfree, ⟨hfreed.list, ?_, fun x hx => ?_, by rw [hfreed.regions]; exact hsmall⟩,
    hfreed.joins.covers mem_cons_self⟩
  · rw [hfreed.regions]
    exact hacc.joins (hfreed.joins.append _)
  · have hxlive := mem_of_mem_erase hx
    rw [hfreed.frame x.1 (hacc.header_ne (mem_append_right _ hx)) (hok.header_notMem hxlive)]
    exact hok.held x hxlive

theorem FreeList.update (h' : FreeList base h F) {a : Nat} (ha : a ∉ F.map Prod.fst) (v : Hdr) (regions : List Blk) :
    FreeList base { h with mem := Function.update h.mem a v, regions := regions } F := by
  have hsame : ∀ x ∈ F, Function.update h.mem a v x.1 = h.mem x.1 := fun x hx =>
    update_of_ne (fun heq : x.1 = a => ha (heq ▸ mem_map_of_mem hx)) _ _
  refine ⟨h'.first, h'.links.congr fun b hb => ?_, fun x hx => ?_, h'.sorted, h'.start⟩
  · obtain ⟨x, hx, rfl⟩ := mem_map.mp hb
    exact congrArg Hdr.ptr (hsame x hx)
  · exact (congrArg Hdr.size (hsame x hx)).trans (h'.sizes x hx)

theorem Ok.freep_ne_zero (hbase : 0 < base) (hok : Ok base h F live) : h.freep ≠ 0 := by
  obtain ⟨L, hL⟩ := hok.list.first
  obtain ⟨x, hx, hxf⟩ := mem_map.mp hok.list.start
  have hsorted := hok.list.sorted
  rw [hL] at hx hsorted
  rcases mem_cons.mp hx with rfl | hx
  · dsimp only at hxf
    omega
  · have hlt := (pairwise_cons.mp hsorted).1 x hx
    unfold Blk.stop at hlt
    dsimp only at hlt
    omega

/-- What `morecore` asks for. -/
def coreUnits (nu : Nat) : Nat := if nu < 4096 then 4096 else nu

/-- What the heap needs of one call of `sbrk`. -/
def Delivers (base : Nat) (sbrk : Sbrk) (regions : List Blk) (nu : Nat) : Prop :=
  ∀ a, sbrk regions nu = some a → base + 16 ≤ a ∧ (∀ r ∈ regions, Blk.stop r ≤ a) ∧ units regions + nu < 2 ^ 32

theorem Fresh.delivers (hfresh : Fresh base sbrk) (hbound : Bounded sbrk) (regions : List Blk) (nu : Nat) :
    Delivers base sbrk regions nu :=
  fun _ ha => ⟨(hfresh _ _ _ ha).1, (hfresh _ _ _ ha).2, hbound _ _ _ ha⟩

/-- `malloc` has at most one new region. -/
def Grew (sbrk : Sbrk) (nu : Nat) (regions regions' : List Blk) : Prop :=
  regions' = regions ∨ ∃ a, sbrk regions (coreUnits nu) = some a ∧ regions' = regions ++ [(a, coreUnits nu)]

theorem free_regions {fuel ap : Nat} {h₁ : Heap} (hf : free fuel h ap = some h₁) : h₁.regions = h.regions := by
  unfold free at hf
  split at hf
  next => cases hf
  next =>
    cases hf
    rfl

theorem morecore_ok (hbase : 0 < base) (hdel : Delivers base sbrk h.regions (coreUnits nu)) (hok : Ok base h F live) :
    (∀ fuel, morecore sbrk fuel h nu = some (h, 0)) ∨
      ∃ fuel h₁ F₁, (∀ k, morecore sbrk (fuel + k) h nu = some (h₁, h₁.freep)) ∧ h₁.freep ≠ 0 ∧ Ok base h₁ F₁ live ∧
        (∃ y ∈ F₁.tail, nu ≤ y.2) ∧ Grew sbrk nu h.regions h₁.regions := by
  have hnu : nu ≤ coreUnits nu ∧ 0 < coreUnits nu := by
    unfold coreUnits
    split <;> omega
  unfold morecore Grew
  dsimp only
  rw [show (if nu < 4096 then 4096 else nu) = coreUnits nu from rfl]
  generalize coreUnits nu = size at *
  cases hsbrk : sbrk h.regions size with
  | none => exact .inl fun _ => rfl
  | some a =>
    obtain ⟨hlow, habove, htotal⟩ := hdel a hsbrk
    have hacc := hok.accounts.grow hlow hnu.2 habove
    have hnot : a ∉ F.map Prod.fst := by
      intro hmem
      obtain ⟨x, hx, rfl⟩ := mem_map.mp hmem
      obtain ⟨L, hL⟩ := hok.list.first
      rw [hL] at hx
      rcases mem_cons.mp hx with rfl | hx
      · dsimp only at hlow
        omega
      · exact hacc.header_ne (mem_append_left _ (by rw [hL]; exact hx)) rfl
    have hgrown : Ok base { h with mem := update h.mem a { h.mem a with size := size }, regions := h.regions ++ [(a, size)] }
        F ((a, size) :: live) := by
      refine ⟨hok.list.update hnot _ _, hacc.perm perm_middle.symm, fun x hx => ?_, ?_⟩
      · rcases mem_cons.mp hx with rfl | hx
        · show (update h.mem a _ a).size = size
          rw [update_self]
        · show (update h.mem a _ x.1).size = x.2
          rw [update_of_ne (hacc.header_ne (mem_append_right _ hx)), hok.held x hx]
      · show units (h.regions ++ [(a, size)]) < 2 ^ 32
        rw [units_append]
        exact htotal
    obtain ⟨fuel, h₁, F₁, hfree, hok₁, y, hy, hle⟩ := free_ok hgrown mem_cons_self
    rw [erase_cons_head] at hok₁
    refine .inr ⟨fuel, h₁, F₁, fun k => ?_, hok₁.freep_ne_zero hbase, hok₁, ⟨y, hy, hnu.1.trans hle⟩,
      .inr ⟨a, rfl, free_regions hfree⟩⟩
    dsimp only
    rw [free_mono hfree]

end Ok

section Take

variable {base nu : Nat} {h : Heap} {X Y live : List Blk} {p c : Blk}

theorem tail_append_cons (X : List Blk) (p : Blk) (Z : List Blk) : (X ++ p :: Z).tail = (X ++ [p]).tail ++ Z := by
  cases X with
  | nil => rfl
  | cons x X => simp

theorem FreeList.first_same {Z : List Blk} (h' : FreeList base h (X ++ p :: Y)) : ∃ L, X ++ p :: Z = (base, 0) :: L := by
  obtain ⟨L, hL⟩ := h'.first
  cases X with
  | nil => exact ⟨Z, by rw [nil_append, (cons.inj hL).1]⟩
  | cons x X => exact ⟨X ++ p :: Z, by rw [cons_append, (cons.inj hL).1]⟩

theorem take_whole (hok : Ok base h (X ++ p :: c :: Y) live) :
    Ok base { h with mem := update h.mem p.1 { h.mem p.1 with ptr := (h.mem c.1).ptr }, freep := p.1 } (X ++ p :: Y)
      (c :: live) := by
  have hlist : FreeList base h ((X ++ [p]) ++ c :: Y) := by
    rw [append_assoc]
    exact hok.list
  have hsub : (X ++ p :: Y).Sublist (X ++ p :: c :: Y) :=
    (List.Sublist.refl X).append (.cons_cons p (sublist_cons_self c Y))
  have hsize : ∀ a, (update h.mem p.1 { h.mem p.1 with ptr := (h.mem c.1).ptr } a).size = (h.mem a).size := fun a => by
    by_cases ha : a = p.1
    · rw [ha, update_self]
    · rw [update_of_ne ha]
  obtain ⟨-, hpY, hcross⟩ := pairwise_append.mp hok.list.sorted
  have hlinks := hok.list.links
  rw [map_append, map_cons, Linked.seg_append] at hlinks
  refine ⟨⟨hok.list.first_same, ?_, fun x hx => (hsize x.1).trans (hok.list.sizes x (hsub.subset hx)), hok.list.sorted.sublist hsub,
    by simp⟩, hok.accounts.perm ?_, fun x hx => (hsize x.1).trans ?_, hok.small⟩
  · rw [map_append, map_cons, Linked.seg_append]
    refine ⟨hlinks.1.congr fun a ha => ?_, ?_, ?_⟩
    · obtain ⟨x, hx, rfl⟩ := mem_map.mp ha
      have hlt := hcross x hx p mem_cons_self
      unfold Blk.stop at hlt
      exact congrArg Hdr.ptr (update_of_ne (by omega) _ _)
    · show (update h.mem p.1 _ p.1).ptr = _
      rw [update_self]
      exact hlist.ptr
    · have hafter : Linked.Seg (fun a => (h.mem a).ptr) (Y.map Prod.fst) base := hlist.seg_after.2
      refine hafter.congr fun a ha => ?_
      obtain ⟨y, hy, rfl⟩ := mem_map.mp ha
      have hlt := (pairwise_cons.mp hpY).1 y (mem_cons_of_mem c hy)
      unfold Blk.stop at hlt
      exact congrArg Hdr.ptr (update_of_ne (by omega) _ _)
  · rw [tail_append_cons X p (c :: Y), tail_append_cons X p Y, append_assoc, append_assoc, cons_append]
    exact perm_middle.symm.append_left _
  · rcases mem_cons.mp hx with rfl | hx
    · exact hok.list.sizes _ (by simp)
    · exact hok.held x hx

def cut (mem : Nat → Hdr) (c : Blk) (nu : Nat) : Nat → Hdr :=
  let rest := update mem c.1 { mem c.1 with size := c.2 - nu }
  update rest (c.1 + 16 * (c.2 - nu)) { rest (c.1 + 16 * (c.2 - nu)) with size := nu }

theorem ptr_update_size (mem : Nat → Hdr) (q n a : Nat) : (update mem q { mem q with size := n } a).ptr = (mem a).ptr := by
  by_cases ha : a = q
  · rw [ha, update_self]
  · rw [update_of_ne ha]

theorem cut_ptr (mem : Nat → Hdr) (c : Blk) (nu a : Nat) : (cut mem c nu a).ptr = (mem a).ptr := by
  unfold cut
  rw [ptr_update_size, ptr_update_size]

theorem cut_tail (mem : Nat → Hdr) (c : Blk) (nu : Nat) : (cut mem c nu (c.1 + 16 * (c.2 - nu))).size = nu := by
  unfold cut
  rw [update_self]

theorem cut_rest {mem : Nat → Hdr} (hlt : nu < c.2) : (cut mem c nu c.1).size = c.2 - nu := by
  unfold cut
  rw [update_of_ne (by omega), update_self]

theorem cut_other {mem : Nat → Hdr} {x : Blk} (hnu : 0 < nu) (hlt : nu < c.2) (hx : x.stop ≤ c.1 ∧ x.1 < c.1 ∨ c.stop ≤ x.1) :
    cut mem c nu x.1 = mem x.1 := by
  have hne : x.1 ≠ c.1 + 16 * (c.2 - nu) ∧ x.1 ≠ c.1 := by
    unfold Blk.stop at hx
    omega
  unfold cut
  rw [update_of_ne hne.1, update_of_ne hne.2]

theorem sorted_rest {n : Nat} (h : (X ++ p :: c :: Y).Pairwise fun x y => x.stop < y.1) (hn : n ≤ c.2) :
    (X ++ p :: (c.1, n) :: Y).Pairwise fun x y => x.stop < y.1 := by
  obtain ⟨hX, hpcY, hcross⟩ := pairwise_append.mp h
  obtain ⟨hp, hcY⟩ := pairwise_cons.mp hpcY
  obtain ⟨hc, hY⟩ := pairwise_cons.mp hcY
  have hrest : Blk.stop (c.1, n) ≤ c.stop := by
    unfold Blk.stop
    omega
  refine pairwise_append.mpr ⟨hX, pairwise_cons.mpr ⟨fun y hy => ?_, pairwise_cons.mpr
    ⟨fun y hy => hrest.trans_lt (hc y hy), hY⟩⟩, fun x hx y hy => ?_⟩
  · rcases mem_cons.mp hy with rfl | hy
    · exact hp c mem_cons_self
    · exact hp y (mem_cons_of_mem c hy)
  · rcases mem_cons.mp hy with rfl | hy
    · exact hcross x hx _ mem_cons_self
    · rcases mem_cons.mp hy with rfl | hy
      · exact hcross x hx c (mem_cons_of_mem p mem_cons_self)
      · exact hcross x hx y (mem_cons_of_mem p (mem_cons_of_mem c hy))

theorem sizes_cut (hlist : FreeList base h (X ++ p :: c :: Y)) (hnu : 0 < nu) (hlt : nu < c.2) :
    ∀ x ∈ X ++ p :: (c.1, c.2 - nu) :: Y, (cut h.mem c nu x.1).size = x.2 := by
  obtain ⟨-, hpcY, hcross⟩ := pairwise_append.mp hlist.sorted
  obtain ⟨hp, hcY⟩ := pairwise_cons.mp hpcY
  have hsame : ∀ x ∈ X ++ p :: c :: Y, x.stop < c.1 ∨ c.stop ≤ x.1 → (cut h.mem c nu x.1).size = x.2 := by
    intro x hx hside
    rw [cut_other hnu hlt (by unfold Blk.stop at *; omega)]
    exact hlist.sizes x hx
  intro x hx
  rcases mem_append.mp hx with hx | hx
  · exact hsame x (mem_append_left _ hx) (.inl (hcross x hx c (mem_cons_of_mem p mem_cons_self)))
  rcases mem_cons.mp hx with rfl | hx
  · exact hsame x (mem_append_right _ mem_cons_self) (.inl (hp c mem_cons_self))
  rcases mem_cons.mp hx with rfl | hx
  · exact cut_rest hlt
  · have hmem : x ∈ X ++ p :: c :: Y := mem_append_right _ (mem_cons_of_mem p (mem_cons_of_mem c hx))
    exact hsame x hmem (.inr ((pairwise_cons.mp hcY).1 x hx).le)

theorem take_tail (hok : Ok base h (X ++ p :: c :: Y) live) (hnu : 0 < nu) (hlt : nu < c.2) :
    Ok base { h with mem := cut h.mem c nu, freep := p.1 } (X ++ p :: (c.1, c.2 - nu) :: Y) ((c.1 + 16 * (c.2 - nu), nu) :: live) := by
  have hacc : Accounts base h.regions (c :: ((X ++ [p]).tail ++ Y ++ live)) := by
    refine hok.accounts.perm ?_
    rw [tail_append_cons X p (c :: Y), append_assoc, append_assoc, cons_append]
    exact perm_middle
  have hsplit : Accounts base h.regions ((c.1, c.2 - nu) :: (c.1 + 16 * (c.2 - nu), nu) :: ((X ++ [p]).tail ++ Y ++ live)) := by
    refine Accounts.split ?_ (by omega) hnu
    rwa [Nat.sub_add_cancel hlt.le]
  refine ⟨⟨hok.list.first_same, ?_, sizes_cut hok.list hnu hlt, sorted_rest hok.list.sorted (Nat.sub_le _ _), by simp⟩, hsplit.perm ?_,
    fun x hx => ?_, hok.small⟩
  · have hmap : (X ++ p :: (c.1, c.2 - nu) :: Y).map Prod.fst = (X ++ p :: c :: Y).map Prod.fst := by simp
    rw [hmap]
    exact hok.list.links.congr fun a _ => cut_ptr h.mem c nu a
  · rw [tail_append_cons X p ((c.1, c.2 - nu) :: Y)]
    have hfirst : ((X ++ [p]).tail ++ (c.1, c.2 - nu) :: Y ++ (c.1 + 16 * (c.2 - nu), nu) :: live).Perm
        ((c.1, c.2 - nu) :: ((X ++ [p]).tail ++ Y ++ (c.1 + 16 * (c.2 - nu), nu) :: live)) := perm_middle.append_right _
    exact (hfirst.trans (perm_middle.cons _)).symm
  · rcases mem_cons.mp hx with rfl | hx
    · exact cut_tail h.mem c nu
    · have hap := (pairwise_cons.mp hacc.apart).1 x (mem_append_right _ hx)
      have hpos := (hok.accounts.good x (mem_append_right _ hx)).1
      show (cut h.mem c nu x.1).size = x.2
      rw [cut_other hnu hlt (by unfold Apart Blk.stop at *; omega), hok.held x hx]

theorem takeBlock_ok {F : List Blk} {pr : Nat} (hok : Ok base h F live) (hpr : pr ∈ F.map Prod.fst) (hnu : 0 < nu)
    (hsize : nu ≤ (h.mem (h.mem pr).ptr).size) :
    ∃ a h₁ F₁, takeBlock h pr (h.mem pr).ptr nu = (h₁, a + 16) ∧ (h₁.mem a).size = nu ∧ Ok base h₁ F₁ ((a, nu) :: live) := by
  obtain ⟨L, hL⟩ := hok.list.cons
  have hlinks := hok.list.links
  obtain ⟨L', hL'⟩ := hok.list.first
  have hzero : (h.mem base).size = 0 := hok.list.sizes (base, 0) (by rw [hL']; exact mem_cons_self)
  have hnext : (h.mem pr).ptr ≠ base := by
    intro heq
    rw [heq, hzero] at hsize
    omega
  rw [hL] at hlinks hpr
  obtain ⟨before, after, hsplit⟩ := hlinks.split_next hpr hnext
  rw [← hL] at hsplit
  obtain ⟨X, rest, rfl, -, hrest⟩ := map_eq_append_iff.mp hsplit
  obtain ⟨p, rest', rfl, hp, hrest'⟩ := map_eq_cons_iff.mp hrest
  obtain ⟨c, Y, rfl, hc, -⟩ := map_eq_cons_iff.mp hrest'
  have hcsize : (h.mem c.1).size = c.2 := hok.list.sizes c (by simp)
  have hc' : (h.mem p.1).ptr = c.1 := by rw [hp, hc]
  subst hp
  rw [hc', hcsize] at hsize
  unfold takeBlock
  rw [hc', hcsize]
  by_cases hwhole : c.2 = nu
  · rw [if_pos hwhole]
    have htaken := take_whole hok
    have hce : c = (c.1, nu) := Prod.ext rfl hwhole
    refine ⟨c.1, _, _, rfl, ?_, hce ▸ htaken⟩
    exact (htaken.held c mem_cons_self).trans hwhole
  · rw [if_neg hwhole]
    have htaken := take_tail hok hnu (lt_of_le_of_ne hsize (Ne.symm hwhole))
    exact ⟨_, _, _, rfl, htaken.held _ mem_cons_self, htaken⟩

end Take

section Malloc

variable {base nu : Nat} {h : Heap} {F live : List Blk} {sbrk : Sbrk}

theorem morecore_mono {fuel k : Nat} {r : Heap × Nat} (hr : morecore sbrk fuel h nu = some r) : morecore sbrk (fuel + k) h nu = some r := by
  unfold morecore at hr ⊢
  dsimp only at hr ⊢
  split at hr
  next => exact hr
  next =>
    split at hr
    next => exact nomatch hr
    next hfree =>
      rw [free_mono hfree]
      exact hr

theorem mallocLoop_mono {fuel k prevp p : Nat} {r : Heap × Nat} (hr : mallocLoop sbrk nu fuel h prevp p = some r) :
    mallocLoop sbrk nu (fuel + k) h prevp p = some r := by
  induction fuel generalizing h prevp p with
  | zero => exact nomatch hr
  | succ fuel ih =>
    rw [Nat.add_right_comm, mallocLoop]
    rw [mallocLoop] at hr
    split at hr
    next hsize => rw [if_pos hsize, hr]
    next hsize =>
      rw [if_neg hsize]
      split at hr
      next hend =>
        rw [if_pos hend]
        split at hr
        next => exact nomatch hr
        next h₁ q hmore =>
          rw [morecore_mono hmore]
          dsimp only
          split at hr
          next hzero => rw [if_pos hzero, hr]
          next hzero =>
            rw [if_neg hzero]
            exact ih hr
      next hend =>
        rw [if_neg hend]
        exact ih hr

/-- The scan along the way to `freep`: it takes the first block that is large enough, or comes to `freep`. -/
theorem mallocLoop_scan {way : List Nat} {prevp e : Nat} (fuel : Nat)
    (hway : Linked.Seg (fun a => (h.mem a).ptr) (way ++ [h.freep]) e) (hfreep : h.freep ∉ way)
    (hprev : (h.mem prevp).ptr = (way ++ [h.freep]).headD e) :
    (∃ pr ∈ prevp :: way, nu ≤ (h.mem (h.mem pr).ptr).size ∧
        mallocLoop sbrk nu (way.length + 1 + fuel) h prevp ((way ++ [h.freep]).headD e) = some (takeBlock h pr (h.mem pr).ptr nu)) ∨
      (∀ a ∈ way ++ [h.freep], (h.mem a).size < nu) ∧
        ∃ pr, mallocLoop sbrk nu (way.length + 1 + fuel) h prevp ((way ++ [h.freep]).headD e) =
          mallocLoop sbrk nu (fuel + 1) h pr h.freep := by
  induction way generalizing prevp with
  | nil =>
    have hnext : (h.mem prevp).ptr = h.freep := hprev
    by_cases hsize : nu ≤ (h.mem h.freep).size
    · refine .inl ⟨prevp, mem_cons_self, by rw [hnext]; exact hsize, ?_⟩
      rw [hnext, show ([] : List Nat).length + 1 + fuel = fuel + 1 by simp [Nat.add_comm], mallocLoop]
      exact if_pos hsize
    · refine .inr ⟨fun a ha => ?_, prevp, ?_⟩
      · rw [mem_singleton.mp ha]
        omega
      · rw [show ([] : List Nat).length + 1 + fuel = fuel + 1 by simp [Nat.add_comm]]
        rfl
  | cons a way ih =>
    have hnext : (h.mem prevp).ptr = a := hprev
    have hne : a ≠ h.freep := fun heq => hfreep (heq ▸ mem_cons_self)
    have hfuel : (a :: way).length + 1 + fuel = (way.length + 1 + fuel) + 1 := by
      rw [length_cons]
      omega
    show (∃ pr ∈ prevp :: a :: way, _ ∧ mallocLoop sbrk nu _ h prevp a = _) ∨ _ ∧ ∃ pr, mallocLoop sbrk nu _ h prevp a = _
    rw [hfuel, mallocLoop]
    by_cases hsize : nu ≤ (h.mem a).size
    · refine .inl ⟨prevp, mem_cons_self, by rw [hnext]; exact hsize, ?_⟩
      rw [if_pos hsize, hnext]
    · rw [if_neg hsize, if_neg hne]
      have hptr : (h.mem a).ptr = (way ++ [h.freep]).headD e := hway.1
      rw [hptr]
      rcases ih hway.2 (fun hm => hfreep (mem_cons_of_mem a hm)) hptr with ⟨pr, hpr, hlarge, hrun⟩ | ⟨hall, pr, hrun⟩
      · exact .inl ⟨pr, mem_cons_of_mem prevp hpr, hlarge, hrun⟩
      · refine .inr ⟨fun x hx => ?_, pr, hrun⟩
        rcases mem_cons.mp hx with rfl | hx
        · omega
        · exact hall x hx

theorem mallocLoop_grow {k pr p : Nat} {h₁ : Heap} (hsmall : (h.mem h.freep).size < nu) (hmore : morecore sbrk k h nu = some (h₁, p)) :
    mallocLoop sbrk nu (k + 1) h pr h.freep = if p = 0 then some (h₁, 0) else mallocLoop sbrk nu k h₁ p (h₁.mem p).ptr := by
  rw [mallocLoop, if_neg (by omega), if_pos rfl, hmore]

def Mallocs (base nu : Nat) (live : List Blk) (r : Heap × Nat) : Prop :=
  r.2 = 0 ∧ (∃ F, Ok base r.1 F live) ∨
    ∃ a, r.2 = a + 16 ∧ (r.1.mem a).size = nu ∧ ∃ F, Ok base r.1 F ((a, nu) :: live)

theorem takeBlock_regions {pr p : Nat} : (takeBlock h pr p nu).1.regions = h.regions := by
  unfold takeBlock
  split <;> rfl

theorem mallocLoop_round (hok : Ok base h F live) (hnu : 0 < nu) :
    ∃ n, (∀ k, ∃ r, mallocLoop sbrk nu (n + k) h h.freep (h.mem h.freep).ptr = some r ∧ Mallocs base nu live r ∧
        r.1.regions = h.regions) ∨
      (∀ x ∈ F, x.2 < nu) ∧ ∀ k, ∃ pr, mallocLoop sbrk nu (n + k) h h.freep (h.mem h.freep).ptr =
        mallocLoop sbrk nu (k + 1) h pr h.freep := by
  obtain ⟨L, hL⟩ := hok.list.cons
  have hlinks := hok.list.links
  have hstart := hok.list.start
  have hnodup := hok.list.nodup
  rw [hL] at hlinks hstart hnodup
  obtain ⟨way, hway, hnext, hall, hfresh⟩ := hlinks.around hstart
  have hhead : (h.mem h.freep).ptr = (way ++ [h.freep]).headD (h.mem h.freep).ptr := by
    have hnext' : (h.mem h.freep).ptr = (way ++ [h.freep]).headD h.freep := hnext
    cases way with
    | nil => exact hnext'
    | cons a way => exact hnext'
  refine ⟨way.length + 1, ?_⟩
  have hscan := fun k => @mallocLoop_scan nu h sbrk way h.freep _ k hway (hfresh hnodup) hhead
  rw [← hhead] at hscan
  have hin : ∀ pr ∈ h.freep :: way, pr ∈ F.map Prod.fst := fun pr hpr => by
    rw [hL, hall]
    rcases mem_cons.mp hpr with rfl | hpr
    · exact mem_append_right _ mem_cons_self
    · exact mem_append_left _ hpr
  by_cases hlarge : ∀ x ∈ F, x.2 < nu
  · refine .inr ⟨hlarge, fun k => ?_⟩
    rcases hscan k with ⟨pr, hpr, hsize, -⟩ | ⟨-, hrun⟩
    · obtain ⟨x, hx, hxp⟩ := mem_map.mp (hok.list.next_mem (hin pr hpr))
      have hxsize := hok.list.sizes x hx
      have hxlt := hlarge x hx
      rw [hxp] at hxsize
      omega
    · exact hrun
  · refine .inl fun k => ?_
    rcases hscan k with ⟨pr, hpr, hsize, hrun⟩ | ⟨hsmall, -⟩
    · obtain ⟨a, h₁, F₁, htake, hheader, hok₁⟩ := takeBlock_ok hok (hin pr hpr) hnu hsize
      exact ⟨_, hrun, .inr ⟨a, by rw [htake], by rw [htake]; exact hheader, F₁, by rw [htake]; exact hok₁⟩, takeBlock_regions⟩
    · refine absurd (fun x hx => ?_) hlarge
      have hmem : x.1 ∈ way ++ [h.freep] := by
        rw [← hall, ← hL]
        exact mem_map_of_mem hx
      rw [← hok.list.sizes x hx]
      exact hsmall x.1 hmem

theorem mallocLoop_ok (hbase : 0 < base) (hdel : Delivers base sbrk h.regions (coreUnits nu)) (hok : Ok base h F live) (hnu : 0 < nu) :
    ∃ fuel r, mallocLoop sbrk nu fuel h h.freep (h.mem h.freep).ptr = some r ∧ Mallocs base nu live r ∧
      Grew sbrk nu h.regions r.1.regions := by
  obtain ⟨n, hround | ⟨hsmall, hround⟩⟩ := @mallocLoop_round base nu h F live sbrk hok hnu
  · obtain ⟨r, hrun, hr, hsame⟩ := hround 0
    exact ⟨_, r, hrun, hr, .inl hsame⟩
  have hfreep : (h.mem h.freep).size < nu := by
    obtain ⟨x, hx, hxf⟩ := mem_map.mp hok.list.start
    rw [← hxf, hok.list.sizes x hx]
    exact hsmall x hx
  rcases morecore_ok hbase hdel hok with hfail | ⟨m, h₁, F₁, hmore, hne, hok₁, ⟨y, hy, hlarge⟩, hgrew⟩
  · obtain ⟨pr, hrun⟩ := hround 0
    rw [mallocLoop_grow hfreep (hfail 0), if_pos rfl] at hrun
    exact ⟨_, (h, 0), hrun, .inl ⟨rfl, F, hok⟩, .inl rfl⟩
  · -- the second round finds the new block
    obtain ⟨n₁, hround₁ | ⟨hsmall₁, -⟩⟩ := @mallocLoop_round base nu h₁ F₁ live sbrk hok₁ hnu
    · obtain ⟨r, hrun₁, hr, hsame⟩ := hround₁ m
      obtain ⟨pr, hrun⟩ := hround (m + n₁)
      rw [mallocLoop_grow hfreep (hmore n₁), if_neg hne, Nat.add_comm m n₁, hrun₁] at hrun
      exact ⟨_, r, hrun, hr, hsame ▸ hgrew⟩
    · have hyF : y ∈ F₁ := mem_of_mem_tail hy
      have hylt := hsmall₁ y hyF
      omega

theorem Mallocs.unique {fuel fuel' prevp p : Nat} {r r' : Heap × Nat} (hr : mallocLoop sbrk nu fuel h prevp p = some r)
    (hr' : mallocLoop sbrk nu fuel' h prevp p = some r') : r = r' := by
  have h1 := mallocLoop_mono (k := fuel') hr
  have h2 := mallocLoop_mono (k := fuel) hr'
  rw [Nat.add_comm] at h2
  exact Option.some.inj (h1.symm.trans h2)

def Sound (base : Nat) (s : State) : Prop :=
  (s.heap.freep = 0 ∧ s.heap.regions = [] ∧ s.live = []) ∨ ∃ F, Ok base s.heap F s.live

theorem initialise_ok {s : State} (hbase : 0 < base) (hs : Sound base s) : ∃ F, Ok base (initialise base s.heap) F s.live := by
  rcases hs with ⟨hfreep, hregions, hlive⟩ | ⟨F, hok⟩
  · rw [initialise, if_pos hfreep]
    refine ⟨[(base, 0)], ⟨⟨[], rfl⟩, ⟨?_, trivial⟩, fun x hx => ?_, pairwise_singleton _ _, mem_cons_self⟩, ?_, ?_, ?_⟩
    · show (update s.heap.mem base ⟨base, 0⟩ base).ptr = base
      rw [update_self]
    · rw [mem_singleton.mp hx]
      show (update s.heap.mem base ⟨base, 0⟩ base).size = 0
      rw [update_self]
    · rw [hlive]
      show Accounts base s.heap.regions []
      rw [hregions]
      exact ⟨List.Pairwise.nil, nofun, fun _ _ => nofun, rfl⟩
    · rw [hlive]
      exact nofun
    · show units s.heap.regions < 2 ^ 32
      rw [hregions]
      decide
  · rw [initialise, if_neg (hok.freep_ne_zero hbase)]
    exact ⟨F, hok⟩

theorem initialise_regions : (initialise base h).regions = h.regions := by
  unfold initialise
  split <;> rfl

theorem nunits_pos {nbytes : Nat} (hn : nbytes < 2 ^ 32) : 0 < nunits nbytes ∧ nbytes + 16 ≤ 16 * nunits nbytes := by
  unfold nunits uint
  omega

theorem malloc_ok {s : State} {nbytes : Nat} (hbase : 0 < base)
    (hdel : Delivers base sbrk s.heap.regions (coreUnits (nunits nbytes))) (hn : nbytes < 2 ^ 32) (hs : Sound base s) :
    ∃ fuel r, malloc base sbrk fuel s.heap nbytes = some r ∧ Mallocs base (nunits nbytes) s.live r ∧
      Grew sbrk (nunits nbytes) s.heap.regions r.1.regions := by
  obtain ⟨F, hok⟩ := initialise_ok hbase hs
  rw [← @initialise_regions base s.heap] at hdel ⊢
  exact mallocLoop_ok hbase hdel hok (nunits_pos hn).1

/-- The state after a call of `malloc` that returned `p`. -/
theorem Mallocs.sound {p : Nat} (hr : Mallocs base nu live (h, p)) :
    Sound base ⟨h, if p = 0 then live else (p - 16, (h.mem (p - 16)).size) :: live⟩ := by
  rcases hr with ⟨rfl, F, hok⟩ | ⟨a, rfl, hsize, F, hok⟩
  · exact .inr ⟨F, hok⟩
  · refine .inr ⟨F, ?_⟩
    have hsize' : (h.mem a).size = nu := hsize
    rw [if_neg (Nat.succ_ne_zero _), Nat.add_sub_cancel, hsize']
    exact hok

theorem Sound.step {s t : State} {c : Call} (hbase : 0 < base) (hs : Sound base s)
    (hstep : Step base (fun sbrk => Fresh base sbrk ∧ Bounded sbrk) s c t) : Sound base t := by
  cases hstep with
  | @malloc nbytes sbrk fuel h p hn hsbrk hcall =>
    obtain ⟨fuel', r, hcall', hr, -⟩ := malloc_ok hbase (hsbrk.1.delivers hsbrk.2 _ _) (show nbytes < 2 ^ 32 by omega) hs
    obtain rfl := Mallocs.unique hcall' hcall
    exact hr.sound
  | @free bp size fuel h hlive hcall =>
    rcases hs with ⟨-, -, hnone⟩ | ⟨F, hok⟩
    · rw [hnone] at hlive
      exact absurd hlive not_mem_nil
    · obtain ⟨fuel', h₁, F₁, hfree, hok₁, -⟩ := free_ok hok hlive
      have h1 := free_mono (k := fuel) hfree
      have h2 := free_mono (k := fuel') hcall
      rw [Nat.add_comm, h1] at h2
      cases h2
      exact .inr ⟨F₁, hok₁⟩

/-- `malloc` and `free` keep the heap sound, and return. -/
theorem heap_sound (hbase : 0 < base) {calls : List Call} {s : State}
    (hrun : Transition.Path (Step base fun sbrk => Fresh base sbrk ∧ Bounded sbrk) initial calls s) :
    Sound base s ∧
      (∀ nbytes sbrk, nbytes ≤ 2 ^ 30 → Fresh base sbrk → Bounded sbrk → ∃ fuel h p, malloc base sbrk fuel s.heap nbytes = some (h, p) ∧
        (p ≠ 0 → ∃ a size, p = a + 16 ∧ (h.mem a).size = size ∧ nbytes + 16 ≤ 16 * size ∧ ∀ x ∈ s.live, Apart (a, size) x)) ∧
      ∀ bp size, (bp, size) ∈ s.live → ∃ fuel h, free fuel s.heap (bp + 16) = some h := by
  have hs : Sound base s := hrun.invariant (.inl ⟨rfl, rfl, rfl⟩) fun hs hstep => hs.step hbase hstep
  refine ⟨hs, fun nbytes sbrk hn hfresh hbound => ?_, fun bp size hlive => ?_⟩
  · obtain ⟨fuel, ⟨h, p⟩, hcall, hr, -⟩ := malloc_ok hbase (hfresh.delivers hbound _ _) (show nbytes < 2 ^ 32 by omega) hs
    refine ⟨fuel, h, p, hcall, fun hp => ?_⟩
    rcases hr with ⟨hzero, -⟩ | ⟨a, hpa, hsize, F, hok⟩
    · exact absurd hzero hp
    · refine ⟨a, nunits nbytes, hpa, hsize, (nunits_pos (by omega)).2, fun x hx => ?_⟩
      exact (pairwise_cons.mp (pairwise_append.mp hok.accounts.apart).2.1).1 x hx
  · rcases hs with ⟨-, -, hnone⟩ | ⟨F, hok⟩
    · rw [hnone] at hlive
      exact absurd hlive not_mem_nil
    · obtain ⟨fuel, h₁, F₁, hfree, -⟩ := free_ok hok hlive
      exact ⟨fuel, h₁, hfree⟩

end Malloc

def oneRegion : Sbrk := fun regions nu => if regions = [] ∧ nu < 2 ^ 32 then some 8192 else none

theorem oneRegion_contract : Fresh 4096 oneRegion ∧ Bounded oneRegion := by
  have hsome : ∀ regions nu a, oneRegion regions nu = some a → (regions = [] ∧ nu < 2 ^ 32) ∧ a = 8192 := by
    intro regions nu a h
    unfold oneRegion at h
    split at h
    next hc => exact ⟨hc, (Option.some.inj h).symm⟩
    next => exact nomatch h
  refine ⟨fun regions nu a h => ?_, fun regions nu a h => ?_⟩
  · obtain ⟨⟨rfl, -⟩, rfl⟩ := hsome regions nu a h
    exact ⟨by decide, nofun⟩
  · obtain ⟨⟨rfl, hlt⟩, -⟩ := hsome regions nu a h
    simpa [units] using hlt

/-- One request for 100 bytes: 8 units at the end of the region. -/
theorem heap_sound_first : ∃ s, Transition.Path (Step 4096 fun sbrk => Fresh 4096 sbrk ∧ Bounded sbrk) initial
    [.malloc 100 oneRegion] s ∧ s.live = [(73600, 8)] ∧ Sound 4096 s := by
  have hcall : ((malloc 4096 oneRegion 3 initial.heap 100).map fun r => (r.2, (r.1.mem (r.2 - 16)).size)) = some (73616, 8) := by
    decide +kernel
  obtain ⟨⟨h, p⟩, hr, hp⟩ := Option.map_eq_some_iff.mp hcall
  obtain ⟨rfl, hsize⟩ := Prod.ext_iff.mp hp
  have hrun : Transition.Path (Step 4096 fun sbrk => Fresh 4096 sbrk ∧ Bounded sbrk) initial [.malloc 100 oneRegion] _ :=
    .snoc .nil (.malloc (by decide) oneRegion_contract hr)
  refine ⟨_, hrun, ?_, (heap_sound (by decide) hrun).1⟩
  rw [if_neg (by decide)]
  exact congrArg (fun n => [(73600, n)]) hsize

end Xv6.Umalloc
