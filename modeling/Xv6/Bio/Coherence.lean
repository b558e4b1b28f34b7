import Xv6.Bio.Cache
import Xv6.Lib.Count

namespace Xv6.Bio

open Count Function LinkedRing List Cache

variable {α : Type} {c c' : Cache α} {i j : Nat} {dev blockno : Nat} {nodes : List Nat}

def Cache.Ordered (c : Cache α) : Prop :=
  ∃ nodes, nodes.Perm (range nbuf) ∧ Linked c.next c.prev (around head nodes)

namespace Cache

theorem head_not_mem (hp : nodes.Perm (range nbuf)) : head ∉ nodes := fun hmem =>
  absurd (mem_range.mp (hp.mem_iff.mp hmem)) (Nat.lt_irrefl nbuf)

theorem nodup_around (hp : nodes.Perm (range nbuf)) : (head :: nodes).Nodup :=
  nodup_cons.mpr ⟨head_not_mem hp, hp.nodup_iff.mpr nodup_range⟩

theorem pushFront_linked (h : Linked c.next c.prev (around head nodes))
    (hd : (head :: nodes).Nodup) (hi : i ∉ head :: nodes) :
    Linked (c.pushFront i).next (c.pushFront i).prev (around head (i :: nodes)) :=
  h.pushFront hd hi

theorem binit_ordered (x : α) : (binit x).Ordered := by
  have hloop : ∀ n ≤ nbuf, ∀ c : Cache α, Linked c.next c.prev (around head []) →
      ∃ nodes, nodes.Perm (range n) ∧
        Linked ((range n).foldl pushFront c).next ((range n).foldl pushFront c).prev (around head nodes) := by
    intro n hn c hc
    induction n with
    | zero => exact ⟨[], .nil, hc⟩
    | succ n ih =>
      obtain ⟨nodes, hp, hl⟩ := ih (by omega)
      have hmem : ∀ y ∈ nodes, y < n := fun y hy => mem_range.mp (hp.mem_iff.mp hy)
      have hhead : head ∉ nodes := fun hy => absurd (hmem head hy) (Nat.not_lt.mpr (Nat.le_of_succ_le hn))
      have hnew : n ∉ head :: nodes := fun hy => by
        rcases mem_cons.mp hy with he | hy
        · exact absurd he (Nat.ne_of_lt hn)
        · exact absurd (hmem n hy) (Nat.lt_irrefl n)
      refine ⟨n :: nodes, ?_, ?_⟩
      · rw [range_succ]
        exact (hp.cons n).trans (perm_append_singleton n _).symm
      · rw [range_succ, foldl_append]
        exact pushFront_linked hl (nodup_cons.mpr ⟨hhead, hp.nodup_iff.mpr nodup_range⟩) hnew
  exact hloop nbuf le_rfl _ (isChain_cons_cons.mpr ⟨⟨rfl, rfl⟩, .singleton _⟩)

section
variable (h : c.Ordered)
include h

theorem Ordered.moveFront (hi : i < nbuf) : ((c.unlink i).pushFront i).Ordered := by
  obtain ⟨nodes, hp, hl⟩ := h
  obtain ⟨xs, ys, rfl⟩ := append_of_mem (hp.mem_iff.mpr (mem_range.mpr hi))
  have hd := nodup_around hp
  have hmid : (xs ++ i :: ys).Perm (i :: (xs ++ ys)) := perm_middle
  have hd' : (i :: head :: (xs ++ ys)).Nodup :=
    ((hmid.cons head).trans (List.Perm.swap ..)).nodup_iff.mp hd
  obtain ⟨hi', hrest⟩ := nodup_cons.mp hd'
  -- the second assignment of `unlink` reads `b->prev` again: it is not the node just changed
  have hself : c.next i ≠ i := by
    rintro he
    have hchain : Linked c.next c.prev (i :: (ys ++ [head])) := by
      have hl' := hl
      rw [around_append] at hl'
      exact (isChain_append.mp hl').2.1
    cases ys with
    | nil =>
      have hnext : c.next i = head := (isChain_cons_cons.mp hchain).1.1
      exact absurd (he.symm.trans hnext) (Nat.ne_of_lt hi)
    | cons y ys =>
      have hnext : c.next i = y := (isChain_cons_cons.mp hchain).1.1
      exact hi' (by simp [← hnext.symm.trans he])
  have hun : (c.unlink i).next = update c.next (c.prev i) (c.next i) := by
    simp only [unlink, update_of_ne (Ne.symm hself)]
  have hremoved := hl.remove hd
  refine ⟨i :: (xs ++ ys), hmid.symm.trans hp, pushFront_linked ?_ hrest hi'⟩
  rw [hun]
  exact hremoved

theorem Ordered.cached_some (hs : c.cached dev blockno = some i) :
    i < nbuf ∧ (c.buf i).dev = dev ∧ (c.buf i).blockno = blockno := by
  obtain ⟨nodes, hp, hl⟩ := h
  rw [cached, scan_next hl (head_not_mem hp) (by simp [hp.length_eq])] at hs
  have hkey := find?_some hs
  have hmem := mem_of_find?_eq_some hs
  exact ⟨mem_range.mp (hp.mem_iff.mp hmem), by simpa using hkey⟩

theorem Ordered.cached_none (hs : c.cached dev blockno = none) (hj : j < nbuf) :
    ¬ ((c.buf j).dev = dev ∧ (c.buf j).blockno = blockno) := by
  obtain ⟨nodes, hp, hl⟩ := h
  rw [cached, scan_next hl (head_not_mem hp) (by simp [hp.length_eq])] at hs
  have hno := find?_eq_none.mp hs j (hp.mem_iff.mpr (mem_range.mpr hj))
  simpa using hno

theorem Ordered.unused_some (hs : c.unused = some i) : i < nbuf ∧ (c.buf i).refcnt = 0 := by
  obtain ⟨nodes, hp, hl⟩ := h
  rw [unused, scan_prev hl (head_not_mem hp) (by simp [hp.length_eq])] at hs
  have hkey := find?_some hs
  have hmem := mem_reverse.mp (mem_of_find?_eq_some hs)
  exact ⟨mem_range.mp (hp.mem_iff.mp hmem), by simpa using hkey⟩

theorem Ordered.unused_none (hs : c.unused = none) (hj : j < nbuf) : (c.buf j).refcnt ≠ 0 := by
  obtain ⟨nodes, hp, hl⟩ := h
  rw [unused, scan_prev hl (head_not_mem hp) (by simp [hp.length_eq])] at hs
  have hno := find?_eq_none.mp hs j (mem_reverse.mpr (hp.mem_iff.mpr (mem_range.mpr hj)))
  simpa using hno

end

def recycle (c : Cache α) (i dev blockno : Nat) : Cache α :=
  c.setBuf i { c.buf i with dev := dev, blockno := blockno, valid := false, refcnt := 1 }

theorem Ordered.bget_some (h : c.Ordered) (hb : c.bget dev blockno = some (i, c')) :
    i < nbuf ∧ ((c.buf i).dev = dev ∧ (c.buf i).blockno = blockno ∧ c' = c.incr i ∨
      (c.buf i).refcnt = 0 ∧ (∀ j < nbuf, ¬ ((c.buf j).dev = dev ∧ (c.buf j).blockno = blockno)) ∧
        c' = c.recycle i dev blockno) := by
  unfold bget at hb
  split at hb
  next k hk =>
    obtain ⟨rfl, rfl⟩ := Prod.mk.inj (Option.some.inj hb)
    obtain ⟨hlt, hdev, hno⟩ := h.cached_some hk
    exact ⟨hlt, .inl ⟨hdev, hno, rfl⟩⟩
  next hk =>
    split at hb
    next k hu =>
      obtain ⟨rfl, rfl⟩ := Prod.mk.inj (Option.some.inj hb)
      obtain ⟨hlt, hzero⟩ := h.unused_some hu
      exact ⟨hlt, .inr ⟨hzero, fun j hj => h.cached_none hk hj, rfl⟩⟩
    next => cases hb

theorem Ordered.bget_none (h : c.Ordered) (hb : c.bget dev blockno = none) (hj : j < nbuf) :
    (c.buf j).refcnt ≠ 0 ∧ ¬ ((c.buf j).dev = dev ∧ (c.buf j).blockno = blockno) := by
  unfold bget at hb
  split at hb
  next => cases hb
  next hk =>
    split at hb
    next => cases hb
    next hu => exact ⟨h.unused_none hu hj, h.cached_none hk hj⟩

end Cache

def Use.Owns (p : Use) : Prop := p.stage = .got ∨ p.stage = .holds

def Cache.pin (pins : List Nat) (c : Cache α) (i : Nat) : ℤ :=
  if (c.buf i).dev = rootdev ∧ (c.buf i).blockno ∈ pins then 1 else 0

abbrev bufs (use : User → Option Use) (u : User) : Option Nat := (use u).map Use.buf

def Counted (pins : List Nat) (c : Cache α) (use : User → Option Use) : Prop :=
  ∃ S : Finset User, (∀ u, use u ≠ none → u ∈ S) ∧
    ∀ i < nbuf, ((c.buf i).refcnt : ℤ) = holders S (bufs use) i + c.pin pins i

/-- The cache, its users and the disk: what every function of `bio.c` keeps. -/
structure Coherent (pins : List Nat) (c : Cache α) (use : User → Option Use) (dirty : List (User × Option Nat))
    (disk mem : Nat → α) : Prop where
  unique : ∀ i < nbuf, ∀ j < nbuf, (c.buf i).dev ≠ 0 → (c.buf i).dev = (c.buf j).dev →
    (c.buf i).blockno = (c.buf j).blockno → i = j
  names : ∀ u p, use u = some p → p.buf < nbuf ∧ (c.buf p.buf).dev = p.dev ∧ (c.buf p.buf).blockno = p.blockno
  locked : ∀ u p, use u = some p → p.Owns → (c.buf p.buf).locked = true
  exclusive : ∀ u v p q, use u = some p → use v = some q → p.Owns → q.Owns → p.buf = q.buf → u = v
  loaded : ∀ u p, use u = some p → p.stage = .holds → (c.buf p.buf).valid = true
  current : ∀ i < nbuf, (c.buf i).dev = rootdev → (c.buf i).valid = true → (c.buf i).data = mem (c.buf i).blockno
  pinned : ∀ b ∈ pins, ∃ i < nbuf, (c.buf i).dev = rootdev ∧ (c.buf i).blockno = b ∧ (c.buf i).valid = true
  changed : ∀ x ∈ dirty, ∃ p, use x.1 = some p ∧ p.stage = .holds ∧ p.dev = rootdev
  synced : ∀ b, disk b ≠ mem b → b ∈ pins ∨ ∃ x ∈ dirty, ∃ p, use x.1 = some p ∧ p.blockno = b

structure Cache.Alike (c c' : Cache α) : Prop where
  dev : ∀ i, (c'.buf i).dev = (c.buf i).dev
  blockno : ∀ i, (c'.buf i).blockno = (c.buf i).blockno
  valid : ∀ i, (c'.buf i).valid = (c.buf i).valid
  data : ∀ i, (c'.buf i).data = (c.buf i).data
  locked : ∀ i, (c'.buf i).locked = (c.buf i).locked

theorem Cache.buf_setBuf (c : Cache α) (i : Nat) (b : Buf α) (j : Nat) :
    (c.setBuf i b).buf j = if j = i then b else c.buf j :=
  update_apply ..

theorem Cache.alike_setRefcnt (c : Cache α) (i n : Nat) : c.Alike (c.setBuf i { c.buf i with refcnt := n }) := by
  constructor <;> intro j <;> rw [buf_setBuf] <;> split <;> simp [*]

section Ops

variable {pins : List Nat} {use : User → Option Use} {dirty : List (User × Option Nat)} {disk mem : Nat → α}
  {u : User} {p : Use}

/-! ### Counts -/

theorem holders_use {S : Finset User} (hS : ∀ v, use v ≠ none → v ∈ S) (u : User) (r : Option Use) :
    (∀ v, update use u r v ≠ none → v ∈ insert u S) ∧
      holders (insert u S) (bufs (update use u r)) =
        holders S (bufs use) - mark (bufs use u) + mark (r.map Use.buf) := by
  constructor
  · intro v hv
    by_cases he : v = u
    · simp [he]
    · rw [update_of_ne he] at hv
      exact Finset.mem_insert_of_mem (hS v hv)
  · have hgrow : holders (insert u S) (bufs use) = holders S (bufs use) := by
      by_cases hu : u ∈ S
      · rw [Finset.insert_eq_of_mem hu]
      · have hnone : use u = none := by
          by_contra hne
          exact hu (hS u hne)
        rw [← Finset.union_singleton, holders_union (Finset.disjoint_singleton_right.mpr hu),
          holders_none (S := {u}) (fun v hv => by simp [bufs, Finset.mem_singleton.mp hv, hnone]), add_zero]
    have hchange := holders_change (S := insert u S) (h := bufs use) (g := bufs (update use u r)) (i := u)
      (Finset.mem_insert_self u S) (fun v _ hv => by simp [bufs, update_of_ne hv])
    rw [hchange, hgrow]
    simp [bufs]

section
variable (h : Counted pins c use)
include h

theorem Counted.change {pins' : List Nat} {r : Option Use}
    (href : ∀ i < nbuf, ((c'.buf i).refcnt : ℤ) - c'.pin pins' i =
      (c.buf i).refcnt - c.pin pins i - mark (bufs use u) i + mark (r.map Use.buf) i) :
    Counted pins' c' (update use u r) := by
  obtain ⟨S, hS, hcount⟩ := h
  obtain ⟨hS', hsum⟩ := holders_use hS u r
  refine ⟨insert u S, hS', fun i hi => ?_⟩
  have hc := hcount i hi
  have hr := href i hi
  rw [hsum]
  simp only [Pi.add_apply, Pi.sub_apply]
  omega

theorem Counted.stay {q : Use} (hu : use u = some p) (hq : q.buf = p.buf)
    (href : ∀ i, (c'.buf i).refcnt = (c.buf i).refcnt) (hdev : ∀ i, (c'.buf i).dev = (c.buf i).dev)
    (hno : ∀ i, (c'.buf i).blockno = (c.buf i).blockno) : Counted pins c' (update use u (some q)) := by
  refine h.change fun i _ => ?_
  simp only [bufs, hu, Option.map_some, hq, href, pin, hdev, hno]
  omega

theorem Counted.refcnt_pos (hu : use u = some p) (hlt : p.buf < nbuf) :
    0 < (c.buf p.buf).refcnt := by
  obtain ⟨S, hS, hcount⟩ := h
  have hpos := holders_pos (h := bufs use) (hS u (by simp [hu])) (x := p.buf) (by simp [bufs, hu])
  have hc := hcount p.buf hlt
  have hpin : 0 ≤ c.pin pins p.buf := by
    unfold pin
    split <;> decide
  omega

theorem Counted.pinned_pos (hi : i < nbuf) (hdev : (c.buf i).dev = rootdev)
    (hb : (c.buf i).blockno ∈ pins) : 0 < (c.buf i).refcnt := by
  obtain ⟨S, -, hcount⟩ := h
  have hc := hcount i hi
  have hpin : c.pin pins i = 1 := if_pos ⟨hdev, hb⟩
  have := holders_nonneg S (bufs use) i
  omega

end

/-! ### Contents -/

section
variable (h : Coherent pins c use dirty disk mem)
include h

theorem Coherent.alike (ha : c.Alike c') :
    Coherent pins c' use dirty disk mem where
  unique := by simpa only [ha.dev, ha.blockno] using h.unique
  names := by simpa only [ha.dev, ha.blockno] using h.names
  locked := by simpa only [ha.locked] using h.locked
  exclusive := h.exclusive
  loaded := by simpa only [ha.valid] using h.loaded
  current := by simpa only [ha.dev, ha.blockno, ha.valid, ha.data] using h.current
  pinned := by simpa only [ha.dev, ha.blockno, ha.valid] using h.pinned
  changed := h.changed
  synced := h.synced

theorem Coherent.setUse {r : Option Use} (hd : ∀ x ∈ dirty, x.1 ≠ u)
    (hnames : ∀ p, r = some p → p.buf < nbuf ∧ (c.buf p.buf).dev = p.dev ∧ (c.buf p.buf).blockno = p.blockno)
    (howns : ∀ p, r = some p → p.Owns → (c.buf p.buf).locked = true ∧
      ∀ v q, v ≠ u → use v = some q → q.Owns → q.buf ≠ p.buf)
    (hloaded : ∀ p, r = some p → p.stage = .holds → (c.buf p.buf).valid = true) :
    Coherent pins c (update use u r) dirty disk mem where
  unique := h.unique
  names v p hv := by
    by_cases he : v = u
    · exact hnames p (by simpa [he] using hv)
    · exact h.names v p (by simpa [he] using hv)
  locked v p hv hp := by
    by_cases he : v = u
    · exact (howns p (by simpa [he] using hv) hp).1
    · exact h.locked v p (by simpa [he] using hv) hp
  exclusive v w p q hv hw hp hq hpq := by
    by_cases hvu : v = u <;> by_cases hwu : w = u
    · rw [hvu, hwu]
    · exact absurd hpq.symm ((howns p (by simpa [hvu] using hv) hp).2 w q hwu (by simpa [hwu] using hw) hq)
    · exact absurd hpq ((howns q (by simpa [hwu] using hw) hq).2 v p hvu (by simpa [hvu] using hv) hp)
    · exact h.exclusive v w p q (by simpa [hvu] using hv) (by simpa [hwu] using hw) hp hq hpq
  loaded v p hv hp := by
    by_cases he : v = u
    · exact hloaded p (by simpa [he] using hv) hp
    · exact h.loaded v p (by simpa [he] using hv) hp
  current := h.current
  pinned := h.pinned
  changed x hx := by
    rw [update_of_ne (hd x hx)]
    exact h.changed x hx
  synced b hb := by
    refine (h.synced b hb).imp_right ?_
    rintro ⟨x, hx, p, hp⟩
    exact ⟨x, hx, p, by rwa [update_of_ne (hd x hx)]⟩

theorem Coherent.not_dirty (hu : ∀ p, use u = some p → p.stage ≠ .holds) :
    ∀ x ∈ dirty, x.1 ≠ u := by
  rintro x hx rfl
  obtain ⟨p, hp, hholds, -⟩ := h.changed x hx
  exact hu p hp hholds

theorem Coherent.setLocked {l : Bool}
    (hfree : l = false → ∀ u p, use u = some p → p.Owns → p.buf ≠ i) :
    Coherent pins (c.setLocked i l) use dirty disk mem := by
  have hdev : ∀ j, ((c.setLocked i l).buf j).dev = (c.buf j).dev := by grind [setLocked, buf_setBuf]
  have hno : ∀ j, ((c.setLocked i l).buf j).blockno = (c.buf j).blockno := by
    grind [setLocked, buf_setBuf]
  have hvalid : ∀ j, ((c.setLocked i l).buf j).valid = (c.buf j).valid := by grind [setLocked, buf_setBuf]
  have hdata : ∀ j, ((c.setLocked i l).buf j).data = (c.buf j).data := by grind [setLocked, buf_setBuf]
  refine ⟨?_, ?_, fun u p hu hp => ?_, h.exclusive, ?_, ?_, ?_, h.changed, h.synced⟩
  · simpa only [hdev, hno] using h.unique
  · simpa only [hdev, hno] using h.names
  · have hl := h.locked u p hu hp
    cases l with
    | true => grind [setLocked, buf_setBuf]
    | false =>
      have hne := hfree rfl u p hu hp
      grind [setLocked, buf_setBuf]
  · simpa only [hvalid] using h.loaded
  · simpa only [hdev, hno, hvalid, hdata] using h.current
  · simpa only [hdev, hno, hvalid] using h.pinned

theorem Coherent.disk_eq (hi : i < nbuf) (hdev : (c.buf i).dev = rootdev)
    (hvalid : (c.buf i).valid = false) : disk (c.buf i).blockno = mem (c.buf i).blockno := by
  by_contra hne
  have hroot : (c.buf i).dev ≠ 0 := by simp [hdev]
  rcases h.synced _ hne with hb | ⟨x, hx, p, hp, hno⟩
  · obtain ⟨j, hj, hjdev, hjno, hjvalid⟩ := h.pinned _ hb
    obtain rfl := h.unique i hi j hj hroot (hdev.trans hjdev.symm) hjno.symm
    simp [hvalid] at hjvalid
  · obtain ⟨q, hq, hholds, hqdev⟩ := h.changed x hx
    obtain rfl := Option.some.inj (hp.symm.trans hq)
    obtain ⟨hlt, hbdev, hbno⟩ := h.names x.1 p hp
    obtain rfl := h.unique i hi p.buf hlt hroot (by rw [hdev, hbdev, hqdev]) (by rw [hbno, hno])
    exact absurd (h.loaded x.1 p hp hholds) (by simp [hvalid])

theorem Coherent.fill (hi : i < nbuf) :
    Coherent pins (c.fill disk i) use dirty disk mem ∧ ((c.fill disk i).buf i).valid = true := by
  unfold Cache.fill
  split
  next hv => exact ⟨h, hv⟩
  next hv =>
    have hinvalid : (c.buf i).valid = false := by simpa using hv
    have hdisk := h.disk_eq hi
    set c' := c.setBuf i { c.buf i with data := disk (c.buf i).blockno, valid := true } with hc'
    have hdev : ∀ j, (c'.buf j).dev = (c.buf j).dev := by grind [buf_setBuf]
    have hno : ∀ j, (c'.buf j).blockno = (c.buf j).blockno := by grind [buf_setBuf]
    have hlocked : ∀ j, (c'.buf j).locked = (c.buf j).locked := by grind [buf_setBuf]
    have hvalid : ∀ j, (c.buf j).valid = true → (c'.buf j).valid = true := by grind [buf_setBuf]
    refine ⟨⟨?_, ?_, ?_, h.exclusive, fun u p hu hp => hvalid _ (h.loaded u p hu hp), fun j hj hjdev hjv => ?_,
      fun b hb => ?_, h.changed, h.synced⟩, by simp [hc', buf_setBuf]⟩
    · simpa only [hdev, hno] using h.unique
    · simpa only [hdev, hno] using h.names
    · simpa only [hlocked] using h.locked
    · have hcur := h.current j hj
      rw [hdev] at hjdev
      by_cases he : j = i
      · subst he
        have := hdisk hjdev hinvalid
        grind [buf_setBuf]
      · grind [buf_setBuf]
    · obtain ⟨j, hj, hjdev, hjno, hjv⟩ := h.pinned b hb
      exact ⟨j, hj, (hdev j).trans hjdev, (hno j).trans hjno, hvalid j hjv⟩

theorem Coherent.store {op : Option Nat} {x : α} (hu : use u = some p)
    (hholds : p.stage = .holds) (hroot : p.dev = rootdev) :
    Coherent pins (c.setData p.buf x) use ((u, op) :: dirty) disk (update mem (c.buf p.buf).blockno x) := by
  obtain ⟨hlt, hpdev, hpno⟩ := h.names u p hu
  have hdev : ∀ j, ((c.setData p.buf x).buf j).dev = (c.buf j).dev := by grind [setData, buf_setBuf]
  have hno : ∀ j, ((c.setData p.buf x).buf j).blockno = (c.buf j).blockno := by
    grind [setData, buf_setBuf]
  have hvalid : ∀ j, ((c.setData p.buf x).buf j).valid = (c.buf j).valid := by grind [setData, buf_setBuf]
  have hlocked : ∀ j, ((c.setData p.buf x).buf j).locked = (c.buf j).locked := by
    grind [setData, buf_setBuf]
  refine ⟨?_, ?_, ?_, h.exclusive, ?_, fun j hj hjdev hjv => ?_, ?_, fun y hy => ?_, fun b hb => ?_⟩
  · simpa only [hdev, hno] using h.unique
  · simpa only [hdev, hno] using h.names
  · simpa only [hlocked] using h.locked
  · simpa only [hvalid] using h.loaded
  · rw [hdev] at hjdev
    rw [hvalid] at hjv
    rw [hno]
    by_cases he : j = p.buf
    · subst he
      simp [setData, buf_setBuf]
    · have hne : (c.buf j).blockno ≠ (c.buf p.buf).blockno := fun hb =>
        he (h.unique j hj p.buf hlt (by simp [hjdev]) (by rw [hjdev, hpdev, hroot]) hb)
      rw [update_of_ne hne]
      simp [setData, buf_setBuf, he, h.current j hj hjdev hjv]
  · simpa only [hdev, hno, hvalid] using h.pinned
  · rcases mem_cons.mp hy with rfl | hy
    · exact ⟨p, hu, hholds, hroot⟩
    · exact h.changed y hy
  · by_cases he : b = (c.buf p.buf).blockno
    · exact .inr ⟨(u, op), by simp, p, hu, by rw [he, hpno]⟩
    · rw [update_of_ne he] at hb
      refine (h.synced b hb).imp_right ?_
      rintro ⟨y, hy, hq⟩
      exact ⟨y, mem_cons_of_mem _ hy, hq⟩

theorem Coherent.bwrite (hu : use u = some p) (hholds : p.stage = .holds)
    (hroot : p.dev = rootdev) :
    Coherent pins c use (dirty.filter (·.1 ≠ u)) (update disk (c.buf p.buf).blockno (c.buf p.buf).data) mem := by
  obtain ⟨hlt, hpdev, hpno⟩ := h.names u p hu
  have hdata := h.current p.buf hlt (hpdev.trans hroot) (h.loaded u p hu hholds)
  refine ⟨h.unique, h.names, h.locked, h.exclusive, h.loaded, h.current, h.pinned,
    fun x hx => h.changed x (mem_filter.mp hx).1, fun b hb => ?_⟩
  have hne : b ≠ (c.buf p.buf).blockno := by
    rintro rfl
    rw [update_self] at hb
    exact hb hdata
  rw [update_of_ne hne] at hb
  refine (h.synced b hb).imp_right ?_
  rintro ⟨x, hx, q, hq, hqb⟩
  refine ⟨x, mem_filter.mpr ⟨hx, ?_⟩, q, hq, hqb⟩
  have hxu : x.1 ≠ u := by
    rintro rfl
    obtain rfl := Option.some.inj (hq.symm.trans hu)
    exact hne (hqb.symm.trans hpno.symm)
  simpa using hxu

theorem Coherent.log {pins' : List Nat} (hu : use u = some p)
    (hholds : p.stage = .holds) (hroot : p.dev = rootdev)
    (hpins : ∀ b, b ∈ pins' ↔ b ∈ pins ∨ b = (c.buf p.buf).blockno) :
    Coherent pins' c use (dirty.filter (·.1 ≠ u)) disk mem := by
  obtain ⟨hlt, hpdev, hpno⟩ := h.names u p hu
  refine ⟨h.unique, h.names, h.locked, h.exclusive, h.loaded, h.current, fun b hb => ?_,
    fun x hx => h.changed x (mem_filter.mp hx).1, fun b hb => ?_⟩
  · rcases (hpins b).mp hb with hb | rfl
    · exact h.pinned b hb
    · exact ⟨p.buf, hlt, hpdev.trans hroot, rfl, h.loaded u p hu hholds⟩
  · rcases h.synced b hb with hb | ⟨x, hx, q, hq, hqb⟩
    · exact .inl ((hpins b).mpr (.inl hb))
    · by_cases hxu : x.1 = u
      · rw [hxu] at hq
        obtain rfl := Option.some.inj (hq.symm.trans hu)
        exact .inl ((hpins b).mpr (.inr (hqb.symm.trans hpno.symm)))
      · exact .inr ⟨x, mem_filter.mpr ⟨hx, by simpa using hxu⟩, q, hq, hqb⟩

end

theorem Coherent.unpin {b : Nat} (h : Coherent (b :: pins) c use dirty disk mem) (hb : disk b = mem b) :
    Coherent pins c use dirty disk mem :=
  ⟨h.unique, h.names, h.locked, h.exclusive, h.loaded, h.current, fun d hd => h.pinned d (mem_cons_of_mem b hd),
    h.changed, fun d hd => (h.synced d hd).imp_left fun hmem => by
      rcases mem_cons.mp hmem with rfl | hmem
      · exact absurd hb hd
      · exact hmem⟩

theorem Coherent.recycle (h : Coherent pins c use dirty disk mem) (hcount : Counted pins c use)
    (hi : i < nbuf) (hzero : (c.buf i).refcnt = 0)
    (hnew : ∀ j < nbuf, ¬ ((c.buf j).dev = dev ∧ (c.buf j).blockno = blockno)) :
    Coherent pins (c.recycle i dev blockno) use dirty disk mem := by
  have huse : ∀ u p, use u = some p → p.buf ≠ i := by
    rintro u p hu rfl
    have := hcount.refcnt_pos hu hi
    omega
  have hsame : ∀ j, j ≠ i → (c.recycle i dev blockno).buf j = c.buf j := by grind [recycle, buf_setBuf]
  have hself : (c.recycle i dev blockno).buf i =
      { c.buf i with dev := dev, blockno := blockno, valid := false, refcnt := 1 } := by
    grind [recycle, buf_setBuf]
  refine ⟨fun j hj k hk hdev hjk hno => ?_, fun u p hu => ?_, fun u p hu hp => ?_, h.exclusive,
    fun u p hu hp => ?_, fun j hj hdev hv => ?_, fun b hb => ?_, h.changed, h.synced⟩
  · have hj' := hnew j hj
    have hk' := hnew k hk
    by_cases hji : j = i <;> by_cases hki : k = i
    · rw [hji, hki]
    · subst hji
      rw [hself, hsame k hki] at hjk hno
      exact absurd ⟨hjk.symm, hno.symm⟩ hk'
    · subst hki
      rw [hself, hsame j hji] at hjk hno
      exact absurd ⟨hjk, hno⟩ hj'
    · rw [hsame j hji] at hdev hjk hno
      rw [hsame k hki] at hjk hno
      exact h.unique j hj k hk hdev hjk hno
  · rw [hsame _ (huse u p hu)]
    exact h.names u p hu
  · rw [hsame _ (huse u p hu)]
    exact h.locked u p hu hp
  · rw [hsame _ (huse u p hu)]
    exact h.loaded u p hu hp
  · by_cases hji : j = i
    · subst hji
      rw [hself] at hv
      cases hv
    · rw [hsame j hji] at hdev hv ⊢
      exact h.current j hj hdev hv
  · obtain ⟨j, hj, hdev, hno, hv⟩ := h.pinned b hb
    have hji : j ≠ i := by
      rintro rfl
      have := hcount.pinned_pos hj hdev (by rwa [hno])
      omega
    exact ⟨j, hj, by rw [hsame j hji]; exact ⟨hdev, hno, hv⟩⟩

end Ops

end Xv6.Bio
