import Xv6.Bio.Coherence

namespace Xv6.Bio

open Count Function Option Cache
open Log (Geom)

variable {α : Type} {g : Geom} {putHead : List Nat → α → α} {s t : State α} {u : User} {p : Use} {pins : List Nat}

def State.Sound (pins : List Nat) (s : State α) : Prop :=
  s.cache.Ordered ∧ Counted pins s.cache s.use ∧ Coherent pins s.cache s.use s.dirty s.disk s.mem

theorem held_eq_some (h : s.held u = some p) : s.use u = some p ∧ p.stage = .holds := by
  simpa [State.held, filter_eq_some_iff] using h

namespace State

/-! ### The functions of `bio.c` -/

theorem bget_eq_some {dev blockno : Nat} (h : s.bget u dev blockno = some t) :
    s.use u = none ∧ ∃ i c, s.cache.bget dev blockno = some (i, c) ∧
      t = { s with cache := c, use := update s.use u (some ⟨i, dev, blockno, .waits⟩) } := by
  unfold bget at h
  split at h
  next i c hu hc => exact ⟨hu, i, c, hc, (some.inj h).symm⟩
  next => cases h

theorem Sound.bget {dev blockno : Nat} (h : s.Sound pins) (hb : s.bget u dev blockno = some t) : t.Sound pins := by
  obtain ⟨hord, hcount, hcoh⟩ := h
  obtain ⟨hu, i, c, hc, rfl⟩ := bget_eq_some hb
  have hclean : ∀ x ∈ s.dirty, x.1 ≠ u := hcoh.not_dirty (by simp [hu])
  obtain ⟨hi, hkind⟩ := hord.bget_some hc
  rcases hkind with ⟨hdev, hno, rfl⟩ | ⟨hzero, hnew, rfl⟩
  · have halike := s.cache.alike_setRefcnt i ((s.cache.buf i).refcnt + 1)
    refine ⟨hord, ?_, (hcoh.alike halike).setUse hclean ?_ ?_ ?_⟩
    · refine hcount.change fun j _ => ?_
      simp only [pin, halike.dev, halike.blockno, incr, bufs, hu, map_none, map_some, mark_none,
        mark_some, one_apply, Pi.zero_apply]
      rw [buf_setBuf]
      by_cases hj : j = i
      · simp [hj]
        omega
      · simp [hj]
    · rintro p ⟨⟩
      exact ⟨hi, by rw [halike.dev]; exact hdev, by rw [halike.blockno]; exact hno⟩
    · rintro p ⟨⟩ (h | h) <;> cases h
    · rintro p ⟨⟩ h
      cases h
  · have hself : (s.cache.recycle i dev blockno).buf i =
        { s.cache.buf i with dev := dev, blockno := blockno, valid := false, refcnt := 1 } := by
      simp [recycle, buf_setBuf]
    refine ⟨hord, ?_, (hcoh.recycle hcount hi hzero hnew).setUse hclean ?_ ?_ ?_⟩
    · refine hcount.change fun j hj => ?_
      by_cases hji : j = i
      · subst hji
        -- neither the old block nor the new one is pinned
        have hold : s.cache.pin pins j = 0 := by
          refine if_neg ?_
          rintro ⟨hdev, hb⟩
          have := hcount.pinned_pos hj hdev hb
          omega
        have hnewpin : (s.cache.recycle j dev blockno).pin pins j = 0 := by
          refine if_neg ?_
          rintro ⟨hdev, hb⟩
          rw [hself] at hdev hb
          obtain ⟨k, hk, hkdev, hkno, -⟩ := hcoh.pinned _ hb
          exact hnew k hk ⟨hkdev.trans hdev.symm, hkno⟩
        rw [hold, hnewpin, hself]
        simp [bufs, hu, hzero]
      · have hsame : (s.cache.recycle i dev blockno).buf j = s.cache.buf j := by
          simp [recycle, buf_setBuf, hji]
        simp [pin, hsame, bufs, hu, hji]
    · rintro p ⟨⟩
      exact ⟨hi, by rw [hself], by rw [hself]⟩
    · rintro p ⟨⟩ (h | h) <;> cases h
    · rintro p ⟨⟩ h
      cases h

theorem acquire_eq_some (h : s.acquire u = some t) :
    ∃ i dev blockno, s.use u = some ⟨i, dev, blockno, .waits⟩ ∧ (s.cache.buf i).locked = false ∧
      t = { s with cache := s.cache.setLocked i true, use := update s.use u (some ⟨i, dev, blockno, .got⟩) } := by
  unfold acquire at h
  split at h
  next i dev blockno hu =>
    split at h
    next => cases h
    next hl => exact ⟨i, dev, blockno, hu, by simpa using hl, (some.inj h).symm⟩
  next => cases h

theorem Sound.acquire (h : s.Sound pins) (ha : s.acquire u = some t) : t.Sound pins := by
  obtain ⟨hord, hcount, hcoh⟩ := h
  obtain ⟨i, dev, blockno, hu, hfree, rfl⟩ := acquire_eq_some ha
  have hset : ∀ j, ((s.cache.setLocked i true).buf j).dev = (s.cache.buf j).dev ∧
      ((s.cache.setLocked i true).buf j).blockno = (s.cache.buf j).blockno ∧
      ((s.cache.setLocked i true).buf j).refcnt = (s.cache.buf j).refcnt := by
    grind [setLocked, buf_setBuf]
  refine ⟨hord, hcount.stay hu rfl (fun j => (hset j).2.2) (fun j => (hset j).1) fun j => (hset j).2.1, ?_⟩
  refine (hcoh.setLocked (fun h => by cases h)).setUse (hcoh.not_dirty (by simp [hu])) ?_ ?_ ?_
  · rintro p ⟨⟩
    have hn := hcoh.names u _ hu
    exact ⟨hn.1, (hset i).1.trans hn.2.1, (hset i).2.1.trans hn.2.2⟩
  · rintro p ⟨⟩ -
    refine ⟨by simp [setLocked, buf_setBuf], fun v q _ hq hqo he => ?_⟩
    have hl := hcoh.locked v q hq hqo
    rw [he, hfree] at hl
    cases hl
  · rintro p ⟨⟩ h
    cases h

theorem fill_eq_some (h : s.fill u = some t) :
    ∃ i dev blockno, s.use u = some ⟨i, dev, blockno, .got⟩ ∧
      t = { s with cache := s.cache.fill s.disk i, use := update s.use u (some ⟨i, dev, blockno, .holds⟩) } := by
  unfold fill at h
  split at h
  next i dev blockno hu => exact ⟨i, dev, blockno, hu, (some.inj h).symm⟩
  next => cases h

theorem fill_frame (c : Cache α) (disk : Nat → α) (i j : Nat) :
    ((c.fill disk i).buf j).dev = (c.buf j).dev ∧ ((c.fill disk i).buf j).blockno = (c.buf j).blockno ∧
      ((c.fill disk i).buf j).refcnt = (c.buf j).refcnt ∧ ((c.fill disk i).buf j).locked = (c.buf j).locked := by
  grind [Cache.fill, Cache.buf_setBuf]

theorem Sound.fill (h : s.Sound pins) (hf : s.fill u = some t) : t.Sound pins := by
  obtain ⟨hord, hcount, hcoh⟩ := h
  obtain ⟨i, dev, blockno, hu, rfl⟩ := fill_eq_some hf
  have hset := fill_frame s.cache s.disk i
  have hn := hcoh.names u _ hu
  have hord' : (s.cache.fill s.disk i).Ordered := by
    unfold Cache.fill
    split <;> exact hord
  obtain ⟨hcoh', hvalid⟩ := hcoh.fill hn.1
  refine ⟨hord', hcount.stay hu rfl (fun j => (hset j).2.2.1) (fun j => (hset j).1) fun j => (hset j).2.1, ?_⟩
  refine hcoh'.setUse (hcoh.not_dirty (by simp [hu])) ?_ ?_ ?_
  · rintro p ⟨⟩
    exact ⟨hn.1, (hset i).1.trans hn.2.1, (hset i).2.1.trans hn.2.2⟩
  · rintro p ⟨⟩ -
    refine ⟨(hset i).2.2.2.trans (hcoh.locked u _ hu (.inl rfl)), fun v q hv hq hqo he => ?_⟩
    exact hv (hcoh.exclusive v u q _ hq hu hqo (.inl rfl) he)
  · rintro p ⟨⟩ -
    exact hvalid

theorem store_eq_some {op : Option Nat} {x : α} (h : s.store u op x = some t) :
    ∃ p, s.held u = some p ∧
      t = { s with
        cache := s.cache.setData p.buf x
        mem := update s.mem (s.cache.buf p.buf).blockno x
        dirty := (u, op) :: s.dirty } := by
  unfold store at h
  split at h
  next p hp => exact ⟨p, hp, (some.inj h).symm⟩
  next => cases h

theorem Sound.store {op : Option Nat} {x : α} (h : s.Sound pins) (hroot : ∀ p, s.use u = some p → p.dev = rootdev)
    (hs : s.store u op x = some t) : t.Sound pins := by
  obtain ⟨hord, hcount, hcoh⟩ := h
  obtain ⟨p, hp, rfl⟩ := store_eq_some hs
  obtain ⟨hu, hholds⟩ := held_eq_some hp
  have hset : ∀ j, ((s.cache.setData p.buf x).buf j).dev = (s.cache.buf j).dev ∧
      ((s.cache.setData p.buf x).buf j).blockno = (s.cache.buf j).blockno ∧
      ((s.cache.setData p.buf x).buf j).refcnt = (s.cache.buf j).refcnt := by
    grind [setData, buf_setBuf]
  have hcount' := hcount.stay hu (q := p) rfl (fun j => (hset j).2.2) (fun j => (hset j).1) fun j => (hset j).2.1
  rw [← hu, update_eq_self] at hcount'
  exact ⟨hord, hcount', hcoh.store hu hholds (hroot p hu)⟩

theorem releasesleep_eq_some (h : s.releasesleep u = some t) :
    ∃ p, s.held u = some p ∧
      t = { s with
        cache := s.cache.setLocked p.buf false, use := update s.use u (some { p with stage := .leaves }) } := by
  unfold releasesleep at h
  split at h
  next p hp => exact ⟨p, hp, (some.inj h).symm⟩
  next => cases h

theorem Sound.releasesleep (h : s.Sound pins) (hclean : ∀ x ∈ s.dirty, x.1 ≠ u) (hr : s.releasesleep u = some t) :
    t.Sound pins := by
  obtain ⟨hord, hcount, hcoh⟩ := h
  obtain ⟨p, hp, rfl⟩ := releasesleep_eq_some hr
  obtain ⟨hu, hholds⟩ := held_eq_some hp
  have hset : ∀ j, ((s.cache.setLocked p.buf false).buf j).dev = (s.cache.buf j).dev ∧
      ((s.cache.setLocked p.buf false).buf j).blockno = (s.cache.buf j).blockno ∧
      ((s.cache.setLocked p.buf false).buf j).refcnt = (s.cache.buf j).refcnt := by
    grind [setLocked, buf_setBuf]
  refine ⟨hord, hcount.stay hu rfl (fun j => (hset j).2.2) (fun j => (hset j).1) fun j => (hset j).2.1, ?_⟩
  refine (hcoh.setUse (r := some { p with stage := .leaves }) hclean ?_ ?_ ?_).setLocked fun _ v q hv hq he => ?_
  · rintro q ⟨⟩
    exact hcoh.names u p hu
  · rintro q ⟨⟩ (h | h) <;> cases h
  · rintro q ⟨⟩ h
    cases h
  · -- no other user owns the lock
    by_cases hvu : v = u
    · rw [hvu, update_self] at hv
      obtain rfl := (some.inj hv).symm
      rcases hq with h | h <;> cases h
    · rw [update_of_ne hvu] at hv
      exact hvu (hcoh.exclusive v u q p hv hu hq (.inr hholds) he)

theorem drop_eq_some (h : s.drop u = some t) :
    ∃ p, s.use u = some p ∧ p.stage = .leaves ∧ t = { s with cache := s.cache.drop p.buf, use := update s.use u none } := by
  unfold drop at h
  split at h
  next i dev blockno hu => exact ⟨_, hu, rfl, (some.inj h).symm⟩
  next => cases h

theorem drop_buf (c : Cache α) (i : Nat) : (c.drop i).buf = (c.decr i).buf := by
  unfold Cache.drop
  dsimp only
  split <;> rfl

theorem Sound.drop (h : s.Sound pins) (hd : s.drop u = some t) : t.Sound pins := by
  obtain ⟨hord, hcount, hcoh⟩ := h
  obtain ⟨p, hu, hleaves, rfl⟩ := drop_eq_some hd
  have hi := (hcoh.names u p hu).1
  have hpos := hcount.refcnt_pos hu hi
  have halike : s.cache.Alike (s.cache.drop p.buf) := by
    have h := s.cache.alike_setRefcnt p.buf ((s.cache.buf p.buf).refcnt - 1)
    constructor <;> intro j <;> rw [drop_buf]
    exacts [h.dev j, h.blockno j, h.valid j, h.data j, h.locked j]
  refine ⟨?_, ?_, (hcoh.alike halike).setUse (hcoh.not_dirty ?_) ?_ ?_ ?_⟩
  · have hdecr : (s.cache.decr p.buf).Ordered := hord
    show (s.cache.drop p.buf).Ordered
    unfold Cache.drop
    dsimp only
    split
    · exact hdecr.moveFront hi
    · exact hdecr
  · refine hcount.change fun j _ => ?_
    have hpin : (s.cache.drop p.buf).pin pins j = s.cache.pin pins j := by simp only [pin, halike.dev, halike.blockno]
    simp only [hpin, drop_buf, decr, buf_setBuf, bufs, hu, map_none, map_some, mark_none,
      mark_some, one_apply, Pi.zero_apply]
    by_cases hj : j = p.buf
    · subst hj
      simp
      omega
    · simp [hj]
  · intro q hq
    obtain rfl := some.inj (hu.symm.trans hq)
    simp [hleaves]
  all_goals
    rintro q ⟨⟩

theorem bwrite_eq_some (h : s.bwrite u = some t) :
    ∃ p, s.held u = some p ∧
      t = { s.clean u with disk := update s.disk (s.cache.buf p.buf).blockno (s.cache.buf p.buf).data } := by
  unfold bwrite at h
  split at h
  next p hp => exact ⟨p, hp, (some.inj h).symm⟩
  next => cases h

theorem Sound.bwrite (h : s.Sound pins) (hroot : ∀ p, s.use u = some p → p.dev = rootdev) (hb : s.bwrite u = some t) :
    t.Sound pins := by
  obtain ⟨hord, hcount, hcoh⟩ := h
  obtain ⟨p, hp, rfl⟩ := bwrite_eq_some hb
  obtain ⟨hu, hholds⟩ := held_eq_some hp
  exact ⟨hord, hcount, hcoh.bwrite hu hholds (hroot p hu)⟩

theorem bunpin_eq_some (h : s.bunpin u = some t) :
    ∃ p, s.held u = some p ∧ t = { s with cache := s.cache.decr p.buf, installed := s.installed + 1 } := by
  unfold bunpin at h
  split at h
  next p hp => exact ⟨p, hp, (some.inj h).symm⟩
  next => cases h

theorem counted_pin {b n : Nat} (hcount : Counted pins s.cache s.use)
    (hcoh : Coherent pins s.cache s.use s.dirty s.disk s.mem) {i : Nat} (hi : i < nbuf)
    (hdev : (s.cache.buf i).dev = rootdev) (hno : (s.cache.buf i).blockno = b) {pins' : List Nat}
    (hpins : ∀ d, d ≠ b → (d ∈ pins' ↔ d ∈ pins))
    (hn : (n : ℤ) - (if b ∈ pins' then 1 else 0) = (s.cache.buf i).refcnt - if b ∈ pins then 1 else 0) :
    Counted pins' (s.cache.setBuf i { s.cache.buf i with refcnt := n }) s.use := by
  have halike := s.cache.alike_setRefcnt i n
  obtain ⟨S, hS, hsum⟩ := hcount
  refine ⟨S, hS, fun j hj => ?_⟩
  have hj' := hsum j hj
  simp only [pin, halike.dev, halike.blockno] at hj' ⊢
  rw [buf_setBuf]
  by_cases hji : j = i
  · subst hji
    simp only [hdev, hno, true_and, if_true] at hj' ⊢
    omega
  · have hpin : ((s.cache.buf j).dev = rootdev ∧ (s.cache.buf j).blockno ∈ pins') ↔
        ((s.cache.buf j).dev = rootdev ∧ (s.cache.buf j).blockno ∈ pins) := by
      refine and_congr_right fun hjdev => hpins _ fun he => hji ?_
      exact hcoh.unique j hj i hi (by simp [hjdev]) (hjdev.trans hdev.symm) (he.trans hno.symm)
    simp only [if_neg hji, hpin]
    exact hj'

theorem Sound.bunpin {b : Nat} (h : s.Sound (b :: pins)) (hb : b ∉ pins) (hsync : s.disk b = s.mem b)
    (hheld : ∀ p, s.use u = some p → p.dev = rootdev ∧ p.blockno = b) (ht : s.bunpin u = some t) : t.Sound pins := by
  obtain ⟨hord, hcount, hcoh⟩ := h
  obtain ⟨p, hp, rfl⟩ := bunpin_eq_some ht
  obtain ⟨hu, -⟩ := held_eq_some hp
  obtain ⟨hi, hdev, hno⟩ := hcoh.names u p hu
  obtain ⟨hroot, hpb⟩ := hheld p hu
  have hpos := hcount.refcnt_pos hu hi
  refine ⟨hord, counted_pin hcount hcoh hi (hdev.trans hroot) (hno.trans hpb) (fun d hd => by simp [hd]) ?_,
    (hcoh.unpin hsync).alike (s.cache.alike_setRefcnt p.buf _)⟩
  simp [hb]
  omega

theorem logWrite_eq_some (h : s.logWrite g u = some t) :
    ∃ p, s.held u = some p ∧ p.dev = rootdev ∧ s.ops ≠ [] ∧
      ((s.cache.buf p.buf).blockno ∈ s.lh ∧ t = s.clean u ∨
        (s.cache.buf p.buf).blockno ∉ s.lh ∧
          t = { s.clean u with lh := s.lh ++ [(s.cache.buf p.buf).blockno], cache := s.cache.incr p.buf }) := by
  unfold logWrite at h
  split at h
  next p hp =>
    dsimp only at h
    split at h
    next => cases h
    next hguard =>
      simp only [not_or, not_not] at hguard
      split at h
      next hmem => exact ⟨p, hp, hguard.1, hguard.2.2.2, .inl ⟨hmem, (some.inj h).symm⟩⟩
      next hmem => exact ⟨p, hp, hguard.1, hguard.2.2.2, .inr ⟨hmem, (some.inj h).symm⟩⟩
  next => cases h

theorem Sound.logWrite (h : s.Sound s.lh) (hl : s.logWrite g u = some t) : t.Sound t.lh := by
  obtain ⟨hord, hcount, hcoh⟩ := h
  obtain ⟨p, hp, hroot, -, hkind⟩ := logWrite_eq_some hl
  obtain ⟨hu, hholds⟩ := held_eq_some hp
  obtain ⟨hi, hdev, hno⟩ := hcoh.names u p hu
  rcases hkind with ⟨hmem, rfl⟩ | ⟨hmem, rfl⟩
  · refine ⟨hord, hcount, hcoh.log hu hholds hroot fun b => ?_⟩
    constructor
    · exact .inl
    · rintro (hb | rfl)
      · exact hb
      · exact hmem
  · refine ⟨hord, counted_pin hcount hcoh hi (hdev.trans hroot) rfl (fun d hd => by simp [hd]) (by simp [hmem]), ?_⟩
    exact (hcoh.log hu hholds hroot fun b => by simp).alike (s.cache.alike_setRefcnt p.buf _)

end State

end Xv6.Bio
