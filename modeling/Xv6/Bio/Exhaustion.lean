import Xv6.Bio.Transparent

namespace Xv6.Bio

open Count Function Transition Finset
open Log (Geom)

variable {α : Type} {g : Geom} {putHead : List Nat → α → α} {s : State α} {k : Nat}

def State.active (s : State α) : Set User := { u | s.use u ≠ none }

theorem Inv.bget_ne_none (h : Inv g s) (hroom : s.active.ncard + s.pins.length < nbuf)
    (dev blockno : Nat) : s.cache.bget dev blockno ≠ none := by
  intro hnone
  obtain ⟨hord, ⟨S, hS, hsum⟩, hcoh⟩ := h.1
  have hfin : s.active.Finite := S.finite_toSet.subset fun u hu => hS u hu
  -- every buffer belongs to a user or to a pinned block
  let owner : User ⊕ Nat → Nat → Prop := fun x i =>
    i < nbuf ∧ match x with
      | .inl u => bufs s.use u = some i
      | .inr b => (s.cache.buf i).dev = rootdev ∧ (s.cache.buf i).blockno = b
  have hcard := card_le_card_of_forall_subsingleton (s := range nbuf)
    (t := hfin.toFinset.disjSum s.pins.toFinset) (fun i x => owner x i) ?_ ?_
  · rw [card_range, card_disjSum, ← Set.ncard_eq_toFinset_card _ hfin] at hcard
    have := List.toFinset_card_le s.pins
    omega
  · intro i hi
    have hi := mem_range.mp hi
    have hpos := (hord.bget_none hnone hi).1
    have hc := hsum i hi
    by_cases hpin : (s.cache.buf i).dev = rootdev ∧ (s.cache.buf i).blockno ∈ s.pins
    · exact ⟨.inr (s.cache.buf i).blockno, by simp [hpin.2], hi, hpin.1, rfl⟩
    · have hholders : 0 < holders S (bufs s.use) i := by
        rw [Cache.pin, if_neg hpin] at hc
        omega
      obtain ⟨u, -, hu⟩ := exists_of_holders_pos hholders
      refine ⟨.inl u, ?_, hi, hu⟩
      rw [inl_mem_disjSum, Set.Finite.mem_toFinset]
      intro hn
      simp [bufs, hn] at hu
  · rintro (u | b) - i ⟨-, hi, hiu⟩ j ⟨-, hj, hju⟩
    · exact Option.some.inj (hiu.symm.trans hju)
    · exact hcoh.unique i hi j hj (by simp [hiu.1]) (hiu.1.trans hju.1.symm) (hiu.2.trans hju.2.symm)

/-- `bget` finds a buffer in every state of a run where the buffers held or waited for and the blocks that the
log has pinned are together fewer than the buffers. -/
theorem bget_finds_buffer {d : Nat → α} {evs : List (Event α)} (h : Run (State.step g putHead) (boot d) evs s)
    (hroom : s.active.ncard + s.pins.length < nbuf) (dev blockno : Nat) :
    s.cache.bget dev blockno ≠ none :=
  (inv_run h).bget_ne_none hroom dev blockno

/-- The first `k` processes have called `bread` for a block of their own each and wait for the disk. -/
def reads (k : Nat) : List (Event α) := (List.range k).flatMap fun n => [.bget n rootdev (100 + n), .acquire (.proc n)]

structure Reading (k : Nat) (s : State α) : Prop where
  lh : s.lh = []
  reader : ∀ n < k, ∃ p, s.use (.proc n) = some p ∧ p.dev = rootdev ∧ p.blockno = 100 + n
  active : ∀ u, s.use u ≠ none → ∃ n < k, u = .proc n
  locked : ∀ i, (s.cache.buf i).locked = true → ∃ u p, s.use u = some p ∧ p.buf = i

theorem Reading.active_eq (h : Reading k s) : s.active = ↑((range k).image User.proc) := by
  ext u
  simp only [State.active, Set.mem_ofPred_eq, coe_image, coe_range, Set.mem_image, Set.mem_Iio]
  constructor
  · intro hu
    obtain ⟨n, hn, rfl⟩ := h.active u hu
    exact ⟨n, hn, rfl⟩
  · rintro ⟨n, hn, rfl⟩
    obtain ⟨p, hp, -⟩ := h.reader n hn
    simp [hp]

theorem Reading.room (h : Reading k s) (hk : k < nbuf) :
    s.active.ncard + s.pins.length < nbuf := by
  rw [h.active_eq, Set.ncard_coe_finset, card_image_of_injective _ (fun a b he => User.proc.inj he),
    card_range]
  simpa [State.pins, h.lh] using hk

theorem reads_run (g : Geom) (putHead : List Nat → α → α) (d : Nat → α) (hk : k ≤ nbuf) :
    ∃ s, Run (State.step g putHead) (boot d) (reads k) s ∧ Reading k s := by
  induction k with
  | zero =>
    refine ⟨boot d, .nil, rfl, by simp, fun u hu => absurd rfl hu, fun i hi => ?_⟩
    simp [boot, binit_buf] at hi
  | succ k ih =>
    obtain ⟨s, hrun, hat⟩ := ih (by omega)
    have hinv := inv_run hrun
    have hroom := hat.room hk
    have hidle : s.use (.proc k) = none := by
      by_contra hne
      obtain ⟨n, hn, he⟩ := hat.active _ hne
      obtain rfl := User.proc.inj he
      omega
    obtain ⟨⟨i, c⟩, hbget⟩ := Option.ne_none_iff_exists'.mp (hinv.bget_ne_none hroom rootdev (100 + k))
    obtain ⟨hi, hkind⟩ := hinv.1.1.bget_some hbget
    -- nobody has the lock of the buffer
    have hfree : (s.cache.buf i).locked = false := by
      by_contra hl
      obtain ⟨u, p, hu, rfl⟩ := hat.locked i (by simpa using hl)
      rcases hkind with ⟨-, hno, -⟩ | ⟨hzero, -, -⟩
      · obtain ⟨n, hn, rfl⟩ := hat.active u (by simp [hu])
        obtain ⟨q, hq, -, hqno⟩ := hat.reader n hn
        obtain rfl := Option.some.inj (hu.symm.trans hq)
        have := (hinv.1.2.2.names _ p hu).2.2
        omega
      · have := hinv.1.2.1.refcnt_pos hu hi
        omega
    have hlock : ∀ j, (c.buf j).locked = (s.cache.buf j).locked := by
      rcases hkind with ⟨-, -, rfl⟩ | ⟨-, -, rfl⟩
      · grind [Cache.incr, Cache.buf_setBuf]
      · grind [Cache.recycle, Cache.buf_setBuf]
    have hfree' : (c.buf i).locked = false := (hlock i).trans hfree
    refine ⟨{ s with
      cache := c.setLocked i true, use := update s.use (.proc k) (some ⟨i, rootdev, 100 + k, .got⟩) }, ?_, ?_⟩
    · rw [reads, List.range_succ, List.flatMap_append]
      refine hrun.append (t := _) ?_
      simp [exec, State.step, State.bget, State.acquire, hidle, hbget, hfree']
    · refine ⟨hat.lh, fun n hn => ?_, fun u hu => ?_, fun j hj => ?_⟩
      · by_cases he : n = k
        · subst he
          exact ⟨_, update_self .., rfl, rfl⟩
        · obtain ⟨p, hp⟩ := hat.reader n (by omega)
          exact ⟨p, by simpa [he] using hp⟩
      · by_cases he : u = .proc k
        · exact ⟨k, by omega, he⟩
        · obtain ⟨n, hn, hun⟩ := hat.active u (by simpa [he] using hu)
          exact ⟨n, by omega, hun⟩
      · by_cases he : j = i
        · exact ⟨.proc k, _, update_self .., he.symm⟩
        · have hj' : (s.cache.buf j).locked = true := by
            rw [← hlock]
            simpa [Cache.setLocked, Cache.buf_setBuf, he] using hj
          obtain ⟨u, p, hu, hp⟩ := hat.locked j hj'
          have hne : u ≠ .proc k := by
            rintro rfl
            simp [hidle] at hu
          exact ⟨u, p, by simpa [hne] using hu, hp⟩

theorem fewReads_find_buffer :
    ∃ s : State Unit, Run (State.step ⟨2, 30⟩ fun _ x => x) (boot fun _ => ()) (reads 29) s ∧
      s.active.ncard + s.pins.length < nbuf ∧ s.cache.bget rootdev 129 ≠ none := by
  obtain ⟨s, hrun, hat⟩ := reads_run ⟨2, 30⟩ (fun _ x => x) (fun _ => ()) (k := 29) (by decide)
  have hroom := hat.room (by decide)
  exact ⟨s, hrun, hroom, bget_finds_buffer hrun hroom rootdev 129⟩

/-- Thirty processes wait for the disk; the next one, out of at most 64, finds no buffer for its block. -/
theorem reads_no_buffers :
    ∃ s : State Unit, Run (State.step ⟨2, 30⟩ fun _ x => x) (boot fun _ => ()) (reads 30) s ∧
      s.use (.proc 30) = none ∧ s.cache.bget rootdev 130 = none := by
  obtain ⟨s, hrun, hat⟩ := reads_run ⟨2, 30⟩ (fun _ x => x) (fun _ => ()) (k := 30) (by decide)
  obtain ⟨hord, hcount, hcoh⟩ := (inv_run hrun).1
  have hidle : s.use (.proc 30) = none := by
    by_contra hne
    obtain ⟨n, hn, he⟩ := hat.active _ hne
    obtain rfl := User.proc.inj he
    omega
  -- the processes have a buffer each, so there is none left
  have hall : ∀ i < nbuf, ∃ u p, s.use u = some p ∧ p.buf = i ∧ p.blockno < 130 := by
    intro i hi
    have : Nonempty Use := ⟨⟨0, 0, 0, .waits⟩⟩
    choose! f hf using hat.reader
    have hmaps : Set.MapsTo (fun n => (f n).buf) ↑(range nbuf) ↑(range nbuf) := fun n hn =>
      mem_coe.mpr (mem_range.mpr
        (hcoh.names _ _ (hf n (mem_range.mp (mem_coe.mp hn))).1).1)
    have hinj : Set.InjOn (fun n => (f n).buf) ↑(range nbuf) := by
      intro n hn m hm he
      have hn := hf n (mem_range.mp (mem_coe.mp hn))
      have hm := hf m (mem_range.mp (mem_coe.mp hm))
      have hnno := (hcoh.names _ _ hn.1).2.2
      have hmno := (hcoh.names _ _ hm.1).2.2
      have he : (f n).buf = (f m).buf := he
      rw [he] at hnno
      omega
    obtain ⟨n, hn, he⟩ := surjOn_of_injOn_of_card_le _ hmaps hinj le_rfl
      (mem_coe.mpr (mem_range.mpr hi))
    have hn : n < 30 := mem_range.mp (mem_coe.mp hn)
    have hfn := hf n hn
    exact ⟨.proc n, f n, hfn.1, he, by rw [hfn.2.2]; omega⟩
  refine ⟨s, hrun, hidle, ?_⟩
  cases hbget : s.cache.bget rootdev 130 with
  | none => rfl
  | some r =>
    obtain ⟨hi, hkind⟩ := hord.bget_some hbget
    obtain ⟨u, p, hu, hp, hlt⟩ := hall r.1 hi
    have hno := (hcoh.names u p hu).2.2
    have hpos := hcount.refcnt_pos hu (hp ▸ hi)
    rw [hp] at hno hpos
    rcases hkind with ⟨-, h130, -⟩ | ⟨hzero, -, -⟩
    · omega
    · omega

end Xv6.Bio
