import Xv6.ByteArrays
import Xv6.InodeRefs
import Xv6.Kernel

namespace Xv6

open Prog List

namespace Fs

/-! ### One transaction of `filewrite` -/

section Chunk

variable {s t : State} {k i off n : Nat} {src : Source} {f : Nat → Byte} {E : Fault → Prop}

def SameEntries (s t : State) : Prop := ∀ j, (t.itable j).ref = (s.itable j).ref ∧ (t.itable j).inum = (s.itable j).inum ∧
  (t.itable j).valid = (s.itable j).valid ∧ (t.itable j).din = (s.itable j).din

theorem sameEntries_put (s : State) (k : Nat) (l : Bool) :
    SameEntries s { s with itable := put s.itable k { s.itable k with locked := l } } := by
  intro j
  by_cases hj : j = k
  · subst hj
    simp [put_same]
  · simp [put_ne _ _ _ hj]

theorem SameEntries.refs (h : SameEntries s t) : t.refs = s.refs := funext fun j => (h j).1

theorem SameEntries.held (h : SameEntries s t) (hk : s.Held k i) : t.Held k i :=
  ⟨by rw [h.refs]; exact hk.pos, (h k).2.2.1.trans hk.valid, (h k).2.1.trans hk.inum⟩

theorem TableOk.congr (h : TableOk s) (hninodes : t.sb.ninodes = s.sb.ninodes) (himage : t.image = s.image)
    (he : SameEntries s t) : TableOk t := by
  refine ⟨fun j => ?_, fun j hj => ?_, fun j hj hv => ?_, fun j l hj hl hjl => ?_⟩
  · rw [he.refs]
    exact h.nonneg j
  · rw [he.refs] at hj
    rw [(he j).2.1, hninodes]
    exact h.range j hj
  · rw [he.refs] at hj
    rw [(he j).2.2.1] at hv
    rw [(he j).2.1, (he j).2.2.2, himage]
    exact h.synced j hj hv
  · rw [he.refs] at hj hl
    rw [(he j).2.1, (he l).2.1] at hjl
    exact h.unique j l hj hl hjl

theorem Sound.congr (h : Sound s) (hsb : t.sb = s.sb) (hdisk : t.disk = s.disk) (he : SameEntries s t) :
    Sound t ∧ t.image = s.image := by
  have himage : t.image = s.image := by rw [State.image, hsb, hdisk, State.image]
  exact ⟨⟨hsb ▸ h.wf, by rw [himage, hsb]; exact h.exact, h.table.congr (congrArg _ hsb) himage he⟩, himage⟩

structure Ready (k i : Nat) (s : State) : Prop where
  sound : Sound s
  held : s.Held k i
  unlocked : (s.itable k).locked = false
  idle : s.outstanding = 0
  empty : s.lh = []
  room : 10 < s.logCap

def Entered (s : State) (k : Nat) : State :=
  { s with outstanding := 1, itable := put s.itable k { s.itable k with locked := true } }

theorem Ready.beginOp (h : Ready k i s) : wp beginOp (fun _ t => t = { s with outstanding := 1 }) E s := by
  simp [Fs.beginOp, h.idle, h.empty]

theorem Held.ilock (hk : s.Held k i) (hfree : (s.itable k).locked = false) :
    wp (ilock k) (fun _ t => t = { s with itable := put s.itable k { s.itable k with locked := true } }) E s := by
  have hpos : ¬ (s.itable k).ref < 1 := by
    have hp : 0 < (s.itable k).ref := hk.pos
    omega
  simp [Fs.ilock, hpos, hfree, hk.valid]

theorem Ready.entered (h : Ready k i s) :
    Sound (Entered s k) ∧ (Entered s k).image = s.image ∧ (Entered s k).Held k i := by
  have he : SameEntries s (Entered s k) := sameEntries_put s k true
  obtain ⟨hs, hi⟩ := h.sound.congr (t := Entered s k) rfl rfl he
  exact ⟨hs, hi, he.held h.held⟩

theorem touched_chunk (hn : n ≤ 3072) : 2 * touched off n + 2 ≤ 10 := by
  unfold touched pastBlock
  split
  next => omega
  next =>
    simp only [bsize]
    omega

structure Wrote (i off n tot : Nat) (f : Nat → Byte) (s t : State) : Prop where
  count : tot ≤ n
  size : (t.image.inode i).size = max (s.image.inode i).size (off + tot)
  contents : t.image.contents i = overwrite (s.image.contents i) off ((List.range tot).map f)
  enough : off + n ≤ maxfile * bsize → s.image.Enough s.sb i off n → tot = n
  bound : 0 < tot → off + tot ≤ maxfile * bsize
  spent : tot = n → ∀ a c, a ≤ off / bsize → pastBlock (off + n) ≤ c →
    t.image.free t.sb + s.image.missing i a c = s.image.free s.sb + t.image.missing i a c

theorem writei_oversize (h : maxfile * bsize < off + n) : writei k src off n s = .ok (-1, s) := by
  have hwp : wp (writei k src off n) (fun r t => r = -1 ∧ t = s) (fun _ => False) s := by
    simp only [writei, wp_bind, wp_inode, wp_ite]
    exact ⟨fun _ => wp_pure.mpr ⟨rfl, rfl⟩, fun _ => ⟨fun _ => wp_pure.mpr ⟨rfl, rfl⟩, fun hfits => absurd h hfits⟩⟩
  obtain ⟨_, _, hcall, rfl, rfl⟩ := hwp.total
  exact hcall

theorem Wrote.refused (hoff : off ≤ (s.image.inode i).size) (hbad : s.image.Refused i off n) (hsb : t.sb = s.sb)
    (himage : t.image = s.image) : Wrote i off n 0 f s t := by
  refine ⟨Nat.zero_le n, ?_, ?_, fun hend => ?_, fun h => absurd h (lt_irrefl 0), fun _ a c _ _ => ?_⟩
  · rw [himage, Nat.add_zero, max_eq_left hoff]
  · simp [himage, overwrite]
  · rcases hbad with h | h | h
    · omega
    · have hsmall : off + n < 2 ^ 32 := lt_of_le_of_lt hend (by decide)
      rw [uint, Nat.mod_eq_of_lt hsmall] at h
      omega
    · omega
  · rw [himage, hsb]

theorem Wrote.congr {u : State} {tot : Nat} (h : Wrote i off n tot f s t) (himage : u.image = t.image) (hsb : u.sb = t.sb) :
    Wrote i off n tot f s u := by
  refine ⟨h.count, ?_, ?_, h.enough, h.bound, ?_⟩ <;> rw [himage]
  · exact h.size
  · exact h.contents
  · rw [hsb]
    exact h.spent

theorem Sim.image_free {sb : Superblock} {R : Nat → ℤ} {v : View} {disk : Disk} {itable : Nat → Inode}
    (h : Sim sb R none 0 v disk itable) : (disk.view sb).free sb = v.free sb := by
  unfold View.free
  rw [Nat.count_eq_card_filter_range, Nat.count_eq_card_filter_range]
  congr 1
  refine Finset.filter_congr fun b hb => ?_
  rw [show (disk.view sb).bit b = v.bit b from h.bits b (Finset.mem_range.mp hb)]

theorem WriteResult.wrote {u : State} {w : View} {hops : 0 < u.outstanding} {tot : Nat} (h : Sound u) (hk : u.Held k i)
    (hok : ¬ u.image.Refused i off n) (hr : WriteResult (fileSetting u h.wf hops) u.refs i src off n u.image u tot w t)
    (hsrc : src.Copies f) (himage : u.image = s.image) (hsb : u.sb = s.sb) : Wrote i off n tot f s t := by
  have hat := h.holds hops
  have hsuper : t.sb = u.sb := hr.holds.super
  have hsim : Sim t.sb u.refs none 0 w t.disk t.itable := hsuper.symm ▸ hr.holds.sim
  have hi : i < u.sb.ninodes := hk.lt hat.sim
  have htype : (u.image.inode i).type ≠ 0 := hk.type hat.sim
  have hsolid := h.exact.solid i hi htype
  have hcount := hr.count
  have hcase : off ≤ (u.image.inode i).size ∧ off + tot ≤ maxfile * bsize := by
    unfold View.Refused at hok
    omega
  have himg := hsim.image (i := i) (hsuper.symm ▸ hi)
  have hwtype : (w.inode i).type ≠ 0 := by
    rw [hr.written.fields]
    exact htype
  refine ⟨hcount, ?_, ?_, fun _ henough => ?_, fun _ => hcase.2, fun hall a c ha hc => ?_⟩
  · rw [State.image, himg.inode, hr.written.fields, ← himage]
  · rw [State.image, himg.contents hwtype (hr.written.solid hsolid hcase.1 hcase.2), ← himage]
    exact hr.written.contents hsolid hcase.1 hcase.2 (hr.bytes f hsrc)
  · by_contra hlt
    have hfull := hr.full ⟨f, hsrc⟩ (lt_of_le_of_ne hcount hlt)
    rw [← himage, ← hsb] at henough
    exact absurd henough (Nat.not_le.mpr hfull)
  · have hspent := hr.spent hall a c ha hc
    rw [show t.image.free t.sb = w.free u.sb from hsuper ▸ hsim.image_free,
      show t.image.missing i a c = w.missing i a c from himg.missing hwtype, ← himage, ← hsb]
    exact hspent

theorem Ready.writei (h : Ready k i s) (hoff : off ≤ (s.image.inode i).size) (hn : n ≤ 3072) (hsrc : src.Copies f) :
    wp (writei k src off n) (fun r t => Sound t ∧ t.Held k i ∧ t.sb = s.sb ∧ t.outstanding = 1 ∧
      (t.itable k).locked = true ∧ ∃ tot : Nat, (r = tot ∨ r = -1 ∧ tot = 0) ∧ Wrote i off n tot f s t)
      (fun _ => False) (Entered s k) := by
  obtain ⟨hsound, himage, hheld⟩ := h.entered
  have hops : 0 < (Entered s k).outstanding := Nat.one_pos
  have hat := hsound.holds hops
  have hlocked : ((Entered s k).itable k).locked = true := by simp [Entered, put_same]
  refine (((writei_at hat hheld).and (writei_cost hops)).and (writei_marks k src off n _ _ rfl)).mono ?_ ?_
  · rintro r t ⟨⟨hres, -⟩, hmarks⟩
    rcases hres with ⟨hbad, rfl, rfl⟩ | ⟨hok, tot, w, rfl, hr⟩
    · exact ⟨hsound, hheld, rfl, rfl, hlocked, 0, .inr ⟨rfl, rfl⟩, .refused hoff (himage ▸ hbad) rfl himage⟩
    · have hsuper : t.sb = (Entered s k).sb := hr.holds.super
      have hsim : Sim t.sb (Entered s k).refs none 0 w t.disk t.itable := hsuper.symm ▸ hr.holds.sim
      have hrefs : t.refs = (Entered s k).refs := hsim.refs
      have hheldt : t.Held k i := by
        refine ⟨?_, (hr.tags k).2.1.trans hheld.valid, (hr.tags k).1.trans hheld.inum⟩
        rw [hrefs]
        exact hheld.pos
      exact ⟨hr.written.sound hsound hr.holds hheld hok hr.count, hheldt, hsuper, hr.holds.ops,
        (congrArg Prod.snd (congrFun hmarks k)).trans hlocked, tot, .inl rfl,
        hr.wrote hsound hheld hok hsrc himage rfl⟩
  · rintro e ⟨⟨-, -, hcap⟩, -⟩
    have hcap : s.logCap ≤ s.lh.length + (2 * touched off n + 2) := hcap
    have := @touched_chunk off n hn
    have := h.room
    rw [h.empty] at hcap
    simp only [length_nil] at hcap
    omega

theorem Held.iunlock (hk : t.Held k i) (hl : (t.itable k).locked = true) :
    wp (iunlock k) (fun _ u => u = { t with itable := put t.itable k { t.itable k with locked := false } }) E t := by
  have hpos : ¬ (t.itable k).ref < 1 := by
    have hp : 0 < (t.itable k).ref := hk.pos
    omega
  simp [Fs.iunlock, hl, hpos]

theorem endOp_last (h : t.outstanding = 1) :
    wp endOp (fun _ u => u = { t with outstanding := 0, lh := [], commits := t.disk :: t.commits }) E t := by
  simp [endOp, h]

def Left (t : State) (k : Nat) : State :=
  { t with
    itable := put t.itable k { t.itable k with locked := false }
    outstanding := 0
    lh := []
    commits := t.disk :: t.commits }

theorem Ready.left (h : Ready k i s) (hs : Sound t) (hk : t.Held k i) (hsb : t.sb = s.sb) :
    Ready k i (Left t k) ∧ (Left t k).image = t.image := by
  have he : SameEntries t (Left t k) := sameEntries_put t k false
  obtain ⟨hs', hi⟩ := hs.congr (t := Left t k) rfl rfl he
  refine ⟨⟨hs', he.held hk, by simp [Left, put_same], rfl, rfl, ?_⟩, hi⟩
  have hroom := h.room
  unfold State.logCap at hroom ⊢
  show 10 < min 30 (t.sb.nlog - 1)
  rwa [hsb]

theorem Wrote.rest {m : Nat} (h : Wrote i off m m f s t) (hm : m ≤ n) (henough : s.image.Enough s.sb i off n) :
    t.image.Enough t.sb i (off + m) (n - m) := by
  unfold View.Enough at henough ⊢
  rw [show off + m + (n - m) = off + n by omega]
  have hspent := h.spent rfl (off / bsize) (pastBlock (off + n)) le_rfl (Nat.div_le_div_right (by omega))
  have hleft := missing_le_left (v := t.image) (i := i) (c := pastBlock (off + n))
    (show off / bsize ≤ (off + m) / bsize from Nat.div_le_div_right (by omega))
  omega

theorem View.Enough.front {m : Nat} (hm : m ≤ n) (henough : s.image.Enough s.sb i off n) : s.image.Enough s.sb i off m :=
  le_trans (missing_le_right (Nat.div_le_div_right (by omega))) henough

end Chunk

end Fs

/-- One round of the loop of `filewrite`. -/
def writeChunk (f : Nat) (src : Fs.Source) (n1 : Nat) : K Int := do
  onFs Fs.beginOp
  let v := (← get).file f
  onFs (Fs.ilock v.ip)
  let r ← onFs (Fs.writei v.ip src v.off n1)
  if r > 0 then
    let s ← get
    setFile f { s.file f with off := Fs.uint (v.off + r.toNat) }
  onFs (Fs.iunlock v.ip)
  onFs Fs.endOp
  return r

def readChunk (f n : Nat) : K Int := do
  let v := (← get).file f
  onFs (Fs.ilock v.ip)
  let (r, _) ← onFs (Fs.readi v.ip v.off n)
  if r > 0 then
    let s ← get
    setFile f { s.file f with off := Fs.uint (v.off + r) }
  onFs (Fs.iunlock v.ip)
  return r

theorem writeChunks_succ (f n fuel i : Nat) (src : Nat → Fs.Source) :
    writeChunks f src n (fuel + 1) i =
      if i < n then do
        let r ← writeChunk f (src i) (min (n - i) 3072)
        if r ≠ ↑(min (n - i) 3072) then return i else writeChunks f src n fuel (i + min (n - i) 3072)
      else return i := by
  rw [writeChunks]
  split
  next =>
    simp only [writeChunk, bind_assoc]
    refine bind_congr fun _ => bind_congr fun v => bind_congr fun _ => bind_congr fun r => ?_
    by_cases hr : r > 0 <;> simp [hr]
  next => rfl

/-- File `f` is open on inode `i`, which entry `k` of the inode table holds, and its offset is in the file. -/
structure OpenOn (f k i : Nat) (s : Kernel) : Prop where
  ready : Fs.Ready k i s.fs
  ip : (s.file f).ip = k
  off : (s.file f).off ≤ (s.fs.image.inode i).size

section Kernel

variable {s t : Kernel} {f k i n : Nat} {src : Fs.Source} {g : Nat → Fs.Byte}

theorem OpenOn.size_lt (h : OpenOn f k i s) : (s.fs.image.inode i).size < 2 ^ 32 := by
  have hsim := h.ready.sound.table.sim h.ready.sound.wf h.ready.sound.exact.own
  exact (hsim.norm i (h.ready.held.lt hsim)).size

theorem writeChunk_spec (h : OpenOn f k i s) (hn : n ≤ 3072) (hsrc : src.Copies g) :
    wp (writeChunk f src n) (fun r t => OpenOn f k i t ∧ ∃ tot : Nat, (r = tot ∨ r = -1 ∧ tot = 0) ∧
      (t.file f).off = (s.file f).off + tot ∧ Fs.Wrote i (s.file f).off n tot g s.fs t.fs) (fun _ => False) s := by
  rw [writeChunk, wp_bind, wp_onFs]
  refine (h.ready.beginOp).mono ?_ fun _ => id
  rintro - _ rfl
  rw [wp_bind, wp_get, wp_bind, wp_onFs, h.ip]
  refine (Fs.Held.ilock (s := { s.fs with outstanding := 1 }) (i := i) h.ready.held h.ready.unlocked).mono ?_ fun _ => id
  rintro - _ rfl
  rw [wp_bind, wp_onFs]
  refine (h.ready.writei h.off hn hsrc).mono ?_ fun _ => id
  rintro r t ⟨hsound, hheld, hsb, hops, hlocked, tot, hr, hw⟩
  obtain ⟨hready, himage⟩ := h.ready.left hsound hheld hsb
  have hleave : ∀ file : Nat → File, (file f).ip = k → (file f).off = (s.file f).off + tot →
      wp (do onFs (Fs.iunlock k); onFs Fs.endOp; return r) (fun r t => OpenOn f k i t ∧ ∃ tot : Nat, (r = tot ∨ r = -1 ∧ tot = 0) ∧
        (t.file f).off = (s.file f).off + tot ∧ Fs.Wrote i (s.file f).off n tot g s.fs t.fs) (fun _ => False)
        { s with fs := t, file := file } := by
    intro file hip hoff
    rw [wp_bind, wp_onFs]
    refine (Fs.Held.iunlock hheld hlocked).mono ?_ fun _ => id
    rintro - _ rfl
    rw [wp_bind, wp_onFs]
    refine (Fs.endOp_last (t := { t with itable := Fs.put t.itable k { t.itable k with locked := false } }) hops).mono ?_ fun _ => id
    rintro - _ rfl
    refine wp_pure.mpr ⟨⟨hready, hip, ?_⟩, tot, hr, hoff, hw.congr himage rfl⟩
    show (file f).off ≤ ((Fs.Left t k).image.inode i).size
    rw [himage, hw.size, hoff]
    exact le_max_right _ _
  rw [wp_ite]
  refine ⟨fun hpos => ?_, fun hpos => hleave s.file h.ip ?_⟩
  · rw [wp_bind, wp_get, wp_bind, wp_setFile]
    refine hleave _ (by rw [Fs.put_same]; exact h.ip) ?_
    rw [Fs.put_same]
    have htot : r = tot := hr.resolve_right (by omega)
    have hbound := hw.bound (by omega)
    rw [htot, Int.toNat_natCast]
    exact Nat.mod_eq_of_lt (lt_of_le_of_lt hbound (by decide))
  · have htot : tot = 0 := by omega
    rw [htot, Nat.add_zero]

theorem readChunk_spec (h : OpenOn f k i s) :
    wp (readChunk f n) (fun r t => OpenOn f k i t ∧ ∃ m : Nat, r = m ∧ (t.file f).off = (s.file f).off + m ∧
      t.fs.image = s.fs.image) (fun _ => False) s := by
  rw [readChunk, wp_bind, wp_get, wp_bind, wp_onFs, h.ip]
  refine (Fs.Held.ilock h.ready.held h.ready.unlocked).mono ?_ fun _ => id
  rintro - _ rfl
  generalize hlock : ({ s.fs with itable := Fs.put s.fs.itable k { s.fs.itable k with locked := true } } : Fs.State) = t
  have he : Fs.SameEntries s.fs t := hlock ▸ Fs.sameEntries_put s.fs k true
  have hsb : t.sb = s.fs.sb := hlock ▸ rfl
  obtain ⟨hsound, himage⟩ := h.ready.sound.congr hsb (hlock ▸ rfl) he
  have hheld := he.held h.ready.held
  have hlocked : (t.itable k).locked = true := by
    rw [← hlock]
    simp only [Fs.put_same]
  have hsim := hsound.table.sim hsound.wf hsound.exact.own
  rw [wp_bind, wp_onFs]
  refine (Fs.readi_at hsim hheld (hsound.exact.solid i (hheld.lt hsim) (hheld.type hsim))).mono ?_ fun _ => id
  rintro ⟨m, bytes⟩ _ ⟨hsame, hm, -⟩
  rw [hsame]
  have hle : (s.file f).off + m ≤ (s.fs.image.inode i).size := by
    have hoff := h.off
    have hm : m = _ := hm
    rw [hm, himage, Fs.View.readLen]
    split <;> omega
  have hleave : ∀ file : Nat → File, (file f).ip = k → (file f).off = (s.file f).off + m →
      wp (do onFs (Fs.iunlock k); return (m : Int)) (fun r t => OpenOn f k i t ∧ ∃ m : Nat, r = m ∧
        (t.file f).off = (s.file f).off + m ∧ t.fs.image = s.fs.image) (fun _ => False) { s with fs := t, file := file } := by
    intro file hip hoff
    rw [wp_bind, wp_onFs]
    refine (Fs.Held.iunlock hheld hlocked).mono ?_ fun _ => id
    rintro - _ rfl
    have he' := Fs.sameEntries_put t k false
    generalize hfree : ({ t with itable := Fs.put t.itable k { t.itable k with locked := false } } : Fs.State) = u at he' ⊢
    obtain ⟨hsound', himage'⟩ := hsound.congr (t := u) (hfree ▸ rfl) (hfree ▸ rfl) he'
    refine wp_pure.mpr ⟨⟨⟨hsound', he'.held hheld, ?_, ?_, ?_, ?_⟩, hip, ?_⟩, m, rfl, hoff, himage'.trans himage⟩
    · rw [← hfree]
      simp only [Fs.put_same]
    · rw [← hfree, ← hlock]
      exact h.ready.idle
    · rw [← hfree, ← hlock]
      exact h.ready.empty
    · rw [← hfree, ← hlock]
      exact h.ready.room
    · show (file f).off ≤ (u.image.inode i).size
      rw [himage', himage, hoff]
      exact hle
  rw [wp_ite]
  refine ⟨fun hpos => ?_, fun hpos => hleave s.file h.ip ?_⟩
  · rw [wp_bind, wp_get, wp_bind, wp_setFile]
    refine hleave _ (by rw [Fs.put_same]; exact h.ip) ?_
    rw [Fs.put_same]
    exact Nat.mod_eq_of_lt (lt_of_le_of_lt hle h.size_lt)
  · have hzero : m = 0 := by omega
    rw [hzero, Nat.add_zero]

theorem length_contents (v : Fs.View) (i : Nat) : (v.contents i).length = (v.inode i).size := by simp [Fs.View.contents]

theorem overwrite_overwrite {α : Type} {l a b : List α} {off : Nat} (h : off ≤ l.length) :
    Fs.overwrite (Fs.overwrite l off a) (off + a.length) b = Fs.overwrite l off (a ++ b) := by
  have hfront : (l.take off ++ a).length = off + a.length := by
    rw [length_append, length_take, min_eq_left h]
  unfold Fs.overwrite
  rw [← hfront, take_left, ← drop_drop, drop_left, drop_drop, hfront, length_append,
    Nat.add_assoc]
  simp only [append_assoc]

section
variable {fuel j : Nat} {src : Nat → Fs.Source} (h : OpenOn f k i s) (hsrc : ∀ j, (src j).Copies fun x => g (j + x))
include h hsrc

/-- The loop of `filewrite` writes what one call of `writei` would, when the file does not become too
large and there are blocks enough. -/
theorem writeChunks_spec (hj : j ≤ n) (hfuel : n ≤ j + fuel) (hend : (s.file f).off + (n - j) ≤ Fs.maxfile * Fs.bsize)
    (henough : s.fs.image.Enough s.fs.sb i (s.file f).off (n - j)) :
    wp (writeChunks f src n fuel j) (fun r t => r = n ∧ OpenOn f k i t ∧ (t.file f).off = (s.file f).off + (n - j) ∧
      (t.fs.image.inode i).size = max (s.fs.image.inode i).size ((s.file f).off + (n - j)) ∧
      t.fs.image.contents i = Fs.overwrite (s.fs.image.contents i) (s.file f).off ((range (n - j)).map fun x => g (j + x)))
      (fun _ => False) s := by
  have hstop : ∀ (s : Kernel) (j : Nat), OpenOn f k i s → j = n → j = n ∧ OpenOn f k i s ∧
      (s.file f).off = (s.file f).off + (n - j) ∧
      (s.fs.image.inode i).size = max (s.fs.image.inode i).size ((s.file f).off + (n - j)) ∧
      s.fs.image.contents i = Fs.overwrite (s.fs.image.contents i) (s.file f).off ((range (n - j)).map fun x => g (j + x)) := by
    rintro s j h rfl
    simp [h, h.off, Fs.overwrite]
  induction fuel generalizing j s with
  | zero => exact wp_pure.mpr (hstop s j h (by omega))
  | succ fuel ih =>
    rw [writeChunks_succ]
    split
    next hlt =>
      generalize hm : min (n - j) 3072 = m
      have hmn : m ≤ n - j := hm ▸ min_le_left _ _
      rw [wp_bind]
      refine (writeChunk_spec h (hm ▸ min_le_right _ _) (hsrc j)).mono ?_ fun _ => id
      rintro r t ⟨ht, tot, hr, hoff, hw⟩
      obtain rfl : tot = m := hw.enough (by omega) (Fs.View.Enough.front hmn henough)
      have hr : r = tot := hr.resolve_right (by omega)
      rw [if_neg (not_not.mpr hr)]
      have hrest : n - (j + tot) = n - j - tot := by omega
      refine (ih ht (by omega) (by omega) (by omega) ?_).mono ?_ fun _ => id
      · rw [hoff, hrest]
        exact hw.rest hmn henough
      rintro r' u ⟨rfl, hu, hoffu, hsize, hcontents⟩
      refine ⟨rfl, hu, by omega, by rw [hsize, hw.size]; omega, ?_⟩
      have hlen : ((range tot).map fun x => g (j + x)).length = tot := by simp
      have hsplit : r' - j = tot + (r' - (j + tot)) := by omega
      have hle : (s.file f).off ≤ (s.fs.image.contents i).length := (length_contents _ i).symm ▸ h.off
      have hjoin := overwrite_overwrite (a := (range tot).map fun x => g (j + x))
        (b := (range (r' - (j + tot))).map fun x => g (j + tot + x)) hle
      rw [hlen] at hjoin
      rw [hcontents, hw.contents, hoff, hjoin, hsplit, range_add, map_append, map_map]
      simp only [Function.comp_def, Nat.add_assoc]
    next hge => exact wp_pure.mpr (hstop s j h (by omega))

/-- However the loop of `filewrite` ends, the offset has not gone back. -/
theorem writeChunks_forward :
    wp (writeChunks f src n fuel j) (fun _ t => OpenOn f k i t ∧ (s.file f).off ≤ (t.file f).off) (fun _ => False) s := by
  induction fuel generalizing j s with
  | zero => exact wp_pure.mpr ⟨h, le_rfl⟩
  | succ fuel ih =>
    rw [writeChunks_succ]
    split
    next =>
      rw [wp_bind]
      refine (writeChunk_spec h (min_le_right _ _) (hsrc j)).mono ?_ fun _ => id
      rintro r t ⟨ht, tot, -, hoff, -⟩
      rw [wp_ite]
      refine ⟨fun _ => wp_pure.mpr ⟨ht, by omega⟩, fun _ => (ih ht).mono ?_ fun _ => id⟩
      rintro _ u ⟨hu, hle⟩
      exact ⟨hu, by omega⟩
    next => exact wp_pure.mpr ⟨h, le_rfl⟩

end

end Kernel

end Xv6
