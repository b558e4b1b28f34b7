import Mathlib
import Xv6.ByteArrays
import Xv6.DirView
import Xv6.InodeSpec

namespace Xv6.Fs

open Count Prog List Function

section Writei

variable {s : State} {k : Nat} {src : Source}

theorem writeLoop_whole {fuel n off : Nat} (hone : off % bsize + n ≤ bsize) :
    wp (writeLoop k n src fuel 0 off) (fun r _ => r.1 = 0 ∨ r.1 = n) (fun _ => True) s := by
  have hdone : ∀ (fuel off : Nat) (s : State), wp (writeLoop k n src fuel n off) (fun r _ => r.1 = 0 ∨ r.1 = n) (fun _ => True) s := by
    intro fuel off s
    cases fuel with
    | zero => exact wp_pure.mpr (.inr rfl)
    | succ fuel =>
      unfold writeLoop
      rw [if_neg (lt_irrefl n)]
      exact wp_pure.mpr (.inr rfl)
  cases fuel with
  | zero => exact wp_pure.mpr (.inl rfl)
  | succ fuel =>
    unfold writeLoop
    split
    next =>
      have hm : min (n - 0) (bsize - off % bsize) = n := by
        rw [Nat.sub_zero, min_eq_left]
        omega
      simp only [hm, wp_bind]
      refine wp_of_forall (fun b t => ?_) fun _ => trivial
      split
      next => exact wp_pure.mpr (.inl rfl)
      next =>
        simp only [wp_bind, wp_get, wp_bwrite]
        split
        next => exact wp_pure.mpr (.inl rfl)
        next =>
          rw [wp_bind, Nat.zero_add]
          exact wp_of_forall (fun _ t => hdone fuel _ t) fun _ => trivial
    next => exact wp_pure.mpr (.inl rfl)

theorem writei_whole {n off : Nat} (hone : off % bsize + n ≤ bsize) :
    wp (writei k src off n) (fun r _ => r = -1 ∨ r = 0 ∨ r = n) (fun _ => True) s := by
  simp only [writei, wp_bind, wp_inode, wp_ite]
  refine ⟨fun _ => wp_pure.mpr (.inl rfl), fun _ => ⟨fun _ => wp_pure.mpr (.inl rfl), fun _ => ?_⟩⟩
  refine (writeLoop_whole hone).mono ?_ fun _ _ => trivial
  rintro ⟨tot, off'⟩ t htot
  refine wp_of_forall (fun _ t => ?_) fun _ => trivial
  refine wp_of_forall (fun _ t => wp_pure.mpr (.inr ?_)) fun _ => trivial
  exact htot.imp (fun h => congrArg Int.ofNat h) fun h => congrArg Int.ofNat h

end Writei

namespace Dir

section Strings

/-- Compares at most `n` bytes, up to a zero byte of `p`. -/
def strncmp : (n : Nat) → (p q : Nat → Byte) → Int
  | 0, _, _ => 0
  | n + 1, p, q =>
    if p 0 ≠ 0 ∧ p 0 = q 0 then strncmp n (fun i => p (i + 1)) fun i => q (i + 1)
    else ((p 0).toNat : Int) - (q 0).toNat

/-- The buffer `s` after `n` bytes of `t` were copied, with zero bytes after the end of `t`. -/
def strncpy : (n : Nat) → (s t : Nat → Byte) → Nat → Byte
  | 0, s, _, i => s i
  | _ + 1, _, t, 0 => t 0
  | n + 1, s, t, i + 1 =>
    if t 0 = 0 then if i < n then 0 else s (i + 1)
    else strncpy n (fun i => s (i + 1)) (fun i => t (i + 1)) i

def namecmp (s t : Nat → Byte) : Int := strncmp dirsiz s t

def upTo (n : Nat) (p : Nat → Byte) : Name := ((range n).map p).takeWhile (· ≠ 0)

def nameOf (p : Nat → Byte) : Name := upTo dirsiz p

variable {n i : Nat} {p q : Nat → Byte}

theorem upTo_succ : upTo (n + 1) p = if p 0 = 0 then [] else p 0 :: upTo n fun i => p (i + 1) := by
  have hmap : (range (n + 1)).map p = p 0 :: (range n).map fun i => p (i + 1) := by
    rw [range_succ_eq_map, map_cons, map_map]
    rfl
  rw [upTo, hmap, takeWhile_cons]
  by_cases hp : p 0 = 0
  · rw [if_pos hp, if_neg (by simp [hp])]
  · rw [if_neg hp, if_pos (decide_eq_true hp)]
    rfl

theorem strncmp_eq_zero : strncmp n p q = 0 ↔ upTo n p = upTo n q := by
  induction n generalizing p q with
  | zero => exact ⟨fun _ => rfl, fun _ => rfl⟩
  | succ n ih =>
    rw [strncmp, upTo_succ, upTo_succ]
    by_cases hq : p 0 = q 0
    · rw [← hq]
      by_cases hp : p 0 = 0
      · simp [hp]
      · rw [if_pos ⟨hp, rfl⟩, if_neg hp, if_neg hp, ih]
        exact ⟨fun h => by rw [h], fun h => (cons.inj h).2⟩
    · have hbytes : ((p 0).toNat : Int) - (q 0).toNat ≠ 0 := by
        intro hzero
        exact hq (BitVec.eq_of_toNat_eq (by omega))
      rw [if_neg fun h => hq h.2]
      refine ⟨fun h => absurd h hbytes, fun h => ?_⟩
      split at h
      next hp =>
        split at h
        next hq0 => exact absurd (hp.trans hq0.symm) hq
        next => cases h
      next =>
        split at h
        next => cases h
        next => exact absurd (cons.inj h).1 hq

theorem strncpy_lt {s : Nat → Byte} (hi : i < n) : strncpy n s p i = (upTo n p).getD i 0 := by
  induction n generalizing p i s with
  | zero => exact absurd hi (Nat.not_lt_zero i)
  | succ n ih =>
    rw [upTo_succ]
    cases i with
    | zero =>
      rw [strncpy]
      split
      next hp => exact hp
      next => rfl
    | succ i =>
      rw [strncpy, if_pos (Nat.lt_of_succ_lt_succ hi)]
      split
      next => rw [getD_nil]
      next => rw [ih (Nat.lt_of_succ_lt_succ hi), getD_cons_succ]

theorem length_nameOf (p : Nat → Byte) : (nameOf p).length ≤ dirsiz := by
  have hle := (takeWhile_sublist (l := (range dirsiz).map p) (fun b => decide (b ≠ 0))).length_le
  rwa [length_map, length_range] at hle

theorem nameOf_stored (p : Nat → Byte) : storedName (nameOf p) = nameOf p := by
  rw [storedName, take_of_length_le (length_nameOf p)]
  exact takeWhile_idem

end Strings

section Code

/-- The loop of `dirlookup`, up to the `iget` of the inode that it has found. -/
def lookupLoop (k : Nat) (name : Nat → Byte) : (fuel off : Nat) → M (Option (Nat × Nat))
  | 0, _ => return none
  | fuel + 1, off => do
    let ip ← inode k
    if off < ip.din.size then
      let (n, de) ← readi k off 16
      if n ≠ 16 then panic "dirlookup read"
      if get16 de 0 = 0 then lookupLoop k name fuel (off + 16)
      else if namecmp name (fun i => de (2 + i)) = 0 then return some (get16 de 0, off)
      else lookupLoop k name fuel (off + 16)
    else return none

def locate (k : Nat) (name : Nat → Byte) : M (Option (Nat × Nat)) := do
  let ip ← inode k
  if ip.din.type ≠ tDir then panic "dirlookup not DIR"
  lookupLoop k name (ip.din.size / 16 + 1) 0

def dirlookup (k : Nat) (name : Nat → Byte) : M (Option (Nat × Nat)) := do
  match ← locate k name with
  | none => return none
  | some (inum, off) => return some (← iget inum, off)

/-- The 16 bytes of `de`, with what was in it before. -/
def newDirent (de : Nat → Byte) (inum : Nat) (name : Nat → Byte) (i : Nat) : Byte :=
  if i < 2 then byteOf inum i else if i < 16 then strncpy dirsiz (fun j => de (2 + j)) name (i - 2) else 0

def dirlink (de : Nat → Byte) (k : Nat) (name : Nat → Byte) (inum : Nat) : M Bool := do
  match ← dirlookup k name with
  | some (j, _) =>
    iput j
    return false
  | none =>
    let ip ← inode k
    let off ← emptyLoop k (ip.din.size / 16 + 1) 0
    let n ← writei k (.kernel (newDirent de inum name)) off 16
    return n = 16

def clear (k : Nat) (name : Nat → Byte) : M Bool := do
  match ← locate k name with
  | none => return false
  | some (_, off) =>
    let n ← writei k (.kernel fun _ => 0) off 16
    if n ≠ 16 then panic "unlink: writei"
    return true

end Code

section Names

variable {k inum : Nat} {p de : Nat → Byte}

theorem newDirent_eq : newDirent de inum p = dirent inum (nameOf p) := by
  funext x
  unfold newDirent dirent
  split
  next => rfl
  next =>
    split
    next => exact strncpy_lt (by simp only [dirsiz]; omega)
    next =>
      have hlen := length_nameOf p
      exact (getD_eq_default _ _ (by simp only [dirsiz] at hlen; omega)).symm

theorem lookupLoop_eq (fuel off : Nat) : Fs.lookupLoop k (nameOf p) fuel off = (do
    match ← lookupLoop k p fuel off with
    | none => return none
    | some (inum, off) => return some (← iget inum, off)) := by
  induction fuel generalizing off with
  | zero => rfl
  | succ fuel ih =>
    rw [Fs.lookupLoop, lookupLoop]
    simp only [bind_assoc]
    congr 1
    funext ip
    by_cases hlt : off < ip.din.size
    · rw [if_pos hlt, if_pos hlt]
      simp only [bind_assoc]
      congr 1
      funext r
      obtain ⟨n, de⟩ := r
      simp only
      by_cases hn : n ≠ 16
      · rw [if_pos hn, if_pos hn]
        rfl
      · rw [if_neg hn, if_neg hn]
        simp only [ih]
        by_cases hzero : get16 de 0 = 0
        · rw [if_neg fun h => h.1 hzero, if_pos hzero]
        · rw [if_neg hzero]
          by_cases hcmp : namecmp p (fun i => de (2 + i)) = 0
          · rw [if_pos hcmp, if_pos ⟨hzero, (strncmp_eq_zero.mp hcmp).symm⟩, pure_bind]
          · rw [if_neg hcmp, if_neg fun h => hcmp (strncmp_eq_zero.mpr h.2.symm)]
    · rw [if_neg hlt, if_neg hlt]
      rfl

theorem dirlookup_eq : dirlookup k p = Fs.dirlookup k (nameOf p) := by
  unfold dirlookup locate Fs.dirlookup
  simp only [bind_assoc]
  congr 1
  funext ip
  by_cases hdir : ip.din.type ≠ tDir
  · rw [if_pos hdir, if_pos hdir]
    rfl
  · rw [if_neg hdir, if_neg hdir, lookupLoop_eq]

theorem dirlink_eq : dirlink de k p inum = Fs.dirlink k (nameOf p) inum := by
  unfold dirlink Fs.dirlink
  rw [dirlookup_eq, newDirent_eq]
  congr 1
  funext r
  rcases r with _ | ⟨j, off⟩
  · rfl
  · rfl

end Names

structure Has (S : Setting) (R : Nat → ℤ) (k i : Nat) (ds : List (Nat × Name)) (v : View) (s : State) : Prop where
  state : At S R none 0 v s
  loaded : Loaded R s.itable k i
  dir : (v.inode i).type = tDir
  solid : v.Solid i
  aligned : 16 ∣ (v.inode i).size
  dents : v.dents i = ds

def Finds (ds : List (Nat × Name)) (name : Name) : Option (Nat × Nat) → Prop
  | none => NotNamed ds name
  | some (inum, off) => ∃ m, off = 16 * m ∧ ds[m]? = some (inum, name) ∧ inum ≠ 0

section Specs

variable {S : Setting} {R : Nat → ℤ} {k i m inum : Nat} {ds : List (Nat × Name)} {v : View} {s : State} {name : Nat → Byte}
  {E : Fault → Prop}

theorem before_succ {α : Type} {l : List α} {P : α → Prop} {x : α} (hbefore : ∀ j < m, ∀ y, l[j]? = some y → P y)
    (hget : l[m]? = some x) (hx : P x) : ∀ j < m + 1, ∀ y, l[j]? = some y → P y := by
  intro j hj y hy
  by_cases hjm : j = m
  · rw [hjm, hget] at hy
    exact Option.some.inj hy ▸ hx
  · exact hbefore j (by omega) y hy

section
variable (h : Has S R k i ds v s)
include h

theorem Has.din : (s.itable k).din = v.inode i := h.loaded.din h.state.sim

theorem Has.length : 16 * ds.length = (v.inode i).size := by
  rw [← h.dents, View.dents_length]
  exact Nat.mul_div_cancel' h.aligned

theorem Has.read (hm : m < ds.length) :
    wp (readi k (16 * m) 16) (fun r t => t = s ∧ r.1 = 16 ∧ ds[m]? = some (direntOf r.2)) E s := by
  have hlength := h.length
  have hsize := h.solid.size_le
  have hlen : v.readLen i (16 * m) 16 = 16 := by
    rw [View.readLen, if_neg]
    · omega
    · simp only [maxfile, ndirect, nindirect, bsize, uint] at *
      omega
  refine (readi_at h.state.sim h.loaded h.solid).mono ?_ fun _ => id
  rintro ⟨n, de⟩ t ⟨rfl, hn : n = _, hbytes⟩
  rw [hlen] at hn
  subst hn
  refine ⟨rfl, rfl, ?_⟩
  rw [← h.dents, View.dents_get (by omega)]
  exact congrArg some (direntOf_congr fun x hx => (hbytes x hx).symm)

theorem lookupLoop_finds {fuel : Nat} (hfuel : ds.length < m + fuel) (hm : m ≤ ds.length)
    (hbefore : ∀ l < m, ∀ x, ds[l]? = some x → x.1 ≠ 0 → x.2 ≠ nameOf name) :
    wp (lookupLoop k name fuel (16 * m)) (fun r t => t = s ∧ Finds ds (nameOf name) r) E s := by
  have hlength := h.length
  induction fuel generalizing m with
  | zero => omega
  | succ fuel ih =>
    unfold lookupLoop
    rw [wp_bind, wp_inode, h.din]
    by_cases hlt : m < ds.length
    · rw [if_pos (by omega)]
      refine (h.read hlt).bind ?_
      rintro ⟨n, de⟩ t ⟨rfl, rfl, hget⟩
      have hnext : ¬ (get16 de 0 ≠ 0 ∧ direntName de = nameOf name) →
          wp (lookupLoop k name fuel (16 * m + 16)) (fun r u => u = t ∧ Finds ds (nameOf name) r) E t := by
        intro hother
        rw [show 16 * m + 16 = 16 * (m + 1) by omega]
        exact ih (by omega) (by omega) (before_succ hbefore hget fun hx0 hname => hother ⟨hx0, hname⟩)
      simp only [ne_eq, not_true_eq_false, if_false]
      by_cases hzero : get16 de 0 = 0
      · rw [if_pos hzero]
        exact hnext fun hlive => hlive.1 hzero
      · rw [if_neg hzero]
        by_cases hcmp : namecmp name (fun i => de (2 + i)) = 0
        · rw [if_pos hcmp]
          have hname : direntName de = nameOf name := (strncmp_eq_zero.mp hcmp).symm
          refine wp_pure.mpr ⟨rfl, m, rfl, ?_, hzero⟩
          rw [hget, direntOf, hname]
        · rw [if_neg hcmp]
          exact hnext fun hfound => hcmp (strncmp_eq_zero.mpr hfound.2.symm)
    · rw [if_neg (by omega)]
      refine wp_pure.mpr ⟨rfl, fun x hx => ?_⟩
      obtain ⟨l, hl⟩ := mem_iff_getElem?.mp hx
      have := (List.getElem?_eq_some_iff.mp hl).1
      exact hbefore l (by omega) x hl

theorem locate_finds : wp (locate k name) (fun r t => t = s ∧ Finds ds (nameOf name) r) E s := by
  have hlength := h.length
  simp only [locate, wp_bind, wp_inode, h.din, h.dir, ne_eq, not_true_eq_false, if_false]
  exact lookupLoop_finds (m := 0) h (by omega) (Nat.zero_le _) fun l hl => absurd hl (Nat.not_lt_zero l)

theorem emptyLoop_room {fuel : Nat} (hfuel : ds.length < m + fuel) (hm : m ≤ ds.length)
    (hbefore : ∀ l < m, ∀ x, ds[l]? = some x → x.1 ≠ 0) :
    wp (emptyLoop k fuel (16 * m)) (fun r t => t = s ∧ ∃ m, r = 16 * m ∧ Room ds m) E s := by
  have hlength := h.length
  induction fuel generalizing m with
  | zero => omega
  | succ fuel ih =>
    unfold emptyLoop
    rw [wp_bind, wp_inode, h.din]
    by_cases hlt : m < ds.length
    · rw [if_pos (by omega)]
      refine (h.read hlt).bind ?_
      rintro ⟨n, de⟩ t ⟨rfl, rfl, hget⟩
      simp only [ne_eq, not_true_eq_false, if_false]
      by_cases hzero : get16 de 0 = 0
      · rw [if_pos hzero]
        refine wp_pure.mpr ⟨rfl, m, rfl, hm, hbefore, fun x hx => ?_⟩
        rw [hget] at hx
        obtain rfl := Option.some.inj hx
        exact hzero
      · rw [if_neg hzero, show 16 * m + 16 = 16 * (m + 1) by omega]
        exact ih (by omega) (by omega) (before_succ hbefore hget hzero)
    · rw [if_neg (by omega)]
      refine wp_pure.mpr ⟨rfl, m, rfl, hm, hbefore, fun x hx => ?_⟩
      have := (List.getElem?_eq_some_iff.mp hx).1
      omega

theorem Has.write {f : Nat → Byte} (hm : m ≤ ds.length) :
    wp (writei k (.kernel f) (16 * m) 16) (fun r t => (r = 16 → ∃ w, Has S R k i (place ds m (direntOf f)) w t) ∧
      (r ≠ 16 → ∃ w, Has S R k i ds w t)) S.fault s := by
  have hlength := h.length
  have hoff : 16 * m ≤ (v.inode i).size := by omega
  have hone : 16 * m % bsize + 16 ≤ bsize := by
    simp only [bsize]
    omega
  refine ((writei_at h.state h.loaded).and (writei_whole hone)).mono ?_ fun e he => he.1
  rintro r t ⟨⟨-, rfl, rfl⟩ | ⟨hok, tot, w, rfl, hr⟩, hwhole⟩
  · exact ⟨fun h16 => absurd h16 (by decide), fun _ => ⟨v, h⟩⟩
  · have hend : 16 * m + 16 ≤ maxfile * bsize := by
      unfold View.Refused at hok
      omega
    have hbytes := hr.bytes f (Source.kernel_copies f)
    have hload := h.loaded.of_keeps (hr.tags.keeps R) h.loaded.pos
    have hdir : (w.inode i).type = tDir := by rw [hr.written.fields, h.dir]
    have hsolid : w.Solid i := hr.written.solid h.solid hoff (by have := hr.count; omega)
    have hsize : (w.inode i).size = max (v.inode i).size (16 * m + tot) := by rw [hr.written.fields]
    have htot : tot = 0 ∨ tot = 16 := by
      rcases hwhole with h1 | h0 | h16
      · omega
      · exact .inl (by exact_mod_cast h0)
      · exact .inr (by exact_mod_cast h16)
    have halign : 16 ∣ (w.inode i).size := by
      rw [hsize]
      rcases max_choice (v.inode i).size (16 * m + tot) with hmax | hmax
      · rw [hmax]
        exact h.aligned
      · rw [hmax]
        omega
    refine ⟨fun h16 => ⟨w, hr.holds, hload, hdir, hsolid, halign, ?_⟩, fun hno => ⟨w, hr.holds, hload, hdir, hsolid, halign, ?_⟩⟩
    · have h16 : tot = 16 := by exact_mod_cast h16
      subst h16
      rw [hr.written.dents hbytes h.solid hoff hend, h.dents]
    · have h0 : tot = 0 := htot.resolve_right fun h16 => hno (by rw [h16]; rfl)
      subst h0
      rw [hr.written.dents_none hbytes h.solid hoff, h.dents]

end

theorem sim_unused {sb : Superblock} {disk : Disk} {itable : Nat → Inode} {j : Nat} {ip : Inode}
    (h : Sim sb R none 0 v disk itable) (hj : R j = 0) (hip : ip.ref = 0) : Sim sb R none 0 v disk (put itable j ip) := by
  have hne : ∀ l, 0 < R l → put itable j ip l = itable l := fun l hl =>
    put_ne _ _ _ fun hlj => by rw [hlj, hj] at hl; omega
  refine { h with
    refs := ?_
    range := fun l hl => ?_
    table := fun l hl => ?_
    unique := fun l l' hl hl' => ?_ }
  · funext l
    by_cases hlj : l = j
    · rw [hlj, put_same, hip, hj]
    · rw [put_ne _ _ _ hlj]
      exact congrFun h.refs l
  · rw [hne l hl]
    exact h.range l hl
  · rw [hne l hl]
    exact h.table l hl
  · rw [hne l hl, hne l' hl']
    exact h.unique l l' hl hl'

theorem Has.unused {j : Nat} {ip : Inode} (h : Has S R k i ds v s) (hj : R j = 0) (hip : ip.ref = 0) :
    Has S R k i ds v { s with itable := put s.itable j ip } := by
  have hk : put s.itable j ip k = s.itable k := put_ne _ _ _ fun hkj => by
    have hpos := h.loaded.pos
    rw [hkj, hj] at hpos
    omega
  have hload : Loaded R (put s.itable j ip) k i := ⟨h.loaded.pos, by rw [hk, h.loaded.valid], by rw [hk, h.loaded.inum]⟩
  exact { h with
    state := ⟨h.state.super, h.state.ops, sim_unused h.state.sim hj hip, h.state.commits⟩
    loaded := hload }

theorem Has.iget_iput (h : Has S R k i ds v s) :
    wp (iget inum) (fun j t => (t.itable j).inum = inum ∧ wp (iput j) (fun _ u => Has S R k i ds v u) S.fault t) S.fault s := by
  simp only [iget, wp_bind, wp_get]
  split
  next j hfind =>
    have hmatch := find?_some hfind
    simp only [Bool.and_eq_true, decide_eq_true_eq, beq_iff_eq] at hmatch
    simp only [wp_addRef, wp_pure, iput, wp_bind, wp_inode, put_same]
    refine ⟨hmatch.2, ?_⟩
    rw [if_neg (by omega), wp_addRef]
    have hsame : { s.itable j with ref := (s.itable j).ref + 1 + -1 } = s.itable j := by rw [Int.add_neg_cancel_right]
    simp only [put_same, put_put, hsame, put_eq_self]
    exact h
  next hfind =>
    split
    next => exact wp_panic.mpr (panic_other (by decide))
    next j hempty =>
      have hzero : (s.itable j).ref = 0 := by simpa using find?_some hempty
      have hR : R j = 0 := (h.state.ref j).symm.trans hzero
      simp only [wp_setInode, wp_pure, iput, wp_bind, wp_inode, put_same]
      refine ⟨trivial, ?_⟩
      rw [if_neg (by simp), wp_addRef]
      simp only [put_same, put_put]
      exact h.unused hR rfl

theorem dirlookup_finds (h : Has S R k i ds v s) :
    wp (dirlookup k name) (fun r t => (r = none → t = s ∧ NotNamed ds (nameOf name)) ∧
      ∀ j off, r = some (j, off) → Finds ds (nameOf name) (some ((t.itable j).inum, off)) ∧
        wp (iput j) (fun _ u => Has S R k i ds v u) S.fault t) S.fault s := by
  unfold dirlookup
  refine (locate_finds h).bind ?_
  rintro (_ | ⟨inum, off⟩) t ⟨rfl, hfinds⟩
  · exact wp_pure.mpr ⟨fun _ => ⟨rfl, hfinds⟩, by rintro _ _ ⟨⟩⟩
  · refine h.iget_iput.bind ?_
    rintro j u ⟨hinum, hput⟩
    refine wp_pure.mpr ⟨by rintro ⟨⟩, ?_⟩
    rintro j' off' ⟨⟩
    exact ⟨hinum ▸ hfinds, hput⟩

theorem newDirent_stored {de : Nat → Byte} : direntOf (newDirent de inum name) = (storedInum inum, nameOf name) := by
  rw [newDirent_eq, direntOf_dirent, nameOf_stored]

theorem dirlink_spec {de : Nat → Byte} (h : Has S R k i ds v s) :
    wp (dirlink de k name inum) (fun r t => (r = false → ∃ w, Has S R k i ds w t) ∧
      (r = true → NotNamed ds (nameOf name) ∧ ∃ m w, Room ds m ∧
        Has S R k i (place ds m (storedInum inum, nameOf name)) w t)) S.fault s := by
  have hlength := h.length
  unfold dirlink
  refine (dirlookup_finds h).bind ?_
  rintro (_ | ⟨j, off⟩) t ⟨hnone, hsome⟩
  · obtain ⟨rfl, hnew⟩ := hnone rfl
    simp only [wp_bind, wp_inode, h.din]
    refine (emptyLoop_room (m := 0) h (by omega) (Nat.zero_le _) fun l hl => absurd hl (Nat.not_lt_zero l)).mono ?_ fun _ => id
    rintro off u ⟨rfl, m, rfl, hroom⟩
    refine (h.write hroom.le).mono ?_ fun _ => id
    rintro n u' ⟨hfull, hless⟩
    refine wp_pure.mpr ⟨fun hno => hless (by simpa using hno), fun hyes => ⟨hnew, m, ?_⟩⟩
    obtain ⟨w, hw⟩ := hfull (by simpa using hyes)
    rw [newDirent_stored] at hw
    exact ⟨w, hroom, hw⟩
  · obtain ⟨-, hput⟩ := hsome j off rfl
    refine hput.bind ?_
    rintro _ u hu
    exact wp_pure.mpr ⟨fun _ => ⟨v, hu⟩, by rintro ⟨⟩⟩

theorem clear_spec (h : Has S R k i ds v s) :
    wp (clear k name) (fun r t => (r = false → t = s ∧ NotNamed ds (nameOf name)) ∧
      (r = true → ∃ m inum w, ds[m]? = some (inum, nameOf name) ∧ inum ≠ 0 ∧ Has S R k i (place ds m (0, [])) w t)) S.fault s := by
  unfold clear
  refine (locate_finds h).bind ?_
  rintro (_ | ⟨inum, off⟩) t ⟨rfl, hfinds⟩
  · exact wp_pure.mpr ⟨fun _ => ⟨rfl, hfinds⟩, by rintro ⟨⟩⟩
  · obtain ⟨m, rfl, hget, hlive⟩ := hfinds
    have hm := (List.getElem?_eq_some_iff.mp hget).1
    refine (h.write hm.le).bind ?_
    rintro n u ⟨hfull, -⟩
    by_cases hn : n ≠ 16
    · rw [if_pos hn]
      exact wp_panic.mpr (panic_other (by decide))
    · obtain ⟨w, hw⟩ := hfull (not_not.mp hn)
      rw [if_neg hn]
      exact wp_pure.mpr ⟨by rintro ⟨⟩, fun _ => ⟨m, inum, w, hget, hlive, hw⟩⟩

end Specs

section Map

variable {ds : List (Nat × Name)} {name : Name} {inum m : Nat}

def bindings (ds : List (Nat × Name)) (name : Name) : Option Nat :=
  (ds.find? fun x => x.1 ≠ 0 ∧ x.2 = name).map Prod.fst

def Distinct (ds : List (Nat × Name)) : Prop := ∀ (l m : Nat) (x y : Nat × Name), ds[l]? = some x → ds[m]? = some y →
  x.1 ≠ 0 → y.1 ≠ 0 → x.2 = y.2 → l = m

theorem bindings_eq_none : bindings ds name = none ↔ NotNamed ds name := by
  simp only [bindings, Option.map_eq_none_iff, find?_eq_none, decide_eq_true_eq, NotNamed, not_and]

theorem of_bindings (h : bindings ds name = some inum) : inum ≠ 0 ∧ ∃ m : Nat, ds[m]? = some (inum, name) := by
  obtain ⟨⟨inum', name'⟩, hfind, rfl⟩ := Option.map_eq_some_iff.mp h
  have hmatch := find?_some hfind
  simp only [decide_eq_true_eq] at hmatch
  obtain ⟨m, hm⟩ := mem_iff_getElem?.mp (mem_of_find?_eq_some hfind)
  exact ⟨hmatch.1, m, by rw [hm, ← hmatch.2]⟩

theorem bindings_eq_some (h : Distinct ds) : bindings ds name = some inum ↔
    inum ≠ 0 ∧ ∃ m : Nat, ds[m]? = some (inum, name) := by
  refine ⟨of_bindings, ?_⟩
  rintro ⟨hlive, m, hm⟩
  cases hb : bindings ds name with
  | none => exact absurd rfl (bindings_eq_none.mp hb (inum, name) (mem_of_getElem? hm) hlive)
  | some inum' =>
    obtain ⟨hlive', l, hl⟩ := of_bindings hb
    have hlm : l = m := h l m _ _ hl hm hlive' hlive rfl
    rw [hlm, hm] at hl
    rw [(Prod.mk.inj (Option.some.inj hl)).1]

theorem bindings_ext {ds' : List (Nat × Name)} {f : Name → Option Nat} (h' : Distinct ds')
    (hf : ∀ name inum, f name = some inum ↔ inum ≠ 0 ∧ ∃ m : Nat, ds'[m]? = some (inum, name)) : bindings ds' = f := by
  funext name
  refine Option.ext fun inum => ?_
  rw [bindings_eq_some h', hf]

theorem place_new (h : Distinct ds) (hroom : Room ds m) (hnew : NotNamed ds name) (hlive : inum ≠ 0) :
    Distinct (place ds m (inum, name)) ∧
      bindings (place ds m (inum, name)) = update (bindings ds) name (some inum) := by
  have hget := fun j => getElem?_place (j := j) (x := (inum, name)) hroom.le
  have hother : ∀ {j y}, (place ds m (inum, name))[j]? = some y → y.1 ≠ 0 → j ≠ m → ds[j]? = some y ∧ y.2 ≠ name := by
    intro j y hy hy0 hj
    rw [hget, if_neg hj] at hy
    exact ⟨hy, hnew y (mem_of_getElem? hy) hy0⟩
  have hself : ∀ {y}, (place ds m (inum, name))[m]? = some y → y = (inum, name) := by
    intro y hy
    rw [hget, if_pos rfl] at hy
    exact (Option.some.inj hy).symm
  have hdistinct : Distinct (place ds m (inum, name)) := by
    intro l l' x y hx hy hx0 hy0 hxy
    by_cases hl : l = m
    · by_cases hl' : l' = m
      · rw [hl, hl']
      · subst hl
        rw [hself hx] at hxy
        exact absurd hxy.symm (hother hy hy0 hl').2
    · by_cases hl' : l' = m
      · subst hl'
        rw [hself hy] at hxy
        exact absurd hxy (hother hx hx0 hl).2
      · exact h l l' x y (hother hx hx0 hl).1 (hother hy hy0 hl').1 hx0 hy0 hxy
  refine ⟨hdistinct, bindings_ext hdistinct fun name' inum' => ?_⟩
  by_cases hname : name' = name
  · subst hname
    rw [update_self]
    constructor
    · rintro ⟨⟩
      exact ⟨hlive, m, by rw [hget, if_pos rfl]⟩
    · rintro ⟨hlive', j, hj⟩
      by_cases hjm : j = m
      · subst hjm
        rw [(Prod.mk.inj (hself hj)).1]
      · exact absurd rfl (hother hj hlive' hjm).2
  · rw [update_of_ne hname, bindings_eq_some h]
    refine and_congr_right fun hlive' => ⟨?_, ?_⟩
    · rintro ⟨j, hj⟩
      refine ⟨j, ?_⟩
      rw [hget, if_neg, hj]
      rintro rfl
      exact hlive' (hroom.free _ hj)
    · rintro ⟨j, hj⟩
      by_cases hjm : j = m
      · subst hjm
        exact absurd (Prod.mk.inj (hself hj)).2 hname
      · exact ⟨j, (hother hj hlive' hjm).1⟩

theorem place_clear (h : Distinct ds) (hm : ds[m]? = some (inum, name)) (hlive : inum ≠ 0) :
    Distinct (place ds m (0, [])) ∧ bindings (place ds m (0, [])) = update (bindings ds) name none := by
  have hle : m ≤ ds.length := (List.getElem?_eq_some_iff.mp hm).1.le
  have hget := fun j => getElem?_place (j := j) (x := ((0 : Nat), ([] : Name))) hle
  have hlives : ∀ {j y}, y.1 ≠ 0 → ((place ds m (0, []))[j]? = some y ↔ j ≠ m ∧ ds[j]? = some y) := by
    intro j y hy0
    rw [hget]
    by_cases hj : j = m
    · rw [if_pos hj]
      refine ⟨fun hy => ?_, fun hy => absurd hj hy.1⟩
      rw [← Option.some.inj hy] at hy0
      exact absurd rfl hy0
    · rw [if_neg hj]
      exact ⟨fun hy => ⟨hj, hy⟩, fun hy => hy.2⟩
  have hdistinct : Distinct (place ds m (0, [])) := fun l l' x y hx hy hx0 hy0 =>
    h l l' x y ((hlives hx0).mp hx).2 ((hlives hy0).mp hy).2 hx0 hy0
  refine ⟨hdistinct, bindings_ext hdistinct fun name' inum' => ?_⟩
  by_cases hname : name' = name
  · subst hname
    rw [update_self]
    refine ⟨by rintro ⟨⟩, ?_⟩
    rintro ⟨hlive', j, hj⟩
    obtain ⟨hjm, hj⟩ := (hlives hlive').mp hj
    exact absurd (h j m _ _ hj hm hlive' hlive rfl) hjm
  · rw [update_of_ne hname, bindings_eq_some h]
    refine and_congr_right fun hlive' => exists_congr fun j => ?_
    rw [hlives hlive']
    refine ⟨fun hj => ⟨?_, hj⟩, fun hj => hj.2⟩
    rintro rfl
    rw [hm] at hj
    exact hname (Prod.mk.inj (Option.some.inj hj)).2.symm

end Map

inductive Op
  | link (de name : Nat → Byte) (inum : Nat)
  | unlink (name : Nat → Byte)

def Op.run (k : Nat) : Op → M Bool
  | .link de name inum => dirlink de k name inum
  | .unlink name => clear k name

def runAll (k : Nat) : List Op → M (List Bool)
  | [] => return []
  | op :: ops => do
    let r ← op.run k
    -- each operation is a transaction of its own
    modify fun s => { s with lh := [] }
    let rs ← runAll k ops
    return r :: rs

inductive Does : Op → Bool → List (Nat × Name) → List (Nat × Name) → Prop
  | linked {de name : Nat → Byte} {inum m : Nat} {ds ds' : List (Nat × Name)} (hnew : bindings ds (nameOf name) = none)
      (hroom : Room ds m) (hplace : ds' = place ds m (inum, nameOf name))
      (hmap : bindings ds' = update (bindings ds) (nameOf name) (some inum)) : Does (.link de name inum) true ds ds'
  | refused {de name : Nat → Byte} {inum : Nat} {ds : List (Nat × Name)} : Does (.link de name inum) false ds ds
  | unlinked {name : Nat → Byte} {inum m : Nat} {ds ds' : List (Nat × Name)}
      (hold : bindings ds (nameOf name) = some inum) (hplace : ds' = place ds m (0, []))
      (hmap : bindings ds' = update (bindings ds) (nameOf name) none) : Does (.unlink name) true ds ds'
  | absent {name : Nat → Byte} {ds : List (Nat × Name)} (hnone : bindings ds (nameOf name) = none) :
      Does (.unlink name) false ds ds

inductive DoesAll : List Op → List Bool → List (Nat × Name) → List (Nat × Name) → Prop
  | nil {ds : List (Nat × Name)} : DoesAll [] [] ds ds
  | cons {op : Op} {r : Bool} {ops : List Op} {rs : List Bool} {ds ds' ds'' : List (Nat × Name)} (h : Does op r ds ds')
      (hdistinct : Distinct ds') (hrest : DoesAll ops rs ds' ds'') : DoesAll (op :: ops) (r :: rs) ds ds''

def Op.Fits : Op → Prop
  | .link _ _ inum => 0 < inum ∧ inum < 2 ^ 16
  | .unlink _ => True

section Run

variable {S : Setting} {R : Nat → ℤ} {k i : Nat} {ds : List (Nat × Name)} {v : View} {s : State}

theorem Op.run_does {op : Op} (h : Has S R k i ds v s) (hd : Distinct ds) (hop : op.Fits) :
    wp (op.run k) (fun r t => ∃ ds' w, Has S R k i ds' w t ∧ Distinct ds' ∧ Does op r ds ds') S.fault s := by
  cases op with
  | link de name inum =>
    refine (dirlink_spec h).mono ?_ fun _ => id
    rintro (_ | _) t ⟨hno, hyes⟩
    · obtain ⟨w, hw⟩ := hno rfl
      exact ⟨ds, w, hw, hd, .refused⟩
    · obtain ⟨hnew, m, w, hroom, hw⟩ := hyes rfl
      have hstored : storedInum inum = inum := Nat.mod_eq_of_lt hop.2
      rw [hstored] at hw
      obtain ⟨hdistinct, hmap⟩ := place_new hd hroom hnew (Nat.pos_iff_ne_zero.mp hop.1)
      exact ⟨_, w, hw, hdistinct, .linked (bindings_eq_none.mpr hnew) hroom rfl hmap⟩
  | unlink name =>
    refine (clear_spec h).mono ?_ fun _ => id
    rintro (_ | _) t ⟨hno, hyes⟩
    · obtain ⟨rfl, hnone⟩ := hno rfl
      exact ⟨ds, v, h, hd, .absent (bindings_eq_none.mpr hnone)⟩
    · obtain ⟨m, inum, w, hget, hlive, hw⟩ := hyes rfl
      obtain ⟨hdistinct, hmap⟩ := place_clear hd hget hlive
      exact ⟨_, w, hw, hdistinct, .unlinked ((bindings_eq_some hd).mpr ⟨hlive, m, hget⟩) rfl hmap⟩

theorem runAll_does {ops : List Op} (h : Has S R k i ds v s) (hd : Distinct ds) (hops : ∀ op ∈ ops, op.Fits) :
    wp (runAll k ops) (fun rs t => ∃ ds' w, Has S R k i ds' w t ∧ Distinct ds' ∧ DoesAll ops rs ds ds') S.fault s := by
  induction ops generalizing ds v s with
  | nil => exact wp_pure.mpr ⟨ds, v, h, hd, .nil⟩
  | cons op ops ih =>
    rw [runAll]
    refine (Op.run_does h hd (hops op mem_cons_self)).bind ?_
    rintro r t ⟨ds', w, ht, hd', hdoes⟩
    rw [wp_bind, wp_modify]
    have ht : Has S R k i ds' w { t with lh := [] } := { ht with state := { ht.state with } }
    refine (ih ht hd' fun op hop => hops op (mem_cons_of_mem _ hop)).bind ?_
    rintro rs u ⟨ds'', w', hu, hd'', hrest⟩
    exact wp_pure.mpr ⟨ds'', w', hu, hd'', .cons hdoes hd' hrest⟩

/-- A directory is a finite map, whatever changes it has seen. -/
theorem directory_is_map {ops : List Op} (h : Has S R k i ds v s) (hd : Distinct ds) (hops : ∀ op ∈ ops, op.Fits) :
    wp (runAll k ops) (fun rs t => ∃ ds' w, Has S R k i ds' w t ∧ Distinct ds' ∧ DoesAll ops rs ds ds' ∧
      ∀ name, wp (dirlookup k name) (fun r u => match r with
        | none => bindings ds' (nameOf name) = none
        | some (j, off) => bindings ds' (nameOf name) = some (u.itable j).inum ∧
          ∃ m, off = 16 * m ∧ ds'[m]? = some ((u.itable j).inum, nameOf name)) S.fault t) S.fault s := by
  refine (runAll_does h hd hops).mono ?_ fun _ => id
  rintro rs t ⟨ds', w, ht, hd', hdoes⟩
  refine ⟨ds', w, ht, hd', hdoes, fun name => ?_⟩
  refine (dirlookup_finds ht).mono ?_ fun _ => id
  rintro (_ | ⟨j, off⟩) u ⟨hnone, hsome⟩
  · exact bindings_eq_none.mpr (hnone rfl).2
  · obtain ⟨⟨m, hoff, hget, hlive⟩, -⟩ := hsome j off rfl
    exact ⟨(bindings_eq_some hd').mpr ⟨hlive, m, hget⟩, m, hoff, hget⟩

end Run

section Example

def emptyDir : Dinode := { emptyFile with type := tDir }

def openDir : State :=
  { mount smallSb (Disk.setDinode smallSb smallDisk 1 emptyDir) with
    itable := put (fun _ => .empty) 0 ⟨1, 1, true, true, emptyDir⟩, outstanding := 1 }

theorem emptyDir_norm : emptyDir.Norm :=
  ⟨by decide, by decide, by decide, by decide, by decide, fun _ => Nat.two_pow_pos 32, fun _ _ => rfl⟩

theorem openDir_inode : openDir.image.inode 1 = emptyDir := Disk.dinode_setDinode emptyDir_norm

theorem openDir_own : Own openDir.sb 0 openDir.image := by
  refine .of_unused (slot_none (by decide) (by decide +kernel) ?_) (by decide +kernel) (by decide +kernel)
  rw [openDir_inode]
  rfl

theorem openDir_table : TableOk openDir := .of_one (by decide) rfl openDir_inode (by decide)

theorem openDir_has : Has (fileSetting openDir smallSb_wf Nat.one_pos) openDir.refs 0 1 [] openDir.image openDir := by
  refine ⟨⟨rfl, rfl, openDir_table.sim smallSb_wf openDir_own, fun _ _ => trivial⟩, ⟨by decide, rfl, rfl⟩, ?_, fun bn hbn => ?_, ?_, ?_⟩
  · rw [openDir_inode]
    rfl
  · rw [openDir_inode] at hbn
    exact absurd hbn (Nat.not_lt_zero _)
  · rw [openDir_inode]
    exact dvd_zero 16
  · rw [View.dents, openDir_inode]
    rfl

def twoNames : List Op :=
  [.link (fun _ => 7) (fun i => if i = 0 then 97 else 0) 1, .link (fun _ => 7) (fun i => if i = 0 then 98 else 0) 300,
  .unlink fun i => if i = 0 then 97 else 0]

theorem twoNames_map : wp (runAll 0 twoNames) (fun rs t => ∃ ds v, Has (fileSetting openDir smallSb_wf Nat.one_pos)
    openDir.refs 0 1 ds v t ∧ Distinct ds ∧ DoesAll twoNames rs [] ds) (fun _ => True) openDir ∧
    (runAll 0 twoNames openDir).toOption.map Prod.fst = some [true, true, true] := by
  have hfits : ∀ op ∈ twoNames, op.Fits := by
    intro op hop
    simp only [twoNames, mem_cons, not_mem_nil, or_false] at hop
    rcases hop with rfl | rfl | rfl
    · exact ⟨by decide, by decide⟩
    · exact ⟨by decide, by decide⟩
    · trivial
  have hempty : Distinct [] := fun l m x y hx => absurd hx (by simp)
  refine ⟨(directory_is_map openDir_has hempty hfits).mono ?_ fun _ => id, by decide +kernel⟩
  rintro rs t ⟨ds, w, ht, hd, hdoes, -⟩
  exact ⟨ds, w, ht, hd, hdoes⟩

end Example

end Dir

end Xv6.Fs
