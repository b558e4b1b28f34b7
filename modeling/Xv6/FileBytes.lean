import Xv6.WriteCost

namespace Xv6.Fs

open Count Prog List

def View.Solid (v : View) (i : Nat) : Prop := ∀ bn, bn * bsize < (v.inode i).size → bn < maxfile ∧ v.block i bn ≠ 0

section Read

variable {sb : Superblock} {R : Nat → ℤ} {dirty : Option Nat} {v : View} {s : State} {i k n : Nat} {E : Fault → Prop}

theorem View.Solid.mapped (h : v.Solid i) {x : Nat} (hx : x < (v.inode i).size) :
    x / bsize < maxfile ∧ v.block i (x / bsize) ≠ 0 := h _ (lt_of_le_of_lt (Nat.div_mul_le_self x bsize) hx)

theorem View.Solid.size_le (h : v.Solid i) : (v.inode i).size ≤ maxfile * bsize := by
  by_contra hlt
  have hmapped := h.mapped (x := maxfile * bsize) (by omega)
  rw [Nat.mul_div_cancel _ (by decide)] at hmapped
  exact absurd hmapped.1 (lt_irrefl _)

structure Reads (k i : Nat) (v : View) (s : State) : Prop where
  din : (s.itable k).din = v.inode i
  type : (v.inode i).type ≠ 0
  data : ∀ j < nslots, ∀ b, v.slot (i, j) = some b → s.disk b = v.data b

theorem Sim.reads (h : Sim sb R dirty 0 v s.disk s.itable) (hk : Loaded R s.itable k i) : Reads k i v s := by
  refine ⟨hk.din h, hk.type h, fun j hj b hb => ?_⟩
  have hmem := h.own.mem_data le_rfl (mem_grid.mpr ⟨hk.lt h, hj⟩) hb
  exact h.data _ hmem.1 hmem.2.1

theorem bmap_mapped {bn : Nat} (h : Reads k i v s) (hbn : bn < maxfile) (hne : v.block i bn ≠ 0) :
    wp (bmap k bn) (fun b t => b = v.block i bn ∧ t = s) E s := by
  have hdin := h.din
  unfold bmap
  split
  next hdirect =>
    have hblock : v.block i bn = (v.inode i).addrs bn := by
      rw [block_eq_slot, fileSlot_direct hdirect, slotOf_direct hdirect.le]
    simp only [bmapSlot, wp_bind, wp_inode, hdin]
    rw [if_neg (hblock ▸ hne)]
    exact wp_pure.mpr ⟨hblock.symm, rfl⟩
  next hindirect =>
    have hlt : bn - ndirect < nindirect := by
      simp only [maxfile] at hbn
      omega
    have hblock : v.block i bn = if (v.inode i).addrs ndirect = 0 then 0
        else get32 (v.data ((v.inode i).addrs ndirect)) (4 * (bn - ndirect)) := by
      rw [block_eq_slot, fileSlot_indirect hindirect, slotOf, if_neg (by omega), Nat.add_sub_add_right]
    have hind : (v.inode i).addrs ndirect ≠ 0 := fun h0 => hne (by rw [hblock, if_pos h0])
    have hentry : s.disk.entry ((v.inode i).addrs ndirect) (bn - ndirect) = v.block i bn := by
      rw [Disk.entry, h.data ndirect (by decide) _ (slot_eq_some.mpr ⟨h.type, slotOf_direct le_rfl, hind⟩), hblock, if_neg hind]
    rw [if_pos hlt, wp_bind]
    simp only [bmapSlot, wp_bind, wp_inode, hdin]
    rw [if_neg hind, wp_pure, if_neg hind]
    simp only [bmapEntry, wp_bind, wp_get, hentry]
    rw [if_neg hne]
    exact wp_pure.mpr ⟨rfl, rfl⟩

theorem readLoop_at {fuel tot off : Nat} {dst : Nat → Byte} (h : Reads k i v s)
    (htot : tot ≤ n) (hfuel : n ≤ tot + fuel)
    (hmapped : ∀ x, off ≤ x → x < off + (n - tot) → x / bsize < maxfile ∧ v.block i (x / bsize) ≠ 0) :
    wp (readLoop k n fuel tot off dst) (fun r t => t = s ∧ r.1 = n ∧
      ∀ x < n, r.2 x = if x < tot then dst x else v.byte i (off + (x - tot))) E s := by
  induction fuel generalizing tot off dst with
  | zero => exact wp_pure.mpr ⟨rfl, by show tot = n; omega, fun x hx => by rw [if_pos (by omega)]⟩
  | succ fuel ih =>
    unfold readLoop
    split
    next hlt =>
      obtain ⟨hbn, hne⟩ := hmapped off le_rfl (by omega)
      have hdata : s.disk (v.block i (off / bsize)) = v.data (v.block i (off / bsize)) :=
        h.data _ (fileSlot_lt hbn) _ (slot_eq_some.mpr ⟨h.type, rfl, hne⟩)
      rw [wp_bind]
      refine (bmap_mapped h hbn hne).mono ?_ fun _ => id
      rintro b t ⟨rfl, rfl⟩
      rw [if_neg hne]
      generalize hm : min (n - tot) (bsize - off % bsize) = m
      have hmle : m ≤ n - tot := hm ▸ min_le_left _ _
      have hmblock : m ≤ bsize - off % bsize := hm ▸ min_le_right _ _
      have hmpos : 0 < m := by
        simp only [bsize] at *
        omega
      simp only [wp_bind, wp_get, hdata]
      refine (ih (by omega) (by omega) fun x hlo hhi => hmapped x (by omega) (by omega)).mono ?_ fun _ => id
      rintro r t ⟨rfl, hr, hbytes⟩
      refine ⟨rfl, hr, fun x hx => ?_⟩
      rw [hbytes x hx]
      by_cases hearly : x < tot
      · rw [if_pos (by omega), if_pos hearly, splice_out (by omega)]
      · by_cases hnow : x < tot + m
        · obtain ⟨y, rfl⟩ := Nat.exists_eq_add_of_le (show tot ≤ x by omega)
          have hpos : (off + y) / bsize = off / bsize ∧ (off + y) % bsize = off % bsize + y := by
            simp only [bsize] at *
            omega
          rw [if_pos hnow, if_neg hearly, splice_in (by omega), Nat.add_sub_cancel_left, View.byte, hpos.1, hpos.2]
        · rw [if_neg hnow, if_neg hearly]
          congr 1
          omega
    next hge => exact wp_pure.mpr ⟨rfl, by show tot = n; omega, fun x hx => by rw [if_pos (by omega)]⟩

def View.readLen (v : View) (i off n : Nat) : Nat :=
  if off > (v.inode i).size ∨ uint (off + n) < off then 0 else min n ((v.inode i).size - off)

theorem Reads.readi {off n : Nat} (h : Reads k i v s) (hsolid : v.Solid i) :
    wp (readi k off n) (fun r t => t = s ∧ r.1 = v.readLen i off n ∧ ∀ x < r.1, r.2 x = v.byte i (off + x)) E s := by
  have hdin := h.din
  simp only [Fs.readi, wp_bind, wp_inode, hdin, wp_ite]
  refine ⟨fun hearly => wp_pure.mpr ⟨rfl, by rw [View.readLen, if_pos hearly], fun x hx => absurd hx (Nat.not_lt_zero x)⟩,
    fun hearly => ?_⟩
  have hlen : (if off + n > (v.inode i).size then (v.inode i).size - off else n) = v.readLen i off n := by
    rw [View.readLen, if_neg hearly]
    split <;> omega
  have hle : v.readLen i off n ≤ (v.inode i).size - off := by
    rw [View.readLen, if_neg hearly]
    exact min_le_right _ _
  rw [hlen]
  refine (readLoop_at h (Nat.zero_le _) (by omega) fun x hlo hhi => hsolid.mapped (by omega)).mono ?_ fun _ => id
  rintro r t ⟨rfl, hr, hbytes⟩
  refine ⟨rfl, hr, fun x hx => ?_⟩
  rw [hbytes x (hr ▸ hx), if_neg (Nat.not_lt_zero x), Nat.sub_zero]

theorem readi_at {off n : Nat} (h : Sim sb R dirty 0 v s.disk s.itable) (hk : Loaded R s.itable k i) (hsolid : v.Solid i) :
    wp (readi k off n) (fun r t => t = s ∧ r.1 = v.readLen i off n ∧ ∀ x < r.1, r.2 x = v.byte i (off + x)) E s :=
  (h.reads hk).readi hsolid

end Read

/-- The file system that an image holds. -/
def Disk.view (sb : Superblock) (d : Disk) : View := ⟨d.dinode sb, d.bit sb, d⟩

def View.contents (v : View) (i : Nat) : List Byte := (range (v.inode i).size).map (v.byte i)

def overwrite {α : Type} (l : List α) (off : Nat) (new : List α) : List α := l.take off ++ new ++ l.drop (off + new.length)

section Contents

variable {sb : Superblock} {R : Nat → ℤ} {v w : View} {i off n : Nat} {f : Nat → Byte}

theorem range_map_overwrite {α : Type} {f g : Nat → α} {size off n : Nat} (hoff : off ≤ size) :
    (range (max size (off + n))).map (fun x => if off ≤ x ∧ x < off + n then f (x - off) else g x) =
      overwrite ((range size).map g) off ((range n).map f) := by
  refine ext_getElem ?_ fun x hx hx' => ?_
  · simp [overwrite]
    omega
  · simp only [length_map, length_range] at hx
    simp only [overwrite, getElem_map, getElem_range, getElem_append, length_take, length_map,
      length_range, getElem_take, getElem_drop, length_append]
    by_cases hlow : x < off
    · rw [if_neg (by omega), dif_pos (by omega), dif_pos (by omega)]
    · by_cases hmid : x < off + n
      · rw [if_pos (by omega), dif_pos (by omega), dif_neg (by omega), min_eq_left hoff]
      · rw [if_neg (by omega), dif_neg (by omega)]
        congr 1
        omega

section
variable (h : SameFile i v w) (htype : (v.inode i).type ≠ 0)
include h htype

theorem SameFile.byte {x : Nat} (hx : x / bsize < maxfile) (hne : v.block i (x / bsize) ≠ 0) : w.byte i x = v.byte i x := by
  have hdata := h.data _ (fileSlot_lt hx) _ (slot_eq_some.mpr ⟨htype, rfl, hne⟩)
  rw [View.byte, h.block htype, View.byte]
  exact congrFun hdata _

theorem SameFile.contents (hsolid : v.Solid i) : w.contents i = v.contents i := by
  rw [View.contents, h.inode, View.contents]
  refine map_congr_left fun x hx => ?_
  obtain ⟨hlt, hne⟩ := hsolid.mapped (mem_range.mp hx)
  exact h.byte htype hlt hne

theorem SameFile.solid (hsolid : v.Solid i) : w.Solid i := by
  intro bn hbn
  rw [h.inode] at hbn
  rw [h.block htype]
  exact hsolid bn hbn

end

section
variable {disk : Disk} {itable : Nat → Inode} (h : Sim sb R none 0 v disk itable)
include h

theorem Sim.image (hi : i < sb.ninodes) : SameFile i v (disk.view sb) where
  inode := h.inodes i hi nofun
  data j hj b hb := by
    have hmem := h.own.mem_data le_rfl (mem_grid.mpr ⟨hi, hj⟩) hb
    exact h.data b hmem.1 hmem.2.1

theorem Sim.image_own : Own sb 0 (disk.view sb) where
  total b := by
    have howned : View.owned sb (disk.view sb) = v.owned sb := owned_congr fun x hx => (h.image (mem_grid.mp hx).1).slot
    have hbit : View.dataBit sb (disk.view sb) b = v.dataBit sb b := by
      unfold View.dataBit
      by_cases hlt : b < sb.size
      · rw [show (disk.view sb).bit b = v.bit b from h.bits b hlt]
      · rw [if_neg (by omega), if_neg (by omega)]
    rw [howned, hbit]
    exact h.own.total b
  low b hb hlt := (h.bits b hlt).trans (h.own.low b hb hlt)

end

section
variable (h : Written sb i off n v w) (hsolid : v.Solid i) (hoff : off ≤ (v.inode i).size) (hend : off + n ≤ maxfile * bsize)
include h hsolid hoff hend

theorem Written.solid : w.Solid i := by
  intro bn hbn
  have hsize : (w.inode i).size = max (v.inode i).size (off + n) := by rw [h.fields]
  rw [hsize] at hbn
  by_cases hold : bn * bsize < (v.inode i).size
  · obtain ⟨hlt, hne⟩ := hsolid bn hold
    rw [h.old bn hlt hne]
    exact ⟨hlt, hne⟩
  · have hlt : bn < maxfile := by
      simp only [maxfile, ndirect, nindirect, bsize] at *
      omega
    refine ⟨hlt, ?_⟩
    have hnew := h.new (bn * bsize) (by omega) (by omega)
    rwa [Nat.mul_div_cancel _ (by decide)] at hnew

theorem Written.contents (hbytes : StoredBytes i off n f v w) :
    w.contents i = overwrite (v.contents i) off ((range n).map f) := by
  have hsize : (w.inode i).size = max (v.inode i).size (off + n) := by rw [h.fields]
  rw [View.contents, hsize, View.contents, ← range_map_overwrite hoff]
  refine map_congr_left fun x hx => ?_
  have hlt := mem_range.mp hx
  by_cases hold : x < (v.inode i).size
  · obtain ⟨hbn, hne⟩ := hsolid.mapped hold
    exact hbytes x hbn (.inl hne)
  · refine hbytes x ?_ (.inr ⟨by omega, by omega⟩)
    simp only [maxfile, ndirect, nindirect, bsize] at *
    omega

end

end Contents

end Xv6.Fs
