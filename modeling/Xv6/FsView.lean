import Mathlib.Tactic.Abel
import Xv6.DiskLayout
import Xv6.InodeRefs

namespace Xv6.Fs

open Count Prog

/-- The file system as its calls see it: the inodes with the changes that are only in memory yet, the
free map and the contents of the blocks. -/
structure View where
  inode : Nat → Dinode
  bit : Nat → Bool
  data : Nat → Block

namespace View

variable (v : View)

def setInode (i : Nat) (d : Dinode) : View := { v with inode := put v.inode i d }

def setBit (b : Nat) (x : Bool) : View := { v with bit := put v.bit b x }

def setData (b : Nat) (x : Block) : View := { v with data := put v.data b x }

variable (i b : Nat) (d : Dinode) (x : Bool) (y : Block)

@[simp]
theorem setInode_inode : (v.setInode i d).inode = put v.inode i d := rfl

@[simp]
theorem setInode_data : (v.setInode i d).data = v.data := rfl

@[simp]
theorem setBit_inode : (v.setBit b x).inode = v.inode := rfl

@[simp]
theorem setBit_bit : (v.setBit b x).bit = put v.bit b x := rfl

@[simp]
theorem setBit_data : (v.setBit b x).data = v.data := rfl

@[simp]
theorem setData_inode : (v.setData b y).inode = v.inode := rfl

@[simp]
theorem setData_bit : (v.setData b y).bit = v.bit := rfl

@[simp]
theorem setData_data : (v.setData b y).data = put v.data b y := rfl

end View

abbrev nslots : Nat := 269

/-- The places where an inode keeps block numbers: its addresses, then the entries of its indirect
block. -/
def slotOf (data : Nat → Block) (d : Dinode) (j : Nat) : Nat :=
  if j ≤ ndirect then d.addrs j
  else if d.addrs ndirect = 0 then 0
  else get32 (data (d.addrs ndirect)) (4 * (j - 13))

def present (b : Nat) : Option Nat := if b = 0 then none else some b

namespace View

def slot (v : View) (x : Nat × Nat) : Option Nat :=
  if (v.inode x.1).type = 0 then none else present (slotOf v.data (v.inode x.1) x.2)

def owned (sb : Superblock) (v : View) : Nat → ℤ := holders (grid sb.ninodes nslots) v.slot

def dataBit (sb : Superblock) (v : View) (b : Nat) : ℤ := if sb.dstart ≤ b ∧ b < sb.size ∧ v.bit b then 1 else 0

end View

/-- The free map is exact, up to the blocks `e` that the operation in progress holds. -/
structure Own (sb : Superblock) (e : Nat → ℤ) (v : View) : Prop where
  total : ∀ b, v.dataBit sb b = v.owned sb b + e b
  low : ∀ b < sb.dstart, b < sb.size → v.bit b = true

section Slots

variable {sb : Superblock} {e : Nat → ℤ} {v w : View} {i j b : Nat} {x y : Nat × Nat}

theorem present_eq_some {a : Nat} : present a = some b ↔ a = b ∧ b ≠ 0 := by
  unfold present
  split
  next h => simp [h]; omega
  next h =>
    simp only [Option.some.injEq]
    constructor
    · rintro rfl
      exact ⟨rfl, h⟩
    · exact fun h => h.1

theorem present_zero : present 0 = none := rfl

theorem slot_eq_some : v.slot x = some b ↔ (v.inode x.1).type ≠ 0 ∧ slotOf v.data (v.inode x.1) x.2 = b ∧ b ≠ 0 := by
  unfold View.slot
  split
  next h => simp [h]
  next h => simp [h, present_eq_some]

theorem dataBit_le_one (sb : Superblock) (v : View) (b : Nat) : v.dataBit sb b ≤ 1 := by
  unfold View.dataBit
  split <;> decide

section
variable (h : Own sb e v) (he : 0 ≤ e b)
include h he

theorem Own.owned_le_one : v.owned sb b ≤ 1 := by
  have htotal := h.total b
  have hle := dataBit_le_one sb v b
  omega

theorem Own.unique (hx : x ∈ grid sb.ninodes nslots) (hy : y ∈ grid sb.ninodes nslots)
    (hxb : v.slot x = some b) (hyb : v.slot y = some b) : x = y :=
  holders_eq_of_le_one (h.owned_le_one he) hx hy hxb hyb

theorem Own.mem_data (hx : x ∈ grid sb.ninodes nslots) (hxb : v.slot x = some b) :
    sb.dstart ≤ b ∧ b < sb.size ∧ v.bit b = true := by
  have htotal := h.total b
  have hpos : 1 ≤ v.owned sb b := holders_pos hx hxb
  by_contra hout
  rw [View.dataBit, if_neg hout] at htotal
  omega

end

theorem owned_congr (h : ∀ x ∈ grid sb.ninodes nslots, w.slot x = v.slot x) : w.owned sb = v.owned sb := holders_congr h

theorem owned_change (hx : x ∈ grid sb.ninodes nslots) (h : ∀ y ∈ grid sb.ninodes nslots, y ≠ x → w.slot y = v.slot y) :
    w.owned sb = v.owned sb - mark (v.slot x) + mark (w.slot x) := holders_change hx h

theorem Own.of_owned {e' : Nat → ℤ} (h : Own sb e v) (hbit : w.bit = v.bit) (howned : w.owned sb + e' = v.owned sb + e) :
    Own sb e' w where
  total b := by
    have htotal := h.total b
    have hb := congrFun howned b
    simp only [Pi.add_apply] at hb
    rw [hb, ← htotal, View.dataBit, View.dataBit, hbit]
  low := by
    rw [hbit]
    exact h.low

theorem Own.setBit (h : Own sb e v) (hb : b < sb.size) (hfree : v.bit b = false) (howned : w.owned sb = v.owned sb)
    (hbit : w.bit = put v.bit b true) : Own sb (e + one b) w := by
  have hlow : sb.dstart ≤ b := by
    by_contra hlt
    rw [h.low b (by omega) hb] at hfree
    exact absurd hfree (by decide)
  refine ⟨fun x => ?_, fun x hx hlt => ?_⟩
  · have htotal := h.total x
    rw [howned]
    simp only [View.dataBit, hbit, Pi.add_apply, one_apply] at htotal ⊢
    by_cases hxb : x = b
    · subst hxb
      rw [put_same, if_pos ⟨hlow, hb, rfl⟩, if_pos rfl]
      rw [if_neg (by simp [hfree])] at htotal
      omega
    · rw [put_ne _ _ _ hxb, if_neg hxb]
      omega
  · rw [hbit]
    by_cases hxb : x = b
    · rw [hxb, put_same]
    · rw [put_ne _ _ _ hxb]
      exact h.low x hx hlt

end Slots

section Files

variable {u v w : View} {i j b : Nat}

structure SameFile (i : Nat) (v w : View) : Prop where
  inode : w.inode i = v.inode i
  data : ∀ j < nslots, ∀ b, v.slot (i, j) = some b → w.data b = v.data b

theorem SameFile.slotOf (h : SameFile i v w) (htype : (v.inode i).type ≠ 0) :
    slotOf w.data (w.inode i) j = slotOf v.data (v.inode i) j := by
  unfold Fs.slotOf
  rw [h.inode]
  split
  next => rfl
  next =>
    split
    next => rfl
    next hind =>
      rw [h.data 12 (by decide) ((v.inode i).addrs ndirect) (slot_eq_some.mpr ⟨htype, rfl, hind⟩)]

theorem SameFile.slot (h : SameFile i v w) : w.slot (i, j) = v.slot (i, j) := by
  unfold View.slot
  simp only [h.inode]
  split
  next => rfl
  next htype =>
    have hslot := h.slotOf (j := j) htype
    rw [h.inode] at hslot
    rw [hslot]

theorem SameFile.refl (i : Nat) (v : View) : SameFile i v v := ⟨rfl, fun _ _ _ _ => rfl⟩

theorem SameFile.trans (h : SameFile i u v) (h' : SameFile i v w) : SameFile i u w where
  inode := h'.inode.trans h.inode
  data j hj b hb := (h'.data j hj b (h.slot.trans hb)).trans (h.data j hj b hb)

def Only (sb : Superblock) (i : Nat) (v w : View) : Prop := ∀ j < sb.ninodes, j ≠ i → SameFile j v w

theorem Only.refl (sb : Superblock) (i : Nat) (v : View) : Only sb i v v := fun j _ _ => .refl j v

theorem Only.trans {sb : Superblock} (h : Only sb i u v) (h' : Only sb i v w) : Only sb i u w :=
  fun j hlt hj => (h j hlt hj).trans (h' j hlt hj)

def fileSlot (bn : Nat) : Nat := if bn < ndirect then bn else bn + 1

def View.block (v : View) (i bn : Nat) : Nat := Fs.slotOf v.data (v.inode i) (fileSlot bn)

theorem fileSlot_lt {bn : Nat} (h : bn < maxfile) : fileSlot bn < nslots := by
  simp only [maxfile, ndirect, nindirect] at h
  unfold fileSlot
  split <;> simp only [ndirect, nslots] at * <;> omega

theorem fileSlot_ne (bn : Nat) : fileSlot bn ≠ 12 := by
  unfold fileSlot
  split <;> simp only [ndirect] at * <;> omega

theorem SameFile.block (h : SameFile i v w) (htype : (v.inode i).type ≠ 0) (bn : Nat) : w.block i bn = v.block i bn :=
  h.slotOf htype

end Files

/-- The disk and the inode table hold the view `v`, with the references `R` to the entries of the
table. The disk is out of date for the inode `dirty`. -/
structure Sim (sb : Superblock) (R : Nat → ℤ) (dirty : Option Nat) (e : Nat → ℤ) (v : View) (disk : Disk)
    (itable : Nat → Inode) : Prop where
  wf : sb.Wf
  bits : ∀ b < sb.size, disk.bit sb b = v.bit b
  data : ∀ b, sb.dstart ≤ b → b < sb.size → disk b = v.data b
  inodes : ∀ i < sb.ninodes, dirty ≠ some i → disk.dinode sb i = v.inode i
  norm : ∀ i < sb.ninodes, (v.inode i).Norm
  refs : (fun k => (itable k).ref) = R
  nonneg : ∀ k, 0 ≤ R k
  range : ∀ k, 0 < R k → k < ninode ∧ (itable k).inum < sb.ninodes
  table : ∀ k, 0 < R k → (itable k).valid = true →
    (itable k).din = v.inode (itable k).inum ∧ (v.inode (itable k).inum).type ≠ 0
  unique : ∀ j k, 0 < R j → 0 < R k → (itable j).inum = (itable k).inum → j = k
  own : Own sb e v

structure Loaded (R : Nat → ℤ) (itable : Nat → Inode) (k i : Nat) : Prop where
  pos : 0 < R k
  valid : (itable k).valid = true
  inum : (itable k).inum = i

section Sim

variable {sb : Superblock} {R e : Nat → ℤ} {dirty : Option Nat} {v : View} {disk : Disk} {itable : Nat → Inode}
  {i k b : Nat}

section
variable (h : Sim sb R dirty e v disk itable) (hk : Loaded R itable k i)
include h hk

theorem Loaded.lt : i < sb.ninodes :=
  hk.inum ▸ (h.range k hk.pos).2

theorem Loaded.din : (itable k).din = v.inode i :=
  hk.inum ▸ (h.table k hk.pos hk.valid).1

theorem Loaded.type : (v.inode i).type ≠ 0 :=
  hk.inum ▸ (h.table k hk.pos hk.valid).2

end

theorem Sim.weaken (h : Sim sb R none e v disk itable) (i : Nat) : Sim sb R (some i) e v disk itable :=
  { h with inodes := fun j hj _ => h.inodes j hj nofun }

theorem Sim.alloc (h : Sim sb R dirty e v disk itable) (he : 0 ≤ e b) (hb : b < sb.size) (hfree : v.bit b = false) :
    sb.dstart ≤ b ∧ Sim sb R dirty (e + one b) ((v.setBit b true).setData b fun _ => 0)
      (put (disk.setBit sb b true) b fun _ => 0) itable ∧
      ∀ i < sb.ninodes, SameFile i v ((v.setBit b true).setData b fun _ => 0) := by
  have hlow : sb.dstart ≤ b := by
    by_contra hlt
    rw [h.own.low b (by omega) hb] at hfree
    exact absurd hfree (by decide)
  have hsame : ∀ i < sb.ninodes, SameFile i v ((v.setBit b true).setData b fun _ => 0) := by
    refine fun i hi => ⟨rfl, fun j hj a ha => put_ne _ _ _ ?_⟩
    -- a block that is in use is marked
    rintro rfl
    have hmem := h.own.mem_data he (mem_grid.mpr ⟨hi, hj⟩) ha
    rw [hfree] at hmem
    exact absurd hmem.2.2 (by decide)
  have howned : View.owned sb ((v.setBit b true).setData b fun _ => 0) = v.owned sb := by
    refine owned_congr ?_
    rintro ⟨i, j⟩ hx
    exact (hsame i (mem_grid.mp hx).1).slot
  refine ⟨hlow, ?_, hsame⟩
  refine { h with
    bits := fun a ha => ?_
    data := fun a ha hlt => ?_
    inodes := fun i hi hd => ?_
    own := h.own.setBit hb hfree howned rfl }
  · rw [Disk.bit_put ha hlow, Disk.bit_setBit, View.setData_bit, View.setBit_bit]
    by_cases hab : a = b
    · rw [if_pos hab, hab, put_same]
    · rw [if_neg hab, put_ne _ _ _ hab, h.bits a ha]
  · rw [View.setData_data]
    by_cases hab : a = b
    · rw [hab, put_same, put_same]
    · rw [put_ne _ _ _ hab, put_ne _ _ _ hab, Disk.setBit_data hb ha, h.data a ha hlt, View.setBit_data]
  · rw [Disk.dinode_put h.wf hi hlow, Disk.dinode_setBit h.wf hi hb, h.inodes i hi hd, View.setData_inode, View.setBit_inode]

theorem Sim.write {c : Nat → ℤ} {x : Block} (h : Sim sb R dirty e v disk itable) (hb : sb.dstart ≤ b)
    (howned : View.owned sb (v.setData b x) + c = v.owned sb + e) :
    Sim sb R dirty c (v.setData b x) (put disk b x) itable := by
  refine { h with
    bits := fun a ha => ?_
    data := fun a ha hlt => ?_
    inodes := fun i hi hd => ?_
    own := h.own.of_owned rfl howned }
  · rw [Disk.bit_put ha hb, h.bits a ha, View.setData_bit]
  · rw [View.setData_data]
    by_cases hab : a = b
    · rw [hab, put_same, put_same]
    · rw [put_ne _ _ _ hab, put_ne _ _ _ hab, h.data a ha hlt]
  · rw [Disk.dinode_put h.wf hi hb, h.inodes i hi hd, View.setData_inode]

theorem Sim.setDin {e' : Nat → ℤ} {d : Dinode} (h : Sim sb R (some i) e v disk itable) (hk : Loaded R itable k i)
    (hnorm : d.Norm) (htype : d.type ≠ 0)
    (howned : View.owned sb (v.setInode i d) + e' = v.owned sb + e) :
    Sim sb R (some i) e' (v.setInode i d) disk (put itable k { itable k with din := d }) := by
  have hsame : ∀ j, (put itable k { itable k with din := d } j).ref = (itable j).ref ∧
      (put itable k { itable k with din := d } j).inum = (itable j).inum ∧
      (put itable k { itable k with din := d } j).valid = (itable j).valid := by
    intro j
    by_cases hj : j = k
    · rw [hj, put_same]
      exact ⟨rfl, rfl, rfl⟩
    · rw [put_ne _ _ _ hj]
      exact ⟨rfl, rfl, rfl⟩
  refine { h with
    inodes := fun j hj hd => ?_
    norm := fun j hj => ?_
    refs := ?_
    range := fun j hj => ?_
    table := fun j hj hv => ?_
    unique := fun j l hj hl heq => ?_
    own := h.own.of_owned rfl howned }
  · have hne : j ≠ i := fun heq => hd (heq ▸ rfl)
    rw [View.setInode_inode, put_ne _ _ _ hne, h.inodes j hj hd]
  · rw [View.setInode_inode]
    by_cases hji : j = i
    · rw [hji, put_same]
      exact hnorm
    · rw [put_ne _ _ _ hji]
      exact h.norm j hj
  · rw [← h.refs]
    funext j
    exact (hsame j).1
  · rw [(hsame j).2.1]
    exact h.range j hj
  · rw [(hsame j).2.1, View.setInode_inode]
    by_cases hjk : j = k
    · rw [hjk, put_same, hk.inum, put_same]
      exact ⟨rfl, htype⟩
    · have hne : (itable j).inum ≠ i := fun heq => hjk (h.unique j k hj hk.pos (heq.trans hk.inum.symm))
      rw [put_ne _ _ _ hjk, put_ne _ _ _ hne]
      exact h.table j hj ((hsame j).2.2 ▸ hv)
  · rw [(hsame j).2.1, (hsame l).2.1] at heq
    exact h.unique j l hj hl heq

theorem Sim.iupdate (h : Sim sb R (some i) e v disk itable) (hk : Loaded R itable k i) :
    Sim sb R none e v (disk.setDinode sb (itable k).inum (itable k).din) itable := by
  have hi := hk.lt h
  have hnorm := h.norm i hi
  rw [hk.inum, hk.din h]
  refine { h with bits := fun a ha => ?_, data := fun a ha hlt => ?_, inodes := fun j hj _ => ?_ }
  · rw [Disk.bit_setDinode h.wf hi ha, h.bits a ha]
  · rw [Disk.setDinode_data h.wf hi ha, h.data a ha hlt]
  · rw [Disk.dinode_setDinode hnorm]
    split
    next heq => rw [heq]
    next hne => exact h.inodes j hj fun heq => hne (Option.some.inj heq).symm

theorem Sim.setEntry (h : Sim sb R dirty e v disk itable) (ip : Inode) (hk : k < ninode) (hinum : ip.inum < sb.ninodes)
    (href : 0 ≤ ip.ref) (hvalid : 0 < ip.ref → ip.valid = true → ip.din = v.inode ip.inum ∧ (v.inode ip.inum).type ≠ 0)
    (hunique : 0 < ip.ref → ∀ j, j ≠ k → 0 < R j → (itable j).inum ≠ ip.inum) :
    Sim sb (put R k ip.ref) dirty e v disk (put itable k ip) := by
  refine { h with
    refs := ?_
    nonneg := fun j => ?_
    range := fun j hj => ?_
    table := fun j hj hv => ?_
    unique := fun j l hj hl heq => ?_ }
  · rw [← h.refs]
    funext j
    by_cases hj : j = k
    · rw [hj, put_same, put_same]
    · rw [put_ne _ _ _ hj, put_ne _ _ _ hj]
  · by_cases hjk : j = k
    · rw [hjk, put_same]
      exact href
    · rw [put_ne _ _ _ hjk]
      exact h.nonneg j
  · by_cases hjk : j = k
    · rw [hjk, put_same]
      exact ⟨hk, hinum⟩
    · rw [put_ne _ _ _ hjk] at hj ⊢
      exact h.range j hj
  · by_cases hjk : j = k
    · rw [hjk, put_same] at hj hv ⊢
      exact hvalid hj hv
    · rw [put_ne _ _ _ hjk] at hj hv ⊢
      exact h.table j hj hv
  · by_cases hjk : j = k
    · by_cases hlk : l = k
      · rw [hjk, hlk]
      · rw [hjk, put_same] at hj
        rw [hjk, put_same, put_ne _ _ _ hlk] at heq
        rw [put_ne _ _ _ hlk] at hl
        exact absurd heq.symm (hunique hj l hlk hl)
    · by_cases hlk : l = k
      · rw [hlk, put_same] at hl
        rw [hlk, put_same, put_ne _ _ _ hjk] at heq
        rw [put_ne _ _ _ hjk] at hj
        exact absurd heq (hunique hl j hjk hj)
      · rw [put_ne _ _ _ hjk, put_ne _ _ _ hlk] at heq
        rw [put_ne _ _ _ hjk] at hj
        rw [put_ne _ _ _ hlk] at hl
        exact h.unique j l hj hl heq

end Sim

end Xv6.Fs
