import Xv6.FileBytes
import Xv6.Directory

namespace Xv6.Fs

open Count Prog List

/-- An inode as the tree of names sees it. Only directories have entries, in the order of their slots; an
entry with the number 0 is free. -/
structure Node where
  type : Int
  dents : List (Nat × Name)
  deriving DecidableEq

def Node.free : Node := ⟨0, []⟩

abbrev Namespace := Nat → Node

section Entries

def place {α : Type} (l : List α) (m : Nat) (x : α) : List α := if m < l.length then l.set m x else l ++ [x]

def NotNamed (ds : List (Nat × Name)) (name : Name) : Prop := ∀ x ∈ ds, x.1 ≠ 0 → x.2 ≠ name

structure Room (ds : List (Nat × Name)) (m : Nat) : Prop where
  le : m ≤ ds.length
  before : ∀ l < m, ∀ x, ds[l]? = some x → x.1 ≠ 0
  free : ∀ x, ds[m]? = some x → x.1 = 0

def storedName (name : Name) : Name := (name.take dirsiz).takeWhile (· ≠ 0)

/-- An inode number as a directory entry keeps it. -/
abbrev storedInum (i : Nat) : Nat := i % 65536

end Entries

section Dirents

def direntOf (de : Nat → Byte) : Nat × Name := (get16 de 0, direntName de)

theorem direntOf_congr {de de' : Nat → Byte} (h : ∀ x < 16, de x = de' x) : direntOf de = direntOf de' := by
  have hnum : get16 de 0 = get16 de' 0 := get16_congr fun x hx => by
    rw [Nat.zero_add]
    exact h x (by omega)
  have hname : direntName de = direntName de' := by
    unfold direntName
    congr 1
    refine map_congr_left fun x hx => h (2 + x) ?_
    have := mem_range.mp hx
    simp only [dirsiz] at this
    omega
  rw [direntOf, direntOf, hnum, hname]

theorem takeWhile_padded (n : Nat) (name : Name) :
    ((range n).map fun i => name.getD i 0).takeWhile (· ≠ 0) = (name.take n).takeWhile (· ≠ 0) := by
  induction n generalizing name with
  | zero => simp
  | succ n ih =>
    rw [range_succ_eq_map, map_cons, map_map]
    cases name with
    | nil => simp
    | cons c name =>
      have hrest := ih name
      have hshift : ((fun i => (c :: name).getD i 0) ∘ Nat.succ) = fun i => name.getD i 0 := rfl
      rw [getD_cons_zero, take_succ_cons, takeWhile_cons, takeWhile_cons, hshift, hrest]

theorem direntOf_dirent (inum : Nat) (name : Name) : direntOf (dirent inum name) = (storedInum inum, storedName name) := by
  have hnum : get16 (dirent inum name) 0 = inum % 65536 := get16_of_bytes (by simp [dirent]) (by simp [dirent])
  have hname : direntName (dirent inum name) = storedName name := by
    unfold direntName storedName
    rw [← takeWhile_padded]
    congr 1
  rw [direntOf, hnum, hname]

end Dirents

namespace View

def dent (v : View) (i m : Nat) : Nat × Name := direntOf fun x => v.byte i (16 * m + x)

def dents (v : View) (i : Nat) : List (Nat × Name) := (range ((v.inode i).size / 16)).map (v.dent i)

def node (v : View) (i : Nat) : Node :=
  if (v.inode i).type = 0 then .free
  else ⟨(v.inode i).type, if (v.inode i).type = tDir then v.dents i else []⟩

def ns (sb : Superblock) (v : View) : Namespace := fun i => if i < sb.ninodes then v.node i else .free

def SolidDirs (sb : Superblock) (v : View) : Prop := ∀ i < sb.ninodes, (v.inode i).type = tDir → v.Solid i

end View

section Nodes

variable {sb : Superblock} {v w : View} {i m : Nat}

theorem View.ns_lt (hi : i < sb.ninodes) : v.ns sb i = v.node i := if_pos hi

@[simp]
theorem View.node_type (v : View) (i : Nat) : (v.node i).type = (v.inode i).type := by
  unfold View.node
  split
  next h => exact h.symm
  next => rfl

theorem View.node_dents (h : (v.inode i).type = tDir) : (v.node i).dents = v.dents i := by
  rw [View.node, if_neg (by rw [h]; decide)]
  exact if_pos h

theorem View.dents_length (v : View) (i : Nat) : (v.dents i).length = (v.inode i).size / 16 := by simp [View.dents]

theorem View.dents_get (hm : m < (v.inode i).size / 16) : (v.dents i)[m]? = some (v.dent i m) := by
  simp [View.dents, hm]

end Nodes

section Entries

variable {sb : Superblock} {v w : View} {i m : Nat} {f : Nat → Byte}

theorem getElem?_place {α : Type} {l : List α} {x : α} {j : Nat} (hm : m ≤ l.length) :
    (place l m x)[j]? = if j = m then some x else l[j]? := by
  unfold place
  by_cases hlt : m < l.length
  · rw [if_pos hlt, getElem?_set]
    by_cases hjm : j = m
    · simp [hjm, hlt]
    · simp [hjm, Ne.symm hjm]
  · have hlen : l.length = m := by omega
    rw [if_neg hlt, ← hlen, getElem?_append]
    by_cases hjl : j < l.length
    · rw [if_pos hjl, if_neg (by omega)]
    · rw [if_neg hjl]
      by_cases hjm : j = l.length
      · simp [hjm]
      · rw [if_neg hjm, getElem?_eq_none (by simp; omega), getElem?_eq_none (by omega)]

theorem Written.dents (h : Written sb i (16 * m) 16 v w) (hbytes : StoredBytes i (16 * m) 16 f v w) (hsolid : v.Solid i)
    (hoff : 16 * m ≤ (v.inode i).size) (hend : 16 * m + 16 ≤ maxfile * bsize) :
    w.dents i = place (v.dents i) m (direntOf f) := by
  have hsize : (w.inode i).size = max (v.inode i).size (16 * m + 16) := by rw [h.fields]
  have hm : m ≤ (v.dents i).length := by
    rw [View.dents_length]
    omega
  refine ext_getElem? fun j => ?_
  rw [getElem?_place hm]
  by_cases hj : j < (w.inode i).size / 16
  · rw [View.dents_get hj]
    by_cases hjm : j = m
    · rw [if_pos hjm, hjm]
      congr 1
      refine direntOf_congr fun x hx => ?_
      have hbn : (16 * m + x) / bsize < maxfile := by
        simp only [maxfile, ndirect, nindirect, bsize] at *
        omega
      rw [hbytes (16 * m + x) hbn (.inr (by omega)), if_pos (by omega), Nat.add_sub_cancel_left]
    · rw [if_neg hjm, View.dents_get (by omega)]
      congr 1
      refine direntOf_congr fun x hx => ?_
      obtain ⟨hbn, hne⟩ := hsolid.mapped (x := 16 * j + x) (by omega)
      rw [hbytes (16 * j + x) hbn (.inl hne), if_neg (by omega)]
  · rw [getElem?_eq_none (by rw [View.dents_length]; omega), if_neg (by omega),
      getElem?_eq_none (by rw [View.dents_length]; omega)]

theorem Written.dents_none (h : Written sb i (16 * m) 0 v w) (hbytes : StoredBytes i (16 * m) 0 f v w) (hsolid : v.Solid i)
    (hoff : 16 * m ≤ (v.inode i).size) : w.dents i = v.dents i := by
  have hsize : (w.inode i).size = (v.inode i).size := by
    rw [h.fields]
    exact max_eq_left (by omega)
  rw [View.dents, hsize, View.dents]
  refine map_congr_left fun j hj => direntOf_congr fun x hx => ?_
  have hlt := mem_range.mp hj
  obtain ⟨hbn, hne⟩ := hsolid.mapped (x := 16 * j + x) (by omega)
  rw [hbytes (16 * j + x) hbn (.inl hne), if_neg (by omega)]

end Entries

end Xv6.Fs
