import Xv6.FileBytes

namespace Xv6.Fs

open Count Prog List

def State.image (s : State) : View := s.disk.view s.sb

def State.refs (s : State) : Nat → ℤ := fun k => (s.itable k).ref

/-- Block ownership is exact, and no file has holes. -/
structure Exact (sb : Superblock) (v : View) : Prop where
  own : Own sb 0 v
  solid : ∀ i < sb.ninodes, (v.inode i).type ≠ 0 → v.Solid i

structure TableOk (s : State) : Prop where
  nonneg : ∀ k, 0 ≤ s.refs k
  range : ∀ k, 0 < s.refs k → k < ninode ∧ (s.itable k).inum < s.sb.ninodes
  synced : ∀ k, 0 < s.refs k → (s.itable k).valid = true →
    (s.itable k).din = s.image.inode (s.itable k).inum ∧ (s.image.inode (s.itable k).inum).type ≠ 0
  unique : ∀ j k, 0 < s.refs j → 0 < s.refs k → (s.itable j).inum = (s.itable k).inum → j = k

abbrev State.Held (s : State) (k i : Nat) : Prop := Loaded s.refs s.itable k i

/-- The states after calls of `writei` and `readi` on any inodes. Between the calls the log and the inode
table may change, but not the disk. -/
inductive FileRun (s : State) : State → Prop
  | start : FileRun s s
  | write {t u : State} {k i off n : Nat} {src : Source} {f : Nat → Byte} {r : Int} (h : FileRun s t)
    (hops : 0 < t.outstanding) (hk : t.Held k i) (hsrc : src.Copies f) (hcall : writei k src off n t = .ok (r, u)) :
    FileRun s u
  | read {t u : State} {k i off n : Nat} {r : Nat × (Nat → Byte)} (h : FileRun s t) (hk : t.Held k i)
    (hcall : readi k off n t = .ok (r, u)) : FileRun s u
  | between {t u : State} (h : FileRun s t) (hsuper : u.sb = t.sb) (hdisk : u.disk = t.disk) (htable : TableOk u) :
    FileRun s u

def View.Enough (sb : Superblock) (v : View) (i off n : Nat) : Prop :=
  v.missing i (off / bsize) (pastBlock (off + n)) ≤ v.free sb

/-- `writei` treats file `i` as an array of bytes, unless the transaction has no room in the log for two
blocks for each block of the file and two more. -/
def WritesBytes (s : State) (k i : Nat) : Prop :=
  ∀ off n src f, off < 2 ^ 32 → n < 2 ^ 32 → src.Copies f →
    wp (writei k src off n) (fun r t =>
      (s.image.Refused i off n → r = -1 ∧ t = s) ∧
      (¬ s.image.Refused i off n → s.image.Enough s.sb i off n →
        r = n ∧ (t.image.inode i).size = max (s.image.inode i).size (off + n) ∧
          t.image.contents i = overwrite (s.image.contents i) off ((List.range n).map f)) ∧
      ∀ j < s.sb.ninodes, j ≠ i → (s.image.inode j).type ≠ 0 →
        (t.image.inode j) = s.image.inode j ∧ t.image.contents j = s.image.contents j)
      (fun e => e = .panic "too big a transaction" ∧ s.logCap ≤ s.lh.length + (2 * touched off n + 2)) s

/-- `readi` reads from file `i` as from an array of bytes. -/
def ReadsBytes (s : State) (k i : Nat) : Prop :=
  ∀ off n, off < 2 ^ 32 → n < 2 ^ 32 →
    wp (readi k off n) (fun r t => t = s ∧ (List.range r.1).map r.2 =
        if uint (off + n) < off then [] else ((s.image.contents i).drop off).take n)
      (fun _ => False) s

section ByteArrays

variable {s t : State} {w : View} {R : Nat → ℤ} {k i off n : Nat} {src : Source} {f : Nat → Byte}

theorem TableOk.sim (hwf : s.sb.Wf) (h : TableOk s) (hown : Own s.sb 0 s.image) :
    Sim s.sb s.refs none 0 s.image s.disk s.itable where
  wf := hwf
  bits _ _ := rfl
  data _ _ _ := rfl
  inodes _ _ _ := rfl
  norm _ _ := dinodeAt_norm _ _
  refs := rfl
  nonneg := h.nonneg
  range := h.range
  table := h.synced
  unique := h.unique
  own := hown

theorem TableOk.of_sim (h : Sim t.sb R none 0 w t.disk t.itable) : TableOk t := by
  have hrefs : t.refs = R := h.refs
  refine ⟨fun k => hrefs ▸ h.nonneg k, fun k hk => h.range k (hrefs ▸ hk), fun k hk hv => ?_, fun j k hj hk => ?_⟩
  · have hpos : 0 < R k := hrefs ▸ hk
    rw [State.image, (h.image (h.range k hpos).2).inode]
    exact h.table k hpos hv
  · exact h.unique j k (hrefs ▸ hj) (hrefs ▸ hk)

def fileSetting (s : State) (hwf : s.sb.Wf) (hops : 0 < s.outstanding) : Setting :=
  ⟨s.sb, hwf, s.outstanding, hops, fun _ => True, fun _ => True, fun _ _ => trivial⟩

structure Sound (s : State) : Prop where
  wf : s.sb.Wf
  exact : Exact s.sb s.image
  table : TableOk s

theorem Sound.holds (h : Sound s) (hops : 0 < s.outstanding) : At (fileSetting s h.wf hops) s.refs none 0 s.image s :=
  ⟨rfl, rfl, h.table.sim h.wf h.exact.own, fun _ _ => trivial⟩

section Written

variable {hops : 0 < s.outstanding} {tot : Nat} (h : Sound s) (hat : At (fileSetting s h.wf hops) s.refs none 0 w t)
  (hw : Written s.sb i off tot s.image w)

include hat hw

section
variable (hk : s.Held k i) (hok : ¬ s.image.Refused i off n) (hcount : tot ≤ n)
include hk hok hcount

theorem Written.sound : Sound t := by
  have hsuper : t.sb = s.sb := hat.super
  have hsim : Sim t.sb s.refs none 0 w t.disk t.itable := hsuper.symm ▸ hat.sim
  refine ⟨hsim.wf, ⟨hsim.image_own, fun j hj htype => ?_⟩, .of_sim hsim⟩
  have himage := hsim.image hj
  have htypew : (w.inode j).type ≠ 0 := by
    rw [← himage.inode]
    exact htype
  refine himage.solid htypew ?_
  by_cases hji : j = i
  · subst hji
    have hsolid := h.exact.solid j (hsuper ▸ hj) (hk.type (h.holds hops).sim)
    unfold View.Refused at hok
    exact hw.solid hsolid (by omega) (by omega)
  · have hlt : j < s.sb.ninodes := hsuper ▸ hj
    have hsame := hw.only j hlt hji
    rw [hsame.inode] at htypew
    exact hsame.solid htypew (h.exact.solid j hlt htypew)

theorem Written.image (hbytes : StoredBytes i off tot f s.image w) :
    (t.image.inode i).size = max (s.image.inode i).size (off + tot) ∧
      t.image.contents i = overwrite (s.image.contents i) off ((range tot).map f) := by
  have hi : i < s.sb.ninodes := hk.lt (h.holds hops).sim
  have htype : (s.image.inode i).type ≠ 0 := hk.type (h.holds hops).sim
  have hsolid := h.exact.solid i hi htype
  have hsuper : t.sb = s.sb := hat.super
  have hsim : Sim t.sb s.refs none 0 w t.disk t.itable := hsuper.symm ▸ hat.sim
  have himage := hsim.image (i := i) (hsuper.symm ▸ hi)
  have hcase : off ≤ (s.image.inode i).size ∧ off + tot ≤ maxfile * bsize := by
    unfold View.Refused at hok
    omega
  have hwtype : (w.inode i).type ≠ 0 := by
    rw [hw.fields]
    exact htype
  constructor
  · rw [State.image, himage.inode, hw.fields]
  · rw [State.image, himage.contents hwtype (hw.solid hsolid hcase.1 hcase.2)]
    exact hw.contents hsolid hcase.1 hcase.2 hbytes

end

theorem Written.image_other {j : Nat} (hj : j < s.sb.ninodes) (hne : j ≠ i) (htype : (s.image.inode j).type ≠ 0) :
    t.image.inode j = s.image.inode j ∧ t.image.contents j = s.image.contents j := by
  have hsuper : t.sb = s.sb := hat.super
  have hsim : Sim t.sb s.refs none 0 w t.disk t.itable := hsuper.symm ▸ hat.sim
  have hsame := (hw.only j hj hne).trans (hsim.image (hsuper.symm ▸ hj))
  exact ⟨hsame.inode, hsame.contents htype (h.exact.solid j hj htype)⟩

end Written

theorem Sound.writesBytes (h : Sound s) (hops : 0 < s.outstanding) (hk : s.Held k i) : WritesBytes s k i := by
  intro off n src f _ _ hsrc
  refine ((writei_at (h.holds hops) hk).and (writei_cost hops)).mono ?_ fun e he => he.2
  rintro r t ⟨⟨hbad, rfl, rfl⟩ | ⟨hok, tot, w, rfl, hr⟩, -⟩
  · exact ⟨fun _ => ⟨rfl, rfl⟩, fun hok => absurd hbad hok, fun _ _ _ _ => ⟨rfl, rfl⟩⟩
  · refine ⟨fun hbad => absurd hbad hok, fun _ henough => ?_, fun j hj hne hj0 => hr.written.image_other h hr.holds hj hne hj0⟩
    have htot : tot = n := by
      by_contra hlt
      have hcount := hr.count
      have hfull := hr.full ⟨f, hsrc⟩ (by omega)
      exact absurd henough (Nat.not_le.mpr hfull)
    subst htot
    exact ⟨rfl, hr.written.image h hr.holds hk hok le_rfl (hr.bytes f hsrc)⟩

theorem Sound.readsBytes (h : Sound s) (hk : s.Held k i) : ReadsBytes s k i := by
  intro off n _ _
  have hsim := h.table.sim h.wf h.exact.own
  have hsolid := h.exact.solid i (hk.lt hsim) (hk.type hsim)
  refine (readi_at hsim hk hsolid).mono ?_ fun _ => id
  rintro r t ⟨rfl, hlen, hbytes⟩
  refine ⟨rfl, ?_⟩
  have hmap : (range r.1).map r.2 = (range r.1).map fun x => t.image.byte i (off + x) :=
    map_congr_left fun x hx => hbytes x (mem_range.mp hx)
  rw [hmap, hlen, View.readLen]
  by_cases hwrap : uint (off + n) < off
  · rw [if_pos (.inr hwrap), if_pos hwrap]
    rfl
  · rw [if_neg hwrap]
    refine ext_getElem ?_ fun x hx hx' => ?_
    · simp only [length_map, length_range, View.contents, length_take, length_drop, hwrap, or_false]
      split <;> omega
    · simp [View.contents]

theorem FileRun.sound (hs : Sound s) (hrun : FileRun s t) : Sound t := by
  induction hrun with
  | start => exact hs
  | @write t u k i off n src f r _ hops hk hsrc hcall ih =>
    have hspec := (writei_at (ih.holds hops) hk).of_ok hcall
    rcases hspec with ⟨-, -, rfl⟩ | ⟨hok, tot, w, -, hr⟩
    · exact ih
    · exact hr.written.sound ih hr.holds hk hok hr.count
  | @read t u k i off n r _ hk hcall ih =>
    have hsim := ih.table.sim ih.wf ih.exact.own
    have hsolid := ih.exact.solid i (hk.lt hsim) (hk.type hsim)
    obtain ⟨rfl, -⟩ := (readi_at (E := fun _ => True) hsim hk hsolid).of_ok hcall
    exact ih
  | between _ hsuper hdisk htable ih =>
    have himage : ∀ {t u : State}, u.sb = t.sb → u.disk = t.disk → u.image = t.image := fun hsb hd => by
      rw [State.image, hsb, hd, State.image]
    refine ⟨hsuper.symm ▸ ih.wf, ?_, htable⟩
    rw [himage hsuper hdisk, hsuper]
    exact ih.exact

/-- Along any sequence of `writei` and `readi` calls files are arrays of bytes. -/
theorem files_are_byte_arrays (hwf : s.sb.Wf) (hexact : Exact s.sb s.image) (htable : TableOk s) (hrun : FileRun s t) :
    Exact t.sb t.image ∧
      ∀ k i, t.Held k i → ReadsBytes t k i ∧ (0 < t.outstanding → WritesBytes t k i) := by
  have ht := hrun.sound ⟨hwf, hexact, htable⟩
  exact ⟨ht.exact, fun k i hk => ⟨ht.readsBytes hk, fun hops => ht.writesBytes hops hk⟩⟩

end ByteArrays

def smallSb : Superblock := ⟨100, 2, 30, 2, 32, 33⟩

def emptyFile : Dinode := { Dinode.zero with type := tFile, nlink := 1 }

def smallDisk : Disk :=
  Disk.setDinode smallSb (put (fun _ _ => 0) 33 fun i => if i < 4 then 255 else if i = 4 then 3 else 0) 1 emptyFile

def openFile : State :=
  { mount smallSb smallDisk with itable := put (fun _ => .empty) 0 ⟨1, 1, true, true, emptyFile⟩, outstanding := 1 }

section Small

variable {s : State}

theorem slot_none (hlt : ∀ i < s.sb.ninodes, i = 0 ∨ i = 1) (hfree : (s.image.inode 0).type = 0)
    (haddrs : (s.image.inode 1).addrs = fun _ => 0) : ∀ x ∈ grid s.sb.ninodes nslots, s.image.slot x = none := by
  rintro ⟨i, j⟩ hx
  rcases hlt i (mem_grid.mp hx).1 with rfl | rfl
  · simp [View.slot, hfree]
  · simp [View.slot, slotOf, haddrs, present_zero]

theorem Own.of_unused (hslots : ∀ x ∈ grid s.sb.ninodes nslots, s.image.slot x = none)
    (hdata : ∀ b < s.sb.size, s.sb.dstart ≤ b → s.image.bit b = false) (hlow : ∀ b < s.sb.dstart, s.image.bit b = true) :
    Own s.sb 0 s.image := by
  refine ⟨fun b => ?_, fun b hb _ => hlow b hb⟩
  rw [View.owned, holders_none hslots, View.dataBit, if_neg]
  · rfl
  · rintro ⟨hstart, hsize, hbit⟩
    rw [hdata b hsize hstart] at hbit
    exact absurd hbit (by decide)

theorem TableOk.of_one {d : Dinode} {locked : Bool} (hinum : 1 < s.sb.ninodes)
    (htable : s.itable = put (fun _ => .empty) 0 ⟨1, 1, true, locked, d⟩) (hd : s.image.inode 1 = d) (htype : d.type ≠ 0) : TableOk s := by
  have hempty : ∀ k, k ≠ 0 → s.itable k = .empty := fun k hk => by rw [htable, put_ne _ _ _ hk]
  have hfirst : s.itable 0 = ⟨1, 1, true, locked, d⟩ := by rw [htable, put_same]
  have hentry : ∀ k, 0 < s.refs k → k = 0 := by
    intro k hk
    by_contra hne
    rw [State.refs, hempty k hne] at hk
    exact absurd hk (by decide)
  refine ⟨fun k => ?_, fun k hk => ?_, fun k hk _ => ?_, fun j k hj hk _ => ?_⟩
  · by_cases hk : k = 0
    · rw [hk, State.refs, hfirst]
      exact zero_le_one
    · rw [State.refs, hempty k hk]
      exact le_refl 0
  · rw [hentry k hk, hfirst]
    exact ⟨by decide, hinum⟩
  · rw [hentry k hk, hfirst, hd]
    exact ⟨rfl, htype⟩
  · rw [hentry j hj, hentry k hk]

theorem emptyFile_norm : emptyFile.Norm :=
  ⟨by decide, by decide, by decide, by decide, by decide, fun _ => Nat.two_pow_pos 32, fun _ _ => rfl⟩

theorem smallSb_wf : smallSb.Wf := ⟨by decide, by decide, by decide⟩

theorem smallDisk_file : openFile.image.inode 1 = emptyFile := Disk.dinode_setDinode emptyFile_norm

theorem smallDisk_free : (openFile.image.inode 0).type = 0 := by decide +kernel

theorem openFile_slots : ∀ x ∈ grid openFile.sb.ninodes nslots, openFile.image.slot x = none :=
  slot_none (by decide) smallDisk_free (by rw [smallDisk_file]; rfl)

theorem openFile_solid : ∀ i < openFile.sb.ninodes, (openFile.image.inode i).type ≠ 0 → openFile.image.Solid i := by
  have hlt : ∀ i < openFile.sb.ninodes, i = 0 ∨ i = 1 := by decide
  intro i hi htype
  rcases hlt i hi with rfl | rfl
  · exact absurd smallDisk_free htype
  · intro bn hbn
    rw [smallDisk_file] at hbn
    exact absurd hbn (Nat.not_lt_zero _)

theorem openFile_exact : Exact openFile.sb openFile.image :=
  ⟨.of_unused openFile_slots (by decide +kernel) (by decide +kernel), openFile_solid⟩

theorem openFile_empty {k : Nat} (hk : k ≠ 0) : openFile.itable k = .empty :=
  put_ne (fun _ => Inode.empty) 0 _ hk

theorem openFile_table : TableOk openFile := .of_one (by decide) rfl smallDisk_file (by decide)

theorem openFile_held : openFile.Held 0 1 := ⟨by decide, rfl, rfl⟩

theorem openFile_byte_arrays : ∃ r t, writei 0 (.kernel fun _ => 7) 0 2 openFile = .ok (r, t) ∧ Exact t.sb t.image ∧
    ∀ k i, t.Held k i → ReadsBytes t k i ∧ (0 < t.outstanding → WritesBytes t k i) := by
  obtain ⟨r, t, hcall⟩ := exists_ok (m := writei 0 (.kernel fun _ => 7) 0 2) (s := openFile) (by decide +kernel)
  exact ⟨r, t, hcall, files_are_byte_arrays smallSb_wf openFile_exact openFile_table
    (.write .start (by decide) openFile_held (Source.kernel_copies _) hcall)⟩

/-- A write of 28 blocks in one transaction fills the log, although the disk has 66 free blocks. -/
theorem bigWrite_fills_log : openFile.sb.Wf ∧ Exact openFile.sb openFile.image ∧ TableOk openFile ∧ openFile.Held 0 1 ∧
    0 < openFile.outstanding ∧ ¬ openFile.image.Refused 1 0 28672 ∧ openFile.image.Enough openFile.sb 1 0 28672 ∧
    writei 0 (.kernel fun _ => 7) 0 28672 openFile = .error (.panic "too big a transaction") := by
  have hrun : (match writei 0 (.kernel fun _ => 7) 0 28672 openFile with
      | .ok _ => none
      | .error e => some e) = some (.panic "too big a transaction") := by decide +kernel
  refine ⟨smallSb_wf, openFile_exact, openFile_table, openFile_held, by decide, ?_, ?_, ?_⟩
  · unfold View.Refused
    rw [smallDisk_file]
    decide
  · have hmissing : openFile.image.missing 1 0 28 ≤ 29 := by
      have hcount := List.countP_le_length (p := fun bn => openFile.image.block 1 bn = 0) (l := List.range' 0 28)
      rw [List.length_range'] at hcount
      rw [View.missing, Nat.sub_zero]
      split <;> omega
    have hfree : 66 ≤ openFile.image.free openFile.sb := by decide +kernel
    exact hmissing.trans (le_trans (by decide) hfree)
  · cases h : writei 0 (.kernel fun _ => 7) 0 28672 openFile with
    | ok r =>
      rw [h] at hrun
      exact absurd hrun nofun
    | error e =>
      rw [h] at hrun
      exact congrArg Except.error (Option.some.inj hrun)

end Small

end Xv6.Fs
