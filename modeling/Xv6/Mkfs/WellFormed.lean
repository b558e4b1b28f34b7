import Xv6.Mkfs.ReadBack
import Xv6.ByteArrays

namespace Xv6.Mkfs

open Fs List View Count Prog

theorem length_dirent (e : Order) (inum : Nat) (name : List Byte) : (dirent e inum name).length = 16 := by
  simp only [dirent, length_append, length_take, length_replicate, length_cons, length_nil, dirsiz]
  omega

section Files

variable {v w : View} {s t : Image} {n m i : Nat} {F : Nat → List Byte} {p : List Byte}

structure Built (n m : Nat) (F : Nat → List Byte) (s : Image) (v : View) : Prop where
  holds : Holds n none v s
  files : Files n F v
  later : ∀ i, n ≤ i → F i = []
  root : (F rootino).length = 16 * m
  bare : ∀ bn, pastBlock (16 * m) ≤ bn → bn < ndirect → v.block rootino bn = 0
  null : (v.inode 0).type = 0

theorem Extended.bare (h : Extended i p v w) (bn : Nat) (hpast : pastBlock ((v.inode i).size + p.length) ≤ bn) (hbn : bn < ndirect)
    (hzero : v.block i bn = 0) : w.block i bn = 0 := by
  have hfirst : (v.inode i).size / bsize ≤ bn := by
    simp only [pastBlock, bsize] at *
    omega
  have hstep : ∀ u : View, u.missing i ((v.inode i).size / bsize) (bn + 1) =
      u.missing i ((v.inode i).size / bsize) bn + if u.block i bn = 0 then 1 else 0 := by
    intro u
    have hlen : bn + 1 - (v.inode i).size / bsize = bn - (v.inode i).size / bsize + 1 := by omega
    have hend : (v.inode i).size / bsize + 1 * (bn - (v.inode i).size / bsize) = bn := by omega
    rw [missing, missing, if_neg (by omega), if_neg (by omega), hlen, range'_concat, countP_append, hend]
    simp
  have hshort := h.spent _ bn le_rfl hpast
  have hlong := h.spent _ (bn + 1) le_rfl (by omega)
  rw [hstep v, hstep w, if_pos hzero] at hlong
  by_contra hmapped
  rw [if_neg hmapped] at hlong
  omega

theorem Extended.null (h : Extended i p v w) (hi : i ≠ 0) (hzero : (v.inode 0).type = 0) : (w.inode 0).type = 0 := by
  rw [(h.written.only 0 (by decide) hi.symm).inode]
  exact hzero

theorem missing_entry (v : View) (i n : Nat) : v.missing i (16 * n / bsize) (pastBlock (16 * n + 16)) ≤ 2 := by
  have hone : pastBlock (16 * n + 16) - 16 * n / bsize = 1 := by
    simp only [pastBlock, bsize]
    omega
  have hcount := countP_le_length (p := fun bn => decide (v.block i bn = 0)) (l := range' (16 * n / bsize) 1)
  rw [length_range'] at hcount
  rw [missing, hone]
  split <;> omega

theorem pastBlock_mono {a b : Nat} (h : a ≤ b) : pastBlock a ≤ pastBlock b := Nat.div_le_div_right (by omega)

section
variable (h : Built n m F s v)
include h

theorem Built.size_root (hroot : rootino < n) : (v.inode rootino).size = 16 * m :=
  (h.files.size_eq (by decide) hroot).trans h.root

theorem Built.append (hn : n ≤ ninodes) (hi : rootino < i) (hin : i < n) (ht : Holds n none w t)
    (hext : Extended i p v w) : Built n m (put F i (F i ++ p)) t w := by
  have hlt : rootino < ninodes := by decide
  have hsame : SameFile rootino v w := hext.written.only rootino hlt (by omega)
  refine ⟨ht, h.files.extend hn (by omega) hin hext, fun j hj => ?_, ?_, fun bn hpast hbn => ?_,
    hext.null (by omega) h.null⟩
  · rw [put_ne _ _ _ (by omega)]
    exact h.later j hj
  · rw [put_ne _ _ _ (by omega)]
    exact h.root
  · rw [hsame.block (h.files.type rootino (by decide) (by omega))]
    exact h.bare bn hpast hbn

theorem Built.entry {name : List Byte} (hn : n ≤ ninodes) (hroot : rootino < n) (hm : m < ninodes) :
    wp (iappend .little rootino (dirent .little i name)) (fun _ t => ∃ w,
        Built n (m + 1) (put F rootino (F rootino ++ dirent .little i name)) t w ∧ v.free kernelSb ≤ w.free kernelSb + 2)
      (fun _ => v.free kernelSb < 2) s := by
  have hsize := h.size_root hroot
  have hend : 16 * m + 16 = 16 * (m + 1) := by omega
  have hmissing := missing_entry v rootino m
  refine (iappend_holds h.holds (by omega) (h.files.type rootino (by decide) hroot)).mono ?_ ?_
  · rintro _ t ⟨w, ht, hext⟩
    have hspent := hext.spent _ _ le_rfl le_rfl
    have hbare := hext.bare
    rw [length_dirent, hsize] at hspent
    rw [length_dirent, hsize, hend] at hbare
    refine ⟨w, ⟨ht, h.files.extend hn (by decide) hroot hext, fun j hj => ?_, ?_, fun bn hpast hbn => hbare bn hpast hbn ?_,
      hext.null (by decide) h.null⟩, ?_⟩
    · rw [put_ne _ _ _ (by omega)]
      exact h.later j hj
    · rw [put_same, length_append, h.root, length_dirent]
      omega
    · exact h.bare bn ((pastBlock_mono (by omega)).trans hpast) hbn
    · omega
  · rintro _ hcramped
    rw [hsize, length_dirent] at hcramped
    rcases hcramped with hlong | hfull
    · have hlarge : 16 * ninodes ≤ maxfile * bsize := by decide
      omega
    · omega

theorem Built.create {type : Nat} (hroot : rootino < n) (htype : 0 < type)
    (ht : Holds (n + 1) none (v.setInode n (newInode type)) t) : Built (n + 1) m F t (v.setInode n (newInode type)) := by
  have hkeep : (v.setInode n (newInode type)).inode rootino = v.inode rootino := put_ne _ _ _ (by omega)
  have hnull : (v.setInode n (newInode type)).inode 0 = v.inode 0 := put_ne _ _ _ (by omega)
  refine ⟨ht, h.files.create htype (h.later n le_rfl), fun i hi => h.later i (by omega), h.root, fun bn hpast hbn => ?_, ?_⟩
  · rw [block, hkeep]
    exact h.bare bn hpast hbn
  · rw [hnull]
    exact h.null

end

theorem reads_built (reads : List (List Byte)) (h : Built n m F s v) (hn : n ≤ ninodes) (hi : rootino < i) (hin : i < n) :
    wp (reads.forM (iappend .little i)) (fun _ t => ∃ w, Built n m (put F i (F i ++ reads.flatten)) t w) (fun _ => True) s := by
  induction reads generalizing v s F with
  | nil =>
    refine wp_pure.mpr ⟨v, ?_⟩
    rw [flatten_nil, append_nil, put_eq_self]
    exact h
  | cons p reads ih =>
    show wp (iappend .little i p >>= fun _ => reads.forM (iappend .little i)) _ _ s
    rw [wp_bind]
    refine (iappend_holds h.holds (by omega) (h.files.type i (by omega) hin)).mono ?_ fun _ _ => trivial
    rintro _ t ⟨w, ht, hext⟩
    have hnext := ih (h.append hn hi hin ht hext)
    rw [put_same, put_put, append_assoc, ← flatten_cons] at hnext
    exact hnext

def withFile (n : Nat) (F : Nat → List Byte) (arg : Arg) : Nat → List Byte :=
  put (put F rootino (F rootino ++ dirent .little n arg.name)) n (arg.reads.getD []).flatten

structure Arg.Empty (arg : Arg) : Prop where
  flat : (47 : Byte) ∉ arg.shortname
  reads : arg.reads = some []
  short : arg.name.length ≤ dirsiz

theorem addFile_built (arg : Arg) (h : Built n n F s v) (hn : n < ninodes) (hroot : rootino < n) :
    wp (addFile .little arg) (fun _ t => ∃ w, Built (n + 1) (n + 1) (withFile n F arg) t w ∧
        (arg.Empty → v.free kernelSb ≤ w.free kernelSb + 2))
      (fun _ => arg.Empty → v.free kernelSb < 2) s := by
  have hlater := h.later n le_rfl
  rw [addFile, wp_ite]
  refine ⟨fun hslash => wp_throw.mpr fun hempty => absurd hslash hempty.flat, fun _ => ?_⟩
  cases hreads : arg.reads with
  | none => exact wp_throw.mpr fun hempty => nomatch hreads.symm.trans hempty.reads
  | some reads =>
    rw [wp_ite]
    refine ⟨fun hlong => wp_throw.mpr fun hempty => absurd hempty.short hlong, fun _ => ?_⟩
    rw [wp_bind]
    refine (ialloc_holds h.holds hn (by decide)).mono ?_ fun _ => id
    rintro inum t ⟨hinum, ht⟩
    rw [hinum]
    rw [wp_bind]
    refine ((h.create hroot (by decide) ht).entry hn (by omega) hn).mono ?_ fun _ hfull _ => hfull
    rintro _ u ⟨w, hbuilt, hspent⟩
    cases reads with
    | nil =>
      refine wp_pure.mpr ⟨w, ?_, fun _ => hspent⟩
      rw [withFile, hreads]
      have hself := put_eq_self (put F rootino (F rootino ++ dirent .little n arg.name)) n
      rw [put_ne F rootino _ (by omega : n ≠ rootino), hlater] at hself
      exact hself.symm ▸ hbuilt
    | cons first rest =>
      refine (reads_built (first :: rest) hbuilt hn hroot (Nat.lt_succ_self n)).mono ?_ fun _ _ hempty =>
        nomatch hreads.symm.trans hempty.reads
      rintro _ t' ⟨w', ht'⟩
      refine ⟨w', ?_, fun hempty => nomatch hreads.symm.trans hempty.reads⟩
      rw [put_ne F rootino _ (by omega : n ≠ rootino), hlater, nil_append] at ht'
      rw [withFile, hreads]
      exact ht'

def withFiles : Nat → (Nat → List Byte) → List Arg → Nat → List Byte
  | _, F, [] => F
  | n, F, arg :: args => withFiles (n + 1) (withFile n F arg) args

theorem addFiles_built (args : List Arg) (h : Built n n F s v) (hn : n + args.length ≤ ninodes) (hroot : rootino < n) :
    wp (args.forM (addFile .little)) (fun _ t => ∃ w, Built (n + args.length) (n + args.length) (withFiles n F args) t w)
      (fun _ => (∀ arg ∈ args, arg.Empty) → v.free kernelSb < 2 * args.length) s := by
  induction args generalizing n F v s with
  | nil => exact wp_pure.mpr ⟨v, h⟩
  | cons arg args ih =>
    rw [length_cons] at hn
    show wp (addFile .little arg >>= fun _ => args.forM (addFile .little)) _ _ s
    rw [wp_bind]
    refine (addFile_built arg h (by omega) hroot).mono ?_ fun _ hfull hempty => ?_
    · rintro _ t ⟨w, ht, hspent⟩
      refine (ih ht (by omega) (by omega)).mono ?_ fun _ hfull hempty => ?_
      · rintro _ u ⟨w', hu⟩
        rw [length_cons, show n + (args.length + 1) = n + 1 + args.length by omega]
        exact ⟨w', hu⟩
      · have hone := hspent (hempty arg mem_cons_self)
        have hrest := hfull fun a ha => hempty a (mem_cons_of_mem arg ha)
        rw [length_cons]
        omega
    · have hone := hfull (hempty arg mem_cons_self)
      rw [length_cons]
      omega

end Files

section Bitmap

theorem bitAt_usedBits (used b : Nat) : bitAt (usedBits used) b = decide (b < used) := by
  unfold usedBits
  induction used with
  | zero =>
    have hzero : bitAt (fun _ => 0) b = false := by simp [bitAt]
    simpa using hzero
  | succ used ih =>
    rw [range_succ, foldl_append, foldl_cons, foldl_nil, bitAt_setBitAt, ih]
    by_cases hb : b = used
    · simp [hb]
    · rw [if_neg hb, decide_eq_decide]
      omega

variable {v : View} {s : Image} {n i b : Nat}

def Image.marked (s : Image) : Disk := put s.disk kernelSb.bmapstart (usedBits s.freeblock)

theorem marked_bit (s : Image) (hb : b < bpb) : s.marked.bit kernelSb b = decide (b < s.freeblock) := by
  have hblock : kernelSb.bblock b = kernelSb.bmapstart := by
    rw [Superblock.bblock, Nat.div_eq_of_lt hb, Nat.zero_add]
  rw [Disk.bit, Image.marked, hblock, put_same, Nat.mod_eq_of_lt hb, bitAt_usedBits]

theorem Holds.sameFile_marked (h : Holds n none v s) (hi : i < ninodes) : SameFile i v (s.marked.view kernelSb) := by
  have hne : kernelSb.iblock i ≠ kernelSb.bmapstart := (kernelSb_wf.iblock_lt hi).ne
  refine ⟨?_, fun j hj b hb => ?_⟩
  · rw [h.inodes i hi nofun]
    show dinodeAt (s.marked (kernelSb.iblock i)) _ = _
    rw [Image.marked, put_ne _ _ _ hne]
    rfl
  · have hmem := h.own.mem_data le_rfl (mem_grid.mpr ⟨hi, hj⟩) hb
    have hlow := kernelSb.bmapstart_lt
    show s.marked b = v.data b
    rw [Image.marked, put_ne _ _ _ (by omega), h.data b (kernelSb_dstart ▸ hmem.1)]

theorem Holds.own_marked (h : Holds n none v s) : Own kernelSb 0 (s.marked.view kernelSb) := by
  have howned : owned kernelSb (s.marked.view kernelSb) = v.owned kernelSb :=
    owned_congr fun x hx => (h.sameFile_marked (mem_grid.mp hx).1).slot
  have hbit : ∀ b < kernelSb.size, (s.marked.view kernelSb).bit b = v.bit b := by
    intro b hb
    have hlt : b < bpb := lt_trans hb (by decide)
    rw [h.bits]
    exact marked_bit s hlt
  refine ⟨fun b => ?_, fun b hb hlt => (hbit b hlt).trans (h.own.low b hb hlt)⟩
  have hdata : dataBit kernelSb (s.marked.view kernelSb) b = v.dataBit kernelSb b := by
    unfold dataBit
    by_cases hlt : b < kernelSb.size
    · rw [hbit b hlt]
    · rw [if_neg (by omega), if_neg (by omega)]
  rw [howned, hdata]
  exact h.own.total b

end Bitmap

/-- The size of the root directory that mkfs writes last. -/
def rounded (size : Nat) : Nat := (size / bsize + 1) * bsize

section Main

variable {v w : View} {s t : Image} {n i : Nat} {F : Nat → List Byte}

theorem withFiles_lt (args : List Arg) (hin : i < n) (hi : i ≠ rootino) : withFiles n F args i = F i := by
  induction args generalizing n F with
  | nil => rfl
  | cons arg args ih =>
    rw [withFiles, ih (by omega), withFile, put_ne _ _ _ (by omega), put_ne _ _ _ hi]

theorem withFiles_file {args : List Arg} {j : Nat} {arg : Arg} (hroot : rootino < n) (hj : args[j]? = some arg) :
    withFiles n F args (n + j) = (arg.reads.getD []).flatten := by
  induction args generalizing n F j with
  | nil => simp at hj
  | cons first args ih =>
    cases j with
    | zero =>
      obtain rfl : first = arg := by simpa using hj
      show withFiles (n + 1) _ args n = _
      rw [withFiles_lt _ (by omega) (by omega), withFile, put_same]
    | succ j =>
      rw [withFiles, show n + (j + 1) = n + 1 + j by omega]
      exact ih (by omega) (by simpa using hj)

theorem withFiles_root (args : List Arg) (hroot : rootino < n) :
    withFiles n F args rootino = F rootino ++ (args.zipIdx n).flatMap fun x => dirent .little x.2 x.1.name := by
  induction args generalizing n F with
  | nil => simp [withFiles]
  | cons arg args ih =>
    rw [withFiles, ih (by omega), withFile, put_ne _ _ _ (by omega), put_same, zipIdx_cons, flatMap_cons,
      append_assoc]

def dots : List Byte := dirent .little rootino [46] ++ dirent .little rootino [46, 46]

/-- The image has what the kernel relies on. -/
structure WellFormed (args : List Arg) (s : Image) : Prop where
  boot : s.disk 0 = fun _ => 0
  super : readsb s.disk = kernelSb
  count : s.freeinode = args.length + 2 ∧ s.freeinode ≤ kernelSb.ninodes
  used : ∀ i < kernelSb.ninodes, ((s.disk.view kernelSb).inode i).type ≠ 0 ↔ 0 < i ∧ i < s.freeinode
  mapped : ∀ i, 0 < i → i < s.freeinode → ∀ bn, bn * bsize < ((s.disk.view kernelSb).inode i).size →
    bn < maxfile ∧ nmeta ≤ (s.disk.view kernelSb).block i bn ∧ (s.disk.view kernelSb).block i bn < kernelSb.size
  distinct : ∀ i j b, ∀ l < nslots, ∀ m < nslots, i < kernelSb.ninodes → j < kernelSb.ninodes →
    (s.disk.view kernelSb).slot (i, l) = some b → (s.disk.view kernelSb).slot (j, m) = some b → i = j ∧ l = m
  bitmap : ∀ b < bpb, s.disk.bit kernelSb b = true ↔
    b < nmeta ∨ ∃ i < kernelSb.ninodes, ∃ l < nslots, (s.disk.view kernelSb).slot (i, l) = some b
  apart : ∀ i < s.freeinode, kernelSb.logstart + kernelSb.nlog ≤ kernelSb.iblock i ∧ kernelSb.iblock i < kernelSb.bmapstart
  files : ∀ j arg, args[j]? = some arg → (s.disk.view kernelSb).contents (j + 2) = (arg.reads.getD []).flatten
  root : ((s.disk.view kernelSb).inode rootino).size = rounded (16 * (args.length + 2)) ∧
    ((s.disk.view kernelSb).contents rootino).take (16 * (args.length + 2)) =
      dots ++ (args.zipIdx 2).flatMap fun x => dirent .little x.2 x.1.name

def roundedInode (d : Dinode) : Dinode := { d with size := rounded d.size }

def resized (w : View) : View := w.setInode rootino (roundedInode (w.inode rootino))

theorem resized_inode (w : View) (hi : i ≠ rootino) : (resized w).inode i = w.inode i := put_ne _ _ _ hi

theorem resized_root (w : View) : (resized w).inode rootino = roundedInode (w.inode rootino) := by
  rw [resized, setInode_inode, put_same]

theorem resized_block (w : View) (i bn : Nat) : (resized w).block i bn = w.block i bn := by
  by_cases hi : i = rootino
  · subst hi
    simp only [block, slotOf, resized_root]
    rfl
  · simp only [block, resized_inode w hi]
    rfl

theorem resized_byte (w : View) (i x : Nat) : (resized w).byte i x = w.byte i x := by
  rw [byte, resized_block]
  rfl

structure Ended (n : Nat) (F : Nat → List Byte) (w : View) (s t : Image) : Prop where
  built : ∃ u, Built n n F u w
  holds : Holds n none (resized w) s
  disk : t.disk = s.marked
  count : t.freeinode = s.freeinode

theorem finish_ended {E : Stop → Prop} (h : Built n n F s w) (hroot : rootino < n) (hn : n ≤ ninodes) :
    wp (do
        let din ← rinode .little rootino
        let off := (xint .little din.size / bsize + 1) * bsize
        winode .little rootino { din with size := xint .little off }
        balloc .little (← get).freeblock) (fun _ t => ∃ u, Ended n F w u t) E s := by
  have hin : rootino < ninodes := by decide
  have hfits := rawAt_fits (s.disk (kernelSb.iblock rootino)) (64 * (rootino % ipb))
  have hdin : w.inode rootino = (rawAt .little (s.disk (kernelSb.iblock rootino)) (64 * (rootino % ipb))).dinode :=
    h.holds.inodes rootino hin nofun
  have hsize : (rawAt .little (s.disk (kernelSb.iblock rootino)) (64 * (rootino % ipb))).size = (w.inode rootino).size := by
    rw [hdin]
    rfl
  have htype := h.files.type rootino (by decide) hroot
  have hdirty : Holds n (some rootino) w s := { h.holds with inodes := fun i' hi' _ => h.holds.inodes i' hi' nofun }
  have hoff : rounded (w.inode rootino).size < 2 ^ 32 := by
    have hninodes : ninodes = 200 := rfl
    rw [h.size_root hroot, rounded]
    simp only [bsize]
    omega
  rw [wp_bind, wp_rinode hin h.holds.len, xint_of_lt hfits.size, hsize]
  have hwide := hfits.withSize hoff
  rw [wp_bind]
  show wp (winode .little rootino { rawAt .little (s.disk (kernelSb.iblock rootino)) (64 * (rootino % ipb)) with
    size := xint .little (rounded (w.inode rootino).size) }) _ _ s
  rw [xint_of_lt hoff, wp_winode hin h.holds.len hwide, wp_bind, wp_get]
  have hnew : ({ rawAt .little (s.disk (kernelSb.iblock rootino)) (64 * (rootino % ipb)) with
      size := rounded (w.inode rootino).size } : Raw).dinode = roundedInode (w.inode rootino) := by
    rw [hdin]
    rfl
  have hnorm := hnew ▸ hwide.norm
  rw [hnew]
  have hflush := hdirty.flush (d := roundedInode (w.inode rootino)) hin htype rfl rfl hnorm
  have hused : s.freeblock < bpb := lt_of_le_of_lt h.holds.last (by decide)
  have hsector : kernelSb.bmapstart < 2 ^ 22 := by decide
  have hbelow : kernelSb.bmapstart < fssize := by decide
  have hlen := h.holds.len
  rw [balloc, wp_ite]
  refine ⟨fun hbad => absurd hused hbad, fun _ => ?_⟩
  refine (wp_wsect (s := { s with disk := s.disk.setDinode kernelSb rootino _ }) hsector (hlen ▸ hbelow)).mpr ?_
  exact ⟨_, ⟨s, h⟩, hflush, rfl, rfl⟩

theorem main_ended (args : List Arg) (hargs : args.length + 2 ≤ ninodes) :
    wp (main .little args) (fun _ t => ∃ w u, Ended (2 + args.length) (withFiles 2 (put (fun _ => []) rootino dots) args) w u t)
      (fun _ => ¬ ∀ arg ∈ args, arg.Empty) (start .little) := by
  have hone : 1 < ninodes := by decide
  have htwo : 2 ≤ ninodes := by decide
  have hfree : blank.free kernelSb = fssize - nmeta := start_holds.free_eq
  have hroom : 2 * args.length + 4 < fssize - nmeta := lt_of_le_of_lt (show _ ≤ 2 * ninodes by omega) (by decide)
  rw [main, wp_bind]
  refine (ialloc_holds start_holds hone (by decide)).mono ?_ fun _ => id
  rintro root s ⟨rfl, hs⟩
  have hroot : Built 2 0 (fun _ => []) s (blank.setInode 1 (newInode 1)) := by
    refine ⟨hs, files_blank.create (by decide) rfl, fun _ _ => rfl, rfl, fun bn _ hbn => ?_, rfl⟩
    rw [block, setInode_inode, put_same, slotOf, fileSlot, if_pos hbn, if_pos hbn.le]
    rfl
  refine wp_ite.mpr ⟨fun hbad => absurd rfl hbad, fun _ => ?_⟩
  have hblank : (blank.setInode 1 (newInode 1)).free kernelSb = blank.free kernelSb := rfl
  rw [wp_bind]
  refine (hroot.entry htwo (by decide) (by decide)).mono ?_ fun _ hfull => ?_
  · rintro _ t ⟨w, hdot, hspent⟩
    rw [wp_bind]
    refine (hdot.entry htwo (by decide) (by decide)).mono ?_ fun _ hfull => ?_
    · rintro _ u ⟨w', hdots, hspent'⟩
      rw [put_same, put_put, nil_append] at hdots
      rw [wp_bind]
      refine (addFiles_built args hdots (by omega) (by decide)).mono ?_ fun _ hfull hempty => ?_
      · rintro _ t' ⟨w'', ht'⟩
        refine (finish_ended ht' (by have hroot : rootino = 1 := rfl; omega) (by omega)).mono ?_ fun _ => id
        rintro _ t'' ⟨u', hend⟩
        exact ⟨w'', u', hend⟩
      · have hlow := hfull hempty
        omega
    · omega
  · omega

section Ended

variable {u : Image}

section
variable (h : Ended n F w u t)
include h

theorem Ended.sameFile (hi : i < ninodes) : SameFile i (resized w) (t.disk.view kernelSb) := by
  rw [h.disk]
  exact h.holds.sameFile_marked hi

theorem Ended.own : Own kernelSb 0 (t.disk.view kernelSb) := by
  rw [h.disk]
  exact h.holds.own_marked

theorem Ended.type (hi : 0 < i) (hin : i < n) : ((resized w).inode i).type ≠ 0 := by
  obtain ⟨s, hs⟩ := h.built
  by_cases hroot : i = rootino
  · rw [hroot, resized_root]
    exact hs.files.type rootino (by decide) (hroot ▸ hin)
  · rw [resized_inode w hroot]
    exact hs.files.type i hi hin

theorem Ended.null : ((resized w).inode 0).type = 0 := by
  obtain ⟨s, hs⟩ := h.built
  rw [resized_inode w (by decide)]
  exact hs.null

theorem Ended.low {b : Nat} (hb : b < 2) : t.disk b = (start .little).disk b := by
  have hne : b ≠ kernelSb.bmapstart := by
    show b ≠ 45
    omega
  rw [h.disk, Image.marked, put_ne _ _ _ hne]
  exact h.holds.low b hb

theorem Ended.solid (hi : 0 < i) (hin : i < n) (hfull : n % 64 ≠ 0) : (resized w).Solid i := by
  obtain ⟨s, hs⟩ := h.built
  intro bn hbn
  rw [resized_block]
  refine hs.files.solid i hi hin bn ?_
  by_cases hroot : i = rootino
  · subst hroot
    rw [resized_root] at hbn
    have hbn : bn * bsize < rounded (w.inode rootino).size := hbn
    rw [hs.size_root hin] at hbn ⊢
    simp only [rounded, bsize] at *
    omega
  · rwa [resized_inode w hroot] at hbn

theorem Ended.contents (hi : 0 < i) (hin : i < n) (hroot : i ≠ rootino) : (resized w).contents i = F i := by
  obtain ⟨s, hs⟩ := h.built
  rw [← hs.files.contents i hi hin, View.contents, View.contents, resized_inode w hroot]
  exact map_congr_left fun x _ => resized_byte w i x

theorem Ended.contents_root (hroot : rootino < n) :
    ((resized w).inode rootino).size = rounded (16 * n) ∧ ((resized w).contents rootino).take (16 * n) = F rootino := by
  obtain ⟨s, hs⟩ := h.built
  have hsize : ((resized w).inode rootino).size = rounded (16 * n) := by
    rw [resized_root, ← hs.size_root hroot]
    rfl
  have hle : 16 * n ≤ rounded (16 * n) := by
    simp only [rounded, bsize]
    omega
  refine ⟨hsize, ?_⟩
  rw [← hs.files.contents rootino (by decide) hroot, View.contents, hsize, ← map_take, take_range, min_eq_left hle,
    View.contents, hs.size_root hroot]
  exact map_congr_left fun x _ => resized_byte w rootino x

theorem Ended.bitmap {b : Nat} (hb : b < bpb) : t.disk.bit kernelSb b = true ↔
    b < nmeta ∨ ∃ i < kernelSb.ninodes, ∃ l < nslots, (t.disk.view kernelSb).slot (i, l) = some b := by
  have hbit : t.disk.bit kernelSb b = decide (b < u.freeblock) := by
    rw [h.disk]
    exact marked_bit u hb
  have hfirst := h.holds.first
  have hlast : u.freeblock ≤ kernelSb.size := h.holds.last
  constructor
  · intro hset
    have hused := of_decide_eq_true (hbit ▸ hset)
    by_cases hlow : b < nmeta
    · exact .inl hlow
    · refine .inr ?_
      have htotal := h.own.total b
      rw [dataBit, if_pos ⟨kernelSb_dstart ▸ not_lt.mp hlow, by omega, hset⟩, Pi.zero_apply, add_zero] at htotal
      obtain ⟨⟨i, l⟩, hmem, hslot⟩ := exists_of_holders_pos (show 0 < (t.disk.view kernelSb).owned kernelSb b by omega)
      obtain ⟨hi, hl⟩ := mem_grid.mp hmem
      exact ⟨i, hi, l, hl, hslot⟩
  · rintro (hlow | ⟨i, hi, l, hl, hslot⟩)
    · rw [hbit]
      exact decide_eq_true (by omega)
    · exact (h.own.mem_data le_rfl (mem_grid.mpr ⟨hi, hl⟩) hslot).2.2

/-- The rounded size covers a block that mkfs never allocated if the entries fill their blocks. -/
theorem Ended.hole (hroot : rootino < n) (hn : n ≤ ninodes) (hfull : n % 64 = 0) :
    (t.disk.view kernelSb).block rootino (n / 64) = 0 := by
  obtain ⟨s, hs⟩ := h.built
  have hninodes : ninodes = 200 := rfl
  rw [(h.sameFile (show rootino < ninodes by decide)).block (h.type (by decide) hroot), resized_block]
  refine hs.bare _ ?_ (show n / 64 < 12 by omega)
  simp only [pastBlock, bsize]
  omega

end

end Ended

theorem Ended.wellFormed {args : List Arg} {u : Image}
    (h : Ended (2 + args.length) (withFiles 2 (put (fun _ => []) rootino dots) args) w u s)
    (hargs : args.length + 2 ≤ ninodes) (hfull : (args.length + 2) % 64 ≠ 0) :
    WellFormed args s ∧ Exact kernelSb (s.disk.view kernelSb) := by
  have hroot : rootino < 2 + args.length := by
    have hone : rootino = 1 := rfl
    omega
  have hcount : s.freeinode = args.length + 2 := by
    rw [h.count, h.holds.count]
    omega
  have hin : ∀ i, i < s.freeinode → i < 2 + args.length ∧ i < ninodes := fun i hi => by omega
  have hused : ∀ i < kernelSb.ninodes, ((s.disk.view kernelSb).inode i).type ≠ 0 ↔ 0 < i ∧ i < s.freeinode := by
    intro i hi
    rw [(h.sameFile hi).inode]
    refine ⟨fun htype => ⟨Nat.pos_of_ne_zero ?_, Nat.lt_of_not_le fun hle => ?_⟩, fun hlt => h.type hlt.1 (hin i hlt.2).1⟩
    · rintro rfl
      exact htype h.null
    · exact htype (h.holds.unused i hi (by omega))
  have hsolid : ∀ i, 0 < i → i < s.freeinode → (s.disk.view kernelSb).Solid i := by
    intro i hi hlt
    have hbelow := hin i hlt
    exact (h.sameFile hbelow.2).solid (h.type hi hbelow.1) (h.solid hi hbelow.1 (by omega))
  refine ⟨⟨h.low (by decide), readsb_eq (h.low (by decide)), ⟨hcount, ?_⟩, hused,
    fun i hi hlt bn hbn => ?_, fun i j b l hl m hm hi hj hli hmj => ?_, fun b hb => h.bitmap hb,
    fun i hi => ?_, fun j arg hj => ?_, ?_⟩, h.own, fun i hi htype => ?_⟩
  · rw [hcount]
    exact hargs
  · obtain ⟨hmax, hne⟩ := hsolid i hi hlt bn hbn
    have hbelow := (hin i hlt).2
    have hslot : (s.disk.view kernelSb).slot (i, fileSlot bn) = some ((s.disk.view kernelSb).block i bn) :=
      slot_eq_some.mpr ⟨(hused i hbelow).mpr ⟨hi, hlt⟩, rfl, hne⟩
    have hmem := h.own.mem_data le_rfl (mem_grid.mpr ⟨hbelow, fileSlot_lt hmax⟩) hslot
    exact ⟨hmax, kernelSb_dstart ▸ hmem.1, hmem.2.1⟩
  · exact Prod.ext_iff.mp (h.own.unique le_rfl (mem_grid.mpr ⟨hi, hl⟩) (mem_grid.mpr ⟨hj, hm⟩) hli hmj)
  · have hlog : kernelSb.logstart + kernelSb.nlog ≤ kernelSb.inodestart := by decide
    exact ⟨hlog.trans (Nat.le_add_left _ _), kernelSb_wf.iblock_lt (hin i hi).2⟩
  · have hlt : j < args.length := (List.getElem?_eq_some_iff.mp hj).1
    have hfile := withFiles_file (F := put (fun _ => []) rootino dots) (show rootino < 2 by decide) hj
    rw [Nat.add_comm 2 j] at hfile
    have htype := h.type (show 0 < j + 2 by omega) (by omega)
    rw [(h.sameFile (show j + 2 < ninodes by omega)).contents htype (h.solid (by omega) (by omega) (by omega)),
      h.contents (by omega) (by omega) (by have hone : rootino = 1 := rfl; omega)]
    exact hfile
  · obtain ⟨hsize, htake⟩ := h.contents_root hroot
    have hsame := h.sameFile (show rootino < ninodes by decide)
    rw [withFiles_root args (by decide), put_same] at htake
    rw [hsame.inode, hsame.contents (h.type (by decide) hroot) (h.solid (by decide) hroot (by omega)),
      Nat.add_comm args.length 2]
    exact ⟨hsize, htake⟩
  · exact hsolid i ((hused i hi).mp htype).1 ((hused i hi).mp htype).2

section Swapped

variable {e : Order}

def Spent (s : Image) : Prop := 0 < s.freeblock

theorem rsect_spent (sec : Nat) : Preserves Spent (fun _ => True) (rsect sec) :=
  .get fun _ => .ite (.throw_bind trivial) (.pure _)

theorem wsect_spent (sec : Nat) (buf : Block) : Preserves Spent (fun _ => True) (wsect sec buf) := fun _ hs => wp_modify.mpr hs

theorem winode_spent (inum : Nat) (ip : Raw) : Preserves Spent (fun _ => True) (winode e inum ip) :=
  .bind (rsect_spent _) fun _ => wsect_spent _ _

theorem rinode_spent (inum : Nat) : Preserves Spent (fun _ => True) (rinode e inum) :=
  .bind (rsect_spent _) fun _ => .pure _

theorem ialloc_spent (type : Nat) : Preserves Spent (fun _ => True) (ialloc e type) := by
  intro s hs
  rw [ialloc, wp_bind, wp_get, wp_bind, wp_set]
  exact Preserves.bind (winode_spent _ _) (fun _ => .pure _) _ hs

theorem nextBlock_spent : Preserves Spent (fun _ => True) nextBlock := by
  intro s _
  rw [nextBlock, wp_bind, wp_get, wp_bind, wp_set, wp_pure]
  exact Nat.succ_pos _

theorem addrFor_spent (din : Raw) (j : Nat) : Preserves Spent (fun _ => True) (addrFor e din j) :=
  .ite (.bind nextBlock_spent fun _ => .pure _) (.pure _)

theorem entryFor_spent (a j : Nat) : Preserves Spent (fun _ => True) (entryFor e a j) :=
  .bind (rsect_spent _) fun _ => .ite (.bind nextBlock_spent fun _ => .bind (wsect_spent _ _) fun _ => .pure _) (.pure _)

theorem blockFor_spent (din : Raw) (fbn : Nat) : Preserves Spent (fun _ => True) (blockFor e din fbn) :=
  .ite (.bind (addrFor_spent _ _) fun _ => .pure _)
    (.bind (addrFor_spent _ _) fun _ => .bind (entryFor_spent _ _) fun _ => .pure _)

theorem appendLoop_spent (fuel : Nat) (din : Raw) (off : Nat) (p : List Byte) :
    Preserves Spent (fun _ => True) (appendLoop e fuel din off p) := by
  induction fuel generalizing din off p with
  | zero => exact .pure _
  | succ fuel ih =>
    refine .ite (.ite (.throw_bind trivial) ?_) (.pure _)
    exact .bind (blockFor_spent _ _) fun _ => .bind (rsect_spent _) fun _ => .bind (wsect_spent _ _) fun _ => ih _ _ _

theorem iappend_spent (inum : Nat) (p : List Byte) : Preserves Spent (fun _ => True) (iappend e inum p) :=
  .bind (rinode_spent _) fun _ => .bind (appendLoop_spent _ _ _ _) fun _ => winode_spent _ _

theorem addFile_spent (arg : Arg) : Preserves Spent (fun _ => True) (addFile e arg) := by
  refine .ite (.throw_bind trivial) ?_
  cases arg.reads with
  | none => exact .throw trivial
  | some reads =>
    refine .ite (.throw_bind trivial) (.bind (ialloc_spent _) fun _ => ?_)
    exact .bind (iappend_spent _ _) fun _ => .forM fun _ _ => iappend_spent _ _

/-- `bmapstart` in the host's order times the block size is a multiple of 2^32, so the bitmap goes to block 0. -/
theorem main_boot (args : List Arg) : wp (main .big args) (fun _ t => bitAt (t.disk 0) 0 = true) (fun _ => True) (start .big) := by
  have hsector : sector (sb .big).bmapstart = 0 := by decide
  rw [main]
  refine (ialloc_spent 1 (start .big) (by decide : 0 < nmeta)).bind fun root s hs => ?_
  rw [wp_ite]
  refine ⟨fun _ => wp_bind.mpr (wp_throw.mpr trivial), fun _ => ?_⟩
  refine (iappend_spent _ _ s hs).bind fun _ s hs => (iappend_spent _ _ s hs).bind fun _ s hs => ?_
  refine (Preserves.forM (fun arg _ => addFile_spent arg) s hs).bind fun _ s hs => ?_
  refine (rinode_spent _ s hs).bind fun din s hs => (winode_spent _ _ s hs).bind fun _ s hs => ?_
  rw [wp_bind, wp_get, balloc, wp_ite]
  refine ⟨fun _ => wp_bind.mpr (wp_throw.mpr trivial), fun _ => ?_⟩
  rw [wsect, wp_modify, hsector]
  show bitAt (put s.disk 0 (usedBits s.freeblock) 0) 0 = true
  rw [put_same, bitAt_usedBits]
  exact decide_eq_true hs

end Swapped

/-- The image that mkfs leaves is well formed iff the host is little-endian, there are fewer files than inodes and
the last block of the root directory is not full. -/
theorem image_wellFormed {e : Order} {args : List Arg} {x : Unit} (hrun : main e args (start e) = .ok (x, s)) :
    WellFormed args s ∧ Exact kernelSb (s.disk.view kernelSb) ↔
      e = .little ∧ args.length + 2 ≤ ninodes ∧ (args.length + 2) % 64 ≠ 0 := by
  constructor
  · rintro ⟨hwf, -⟩
    have he : e = .little := by
      cases e with
      | little => rfl
      | big =>
        have hbit := (main_boot args).of_ok hrun
        rw [hwf.boot] at hbit
        exact absurd hbit (by decide)
    subst he
    have hargs : args.length + 2 ≤ ninodes := hwf.count.1 ▸ hwf.count.2
    refine ⟨rfl, hargs, fun hfull => ?_⟩
    obtain ⟨w, u, h⟩ := (main_ended args hargs).of_ok hrun
    have hroot : rootino < 2 + args.length := by
      have hone : rootino = 1 := rfl
      omega
    have hhole := h.hole hroot (by omega) (by omega)
    have hcovered : (2 + args.length) / 64 * bsize < ((s.disk.view kernelSb).inode rootino).size := by
      rw [hwf.root.1]
      simp only [rounded, bsize]
      omega
    obtain ⟨-, hlow, -⟩ := hwf.mapped rootino (by decide) (by rw [hwf.count.1]; omega) _ hcovered
    exact absurd (hhole ▸ hlow) (by decide)
  · rintro ⟨rfl, hargs, hfull⟩
    obtain ⟨w, u, h⟩ := (main_ended args hargs).of_ok hrun
    exact h.wellFormed hargs hfull

def oneFile : List Arg := [⟨[97], some [[1, 2], [3]]⟩]

theorem oneFile_wellFormed : ∃ s, main .little oneFile (start .little) = .ok ((), s) ∧ WellFormed oneFile s := by
  obtain ⟨_, s, hrun⟩ := exists_ok (m := main .little oneFile) (s := start .little) (by decide +kernel)
  exact ⟨s, hrun, ((image_wellFormed hrun).mpr (by decide)).1⟩

def emptyFiles : List Arg := (range 62).map fun j => ⟨[BitVec.ofNat 8 (100 + j)], some []⟩

/-- The entries of 62 files and the two of the directory itself fill a block. The rounded size then covers one
block more, which mkfs never allocated. -/
theorem emptyFiles_root_hole : (emptyFiles.map Arg.name).Nodup ∧ emptyFiles.length + 2 ≤ ninodes ∧
    ∃ s, main .little emptyFiles (start .little) = .ok ((), s) ∧ ((s.disk.view kernelSb).inode rootino).size = 2 * bsize ∧
      (s.disk.view kernelSb).block rootino 1 = 0 := by
  have hcount : emptyFiles.length + 2 ≤ ninodes := by decide
  have hempty : ∀ arg ∈ emptyFiles, arg.Empty := by
    have hall : ∀ arg ∈ emptyFiles, (47 : Byte) ∉ arg.shortname ∧ arg.reads = some [] ∧ arg.name.length ≤ dirsiz := by
      decide +kernel
    exact fun arg harg => ⟨(hall arg harg).1, (hall arg harg).2.1, (hall arg harg).2.2⟩
  obtain ⟨_, s, hrun, w, u, h⟩ := ((main_ended emptyFiles hcount).mono (fun _ _ => id) fun _ hbad => hbad hempty).total
  have hsame := h.sameFile (show rootino < ninodes by decide)
  refine ⟨by decide +kernel, hcount, s, hrun, ?_, ?_⟩
  · rw [hsame.inode]
    exact (h.contents_root (by decide)).1
  · exact h.hole (by decide) (by decide) (by decide)

end Main

end Xv6.Mkfs
