import Xv6.Mkfs.Append

namespace Xv6.Mkfs

open Fs List Count Prog

structure Files (n : Nat) (F : Nat → List Byte) (v : View) : Prop where
  type : ∀ i, 0 < i → i < n → (v.inode i).type ≠ 0
  solid : ∀ i, 0 < i → i < n → v.Solid i
  contents : ∀ i, 0 < i → i < n → v.contents i = F i

section Start

theorem dinodeAt_zero (o : Nat) : dinodeAt (fun _ => 0) o = .zero := by
  have haddrs : (fun k => if k ≤ ndirect then get32 (fun _ => 0) (o + 12 + 4 * k) else 0) = fun _ => 0 := by
    funext k
    split <;> rfl
  have hshort : ∀ o : Nat, toShort (get16 (fun _ => 0) o : Nat) = 0 := fun _ => by simp [toShort, get16]
  unfold dinodeAt
  rw [haddrs, hshort, hshort, hshort, hshort]
  rfl

def blank : View := ⟨fun _ => .zero, fun b => decide (b < nmeta), fun _ _ => 0⟩

theorem start_holds : Holds 1 none blank (start .little) := by
  have hdisk : ∀ b, b ≠ 1 → (start .little).disk b = fun _ => 0 := fun b hb =>
    put_ne (fun _ _ => (0 : Byte)) 1 _ hb
  have hone : 1 < nmeta := by decide
  refine ⟨rfl, fun _ _ _ => rfl, rfl, fun _ _ => rfl, le_rfl, by decide, rfl, fun b hb => (hdisk b (by omega)).symm,
    fun b hb => hdisk b ?_, fun i hi _ => ?_, fun _ _ => Dinode.zero_norm, ⟨fun b => ?_, fun b hb _ => ?_⟩⟩
  · have hb : nmeta ≤ b := hb
    omega
  · rw [Disk.dinode, hdisk _ (kernelSb_iblock_ne (by decide) i).symm, dinodeAt_zero]
    rfl
  · have hnone : ∀ x ∈ grid kernelSb.ninodes nslots, blank.slot x = none := fun x _ => rfl
    rw [View.owned, holders_none hnone, View.dataBit, if_neg]
    · rfl
    · rintro ⟨hlow, -, hbit⟩
      have hbit := of_decide_eq_true hbit
      rw [kernelSb_dstart] at hlow
      omega
  · exact decide_eq_true (kernelSb_dstart ▸ hb)

theorem files_blank : Files 1 (fun _ => []) blank :=
  ⟨fun i hi hin => by omega, fun i hi hin => by omega, fun i hi hin => by omega⟩

theorem readsb_eq {d : Disk} (h : d 1 = sbBlock .little) : readsb d = kernelSb := by
  unfold readsb
  rw [h]
  decide +kernel

end Start

section Calls

variable {v w : View} {s : Image} {n i : Nat} {F : Nat → List Byte} {p : List Byte}

def newInode (type : Nat) : Dinode := { Dinode.zero with type := type, nlink := 1 }

def newRaw (type : Nat) : Raw := { Raw.zero with type := type, nlink := 1 }

theorem ialloc_holds {type : Nat} {E : Stop → Prop} (h : Holds n none v s) (hn : n < ninodes) (htype : type < 32768) :
    wp (ialloc .little type) (fun r t => r = n ∧ Holds (n + 1) none (v.setInode n (newInode type)) t) E s := by
  have hfits : (newRaw type).Fits := { Raw.zero_fits with type := by show type < 65536; omega, nlink := (by decide : 1 < 65536) }
  have hdin : (newRaw type).dinode = newInode type := by
    have hshort : toShort (type : Int) = type := toShort_of_range ⟨by omega, by omega⟩
    have hzero : toShort ((0 : Nat) : Int) = 0 := by decide
    have hone : toShort ((1 : Nat) : Int) = 1 := by decide
    simp only [Raw.dinode, newRaw, newInode, Raw.zero, Dinode.zero, hshort, hzero, hone]
  have hnorm : (newInode type).Norm := hdin ▸ hfits.norm
  have hxtype : xshort .little type = type := by rw [xshort_little, Nat.mod_eq_of_lt (by omega)]
  rw [ialloc, wp_bind, wp_get, wp_bind, wp_set, h.count, hxtype, show xshort .little 1 = 1 from rfl,
    show xint .little 0 = 0 from rfl, wp_bind]
  show wp (winode .little n (newRaw type)) _ _ { s with freeinode := n + 1 }
  rw [wp_winode (s := { s with freeinode := n + 1 }) hn h.len hfits, wp_pure, hdin]
  refine ⟨rfl, h.store (by rintro _ ⟨⟩) hn hnorm (fun i hi hle => ?_) (fun l => ?_) rfl rfl rfl rfl⟩
  · rw [View.setInode_inode, put_ne _ _ _ (by omega)]
    exact h.unused i hi (by omega)
  · -- neither the unused inode nor the new one has a block
    have hzero : slotOf v.data (newInode type) l = 0 := by
      unfold slotOf
      split <;> rfl
    simp only [View.slot, View.setInode_inode, put_same, View.setInode_data, hzero, h.unused n hn le_rfl, if_true]
    split <;> rfl

theorem Extended.contents (h : Extended i p v w) (hsolid : v.Solid i) : w.Solid i ∧ w.contents i = v.contents i ++ p := by
  have hend : (v.inode i).size + p.length ≤ maxfile * bsize := by
    by_cases hp : 0 < p.length
    · exact h.limit hp
    · have := hsolid.size_le
      omega
  refine ⟨h.written.solid hsolid le_rfl hend, ?_⟩
  have hbytes : (range p.length).map (fun x => p.getD x 0) = p := by
    refine ext_getElem (by simp) fun x hx hx' => ?_
    simp [hx']
  have hlen : (v.contents i).length = (v.inode i).size := by simp [View.contents]
  rw [h.written.contents hsolid le_rfl hend h.bytes, hbytes, overwrite, ← hlen, take_length, drop_eq_nil_of_le (by omega),
    append_nil]

theorem Files.size_eq (h : Files n F v) (hi : 0 < i) (hin : i < n) : (v.inode i).size = (F i).length := by
  rw [← h.contents i hi hin, View.contents, length_map, length_range]

theorem Files.extend (h : Files n F v) (hn : n ≤ ninodes) (hi : 0 < i) (hin : i < n) (hext : Extended i p v w) :
    Files n (put F i (F i ++ p)) w := by
  have hsame : ∀ j, 0 < j → j < n → j ≠ i → SameFile j v w := fun j _ hjn hji => hext.written.only j (lt_of_lt_of_le hjn hn) hji
  obtain ⟨hsolid, hcontents⟩ := hext.contents (h.solid i hi hin)
  refine ⟨fun j hj hjn => ?_, fun j hj hjn => ?_, fun j hj hjn => ?_⟩ <;> by_cases hji : j = i
  · rw [hji, hext.written.fields]
    exact h.type i hi hin
  · rw [(hsame j hj hjn hji).inode]
    exact h.type j hj hjn
  · exact hji ▸ hsolid
  · exact (hsame j hj hjn hji).solid (h.type j hj hjn) (h.solid j hj hjn)
  · rw [hji, put_same, hcontents, h.contents i hi hin]
  · rw [put_ne _ _ _ hji, (hsame j hj hjn hji).contents (h.type j hj hjn) (h.solid j hj hjn)]
    exact h.contents j hj hjn

theorem Files.create {type : Nat} (h : Files n F v) (hpos : 0 < type) (hempty : F n = []) :
    Files (n + 1) F (v.setInode n (newInode type)) := by
  have hkeep : ∀ i, i ≠ n → SameFile i v (v.setInode n (newInode type)) := fun i hne => ⟨put_ne _ _ _ hne, fun _ _ _ _ => rfl⟩
  have hnew : (v.setInode n (newInode type)).inode n = newInode type := put_same _ _ _
  refine ⟨fun i hi hin => ?_, fun i hi hin => ?_, fun i hi hin => ?_⟩ <;> by_cases hne : i = n
  · rw [hne, hnew]
    show (type : Int) ≠ 0
    omega
  · rw [(hkeep i hne).inode]
    exact h.type i hi (by omega)
  · intro bn hbn
    rw [hne, hnew] at hbn
    exact absurd hbn (Nat.not_lt_zero _)
  · exact (hkeep i hne).solid (h.type i hi (by omega)) (h.solid i hi (by omega))
  · rw [hne, View.contents, hnew, hempty]
    rfl
  · rw [(hkeep i hne).contents (h.type i hi (by omega)) (h.solid i hi (by omega))]
    exact h.contents i hi (by omega)

end Calls

inductive Op
  | ialloc (type : Nat)
  | iappend (i : Nat) (p : List Byte)

def Op.run (e : Order) : Op → M Unit
  | .ialloc type => do
    let _ ← Mkfs.ialloc e type
  | .iappend i p => Mkfs.iappend e i p

def run (e : Order) (ops : List Op) : M Unit := ops.forM (Op.run e)

/-- Each `iappend` is for an inode that `ialloc` has returned, where `n` is the next one that it will return. -/
def Created : Nat → List Op → Prop
  | _, [] => True
  | n, .ialloc type :: ops => 0 < type ∧ type < 32768 ∧ Created (n + 1) ops
  | n, .iappend i _ :: ops => 0 < i ∧ i < n ∧ Created n ops

instance decidableCreated : (n : Nat) → (ops : List Op) → Decidable (Created n ops)
  | _, [] => isTrue trivial
  | n, .ialloc type :: ops =>
    have := decidableCreated (n + 1) ops
    inferInstanceAs (Decidable (0 < type ∧ type < 32768 ∧ Created (n + 1) ops))
  | n, .iappend i _ :: ops =>
    have := decidableCreated n ops
    inferInstanceAs (Decidable (0 < i ∧ i < n ∧ Created n ops))

def nextInode : Nat → List Op → Nat
  | n, [] => n
  | n, .ialloc _ :: ops => nextInode (n + 1) ops
  | n, .iappend _ _ :: ops => nextInode n ops

def appendedTo (i : Nat) : List Op → List Byte
  | [] => []
  | .ialloc _ :: ops => appendedTo i ops
  | .iappend j p :: ops => (if j = i then p else []) ++ appendedTo i ops

section Run

variable {v w : View} {s t : Image} {n i : Nat} {F : Nat → List Byte}

theorem le_nextInode (n : Nat) (ops : List Op) : n ≤ nextInode n ops := by
  induction ops generalizing n with
  | nil => exact le_rfl
  | cons op ops ih =>
    cases op with
    | ialloc type => exact (Nat.le_succ n).trans (ih (n + 1))
    | iappend i p => exact ih n

theorem run_files (ops : List Op) (h : Holds n none v s) (hfiles : Files n F v) (hF : ∀ i, n ≤ i → F i = [])
    (hops : Created n ops) (hn : nextInode n ops ≤ ninodes) :
    wp (run .little ops) (fun _ t => ∃ w, Holds (nextInode n ops) none w t ∧
      Files (nextInode n ops) (fun i => F i ++ appendedTo i ops) w) (fun _ => True) s := by
  induction ops generalizing n v s F with
  | nil =>
    refine wp_pure.mpr ⟨v, h, ?_⟩
    simp only [appendedTo, append_nil]
    exact hfiles
  | cons op ops ih =>
    show wp (op.run .little >>= fun _ => run .little ops) _ _ s
    have hle := le_nextInode n (op :: ops)
    rw [wp_bind]
    cases op with
    | ialloc type =>
      obtain ⟨hpos, htype, hops⟩ := hops
      have hlt : n < ninodes := lt_of_lt_of_le (le_nextInode (n + 1) ops) hn
      rw [Op.run, wp_bind]
      refine (ialloc_holds h hlt htype).mono ?_ fun _ => id
      rintro _ t ⟨-, ht⟩
      exact wp_pure.mpr (ih ht (hfiles.create hpos (hF n le_rfl)) (fun i hi => hF i (by omega)) hops hn)
    | iappend i p =>
      obtain ⟨hi, hin, hops⟩ := hops
      have hlt : i < ninodes := by omega
      refine (iappend_holds h hlt (hfiles.type i hi hin)).mono ?_ fun _ _ => trivial
      rintro _ t ⟨w, ht, hext⟩
      have hrest := ih ht (hfiles.extend (hle.trans hn) hi hin hext) (fun j hj => ?_) hops hn
      · refine hrest.mono ?_ fun _ => id
        rintro _ u ⟨w', hu, hfiles'⟩
        refine ⟨w', hu, ?_⟩
        have hsame : (fun j => put F i (F i ++ p) j ++ appendedTo j ops) = fun j => F j ++ appendedTo j (.iappend i p :: ops) := by
          funext j
          by_cases hji : j = i
          · rw [hji, put_same, appendedTo, if_pos rfl, append_assoc]
          · rw [put_ne _ _ _ hji, appendedTo, if_neg (Ne.symm hji), nil_append]
        rw [← hsame]
        exact hfiles'
      · rw [put_ne _ _ _ (by omega)]
        exact hF j hj

theorem Holds.free_eq (h : Holds n none v s) : v.free kernelSb = fssize - s.freeblock := by
  have hsplit : Nat.count (fun b => ¬ b < s.freeblock) fssize + Nat.count (fun b => b < s.freeblock) fssize = fssize := by
    rw [Nat.count_eq_card_filter_range, Nat.count_eq_card_filter_range, add_comm, Finset.card_filter_add_card_filter_not,
      Finset.card_range]
  have hbelow : Nat.count (fun b => b < s.freeblock) fssize = s.freeblock := by
    have hfilter : (Finset.range fssize).filter (fun b => b < s.freeblock) = Finset.range s.freeblock := by
      have hlast := h.last
      ext b
      simp only [Finset.mem_filter, Finset.mem_range]
      omega
    rw [Nat.count_eq_card_filter_range, hfilter, Finset.card_range]
  have hbits : v.free kernelSb = Nat.count (fun b => ¬ b < s.freeblock) fssize := by
    unfold View.free
    rw [h.bits]
    simp only [decide_eq_false_iff_not]
    rfl
  omega

theorem Holds.sameFile (h : Holds n none v s) (hi : i < ninodes) : SameFile i v (s.disk.view kernelSb) := by
  refine ⟨(h.inodes i hi nofun).symm, fun j hj b hb => ?_⟩
  have hmem := h.own.mem_data le_rfl (mem_grid.mpr ⟨hi, hj⟩) hb
  exact (h.data b (kernelSb_dstart ▸ hmem.1)).symm

def readFile (k : Nat) : Fs.M (Nat × (Nat → Byte)) := do
  Fs.ilock k
  let ip ← Fs.inode k
  Fs.readi k 0 ip.din.size

structure Fetched (s : Image) (k i : Nat) (t : Fs.State) : Prop where
  super : t.sb = readsb s.disk
  disk : t.disk = s.disk
  inum : (t.itable k).inum = i
  ref : 0 < (t.itable k).ref
  locked : (t.itable k).locked = false
  valid : (t.itable k).valid = false

theorem Holds.readFile {k : Nat} {t : Fs.State} (h : Holds n none v s) (hfiles : Files n F v) (hn : n ≤ ninodes) (hi : 0 < i)
    (hin : i < n) (ht : Fetched s k i t) :
    wp (readFile k) (fun r _ => (range r.1).map r.2 = F i) (fun _ => False) t := by
  have hlt : i < ninodes := by omega
  have htype := hfiles.type i hi hin
  have hdin : t.disk.dinode t.sb (t.itable k).inum = v.inode i := by
    rw [ht.super, readsb_eq (h.low 1 (by decide)), ht.disk, ht.inum]
    exact (h.inodes i hlt nofun).symm
  have href : ¬ (t.itable k).ref < 1 := by
    have := ht.ref
    omega
  rw [Mkfs.readFile, wp_bind]
  simp only [Fs.ilock, wp_bind, wp_inode, wp_ite, wp_throw, wp_setInode, wp_get, wp_pure, hdin]
  refine ⟨fun hbad => absurd hbad href, fun _ => ⟨fun hbad => ?_, fun _ => ⟨fun _ => ⟨fun hzero => absurd hzero htype, fun _ => ?_⟩,
    fun hvalid => ?_⟩⟩⟩
  · rw [ht.locked] at hbad
    exact absurd hbad (by decide)
  · simp only [put_same]
    have hreads : ∀ table : Nat → Fs.Inode, (table k).din = v.inode i → Reads k i v { t with itable := table } := by
      refine fun table hdin => ⟨hdin, htype, fun j hj b hb => ?_⟩
      have hmem := h.own.mem_data le_rfl (mem_grid.mpr ⟨hlt, hj⟩) hb
      show t.disk b = v.data b
      rw [ht.disk, h.data b (kernelSb_dstart ▸ hmem.1)]
    refine ((hreads _ ?_).readi (hfiles.solid i hi hin)).mono ?_ fun _ => id
    · simp only [put_same]
    · rintro r _ ⟨-, hlen, hbytes⟩
      have hread : v.readLen i 0 (v.inode i).size = (v.inode i).size := by
        rw [View.readLen, if_neg (by omega), Nat.sub_zero, min_self]
      rw [hread] at hlen
      rw [← hfiles.contents i hi hin, View.contents, ← hlen]
      refine map_congr_left fun x hx => ?_
      rw [hbytes x (mem_range.mp hx), Nat.zero_add]
  · rw [ht.valid] at hvalid
    exact absurd rfl hvalid

/-- On a little-endian host what mkfs appends is what the kernel reads, and mkfs stops only where a file
gets too long or the blocks run out. -/
theorem image_reads_back {ops : List Op} {u : Unit} (hops : Created 1 ops) (hn : nextInode 1 ops ≤ ninodes)
    (hrun : run .little ops (start .little) = .ok (u, s)) :
    (∀ i k t, 0 < i → i < nextInode 1 ops → Fetched s k i t →
      wp (readFile k) (fun r _ => (range r.1).map r.2 = appendedTo i ops) (fun _ => False) t) ∧
      ∀ i p, 0 < i → i < nextInode 1 ops → wp (iappend .little i p) (fun _ _ => True) (fun _ =>
        maxfile * bsize < (appendedTo i ops).length + p.length ∨
          fssize < s.freeblock + (s.disk.view kernelSb).missing i ((appendedTo i ops).length / bsize)
            (pastBlock ((appendedTo i ops).length + p.length))) s := by
  obtain ⟨w, hw, hfilesw⟩ := (run_files ops start_holds files_blank (fun _ _ => rfl) hops hn).of_ok hrun
  simp only [nil_append] at hfilesw
  refine ⟨fun i k t hi hin ht => hw.readFile hfilesw hn hi hin ht, fun i p hi hin => ?_⟩
  have htype := hfilesw.type i hi hin
  have hsize : (w.inode i).size = (appendedTo i ops).length := hfilesw.size_eq hi hin
  have hfree := hw.free_eq
  refine (iappend_holds hw (by omega) htype).mono (fun _ _ _ => trivial) ?_
  rintro - (hlong | hfull)
  · exact .inl (hsize ▸ hlong)
  · rw [hsize] at hfull
    rw [(hw.sameFile (by omega)).missing htype]
    exact .inr (by omega)

def fetch (s : Image) (i : Nat) : Fs.State :=
  { Fs.mount (readsb s.disk) s.disk with itable := put (fun _ => .empty) 0 ⟨i, 1, false, false, .zero⟩ }

theorem fetched (s : Image) (i : Nat) : Fetched s 0 i (fetch s i) := ⟨rfl, rfl, rfl, Int.zero_lt_one, rfl, rfl⟩

def twoFiles : List Op := [.ialloc 1, .ialloc 2, .iappend 2 [1, 2], .iappend 1 [9], .iappend 2 [3]]

theorem twoFiles_read_back : ∃ s, run .little twoFiles (start .little) = .ok ((), s) ∧
    wp (readFile 0) (fun r _ => (range r.1).map r.2 = [1, 2, 3]) (fun _ => False) (fetch s 2) := by
  obtain ⟨_, s, hrun⟩ := exists_ok (m := run .little twoFiles) (s := start .little) (by decide +kernel)
  have hread := (image_reads_back (by decide) (by decide) hrun).1 2 0 (fetch s 2) (by decide) (by decide) (fetched s 2)
  exact ⟨s, hrun, hread⟩

/-- A big-endian host: `IBLOCK` adds the converted `sb.inodestart`, so mkfs puts the inodes into the wrong
blocks and the kernel finds a free inode. -/
theorem bigEndian_inode_lost : Created 1 [.ialloc 2, .iappend 1 [7]] ∧ nextInode 1 [.ialloc 2, .iappend 1 [7]] ≤ ninodes ∧
    ∃ s, run .big [.ialloc 2, .iappend 1 [7]] (start .big) = .ok ((), s) ∧ s.freeblock < fssize ∧ Fetched s 0 1 (fetch s 1) ∧
      appendedTo 1 [.ialloc 2, .iappend 1 [7]] = [7] ∧ readFile 0 (fetch s 1) = .error (.panic "ilock: no type") := by
  refine ⟨by decide, by decide, ?_⟩
  have hfault : (match run .big [.ialloc 2, .iappend 1 [7]] (start .big) with
      | .ok (_, s) => decide (s.freeblock < fssize) && (match readFile 0 (fetch s 1) with
        | .ok _ => false
        | .error e => decide (e = .panic "ilock: no type"))
      | .error _ => false) = true := by decide +kernel
  cases hrun : run .big [.ialloc 2, .iappend 1 [7]] (start .big) with
  | error e =>
    rw [hrun] at hfault
    exact absurd hfault Bool.false_ne_true
  | ok r =>
    rw [hrun] at hfault
    obtain ⟨hroom, hread⟩ := Bool.and_eq_true_iff.mp hfault
    refine ⟨r.2, rfl, of_decide_eq_true hroom, fetched r.2 1, rfl, ?_⟩
    cases hfile : readFile 0 (fetch r.2 1) with
    | ok a =>
      rw [hfile] at hread
      exact absurd hread Bool.false_ne_true
    | error e =>
      rw [hfile] at hread
      exact congrArg Except.error (of_decide_eq_true hread)

end Run

end Xv6.Mkfs
