import Xv6.WriteChunk
import Xv6.Lib.Run

namespace Xv6

open Prog List

/-- A call of `filewrite` with `n` bytes of `buf`: the loop counter, how many bytes are in the file, and
what the call has returned. -/
structure WriteCall where
  n : Nat
  buf : Nat → Fs.Byte
  i : Nat
  sent : Nat
  ret : Option Int

structure Piece where
  call : Nat
  off : Nat
  bytes : List Fs.Byte

/-- The calls on one open file, with what they have written so far, the newest piece first. -/
structure Sharing where
  kernel : Kernel
  calls : Nat → Option WriteCall
  placed : List Piece
  -- all bytes that reads and writes have transferred
  moved : Nat
  -- some round came to a full file or a full disk
  cramped : Prop

def Sharing.start (s : Kernel) : Sharing := ⟨s, fun _ => none, [], 0, False⟩

def Kernel.Roomy (s : Kernel) (f i n : Nat) : Prop :=
  (s.file f).off + n ≤ Fs.maxfile * Fs.bsize ∧ s.fs.image.Enough s.fs.sb i (s.file f).off n

/-- `n1` of `filewrite`. -/
def WriteCall.next (call : WriteCall) : Nat := min (call.n - call.i) 3072

def WriteCall.wrote (call : WriteCall) (r : Int) : WriteCall :=
  if r = call.next then { call with i := call.i + call.next, sent := call.sent + call.next }
  else { call with sent := call.sent + r.toNat, ret := some (-1) }

def Sharing.round (m : Sharing) (f i c : Nat) (call : WriteCall) (r : Int) (t : Kernel) : Sharing where
  kernel := t
  calls := Fs.put m.calls c (some (call.wrote r))
  placed := ⟨c, (m.kernel.file f).off, (range r.toNat).map fun x => call.buf (call.i + x)⟩ :: m.placed
  moved := m.moved + r.toNat
  cramped := m.cramped ∨ ¬ m.kernel.Roomy f i call.next

inductive Access
  | write (c : Nat)
  | round (c : Nat)
  | finish (c : Nat)
  | read
  | other

/-- The processes that share file `f` on inode `i`. Other calls may run too, as long as they leave the
file and the offset alone. -/
inductive Share (f k i : Nat) : Sharing → Access → Sharing → Prop
  | write {m : Sharing} {c n : Nat} {buf : Nat → Fs.Byte} (hnew : m.calls c = none) :
    Share f k i m (.write c) { m with calls := Fs.put m.calls c (some ⟨n, buf, 0, 0, none⟩) }
  | round {m : Sharing} {c : Nat} {call : WriteCall} {src : Fs.Source} {r : Int} {t : Kernel} (hcall : m.calls c = some call)
    (hrun : call.ret = none) (hmore : call.i < call.n) (hsrc : src.Copies fun x => call.buf (call.i + x))
    (hround : writeChunk f src call.next m.kernel = .ok (r, t)) :
    Share f k i m (.round c) (m.round f i c call r t)
  | finish {m : Sharing} {c : Nat} {call : WriteCall} (hcall : m.calls c = some call) (hrun : call.ret = none)
    (hend : ¬ call.i < call.n) :
    Share f k i m (.finish c)
      { m with calls := Fs.put m.calls c (some { call with ret := some (if call.i = call.n then call.n else -1) }) }
  | read {m : Sharing} {n : Nat} {r : Int} {t : Kernel} (hread : readChunk f n m.kernel = .ok (r, t)) :
    Share f k i m .read { m with kernel := t, moved := m.moved + r.toNat }
  | other {m : Sharing} {t : Kernel} (hopen : OpenOn f k i t) (hoff : (t.file f).off = (m.kernel.file f).off)
    (hcontents : t.fs.image.contents i = m.kernel.fs.image.contents i) : Share f k i m .other { m with kernel := t }

def Sharing.bytesOf (m : Sharing) (c : Nat) : List Fs.Byte :=
  ((m.placed.filter (·.call = c)).reverse.map Piece.bytes).flatten

def Piece.InFile (p : Piece) (contents : List Fs.Byte) : Prop := (contents.drop p.off).take p.bytes.length = p.bytes

section Pieces

variable {α : Type} {l new : List α} {off o n : Nat}

theorem overwrite_new (h : off ≤ l.length) : ((Fs.overwrite l off new).drop off).take new.length = new := by
  have hfront : (l.take off).length = off := by rw [length_take, min_eq_left h]
  unfold Fs.overwrite
  rw [append_assoc, drop_left' hfront, take_left]

theorem overwrite_before (h : off ≤ l.length) (ho : o + n ≤ off) :
    ((Fs.overwrite l off new).drop o).take n = (l.drop o).take n := by
  have hfront : (l.take off).length = off := by rw [length_take, min_eq_left h]
  unfold Fs.overwrite
  rw [append_assoc, take_drop, take_append_of_le_length (by omega), take_take, min_eq_left (by omega),
    ← take_drop]

end Pieces

structure WriteCall.Ok (call : WriteCall) (m : Sharing) (c : Nat) : Prop where
  bytes : m.bytesOf c = (range call.sent).map call.buf
  running : call.ret = none → call.sent = call.i ∧ call.i ≤ call.n
  returned : ∀ r, call.ret = some r → ¬ m.cramped → r = call.n ∧ call.sent = call.n

structure Sharing.Inv (f k i off : Nat) (m : Sharing) : Prop where
  opened : OpenOn f k i m.kernel
  offset : (m.kernel.file f).off = off + m.moved
  pieces : ∀ p ∈ m.placed, p.off + p.bytes.length ≤ (m.kernel.file f).off ∧ p.bytes.length ≤ 3072 ∧
    p.InFile (m.kernel.fs.image.contents i)
  ordered : m.placed.Pairwise fun p q => q.off + q.bytes.length ≤ p.off
  calls : ∀ c call, m.calls c = some call → call.Ok m c
  unused : ∀ c, m.calls c = none → m.bytesOf c = []

section Invariant

variable {f k i off : Nat} {s : Kernel} {m m' : Sharing} {call : WriteCall} {c : Nat}

theorem Sharing.inv_start (h : OpenOn f k i s) : (Sharing.start s).Inv f k i (s.file f).off :=
  ⟨h, rfl, fun _ hp => absurd hp not_mem_nil, .nil, nofun, fun _ _ => rfl⟩

theorem bytesOf_round (m : Sharing) (f i c : Nat) (call : WriteCall) (r : Int) (t : Kernel) (d : Nat) :
    (m.round f i c call r t).bytesOf d =
      m.bytesOf d ++ if d = c then (range r.toNat).map fun x => call.buf (call.i + x) else [] := by
  unfold Sharing.bytesOf
  simp only [Sharing.round, filter_cons]
  by_cases hd : d = c
  · subst hd
    simp
  · simp [hd, Ne.symm hd]

theorem WriteCall.Ok.congr (h : call.Ok m c) (hplaced : m'.placed = m.placed) (hcramped : m'.cramped = m.cramped) :
    call.Ok m' c := by
  refine ⟨?_, h.running, ?_⟩
  · rw [Sharing.bytesOf, hplaced]
    exact h.bytes
  · rw [hcramped]
    exact h.returned

theorem Sharing.Inv.setCall (h : m.Inv f k i off) (hok : call.Ok m c) :
    Sharing.Inv f k i off { m with calls := Fs.put m.calls c (some call) } := by
  refine ⟨h.opened, h.offset, h.pieces, h.ordered, fun d call' hcall => ?_, fun d hd => ?_⟩
  · have hcall : Fs.put m.calls c (some call) d = some call' := hcall
    by_cases hdc : d = c
    · subst hdc
      rw [Fs.put_same] at hcall
      exact (Option.some.inj hcall) ▸ hok.congr rfl rfl
    · rw [Fs.put_ne _ _ _ hdc] at hcall
      exact (h.calls d call' hcall).congr rfl rfl
  · have hd : Fs.put m.calls c (some call) d = none := hd
    by_cases hdc : d = c
    · rw [hdc, Fs.put_same] at hd
      exact nomatch hd
    · rw [Fs.put_ne _ _ _ hdc] at hd
      exact h.unused d hd

theorem WriteCall.Ok.round {c tot : Nat} {r : Int} {t : Kernel} (h : call.Ok m c) (hrun : call.ret = none)
    (hr : r = tot ∨ r = -1 ∧ tot = 0) (hmore : call.i < call.n) (hle : tot ≤ call.next)
    (hroomy : m.kernel.Roomy f i call.next → tot = call.next) : (call.wrote r).Ok (m.round f i c call r t) c := by
  obtain ⟨hsent, -⟩ := h.running hrun
  have hnext : 0 < call.next ∧ call.next ≤ call.n - call.i := by
    unfold WriteCall.next
    omega
  have htoNat : r.toNat = tot := by omega
  have hbytes : (m.round f i c call r t).bytesOf c = (range (call.sent + tot)).map call.buf := by
    rw [bytesOf_round, if_pos rfl, h.bytes, htoNat, range_add, map_append, map_map, hsent]
    rfl
  by_cases hall : r = call.next
  · have htot : tot = call.next := by omega
    rw [WriteCall.wrote, if_pos hall]
    refine ⟨htot ▸ hbytes, fun _ => ⟨?_, ?_⟩, fun _ hret => ?_⟩
    · show call.sent + call.next = call.i + call.next
      rw [hsent]
    · show call.i + call.next ≤ call.n
      omega
    · rw [show call.ret = some _ from hret] at hrun
      exact nomatch hrun
  · rw [WriteCall.wrote, if_neg hall, htoNat]
    refine ⟨hbytes, nofun, fun _ _ hfree => absurd ?_ hfree⟩
    refine .inr fun hfit => hall ?_
    have := hroomy hfit
    omega

theorem Sharing.Inv.round {src : Fs.Source} {r : Int} {t : Kernel} (h : m.Inv f k i off)
    (hcall : m.calls c = some call) (hrun : call.ret = none) (hmore : call.i < call.n)
    (hsrc : src.Copies fun x => call.buf (call.i + x)) (hround : writeChunk f src call.next m.kernel = .ok (r, t)) :
    (m.round f i c call r t).Inv f k i off := by
  obtain ⟨ht, tot, hr, hoff, hw⟩ := (writeChunk_spec h.opened (min_le_right _ _) hsrc).of_ok hround
  have htoNat : r.toNat = tot := by omega
  have hin : (m.kernel.file f).off ≤ (m.kernel.fs.image.contents i).length := (length_contents _ i).symm ▸ h.opened.off
  have hok := (h.calls c call hcall).round (f := f) (i := i) (t := t) hrun hr hmore hw.count fun hroomy =>
    hw.enough hroomy.1 hroomy.2
  refine ⟨ht, ?_, fun p hp => ?_, ?_, fun d call' hd => ?_, fun d hd => ?_⟩
  · show (t.file f).off = off + (m.moved + r.toNat)
    rw [hoff, h.offset, htoNat, Nat.add_assoc]
  · show p.off + p.bytes.length ≤ (t.file f).off ∧ p.bytes.length ≤ 3072 ∧ p.InFile (t.fs.image.contents i)
    rw [hoff, hw.contents]
    rcases mem_cons.mp hp with rfl | hp
    · have hnew := @overwrite_new _ _ ((range tot).map fun x => call.buf (call.i + x)) _ hin
      have hcount := hw.count
      simp only [htoNat, length_map, length_range]
      refine ⟨le_rfl, by omega, ?_⟩
      simpa [Piece.InFile] using hnew
    · obtain ⟨hbefore, hlen, hp⟩ := h.pieces p hp
      refine ⟨by omega, hlen, ?_⟩
      rw [Piece.InFile, overwrite_before hin hbefore]
      exact hp
  · exact pairwise_cons.mpr ⟨fun q hq => (h.pieces q hq).1, h.ordered⟩
  · have hd : Fs.put m.calls c (some (call.wrote r)) d = some call' := hd
    by_cases hdc : d = c
    · subst hdc
      rw [Fs.put_same] at hd
      exact (Option.some.inj hd) ▸ hok
    · rw [Fs.put_ne _ _ _ hdc] at hd
      have hold := h.calls d call' hd
      refine ⟨?_, hold.running, fun r' hr' hfree => hold.returned r' hr' fun hcramped => hfree (.inl hcramped)⟩
      rw [bytesOf_round, if_neg hdc, append_nil]
      exact hold.bytes
  · have hd : Fs.put m.calls c (some (call.wrote r)) d = none := hd
    by_cases hdc : d = c
    · rw [hdc, Fs.put_same] at hd
      exact nomatch hd
    · rw [Fs.put_ne _ _ _ hdc] at hd
      rw [bytesOf_round, if_neg hdc, append_nil]
      exact h.unused d hd

theorem Sharing.Inv.share {a : Access} (h : m.Inv f k i off) (hstep : Share f k i m a m') : m'.Inv f k i off := by
  cases hstep with
  | write hnew => exact h.setCall ⟨h.unused _ hnew, fun _ => ⟨rfl, Nat.zero_le _⟩, fun _ hr => nomatch hr⟩
  | round hcall hrun hmore hsrc hround => exact h.round hcall hrun hmore hsrc hround
  | @finish c call hcall hrun hend =>
    have hok := h.calls c call hcall
    obtain ⟨hsent, hle⟩ := hok.running hrun
    refine h.setCall ⟨hok.bytes, nofun, fun r hr _ => ?_⟩
    have hall : call.i = call.n := by omega
    have hr : some (if call.i = call.n then (call.n : Int) else -1) = some r := hr
    rw [if_pos hall] at hr
    exact ⟨(Option.some.inj hr).symm, hsent.trans hall⟩
  | @read n r t hread =>
    obtain ⟨ht, len, hr, hoff, himage⟩ := (readChunk_spec h.opened).of_ok hread
    have htoNat : r.toNat = len := by omega
    refine ⟨ht, ?_, fun p hp => ?_, h.ordered, fun c call hcall => (h.calls c call hcall).congr rfl rfl, h.unused⟩
    · show (t.file f).off = off + (m.moved + r.toNat)
      rw [hoff, h.offset, htoNat, Nat.add_assoc]
    · show p.off + p.bytes.length ≤ (t.file f).off ∧ p.bytes.length ≤ 3072 ∧ p.InFile (t.fs.image.contents i)
      obtain ⟨hbefore, hlen, hp⟩ := h.pieces p hp
      rw [hoff, himage]
      exact ⟨by omega, hlen, hp⟩
  | @other t hopen hoff hcontents =>
    refine ⟨hopen, hoff.trans h.offset, fun p hp => ?_, h.ordered, fun c call hcall => (h.calls c call hcall).congr rfl rfl,
      h.unused⟩
    show p.off + p.bytes.length ≤ (t.file f).off ∧ p.bytes.length ≤ 3072 ∧ p.InFile (t.fs.image.contents i)
    rw [hoff, hcontents]
    exact h.pieces p hp

theorem undisturbed_filewrite {n : Nat} {src : Nat → Fs.Source} {g : Nat → Fs.Byte} (h : OpenOn f k i s)
    (hsrc : ∀ j, (src j).Copies fun x => g (j + x)) (hroomy : s.Roomy f i n) :
    wp (writeChunks f src n n 0) (fun j t => j = n ∧ (t.file f).off = (s.file f).off + n ∧
      (t.fs.image.inode i).size = max (s.fs.image.inode i).size ((s.file f).off + n) ∧
      t.fs.image.contents i = Fs.overwrite (s.fs.image.contents i) (s.file f).off ((range n).map g) ∧
      ∀ r u, Fs.writei k (src 0) (s.file f).off n (Fs.Entered s.fs k) = .ok (r, u) →
        t.fs.image.contents i = u.image.contents i ∧ (t.fs.image.inode i).size = (u.image.inode i).size ∧
          (t.file f).off = (s.file f).off + r) (fun _ => False) s := by
  obtain ⟨hend, henough⟩ := hroomy
  refine (writeChunks_spec h hsrc (Nat.zero_le n) (by omega) hend henough).mono ?_ fun _ => id
  simp only [Nat.sub_zero, Nat.zero_add]
  rintro j t ⟨rfl, -, hoff, hsize, hcontents⟩
  refine ⟨rfl, hoff, hsize, hcontents, fun r u hcall => ?_⟩
  obtain ⟨hsound, himage, hheld⟩ := h.ready.entered
  have hcopies : (src 0).Copies g := by
    have hzero := hsrc 0
    simp only [Nat.zero_add] at hzero
    exact hzero
  have hlimit : Fs.maxfile * Fs.bsize < 2 ^ 32 := by decide
  have hwrites := hsound.writesBytes Nat.one_pos hheld (s.file f).off j (src 0) g (by omega) (by omega) hcopies
  obtain ⟨-, hdone, -⟩ := hwrites.of_ok hcall
  rw [himage] at hdone
  have hok : ¬ s.fs.image.Refused i (s.file f).off j := by
    have hin := h.off
    have hwrap : Fs.uint ((s.file f).off + j) = (s.file f).off + j := Nat.mod_eq_of_lt (by omega)
    unfold Fs.View.Refused
    omega
  obtain ⟨hr, hsize', hcontents'⟩ := hdone hok henough
  exact ⟨hcontents.trans hcontents'.symm, hsize.trans hsize'.symm, by rw [hoff, hr, Nat.cast_add]⟩

/-- Processes that share one open file. The offset is the one at the start plus all bytes transferred.
Every piece that a round of `filewrite` has placed is still in the file, no two pieces overlap and later
ones come after earlier ones, and the pieces of a call are its bytes in order. As long as no round came
to a full file or a full disk, calls return with all their bytes in the file. No call stops the kernel. -/
theorem shared_writes_kept {evs : List Access} (h : OpenOn f k i s) (hrun : Transition.Path (Share f k i) (.start s) evs m) :
    (m.kernel.file f).off = (s.file f).off + m.moved ∧
      (∀ p ∈ m.placed, p.bytes.length ≤ 3072 ∧ p.InFile (m.kernel.fs.image.contents i)) ∧
      (m.placed.Pairwise fun p q => q.off + q.bytes.length ≤ p.off) ∧
      (∀ c call, m.calls c = some call → m.bytesOf c = (range call.sent).map call.buf ∧
        (call.ret = none → call.sent = call.i) ∧
        (¬ m.cramped → ∀ r, call.ret = some r → r = call.n ∧ call.sent = call.n)) ∧
      (∀ src n g, 0 < n → n ≤ 3072 → src.Copies g →
        wp (writeChunk f src n) (fun r _ => m.kernel.Roomy f i n → r = n) (fun _ => False) m.kernel) ∧
      (∀ n, wp (readChunk f n) (fun _ _ => True) (fun _ => False) m.kernel) ∧
      ∀ n src g, (∀ j, (src j).Copies fun x => g (j + x)) → m.kernel.Roomy f i n →
        wp (writeChunks f src n n 0) (fun j t => j = n ∧ (t.file f).off = (m.kernel.file f).off + n ∧
          (t.fs.image.inode i).size = max (m.kernel.fs.image.inode i).size ((m.kernel.file f).off + n) ∧
          t.fs.image.contents i =
            Fs.overwrite (m.kernel.fs.image.contents i) (m.kernel.file f).off ((range n).map g) ∧
          ∀ r u, Fs.writei k (src 0) (m.kernel.file f).off n (Fs.Entered m.kernel.fs k) = .ok (r, u) →
            t.fs.image.contents i = u.image.contents i ∧ (t.fs.image.inode i).size = (u.image.inode i).size ∧
              (t.file f).off = (m.kernel.file f).off + r) (fun _ => False) m.kernel := by
  have hinv : m.Inv f k i (s.file f).off := hrun.invariant (Sharing.inv_start h) fun hm hstep => hm.share hstep
  refine ⟨hinv.offset, fun p hp => (hinv.pieces p hp).2, hinv.ordered, fun c call hcall => ?_, fun src n g hpos hn hsrc => ?_,
    fun n => ?_, fun n src g hsrc hroomy => undisturbed_filewrite hinv.opened hsrc hroomy⟩
  · have hok := hinv.calls c call hcall
    exact ⟨hok.bytes, fun hret => (hok.running hret).1, fun hfree r hr => hok.returned r hr hfree⟩
  · refine (writeChunk_spec hinv.opened hn hsrc).mono ?_ fun _ => id
    rintro r t ⟨-, tot, hr, -, hw⟩ hroomy
    have htot := hw.enough hroomy.1 hroomy.2
    omega
  · exact (readChunk_spec hinv.opened).mono (fun _ _ _ => trivial) fun _ => id

end Invariant

def wideFile : Fs.State :=
  { Fs.openFile with
    sb := { Fs.smallSb with size := 400 }
    itable := Fs.put (fun _ => .empty) 0 ⟨1, 1, true, false, Fs.emptyFile⟩
    outstanding := 0 }

def wideKernel : Kernel where
  fs := wideFile
  mem := ⟨⟨0, 0⟩, fun _ _ => .zero, []⟩
  file := Fs.put (fun _ => .empty) 0 ⟨.inode, 1, true, true, 0, 0, 0, 0⟩
  pipe := fun _ => none
  proc := fun _ => .empty
  nextpid := 1

section Wide

theorem wideFile_image : wideFile.image = Fs.openFile.image := rfl

theorem wideFile_exact : Fs.Exact wideFile.sb wideFile.image :=
  ⟨.of_unused (s := wideFile) Fs.openFile_slots (by decide +kernel) (by decide +kernel), Fs.openFile_solid⟩

theorem wideKernel_open : OpenOn 0 0 1 wideKernel := by
  have he : Fs.SameEntries Fs.openFile wideFile := by
    intro j
    by_cases hj : j = 0
    · subst hj
      exact ⟨rfl, rfl, rfl, rfl⟩
    · have hempty : wideFile.itable j = .empty := Fs.put_ne (fun _ => Fs.Inode.empty) 0 _ hj
      rw [Fs.openFile_empty hj, hempty]
      exact ⟨rfl, rfl, rfl, rfl⟩
  have hsound : Fs.Sound wideFile := ⟨⟨by decide, by decide, by decide⟩, wideFile_exact, Fs.openFile_table.congr rfl rfl he⟩
  exact ⟨⟨hsound, he.held Fs.openFile_held, rfl, rfl, rfl, by decide⟩, rfl, Nat.zero_le _⟩

theorem wideKernel_enough : wideKernel.fs.image.Enough wideKernel.fs.sb 1 0 274433 := by
  have hmissing : wideFile.image.missing 1 0 269 ≤ 270 := by
    have hcount := countP_le_length (p := fun bn => wideFile.image.block 1 bn = 0) (l := range' 0 269)
    rw [length_range'] at hcount
    rw [Fs.View.missing, Nat.sub_zero]
    split <;> omega
  have hfree : 270 ≤ wideFile.image.free wideFile.sb := by decide +kernel
  exact hmissing.trans hfree

/-- Two rounds of two calls, one after the other. -/
theorem wideKernel_two_writes : ∃ m : Sharing,
    Transition.Path (Share 0 0 1) (.start wideKernel) [.write 0, .write 1, .round 0, .round 1] m ∧
      (m.kernel.file 0).off = m.moved ∧ m.placed.length = 2 ∧ ∀ p ∈ m.placed, p.InFile (m.kernel.fs.image.contents 1) := by
  have hstart : Transition.Path (Share 0 0 1) (.start wideKernel) [] (.start wideKernel) := .nil
  have hfirst := (hstart.snoc (@Share.write 0 0 1 _ 0 5 (fun _ => 1) rfl)).snoc (@Share.write 0 0 1 _ 1 4000 (fun _ => 2) rfl)
  have hsrc : ∀ b : Fs.Byte, (Fs.Source.kernel fun _ => b).Copies fun _ => b := fun _ => Fs.Source.kernel_copies _
  obtain ⟨r, t, hround, ht, -⟩ := (writeChunk_spec (n := 5) wideKernel_open (by decide) (hsrc 1)).total
  have hsecond := hfirst.snoc (@Share.round 0 0 1 _ 0 ⟨5, fun _ => 1, 0, 0, none⟩ _ _ _ rfl rfl (by decide) (hsrc 1) hround)
  obtain ⟨r', u, hround', -⟩ := (writeChunk_spec (n := 3072) ht (by decide) (hsrc 2)).total
  have hthird := hsecond.snoc (@Share.round 0 0 1 _ 1 ⟨4000, fun _ => 2, 0, 0, none⟩ _ _ _ rfl rfl (by decide) (hsrc 2) hround')
  obtain ⟨hoff, hpieces, -⟩ := shared_writes_kept wideKernel_open hthird
  exact ⟨_, hthird, hoff.trans (Nat.zero_add _), rfl, fun p hp => (hpieces p hp).2⟩

/-- One byte more than a file can hold: `writei` refuses the write as a whole, while the rounds of
`filewrite` have stored the front of it when the last one is refused. -/
theorem oversize_filewrite_differs : OpenOn 0 0 1 wideKernel ∧
    wideKernel.fs.image.Enough wideKernel.fs.sb 1 (wideKernel.file 0).off 274433 ∧
    Fs.writei 0 (.kernel fun _ => 7) (wideKernel.file 0).off 274433 (Fs.Entered wideKernel.fs 0) =
      .ok (-1, Fs.Entered wideKernel.fs 0) ∧
    (Fs.Entered wideKernel.fs 0).image.contents 1 = [] ∧
    wp (writeChunks 0 (fun _ => .kernel fun _ => 7) 274433 274433 0)
      (fun _ t => 3072 ≤ (t.fs.image.contents 1).length ∧ 3072 ≤ (t.file 0).off) (fun _ => False) wideKernel := by
  have hempty : (wideFile.image.inode 1).size = 0 := by
    rw [wideFile_image, Fs.smallDisk_file]
    rfl
  refine ⟨wideKernel_open, wideKernel_enough, Fs.writei_oversize (by decide), ?_, ?_⟩
  · show wideFile.image.contents 1 = []
    rw [Fs.View.contents, hempty]
    rfl
  · have hsrc : ∀ j : Nat, (Fs.Source.kernel fun _ => 7).Copies fun x => (fun _ => (7 : Fs.Byte)) (j + x) := fun _ =>
      Fs.Source.kernel_copies _
    rw [writeChunks_succ, if_pos (by decide), wp_bind]
    refine (writeChunk_spec wideKernel_open (min_le_right _ _) (hsrc 0)).mono ?_ fun _ => id
    rintro r t ⟨ht, tot, -, hoff, hw⟩
    have htot : tot = 3072 := hw.enough (by decide) (Fs.View.Enough.front (by decide) wideKernel_enough)
    have hdone : ∀ u : Kernel, OpenOn 0 0 1 u → (t.file 0).off ≤ (u.file 0).off →
        3072 ≤ (u.fs.image.contents 1).length ∧ 3072 ≤ (u.file 0).off := by
      intro u hu hle
      have hin := hu.off
      rw [length_contents]
      omega
    rw [wp_ite]
    refine ⟨fun _ => wp_pure.mpr (hdone t ht le_rfl), fun _ => (writeChunks_forward (g := fun _ => 7) ht hsrc).mono ?_ fun _ => id⟩
    exact fun _ u hu => hdone u hu.1 hu.2

end Wide

end Xv6
