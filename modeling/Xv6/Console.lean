import Xv6.Lib.Ring
import Xv6.Lib.Run

/-!
The input side of the console. `consoleintr` and the parts of `consoleread` between two sleeps run with
`cons.lock` held, so each is one step.
-/

namespace Xv6.Console

open List Function

abbrev Byte := BitVec 8

/-- `INPUT_BUF_SIZE`. -/
abbrev bufSize : Nat := 128

/-- `C(x)`. -/
def ctrl (x : Char) : Byte := BitVec.ofNat 8 (x.toNat - 64)

def newline : Byte := 10

structure Cons where
  buf : Nat → Byte
  r : BitVec 32
  w : BitVec 32
  e : BitVec 32

/-- The loop of `C('U')`. -/
def killLine : (rounds : Nat) → Cons → Cons
  | 0, s => s
  | rounds + 1, s =>
    if s.e ≠ s.w ∧ s.buf ((s.e - 1).toNat % bufSize) ≠ newline then killLine rounds { s with e := s.e - 1 }
    else s

def store (s : Cons) (c : Byte) : Cons :=
  let s : Cons := { s with buf := update s.buf (s.e.toNat % bufSize) c, e := s.e + 1 }
  if c = newline ∨ c = ctrl 'D' ∨ (s.e - s.r).toNat = bufSize then { s with w := s.e } else s

/-- `consoleintr`, without the echo. -/
def consoleintr (s : Cons) (c : Byte) : Cons :=
  if c = ctrl 'P' then s
  else if c = ctrl 'U' then killLine (s.e - s.w).toNat s
  else if c = ctrl 'H' ∨ c = 0x7f then
    if s.e ≠ s.w then { s with e := s.e - 1 } else s
  else if c ≠ 0 ∧ (s.e - s.r).toNat < bufSize then store s (if c = 13 then newline else c)
  else s

/-- Why a read ends: it has all it asked for, a line is complete, it stopped before a `^D`, or it met a
`^D` first. -/
inductive Stop
  | length
  | newline
  | before
  | eof
  deriving DecidableEq

/-- One pass of `consoleread` through its loop: what is left of `n`, the bytes it delivers, and why it ends;
`none` if it finds nothing to read. -/
structure Pass where
  cons : Cons
  n : Nat
  bytes : List Byte
  stop : Option Stop

def readLoop (target : Nat) : (n : Nat) → Cons → Pass
  | 0, s => ⟨s, 0, [], some .length⟩
  | n + 1, s =>
    if s.r = s.w then ⟨s, n + 1, [], none⟩
    else
      let c := s.buf (s.r.toNat % bufSize)
      let s : Cons := { s with r := s.r + 1 }
      if c = ctrl 'D' then
        if n + 1 < target then ⟨{ s with r := s.r - 1 }, n + 1, [], some .before⟩
        else ⟨s, n + 1, [], some .eof⟩
      else if c = newline then ⟨s, n, [c], some .newline⟩
      else
        let p := readLoop target n s
        { p with bytes := c :: p.bytes }

structure Reader where
  target : Nat
  n : Nat
  got : List Byte

/-- A call that has returned, with the number of committed bytes that were consumed by then; `stop` is
`none` if its process was killed. -/
structure Ended where
  target : Nat
  bytes : List Byte
  ret : Int
  stop : Option Stop
  pos : Nat

/-- The console with its readers. The history: every byte committed so far, how many of them were consumed,
what was delivered, and the calls that have returned. -/
structure State where
  cons : Cons
  reader : Nat → Option Reader
  stream : List Byte
  taken : Nat
  delivered : List Byte
  ended : List Ended

def State.intr (s : State) (c : Byte) : State :=
  let cons := consoleintr s.cons c
  { s with cons := cons, stream := s.stream ++ Ring.contents bufSize cons.buf s.cons.w cons.w }

def State.pass (s : State) (id : Nat) (rd : Reader) (killed : Bool) : State :=
  let p := readLoop rd.target rd.n s.cons
  let taken := s.taken + (p.cons.r - s.cons.r).toNat
  let finish (ret : Int) : State :=
    { s with
      cons := p.cons
      reader := update s.reader id none
      taken := taken
      delivered := s.delivered ++ p.bytes
      ended := s.ended ++ [⟨rd.target, rd.got ++ p.bytes, ret, p.stop, taken⟩] }
  if p.stop.isSome then finish (rd.target - p.n)
  else if killed then finish (-1)
  else
    { s with
      cons := p.cons
      reader := update s.reader id (some ⟨rd.target, p.n, rd.got ++ p.bytes⟩)
      taken := taken
      delivered := s.delivered ++ p.bytes }

inductive Ev
  | intr (c : Byte)
  | read (id : Nat) (n : Int) (killed : Bool)
  | wake (id : Nat) (killed : Bool)

def step (s : State) : Ev → Option State
  | .intr c => some (s.intr c)
  | .read id n killed =>
    match s.reader id with
    | none => some (s.pass id ⟨n.toNat, n.toNat, []⟩ killed)
    | some _ => none
  | .wake id killed =>
    match s.reader id with
    | none => none
    | some rd => some (s.pass id rd killed)

def boot : State := ⟨⟨fun _ => 0, 0, 0, 0⟩, fun _ => none, [], 0, [], []⟩

/-- What the console is for: lines are edited until they are committed, and the committed bytes are read in
order. -/
structure Lines where
  queue : List Byte
  line : List Byte
  deriving DecidableEq

def Lines.commit (d : Lines) (c : Byte) : Lines :=
  if c = newline ∨ c = ctrl 'D' ∨ d.queue.length + d.line.length + 1 = bufSize then ⟨d.queue ++ d.line ++ [c], []⟩
  else ⟨d.queue, d.line ++ [c]⟩

def Lines.type (d : Lines) (c : Byte) : Lines :=
  if c = ctrl 'P' then d
  else if c = ctrl 'U' then { d with line := [] }
  else if c = ctrl 'H' ∨ c = 0x7f then { d with line := d.line.dropLast }
  else if c ≠ 0 ∧ d.queue.length + d.line.length < bufSize then d.commit (if c = 13 then newline else c)
  else d

def Cons.lines (s : Cons) : Lines := ⟨Ring.contents bufSize s.buf s.r s.w, Ring.contents bufSize s.buf s.w s.e⟩

/-- The order of the indices, modulo `2^32`. -/
structure Cons.Ok (s : Cons) : Prop where
  order : (s.w - s.r).toNat ≤ (s.e - s.r).toNat
  room : (s.e - s.r).toNat ≤ bufSize

section Lines

variable {s : Cons} {c : Byte}

theorem bufSize_dvd : bufSize ∣ 2 ^ 32 := by decide

theorem Cons.Ok.split (h : s.Ok) : (s.e - s.r).toNat = (s.w - s.r).toNat + (s.e - s.w).toNat := Ring.count_split h.order

theorem Cons.Ok.all (h : s.Ok) : Ring.contents bufSize s.buf s.r s.e = s.lines.queue ++ s.lines.line :=
  Ring.contents_append bufSize_dvd h.order

theorem Cons.length_queue (s : Cons) : s.lines.queue.length = (s.w - s.r).toNat := Ring.length_contents

theorem Cons.length_line (s : Cons) : s.lines.line.length = (s.e - s.w).toNat := Ring.length_contents

theorem Cons.Ok.erase (h : s.Ok) (hne : s.e ≠ s.w) :
    Cons.Ok { s with e := s.e - 1 } ∧ Cons.lines { s with e := s.e - 1 } = { s.lines with line := s.lines.line.dropLast } ∧
      (s.e - s.w).toNat = (s.e - 1 - s.w).toNat + 1 := by
  have hline : (s.e - s.w).toNat = (s.e - 1 - s.w).toNat + 1 := Ring.count_unput hne.symm
  have hre : s.r ≠ s.e := by
    intro heq
    have hsplit := h.split
    rw [heq, BitVec.sub_self] at hsplit
    simp only [BitVec.toNat_zero] at hsplit
    omega
  have hall : (s.e - s.r).toNat = (s.e - 1 - s.r).toNat + 1 := Ring.count_unput hre
  have hsplit := h.split
  have hroom := h.room
  refine ⟨⟨?_, ?_⟩, ?_, hline⟩
  · show (s.w - s.r).toNat ≤ (s.e - 1 - s.r).toNat
    omega
  · show (s.e - 1 - s.r).toNat ≤ bufSize
    omega
  · have hlast : s.lines.line = Ring.contents bufSize s.buf s.w (s.e - 1) ++ _ :=
      Ring.contents_unput bufSize_dvd (by decide) hne.symm
    rw [hlast, dropLast_concat]
    rfl

theorem contents_self (buf : Nat → Byte) (a : BitVec 32) : Ring.contents bufSize buf a a = [] := by
  rw [Ring.contents, BitVec.sub_self]
  rfl

theorem Cons.line_eq_nil (h : (s.e - s.w).toNat = 0) : s.lines.line = [] :=
  eq_nil_of_length_eq_zero (by rw [s.length_line, h])

theorem killLine_spec {rounds : Nat} (h : s.Ok) (hrounds : (s.e - s.w).toNat = rounds) (hplain : newline ∉ s.lines.line) :
    (killLine rounds s).Ok ∧ (killLine rounds s).lines = { s.lines with line := [] } ∧ (killLine rounds s).w = s.w := by
  induction rounds generalizing s with
  | zero =>
    refine ⟨h, ?_, rfl⟩
    rw [← s.line_eq_nil hrounds]
    rfl
  | succ rounds ih =>
    have hne : s.e ≠ s.w := by
      intro heq
      rw [heq, BitVec.sub_self] at hrounds
      exact absurd hrounds (by simp)
    have hlast : s.lines.line = Ring.contents bufSize s.buf s.w (s.e - 1) ++ [s.buf ((s.e - 1).toNat % bufSize)] :=
      Ring.contents_unput bufSize_dvd (by decide) hne.symm
    have hchar : s.buf ((s.e - 1).toNat % bufSize) ≠ newline := by
      intro heq
      rw [hlast, heq] at hplain
      exact hplain (mem_append_right _ mem_cons_self)
    obtain ⟨hok, hlines, hcount⟩ := h.erase hne
    unfold killLine
    rw [if_pos ⟨hne, hchar⟩]
    have hplain' : newline ∉ (Cons.lines { s with e := s.e - 1 }).line := by
      rw [hlines]
      exact fun hmem => hplain (dropLast_subset _ hmem)
    obtain ⟨hok', hlines', hw⟩ := ih hok (show (s.e - 1 - s.w).toNat = rounds by omega) hplain'
    exact ⟨hok', by rw [hlines', hlines], hw⟩

theorem Cons.Ok.put (h : s.Ok) (hroom : (s.e - s.r).toNat < bufSize) (c : Byte) :
    (s.e + 1 - s.r).toNat = (s.e - s.r).toNat + 1 ∧
      Ring.contents bufSize (update s.buf (s.e.toNat % bufSize) c) s.r s.w = s.lines.queue ∧
      Ring.contents bufSize (update s.buf (s.e.toNat % bufSize) c) s.w (s.e + 1) = s.lines.line ++ [c] ∧
      Ring.contents bufSize (update s.buf (s.e.toNat % bufSize) c) s.r (s.e + 1) = s.lines.queue ++ s.lines.line ++ [c] := by
  have hput : Ring.contents bufSize (update s.buf (s.e.toNat % bufSize) c) s.r (s.e + 1) =
      Ring.contents bufSize s.buf s.r s.e ++ [c] := Ring.contents_put bufSize_dvd (by decide) hroom c
  have hcount : (s.e + 1 - s.r).toNat = (s.e - s.r).toNat + 1 := by
    have hlen := congrArg length hput
    rwa [Ring.length_contents, length_append, Ring.length_contents, length_singleton] at hlen
  have horder : (s.w - s.r).toNat ≤ (s.e + 1 - s.r).toNat := by
    have hle := h.order
    omega
  have hsplit : Ring.contents bufSize (update s.buf (s.e.toNat % bufSize) c) s.r (s.e + 1) = _ :=
    Ring.contents_append bufSize_dvd horder
  rw [hput, h.all, append_assoc] at hsplit
  obtain ⟨hqueue, hline⟩ := append_inj hsplit (by rw [Ring.length_contents, s.length_queue])
  exact ⟨hcount, hqueue.symm, hline.symm, by rw [hput, h.all]⟩

/-- What `consoleintr` does to the lines, and what it commits. -/
structure Typed (s : Cons) (d : Lines) (t : Cons) : Prop where
  ok : t.Ok
  lines : t.lines = d
  committed : d.queue = s.lines.queue ++ Ring.contents bufSize t.buf s.w t.w

theorem Typed.of_same {t : Cons} {d : Lines} (hok : t.Ok) (hlines : t.lines = d) (hqueue : d.queue = s.lines.queue) (hw : t.w = s.w) :
    Typed s d t :=
  ⟨hok, hlines, by rw [hw, contents_self, append_nil, hqueue]⟩

theorem store_typed (h : s.Ok) (hroom : (s.e - s.r).toNat < bufSize) (c : Byte) : Typed s (s.lines.commit c) (store s c) := by
  obtain ⟨hcount, hqueue, hline, hall⟩ := h.put hroom c
  have hlen : s.lines.queue.length + s.lines.line.length + 1 = (s.e + 1 - s.r).toNat := by
    rw [s.length_queue, s.length_line, hcount, h.split]
  have hle := h.order
  unfold store Lines.commit
  dsimp only
  rw [hlen]
  split
  next hfull =>
    refine ⟨⟨le_rfl, ?_⟩, ?_, ?_⟩
    · show (s.e + 1 - s.r).toNat ≤ bufSize
      omega
    · show Lines.mk (Ring.contents bufSize _ s.r (s.e + 1)) (Ring.contents bufSize _ (s.e + 1) (s.e + 1)) = _
      rw [hall, contents_self]
    · show _ = s.lines.queue ++ Ring.contents bufSize _ s.w (s.e + 1)
      rw [hline, append_assoc]
  next hfull =>
    refine .of_same ⟨?_, ?_⟩ ?_ rfl rfl
    · show (s.w - s.r).toNat ≤ (s.e + 1 - s.r).toNat
      omega
    · show (s.e + 1 - s.r).toNat ≤ bufSize
      omega
    · show Lines.mk (Ring.contents bufSize _ s.r s.w) (Ring.contents bufSize _ s.w (s.e + 1)) = _
      rw [hqueue, hline]

theorem consoleintr_typed (h : s.Ok) (hplain : newline ∉ s.lines.line) (c : Byte) :
    Typed s (s.lines.type c) (consoleintr s c) := by
  unfold consoleintr Lines.type
  split
  next => exact .of_same h rfl rfl rfl
  next =>
    split
    next =>
      obtain ⟨hok, hlines, hw⟩ := killLine_spec h rfl hplain
      exact .of_same hok hlines rfl hw
    next =>
      split
      next =>
        split
        next hne =>
          obtain ⟨hok, hlines, -⟩ := h.erase hne
          exact .of_same hok hlines rfl rfl
        next hempty =>
          refine .of_same h ?_ rfl rfl
          have hnil : s.lines.line = [] := s.line_eq_nil (by rw [not_not.mp hempty, BitVec.sub_self]; rfl)
          rw [hnil, dropLast_nil, ← hnil]
      next =>
        have hlen : s.lines.queue.length + s.lines.line.length = (s.e - s.r).toNat := by
          rw [s.length_queue, s.length_line, h.split]
        rw [hlen]
        split
        next hroom => exact store_typed h hroom.2 _
        next => exact .of_same h rfl rfl rfl

end Lines

def Plain (l : List Byte) : Prop := newline ∉ l ∧ ctrl 'D' ∉ l

section Read

variable {s : Cons} {target n : Nat}

theorem Cons.Ok.get (h : s.Ok) (hne : s.r ≠ s.w) :
    Cons.Ok { s with r := s.r + 1 } ∧
      s.lines.queue = s.buf (s.r.toNat % bufSize) :: (Cons.lines { s with r := s.r + 1 }).queue := by
  have hqueue : (s.w - s.r).toNat = (s.w - (s.r + 1)).toNat + 1 := Ring.count_get hne
  have hre : s.r ≠ s.e := by
    intro heq
    have hle := h.order
    rw [← heq, BitVec.sub_self] at hle
    simp only [BitVec.toNat_zero] at hle
    omega
  have hall : (s.e - s.r).toNat = (s.e - (s.r + 1)).toNat + 1 := Ring.count_get hre
  have horder := h.order
  have hroom := h.room
  refine ⟨⟨?_, ?_⟩, Ring.contents_get bufSize_dvd hne⟩
  · show (s.w - (s.r + 1)).toNat ≤ (s.e - (s.r + 1)).toNat
    omega
  · show (s.e - (s.r + 1)).toNat ≤ bufSize
    omega

/-- What is true of a pass through the loop by the reason for which it ends. It has consumed `k` bytes of
`queue`. -/
def Pass.Stops (p : Pass) (target n k : Nat) (queue : List Byte) : Prop :=
  match p.stop with
  | none => 0 < p.n ∧ Plain p.bytes ∧ p.cons.lines.queue = []
  | some .length => p.n = 0 ∧ Plain p.bytes
  | some .newline => p.bytes.getLast? = some newline ∧ Plain p.bytes.dropLast
  | some .before => p.n < target ∧ Plain p.bytes ∧ queue[k]? = some (ctrl 'D')
  | some .eof => p.n = target ∧ n = target ∧ p.bytes = [] ∧ k = 1 ∧ queue[0]? = some (ctrl 'D')

/-- A pass consumes `k` bytes of the queue and delivers those that are not `^D`. -/
structure Passed (s : Cons) (target n k : Nat) (p : Pass) : Prop where
  ok : p.cons.Ok
  index : p.cons.r = s.r + BitVec.ofNat 32 k
  fixed : p.cons.w = s.w ∧ p.cons.e = s.e ∧ p.cons.buf = s.buf
  count : k ≤ s.lines.queue.length
  queue : p.cons.lines.queue = s.lines.queue.drop k
  bytes : p.bytes = (s.lines.queue.take k).filter fun b => b ≠ ctrl 'D'
  left : n = p.n + p.bytes.length
  stops : p.Stops target n k s.lines.queue

theorem Plain.nil : Plain [] := ⟨not_mem_nil, not_mem_nil⟩

theorem Plain.cons {c : Byte} {l : List Byte} (hd : c ≠ ctrl 'D') (hn : c ≠ newline) (h : Plain l) : Plain (c :: l) :=
  ⟨fun hm => (mem_cons.mp hm).elim (fun he => hn he.symm) h.1, fun hm => (mem_cons.mp hm).elim (fun he => hd he.symm) h.2⟩

theorem Passed.stay {m : Nat} {stop : Option Stop} (h : s.Ok) (hstops : Pass.Stops ⟨s, m, [], stop⟩ target m 0 s.lines.queue) :
    Passed s target m 0 ⟨s, m, [], stop⟩ :=
  ⟨h, (BitVec.add_zero _).symm, ⟨rfl, rfl, rfl⟩, Nat.zero_le _, rfl, rfl, rfl, hstops⟩

theorem Passed.cons {c : Byte} {k : Nat} {p : Pass} (hqueue : s.lines.queue = c :: (Cons.lines { s with r := s.r + 1 }).queue)
    (hd : c ≠ ctrl 'D') (hn : c ≠ newline) (hlt : n < target) (h : Passed { s with r := s.r + 1 } target n k p) :
    Passed s target (n + 1) (k + 1) { p with bytes := c :: p.bytes } where
  ok := h.ok
  index := by
    refine h.index.trans ?_
    show s.r + 1 + BitVec.ofNat 32 k = s.r + BitVec.ofNat 32 (k + 1)
    rw [BitVec.ofNat_add, BitVec.add_assoc, BitVec.add_comm (1 : BitVec 32)]
    rfl
  fixed := h.fixed
  count := by
    rw [hqueue, length_cons]
    exact Nat.succ_le_succ h.count
  queue := by
    rw [hqueue, drop_succ_cons]
    exact h.queue
  bytes := by
    show c :: p.bytes = _
    rw [hqueue, take_succ_cons, filter_cons_of_pos (by simpa using hd), h.bytes]
  left := by
    have hleft := h.left
    show n + 1 = p.n + (c :: p.bytes).length
    rw [length_cons]
    omega
  stops := by
    have hstops := h.stops
    rcases p with ⟨cons, m, bytes, stop⟩
    rcases stop with _ | stop
    · exact ⟨hstops.1, hstops.2.1.cons hd hn, hstops.2.2⟩
    cases stop with
    | length => exact ⟨hstops.1, hstops.2.cons hd hn⟩
    | newline =>
      obtain ⟨hlast, hplain⟩ := hstops
      have hne : bytes ≠ [] := by
        rintro rfl
        exact absurd hlast nofun
      refine ⟨?_, ?_⟩
      · show (c :: bytes).getLast? = some newline
        rw [getLast?_cons_of_ne_nil hne]
        exact hlast
      · show Plain (c :: bytes).dropLast
        rw [dropLast_cons_of_ne_nil hne]
        exact hplain.cons hd hn
    | before => exact ⟨hstops.1, hstops.2.1.cons hd hn, by rw [hqueue]; exact hstops.2.2⟩
    | eof => exact absurd hstops.2.1 (by omega)

theorem readLoop_passed (h : s.Ok) (hn : n ≤ target) : ∃ k, Passed s target n k (readLoop target n s) := by
  induction n generalizing s with
  | zero => exact ⟨0, .stay h ⟨rfl, .nil⟩⟩
  | succ n ih =>
    unfold readLoop
    split
    next hempty =>
      refine ⟨0, .stay h ⟨Nat.succ_pos n, .nil, ?_⟩⟩
      show Ring.contents bufSize s.buf s.r s.w = []
      rw [hempty, contents_self]
    next hne =>
      obtain ⟨hok, hqueue⟩ := h.get hne
      dsimp only
      split
      next hd =>
        rw [hd] at hqueue
        split
        next hlt =>
          -- `cons.r--` puts the `^D` back
          have hback : Cons.mk s.buf (s.r + 1 - 1) s.w s.e = s := by
            have hr : s.r + 1 - 1 = s.r := BitVec.add_sub_cancel _ _
            rw [hr]
          rw [hback]
          exact ⟨0, .stay h ⟨hlt, .nil, by rw [hqueue]; rfl⟩⟩
        next hge =>
          refine ⟨1, hok, rfl, ⟨rfl, rfl, rfl⟩, by rw [hqueue]; simp, by rw [hqueue]; rfl, ?_, rfl, ?_⟩
          · rw [hqueue]
            simp
          · exact ⟨by show n + 1 = target; omega, by omega, rfl, rfl, by rw [hqueue]; rfl⟩
      next hd =>
        split
        next hline =>
          refine ⟨1, hok, rfl, ⟨rfl, rfl, rfl⟩, by rw [hqueue]; simp, by rw [hqueue]; rfl, ?_, rfl, ?_⟩
          · rw [hqueue, take_succ_cons, take_zero, filter_cons_of_pos (by simpa using hd)]
            rfl
          · exact ⟨congrArg some hline, .nil⟩
        next hline =>
          obtain ⟨k, hk⟩ := ih hok (by omega)
          exact ⟨k + 1, hk.cons hqueue hd hline (by omega)⟩

end Read

/-- How a call has ended, given the bytes committed so far: at its length, just after a newline, just before
a `^D`, or with nothing after consuming a `^D`; with -1 only if its process was killed. -/
def Ended.Ok (stream : List Byte) (f : Ended) : Prop :=
  ctrl 'D' ∉ f.bytes ∧ newline ∉ f.bytes.dropLast ∧ f.bytes.length ≤ f.target ∧
  match f.stop with
  | none => f.ret = -1
  | some .length => f.bytes.length = f.target ∧ f.ret = f.bytes.length
  | some .newline => f.bytes.getLast? = some newline ∧ f.ret = f.bytes.length
  | some .before => f.bytes ≠ [] ∧ stream[f.pos]? = some (ctrl 'D') ∧ f.ret = f.bytes.length
  | some .eof => f.bytes = [] ∧ 0 < f.pos ∧ stream[f.pos - 1]? = some (ctrl 'D') ∧ f.ret = 0

structure Inv (s : State) : Prop where
  ok : s.cons.Ok
  line : Plain s.cons.lines.line
  stream : s.stream.drop s.taken = s.cons.lines.queue
  count : s.taken ≤ s.stream.length
  delivered : s.delivered = (s.stream.take s.taken).filter fun b => b ≠ ctrl 'D'
  readers : ∀ id rd, s.reader id = some rd → rd.n + rd.got.length = rd.target ∧ Plain rd.got
  ended : ∀ f ∈ s.ended, f.Ok s.stream

section Run

variable {s t : State} {l l' : List Byte}

theorem Plain.append (h : Plain l) (h' : Plain l') : Plain (l ++ l') :=
  ⟨fun hm => (mem_append.mp hm).elim h.1 h'.1, fun hm => (mem_append.mp hm).elim h.2 h'.2⟩

theorem Plain.subset (h : Plain l) (hsub : l' ⊆ l) : Plain l' :=
  ⟨fun hm => h.1 (hsub hm), fun hm => h.2 (hsub hm)⟩

theorem Lines.commit_plain {d : Lines} (h : Plain d.line) (c : Byte) : Plain (d.commit c).line := by
  unfold Lines.commit
  split
  next => exact .nil
  next hc =>
    rw [not_or, not_or] at hc
    exact h.append (.cons hc.2.1 hc.1 .nil)

theorem Lines.type_plain {d : Lines} (h : Plain d.line) (c : Byte) : Plain (d.type c).line := by
  unfold Lines.type
  split
  next => exact h
  next =>
    split
    next => exact .nil
    next =>
      split
      next => exact h.subset (dropLast_subset _)
      next =>
        split
        next => exact Lines.commit_plain h _
        next => exact h

theorem getElem?_of_prefix {i : Nat} {b : Byte} (hpre : l <+: l') (h : l[i]? = some b) : l'[i]? = some b := by
  obtain ⟨x, rfl⟩ := hpre
  rw [List.getElem?_append_left (List.getElem?_eq_some_iff.mp h).1, h]

theorem Ended.Ok.mono {stream stream' : List Byte} {f : Ended} (h : f.Ok stream) (hpre : stream <+: stream') : f.Ok stream' := by
  obtain ⟨hd, hn, hlen, hstop⟩ := h
  refine ⟨hd, hn, hlen, ?_⟩
  rcases f with ⟨target, bytes, ret, stop, pos⟩
  rcases stop with _ | stop
  · exact hstop
  cases stop with
  | length => exact hstop
  | newline => exact hstop
  | before => exact ⟨hstop.1, getElem?_of_prefix hpre hstop.2.1, hstop.2.2⟩
  | eof => exact ⟨hstop.1, hstop.2.1, getElem?_of_prefix hpre hstop.2.2.1, hstop.2.2.2⟩

theorem Inv.intr (h : Inv s) (c : Byte) : Inv (s.intr c) := by
  have htyped := consoleintr_typed h.ok h.line.1 c
  have hpre : s.stream <+: (s.intr c).stream := prefix_append _ _
  refine ⟨htyped.ok, ?_, ?_, h.count.trans hpre.length_le, ?_, h.readers, fun f hf => (h.ended f hf).mono hpre⟩
  · show Plain (consoleintr s.cons c).lines.line
    rw [htyped.lines]
    exact Lines.type_plain h.line c
  · show (s.stream ++ _).drop s.taken = (consoleintr s.cons c).lines.queue
    rw [drop_append_of_le_length h.count, h.stream, htyped.lines, htyped.committed]
  · show s.delivered = ((s.stream ++ _).take s.taken).filter _
    rw [take_append_of_le_length h.count]
    exact h.delivered

theorem Passed.ended {rd : Reader} {k : Nat} {p : Pass} (h : Inv s) (hrd : rd.n + rd.got.length = rd.target) (hgot : Plain rd.got)
    (hp : Passed s.cons rd.target rd.n k p) {ret : Int} (hret : ret = if p.stop.isSome then (rd.target : Int) - p.n else -1) :
    Ended.Ok s.stream ⟨rd.target, rd.got ++ p.bytes, ret, p.stop, s.taken + k⟩ := by
  have hat : ∀ i, s.cons.lines.queue[i]? = s.stream[s.taken + i]? := fun i => by rw [← h.stream, getElem?_drop]
  have hd : ctrl 'D' ∉ p.bytes := by
    rw [hp.bytes]
    simp
  have hleft := hp.left
  have hlen : (rd.got ++ p.bytes).length = rd.got.length + p.bytes.length := length_append
  have hlast : Plain p.bytes.dropLast := by
    have hstops := hp.stops
    unfold Pass.Stops at hstops
    split at hstops
    next => exact hstops.2.1.subset (dropLast_subset _)
    next => exact hstops.2.subset (dropLast_subset _)
    next => exact hstops.2
    next => exact hstops.2.1.subset (dropLast_subset _)
    next =>
      rw [hstops.2.2.1]
      exact .nil
  refine ⟨fun hm => (mem_append.mp hm).elim hgot.2 hd, ?_, by show (rd.got ++ p.bytes).length ≤ rd.target; omega, ?_⟩
  · show newline ∉ (rd.got ++ p.bytes).dropLast
    by_cases hnil : p.bytes = []
    · rw [hnil, append_nil]
      exact (hgot.subset (dropLast_subset _)).1
    · rw [dropLast_append_of_ne_nil hnil]
      exact (hgot.append hlast).1
  · have hstops := hp.stops
    rcases p with ⟨cons, m, bytes, stop⟩
    rcases stop with _ | stop
    · exact hret
    have hret : ret = (rd.target : Int) - m := hret
    dsimp only at hleft hlen hat
    cases stop with
    | length =>
      have hm : m = 0 := hstops.1
      exact ⟨by show (rd.got ++ bytes).length = rd.target; omega, by show ret = ((rd.got ++ bytes).length : Int); omega⟩
    | newline =>
      refine ⟨?_, by show ret = ((rd.got ++ bytes).length : Int); omega⟩
      show (rd.got ++ bytes).getLast? = some newline
      rw [getLast?_append, show bytes.getLast? = some newline from hstops.1]
      rfl
    | before =>
      have hm : m < rd.target := hstops.1
      refine ⟨fun hnil => ?_, ?_, by show ret = ((rd.got ++ bytes).length : Int); omega⟩
      · rw [show rd.got ++ bytes = [] from hnil, length_nil] at hlen
        omega
      · show s.stream[s.taken + k]? = some (ctrl 'D')
        rw [← hat]
        exact hstops.2.2
    | eof =>
      obtain ⟨hm, hn, hbytes, hk, hhead⟩ := hstops
      have hm : m = rd.target := hm
      have hgotnil : rd.got = [] := eq_nil_of_length_eq_zero (by omega)
      refine ⟨?_, by show 0 < s.taken + k; omega, ?_, by show ret = 0; omega⟩
      · show rd.got ++ bytes = []
        rw [hgotnil]
        exact hbytes
      · show s.stream[s.taken + k - 1]? = some (ctrl 'D')
        rw [hk, Nat.add_sub_cancel]
        have h0 := hat 0
        rw [Nat.add_zero] at h0
        rw [← h0]
        exact hhead

theorem Inv.passed {rd : Reader} {k : Nat} {p : Pass} (h : Inv s) (hp : Passed s.cons rd.target rd.n k p) :
    (p.cons.r - s.cons.r).toNat = k ∧ Plain p.cons.lines.line ∧ s.stream.drop (s.taken + k) = p.cons.lines.queue ∧
      s.taken + k ≤ s.stream.length ∧
      s.delivered ++ p.bytes = (s.stream.take (s.taken + k)).filter fun b => b ≠ ctrl 'D' := by
  have hcount := hp.count
  have hlen : s.cons.lines.queue.length = s.stream.length - s.taken := by rw [← h.stream, length_drop]
  have hsmall : k < 2 ^ 32 := by
    have hq := s.cons.length_queue
    have horder := h.ok.order
    have hroom := h.ok.room
    simp only [bufSize] at hroom
    omega
  refine ⟨?_, ?_, ?_, ?_, ?_⟩
  · have hsub : s.cons.r + BitVec.ofNat 32 k - s.cons.r = BitVec.ofNat 32 k := by
      rw [BitVec.add_comm, BitVec.add_sub_cancel]
    rw [hp.index, hsub, BitVec.toNat_ofNat, Nat.mod_eq_of_lt hsmall]
  · obtain ⟨hw, he, hbuf⟩ := hp.fixed
    have hline := h.line
    unfold Cons.lines at hline ⊢
    rwa [hw, he, hbuf]
  · rw [hp.queue, ← h.stream, drop_drop]
  · have hle := h.count
    omega
  · rw [take_add, filter_append, ← h.delivered, h.stream, hp.bytes]

theorem Inv.pass {rd : Reader} (h : Inv s) (hrd : rd.n + rd.got.length = rd.target) (hgot : Plain rd.got) (id : Nat) (killed : Bool) :
    Inv (s.pass id rd killed) := by
  obtain ⟨k, hp⟩ := @readLoop_passed s.cons rd.target rd.n h.ok (by omega)
  obtain ⟨hk, hline, hqueue, hcount, hdelivered⟩ := h.passed hp
  have hended := @Passed.ended s rd k _ h hrd hgot hp
  have hothers : ∀ id' rd', update s.reader id none id' = some rd' → rd'.n + rd'.got.length = rd'.target ∧ Plain rd'.got := by
    intro id' rd' hrd'
    by_cases hid : id' = id
    · rw [hid, update_self] at hrd'
      exact nomatch hrd'
    · rw [update_of_ne hid] at hrd'
      exact h.readers id' rd' hrd'
  have hall : ∀ ret, ret = (if (readLoop rd.target rd.n s.cons).stop.isSome then (rd.target : Int) - (readLoop rd.target rd.n s.cons).n
      else -1) → ∀ f ∈ s.ended ++ [⟨rd.target, rd.got ++ (readLoop rd.target rd.n s.cons).bytes, ret,
        (readLoop rd.target rd.n s.cons).stop, s.taken + k⟩], f.Ok s.stream := by
    intro ret hret f hf
    rcases mem_append.mp hf with hf | hf
    · exact h.ended f hf
    · rw [mem_singleton.mp hf]
      exact hended hret
  unfold State.pass
  dsimp only
  rw [hk]
  split
  next hstop => exact ⟨hp.ok, hline, hqueue, hcount, hdelivered, hothers, hall _ (by rw [if_pos hstop])⟩
  next hstop =>
    split
    next => exact ⟨hp.ok, hline, hqueue, hcount, hdelivered, hothers, hall _ (by rw [if_neg hstop])⟩
    next =>
      refine ⟨hp.ok, hline, hqueue, hcount, hdelivered, fun id' rd' hrd' => ?_, h.ended⟩
      dsimp only at hrd'
      by_cases hid : id' = id
      · rw [hid, update_self] at hrd'
        cases hrd'
        have hstops := hp.stops
        unfold Pass.Stops at hstops
        have hnone : (readLoop rd.target rd.n s.cons).stop = none := by simpa using hstop
        rw [hnone] at hstops
        refine ⟨?_, hgot.append hstops.2.1⟩
        have hleft := hp.left
        dsimp only
        rw [length_append]
        omega
      · rw [update_of_ne hid] at hrd'
        exact h.readers id' rd' hrd'

theorem Inv.cases {e : Ev} (h : Inv s) (hstep : Console.step s e = some t) :
    (∃ c, e = .intr c ∧ t = s.intr c) ∨
      (∀ c, e ≠ .intr c) ∧ ∃ id rd killed, t = s.pass id rd killed ∧ rd.n + rd.got.length = rd.target ∧ Plain rd.got := by
  cases e with
  | intr c => exact .inl ⟨c, rfl, (Option.some.inj hstep).symm⟩
  | read id n killed =>
    dsimp only [Console.step] at hstep
    split at hstep
    next => exact .inr ⟨nofun, id, ⟨n.toNat, n.toNat, []⟩, killed, (Option.some.inj hstep).symm, Nat.add_zero _, .nil⟩
    next => exact nomatch hstep
  | wake id killed =>
    dsimp only [Console.step] at hstep
    split at hstep
    next => exact nomatch hstep
    next rd hrd => exact .inr ⟨nofun, id, rd, killed, (Option.some.inj hstep).symm, h.readers id rd hrd⟩

theorem Inv.step {e : Ev} (h : Inv s) (hstep : Console.step s e = some t) : Inv t := by
  rcases h.cases hstep with ⟨c, -, rfl⟩ | ⟨-, id, rd, killed, rfl, hsum, hgot⟩
  · exact h.intr c
  · exact h.pass hsum hgot id killed

theorem Inv.boot : Inv boot :=
  ⟨⟨by decide, by decide⟩, .nil, rfl, le_rfl, rfl, nofun, fun f hf => absurd hf not_mem_nil⟩

theorem Inv.run {evs : List Ev} (h : Transition.Run Console.step Console.boot evs s) : Inv s :=
  h.invariant (P := fun _ s => Inv s) Inv.boot fun _ hinv hstep => hinv.step hstep

def Ev.edits (e : Ev) (d : Lines) : List Byte :=
  match e with
  | .intr c => (d.type c).line
  | _ => d.line

theorem Inv.history {e : Ev} (h : Inv s) (hstep : Console.step s e = some t) :
    s.stream <+: t.stream ∧ s.taken ≤ t.taken ∧ t.cons.lines.line = e.edits s.cons.lines := by
  rcases h.cases hstep with ⟨c, rfl, rfl⟩ | ⟨hintr, id, rd, killed, rfl, hsum, -⟩
  · exact ⟨prefix_append _ _, le_rfl, congrArg Lines.line (consoleintr_typed h.ok h.line.1 c).lines⟩
  · obtain ⟨k, hp⟩ := @readLoop_passed s.cons rd.target rd.n h.ok (by omega)
    obtain ⟨hw, he, hbuf⟩ := hp.fixed
    have hline : (readLoop rd.target rd.n s.cons).cons.lines.line = e.edits s.cons.lines := by
      have hedits : e.edits s.cons.lines = s.cons.lines.line := by
        cases e with
        | intr c => exact absurd rfl (hintr c)
        | read => rfl
        | wake => rfl
      rw [hedits]
      unfold Cons.lines
      rw [hw, he, hbuf]
    unfold State.pass
    dsimp only
    split
    next => exact ⟨prefix_rfl, Nat.le_add_right _ _, hline⟩
    next =>
      split
      next => exact ⟨prefix_rfl, Nat.le_add_right _ _, hline⟩
      next => exact ⟨prefix_rfl, Nat.le_add_right _ _, hline⟩

/-- The console is a line discipline, for any interleaving of input and reads. -/
theorem console_line_discipline {evs : List Ev} (hrun : Transition.Run Console.step Console.boot evs s) :
    (s.cons.e - s.cons.r).toNat = (s.cons.w - s.cons.r).toNat + (s.cons.e - s.cons.w).toNat ∧
      (s.cons.e - s.cons.r).toNat ≤ bufSize ∧
      s.cons.lines.queue = s.stream.drop s.taken ∧
      s.delivered = (s.stream.take s.taken).filter (fun b => b ≠ ctrl 'D') ∧
      (∀ f ∈ s.ended, f.Ok s.stream) ∧
      (∀ c, (consoleintr s.cons c).lines = s.cons.lines.type c) ∧
      ∀ e t, Console.step s e = some t →
        s.stream <+: t.stream ∧ s.taken ≤ t.taken ∧ t.cons.lines.line = e.edits s.cons.lines := by
  have h := Inv.run hrun
  exact ⟨h.ok.split, h.ok.room, h.stream.symm, h.delivered, h.ended,
    fun c => (consoleintr_typed h.ok h.line.1 c).lines, fun e t hstep => h.history hstep⟩

end Run

def oneLine : List Ev :=
  [.read 0 10 false, .intr 97, .intr 0x7f, .intr 98, .intr 13, .wake 0 false]

theorem oneLine_delivers : ∃ s, Transition.Run step boot oneLine s ∧ s.delivered = [98, 10] ∧
    s.delivered = (s.stream.take s.taken).filter (fun b => b ≠ ctrl 'D') := by
  have hrun : ∃ s, Transition.exec step boot oneLine = some s ∧ s.delivered = [98, 10] := ⟨_, rfl, by decide +kernel⟩
  obtain ⟨s, hs, hdelivered⟩ := hrun
  exact ⟨s, Transition.run_of_exec hs, hdelivered, (console_line_discipline (Transition.run_of_exec hs)).2.2.2.1⟩

end Xv6.Console
