import Mathlib

/-!
`printf` of the kernel. What it does is a list of effects: a character goes to the console, or a byte into the
buffer of `printint`.
-/

namespace Xv6.Printf

open List

abbrev Byte := BitVec 8

def ch (c : Char) : Byte := BitVec.ofNat 8 c.toNat

inductive Effect
  | putc (c : Byte)
  /-- `buf[i] = c` in `printint` -/
  | store (i : Nat) (c : Byte)
  deriving DecidableEq

/-- `char buf[16]` -/
def bufsize : Nat := 16

def digits (d : Nat) : Byte := ("0123456789abcdef".toList.map ch).getD d 0

/-- The digits in the order in which the loop stores them. A 64-bit number has at most 64. -/
def digitLoop (base : Nat) : (fuel x : Nat) → List Byte
  | 0, _ => []
  | fuel + 1, x => digits (x % base) :: if x / base ≠ 0 then digitLoop base fuel (x / base) else []

def negative (xx : BitVec 64) (sign : Bool) : Bool := sign && xx.slt 0

def magnitude (xx : BitVec 64) (sign : Bool) : Nat := if negative xx sign then (-xx).toNat else xx.toNat

/-- What `printint` stores, from `buf[0]` on. -/
def intBuf (xx : BitVec 64) (base : Nat) (sign : Bool) : List Byte :=
  digitLoop base 64 (magnitude xx sign) ++ if negative xx sign then [ch '-'] else []

def printint (xx : BitVec 64) (base : Nat) (sign : Bool) : List Effect :=
  let buf := intBuf xx base sign
  (buf.zipIdx.map fun x => .store x.2 x.1) ++ buf.reverse.map .putc

def printptr (x : BitVec 64) : List Effect :=
  [.putc (ch '0'), .putc (ch 'x')] ++ (range 16).map fun i => .putc (digits ((x <<< (4 * i)) >>> 60).toNat)

/-- A conversion that ends in `printint`. -/
structure Conversion where
  /-- the argument is a `uint64`, not an `int` -/
  long : Bool
  base : Nat
  sign : Bool
  /-- the characters after `%` -/
  chars : Nat

def conversion (c0 c1 c2 : Byte) : Option Conversion :=
  if c0 = ch 'd' then some ⟨false, 10, true, 1⟩
  else if c0 = ch 'l' ∧ c1 = ch 'd' then some ⟨true, 10, true, 2⟩
  else if c0 = ch 'l' ∧ c1 = ch 'l' ∧ c2 = ch 'd' then some ⟨true, 10, true, 3⟩
  else if c0 = ch 'u' then some ⟨false, 10, false, 1⟩
  else if c0 = ch 'l' ∧ c1 = ch 'u' then some ⟨true, 10, false, 2⟩
  else if c0 = ch 'l' ∧ c1 = ch 'l' ∧ c2 = ch 'u' then some ⟨true, 10, false, 3⟩
  else if c0 = ch 'x' then some ⟨false, 16, false, 1⟩
  else if c0 = ch 'l' ∧ c1 = ch 'x' then some ⟨true, 16, false, 2⟩
  else if c0 = ch 'l' ∧ c1 = ch 'l' ∧ c2 = ch 'x' then some ⟨true, 16, false, 3⟩
  else none

/-- `va_arg`, widened to the `long long` parameter of `printint`. -/
def Conversion.fetch (v : Conversion) (a : BitVec 64) : BitVec 64 := if v.long then a else (a.setWidth 32).signExtend 64

inductive Item
  | text (c : Byte)
  | int (v : Conversion) (a : BitVec 64)
  | ptr (a : BitVec 64)

def Item.effects : Item → List Effect
  | .text c => [.putc c]
  | .int v a => printint (v.fetch a) v.base v.sign
  | .ptr a => printptr a

/-- The loop of `printf`. The arguments are the words `va 0`, `va 1` and so on; `str` reads the string at an
address, up to its NUL. -/
def items (str : BitVec 64 → List Byte) : (fuel : Nat) → (fmt : List Byte) → (va : Nat → BitVec 64) → List Item
  | 0, _, _ => []
  | _ + 1, [], _ => []
  | fuel + 1, cx :: fmt, va =>
    if cx ≠ ch '%' then .text cx :: items str fuel fmt va
    else
      let c0 := fmt.getD 0 0
      let c1 := if c0 ≠ 0 then fmt.getD 1 0 else 0
      let c2 := if c1 ≠ 0 then fmt.getD 2 0 else 0
      match conversion c0 c1 c2 with
      | some v => .int v (va 0) :: items str fuel (fmt.drop v.chars) fun k => va (k + 1)
      | none =>
        if c0 = ch 'p' then .ptr (va 0) :: items str fuel (fmt.drop 1) fun k => va (k + 1)
        else if c0 = ch 's' then
          (if va 0 = 0 then "(null)".toList.map ch else str (va 0)).map .text ++ items str fuel (fmt.drop 1) fun k => va (k + 1)
        else if c0 = ch '%' then .text (ch '%') :: items str fuel (fmt.drop 1) va
        else if c0 = 0 then []
        else .text (ch '%') :: .text c0 :: items str fuel (fmt.drop 1) va

def printf (str : BitVec 64 → List Byte) (fmt : List Byte) (va : Nat → BitVec 64) : List Effect :=
  (items str fmt.length fmt va).flatMap Item.effects

def traceFormat : List Byte := "%d: syscall %s -> %lu\n".toList.map ch

/-- The line that `syscall` prints for a traced call. -/
def traceLine (str : BitVec 64 → List Byte) (pid name a0 : BitVec 64) : List Effect :=
  printf str traceFormat fun k => if k = 0 then pid else if k = 1 then name else a0

def InBounds (es : List Effect) : Prop := ∀ i c, .store i c ∈ es → i < bufsize

section Digits

theorem length_digitLoop_le {base : Nat} (hbase : 0 < base) (n fuel x : Nat) (hfuel : n < fuel) :
    (digitLoop base (fuel + 1) x).length ≤ n + 1 ↔ x < base ^ (n + 1) := by
  induction n generalizing fuel x with
  | zero =>
    obtain ⟨fuel, rfl⟩ : ∃ f, fuel = f + 1 := ⟨fuel - 1, by omega⟩
    have hzero : x / base = 0 ↔ x < base := Nat.div_eq_zero_iff_lt hbase
    rw [Nat.zero_add, Nat.pow_one, ← hzero, digitLoop, length_cons]
    by_cases hx : x / base = 0
    · simp [hx]
    · rw [if_pos hx, digitLoop, length_cons]
      omega
  | succ n ih =>
    obtain ⟨fuel, rfl⟩ : ∃ f, fuel = f + 1 := ⟨fuel - 1, by omega⟩
    have hdiv : x / base < base ^ (n + 1) ↔ x < base ^ (n + 2) := by rw [Nat.div_lt_iff_lt_mul hbase, ← Nat.pow_succ]
    rw [digitLoop, length_cons]
    by_cases hx : x / base = 0
    · have hsmall : x / base < base ^ (n + 1) := by rw [hx]; exact Nat.pow_pos hbase
      simp [hx, hdiv.mp hsmall]
    · rw [if_pos hx, ← hdiv, ← ih fuel (x / base) (by omega)]
      omega

theorem stores_inBounds (buf : List Byte) :
    InBounds ((buf.zipIdx.map fun x => .store x.2 x.1) ++ buf.reverse.map .putc) ↔ buf.length ≤ bufsize := by
  constructor
  · intro h
    by_contra hlong
    have hlt : bufsize < buf.length := by omega
    refine absurd (h bufsize (buf[bufsize]) (mem_append_left _ ?_)) (lt_irrefl _)
    exact mem_map.mpr ⟨(_, bufsize), mem_zipIdx_iff_getElem?.mpr (getElem?_eq_getElem hlt), rfl⟩
  · intro hlen i c hmem
    rcases mem_append.mp hmem with hstore | hput
    · obtain ⟨⟨c', i'⟩, hzip, heq⟩ := mem_map.mp hstore
      cases heq
      have hget := mem_zipIdx_iff_getElem?.mp hzip
      have := (List.getElem?_eq_some_iff.mp hget).1
      omega
    · obtain ⟨c', -, heq⟩ := mem_map.mp hput
      cases heq

end Digits

section Bounds

def Conversion.Fits (v : Conversion) (a : BitVec 64) : Prop :=
  v.base = 16 ∨ magnitude (v.fetch a) v.sign < if negative (v.fetch a) v.sign then 10 ^ 15 else 10 ^ 16

theorem magnitude_lt (xx : BitVec 64) (sign : Bool) : magnitude xx sign < 2 ^ 64 := by
  unfold magnitude
  split
  · exact (-xx).isLt
  · exact xx.isLt

theorem intBuf_length (xx : BitVec 64) (base : Nat) (sign : Bool) : (intBuf xx base sign).length =
    (digitLoop base 64 (magnitude xx sign)).length + if negative xx sign then 1 else 0 := by
  rw [intBuf, length_append]
  split <;> rfl

theorem decimal_fits (xx : BitVec 64) (sign : Bool) : (intBuf xx 10 sign).length ≤ bufsize ↔
    magnitude xx sign < if negative xx sign then 10 ^ 15 else 10 ^ 16 := by
  have hfifteen : (digitLoop 10 64 (magnitude xx sign)).length ≤ 15 ↔ _ :=
    length_digitLoop_le (by decide) 14 63 (magnitude xx sign) (by decide)
  have hsixteen : (digitLoop 10 64 (magnitude xx sign)).length ≤ 16 ↔ _ :=
    length_digitLoop_le (by decide) 15 63 (magnitude xx sign) (by decide)
  rw [intBuf_length, show bufsize = 16 from rfl]
  split
  · rw [← hfifteen]
    omega
  · rw [← hsixteen]
    omega

theorem hex_fits (xx : BitVec 64) : (intBuf xx 16 false).length ≤ bufsize := by
  have hlen := (length_digitLoop_le (show 0 < 16 by decide) 15 63 (magnitude xx false) (by decide)).mpr (magnitude_lt xx false)
  rw [intBuf_length, show negative xx false = false from rfl]
  exact hlen

theorem of_ite_some {α : Type} {p : Prop} [Decidable p] {P : α → Prop} {x y : α} {o : Option α} (hx : P x) (ho : o = some y → P y)
    (h : (if p then some x else o) = some y) : P y := by
  split at h
  next => exact Option.some.inj h ▸ hx
  next => exact ho h

def Conversion.Supported (v : Conversion) : Prop := v.base = 10 ∨ v.base = 16 ∧ v.sign = false

theorem conversion_supported {c0 c1 c2 : Byte} {v : Conversion} (h : conversion c0 c1 c2 = some v) : v.Supported := by
  revert h
  unfold conversion
  refine of_ite_some (P := Conversion.Supported) (.inl rfl) <| of_ite_some (.inl rfl) <| of_ite_some (.inl rfl) ?_
  refine of_ite_some (.inl rfl) <| of_ite_some (.inl rfl) <| of_ite_some (.inl rfl) ?_
  exact of_ite_some (.inr ⟨rfl, rfl⟩) <| of_ite_some (.inr ⟨rfl, rfl⟩) <| of_ite_some (.inr ⟨rfl, rfl⟩) nofun

theorem Conversion.inBounds_iff {v : Conversion} (hv : v.Supported) (a : BitVec 64) :
    InBounds (Item.int v a).effects ↔ v.Fits a := by
  rw [Item.effects, printint, stores_inBounds, Conversion.Fits]
  rcases hv with hten | ⟨hhex, hsign⟩
  · rw [hten, decimal_fits]
    exact ⟨.inr, fun h => h.resolve_left (by decide)⟩
  · rw [hhex, hsign]
    exact ⟨fun _ => .inl rfl, fun _ => hex_fits _⟩

theorem int_notMem_text {v : Conversion} {a : BitVec 64} (cs : List Byte) : .int v a ∉ cs.map Item.text := by
  intro h
  obtain ⟨c, -, hc⟩ := mem_map.mp h
  cases hc

theorem items_supported {str : BitVec 64 → List Byte} {fuel : Nat} {fmt : List Byte} {va : Nat → BitVec 64} {v : Conversion}
    {a : BitVec 64} (h : .int v a ∈ items str fuel fmt va) : v.Supported := by
  induction fuel generalizing fmt va with
  | zero => exact absurd h not_mem_nil
  | succ fuel ih =>
    cases fmt with
    | nil => exact absurd h not_mem_nil
    | cons cx fmt =>
      unfold items at h
      split at h
      next => exact ih ((mem_cons.mp h).resolve_left nofun)
      next =>
      dsimp only at h
      split at h
      next v' hv' =>
        rcases mem_cons.mp h with heq | h
        · cases heq
          exact conversion_supported hv'
        · exact ih h
      next =>
      split at h
      next => exact ih ((mem_cons.mp h).resolve_left nofun)
      next =>
      split at h
      next => exact ih ((mem_append.mp h).resolve_left (int_notMem_text _))
      next =>
      split at h
      next => exact ih ((mem_cons.mp h).resolve_left nofun)
      next =>
      split at h
      next => exact absurd h not_mem_nil
      next => exact ih ((mem_cons.mp ((mem_cons.mp h).resolve_left nofun)).resolve_left nofun)

theorem no_stores_text (c : Byte) : InBounds (Item.text c).effects := by
  intro i c' h
  cases mem_singleton.mp h

theorem no_stores_ptr (a : BitVec 64) : InBounds (Item.ptr a).effects := by
  intro i c h
  simp [Item.effects, printptr] at h

theorem InBounds.flatMap {xs : List Item} : InBounds (xs.flatMap Item.effects) ↔ ∀ x ∈ xs, InBounds x.effects :=
  ⟨fun h x hx i c hc => h i c (mem_flatMap.mpr ⟨x, hx, hc⟩), fun h i c hc => by
    obtain ⟨x, hx, hc⟩ := mem_flatMap.mp hc
    exact h x hx i c hc⟩

theorem printf_inBounds (str : BitVec 64 → List Byte) (fmt : List Byte) (va : Nat → BitVec 64) :
    InBounds (printf str fmt va) ↔ ∀ v a, .int v a ∈ items str fmt.length fmt va → v.Fits a := by
  rw [printf, InBounds.flatMap]
  constructor
  · exact fun h v a hmem => (Conversion.inBounds_iff (items_supported hmem) a).mp (h _ hmem)
  · intro h x hx
    cases x with
    | text c => exact no_stores_text c
    | int v a => exact (Conversion.inBounds_iff (items_supported hx) a).mpr (h v a hx)
    | ptr a => exact no_stores_ptr a

theorem int_fits (a : BitVec 64) : Conversion.Fits ⟨false, 10, true, 1⟩ a := by
  have hext : ((a.setWidth 32).signExtend 64).toInt = (a.setWidth 32).toInt := BitVec.toInt_signExtend_of_le (by decide)
  have hlow := BitVec.le_toInt (a.setWidth 32)
  have hhigh := BitVec.toInt_lt (x := a.setWidth 32)
  refine .inr ?_
  show magnitude ((a.setWidth 32).signExtend 64) true < if negative ((a.setWidth 32).signExtend 64) true then 10 ^ 15 else 10 ^ 16
  generalize (a.setWidth 32).signExtend 64 = xx at *
  have hlt := xx.isLt
  have hneg : negative xx true = true ↔ xx.toInt < 0 := by simp [negative, BitVec.slt]
  rw [BitVec.toInt_eq_toNat_cond] at hext hneg
  unfold magnitude
  by_cases hhalf : 2 * xx.toNat < 2 ^ 64
  · rw [if_pos hhalf] at hext hneg
    have hsign : ¬ negative xx true := by
      rw [hneg]
      omega
    rw [if_neg hsign, if_neg hsign]
    omega
  · rw [if_neg hhalf] at hext hneg
    have hsign : negative xx true := by
      rw [hneg]
      omega
    rw [if_pos hsign, if_pos hsign, BitVec.toNat_neg]
    omega

theorem ulong_fits (a : BitVec 64) : Conversion.Fits ⟨true, 10, false, 2⟩ a ↔ a.toNat < 10 ^ 16 :=
  ⟨fun h => h.resolve_left (by decide), .inr⟩

theorem mem_traceItems {str : BitVec 64 → List Byte} {pid name a0 a : BitVec 64} {v : Conversion} :
    .int v a ∈ items str traceFormat.length traceFormat (fun k => if k = 0 then pid else if k = 1 then name else a0) ↔
      v = ⟨false, 10, true, 1⟩ ∧ a = pid ∨ v = ⟨true, 10, false, 2⟩ ∧ a = a0 := by
  have hitems : items str traceFormat.length traceFormat (fun k => if k = 0 then pid else if k = 1 then name else a0) =
      .int ⟨false, 10, true, 1⟩ pid :: ((": syscall ".toList.map ch).map .text ++
        ((if name = 0 then "(null)".toList.map ch else str name).map .text ++
          ((" -> ".toList.map ch).map .text ++ [.int ⟨true, 10, false, 2⟩ a0, .text (ch '\n')]))) := rfl
  rw [hitems]
  simp only [mem_cons, mem_append, int_notMem_text, false_or, Item.int.injEq, reduceCtorEq, not_mem_nil, or_false]

/-- The stores of `printint` stay in its buffer exactly where no conversion of the format gets a number that
needs more than 16 characters, and the line for a traced call is safe for return values below `10 ^ 16`. -/
theorem stores_in_bounds (str : BitVec 64 → List Byte) (fmt : List Byte) (va : Nat → BitVec 64) (pid name a0 : BitVec 64) :
    (InBounds (printf str fmt va) ↔ ∀ v a, .int v a ∈ items str fmt.length fmt va → v.Fits a) ∧
      (InBounds (traceLine str pid name a0) ↔ a0.toNat < 10 ^ 16) := by
  refine ⟨printf_inBounds str fmt va, ?_⟩
  rw [traceLine, printf_inBounds]
  constructor
  · intro h
    exact (ulong_fits a0).mp (h _ a0 (mem_traceItems.mpr (.inr ⟨rfl, rfl⟩)))
  · intro ha v a hmem
    rcases mem_traceItems.mp hmem with ⟨rfl, -⟩ | ⟨rfl, rfl⟩
    · exact int_fits a
    · exact (ulong_fits a).mpr ha

theorem trace_minus_one : ¬ InBounds (traceLine (fun _ => []) 3 0 (-1)) := by
  intro h
  have hstore : Effect.store 19 (ch '1') ∈ traceLine (fun _ => []) 3 0 (-1) := by decide +kernel
  exact absurd (h 19 (ch '1') hstore) (by decide)

end Bounds

end Xv6.Printf
