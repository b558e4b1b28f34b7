import Mathlib
import Xv6.Printf

/-!
What the two versions of `printf`, that of the kernel and that of the user library, print for numbers.
-/

namespace Xv6.Printf

open List

section Numeral

variable {digit : Nat → Byte} {base : Nat}

def valueOf (digit : Nat → Byte) (c : Byte) : Nat := ((range 16).find? fun d => digit d = c).getD 0

def parseNat (digit : Nat → Byte) (base : Nat) (cs : List Byte) : Nat := Nat.ofDigits base (cs.reverse.map (valueOf digit))

def parse (digit : Nat → Byte) (base : Nat) (cs : List Byte) : Int :=
  if cs.head? = some (ch '-') then -(parseNat digit base cs.tail : Int) else parseNat digit base cs

def Table (digit : Nat → Byte) : Prop := ∀ d < 16, valueOf digit (digit d) = d ∧ digit d ≠ ch '-'

def storeLoop (digit : Nat → Byte) (base : Nat) : (fuel x : Nat) → List Byte
  | 0, _ => []
  | fuel + 1, x => digit (x % base) :: if x / base ≠ 0 then storeLoop digit base fuel (x / base) else []

end Numeral

section Effects

def Effect.char : Effect → Option Byte
  | .putc c => some c
  | .store _ _ => none

def chars (es : List Effect) : List Byte := es.filterMap Effect.char

def emit (buf : List Byte) : List Effect := (buf.zipIdx.map fun x => .store x.2 x.1) ++ buf.reverse.map .putc

/-- `printptr`, with the table of its digits. -/
def emitPtr (digit : Nat → Byte) (x : BitVec 64) : List Effect :=
  [.putc (ch '0'), .putc (ch 'x')] ++ (range 16).map fun i => .putc (digit ((x <<< (4 * i)) >>> 60).toNat)

end Effects

section Value

variable {digit : Nat → Byte} {base w fuel : Nat}

def signedBuf (digit : Nat → Byte) (base fuel : Nat) (xx : BitVec w) (sign : Bool) : List Byte :=
  if sign && xx.slt 0 then storeLoop digit base fuel (-xx).toNat ++ [ch '-'] else storeLoop digit base fuel xx.toNat

end Value

section Kernel

/-- The argument is not an unsigned one with the top bit of an `int` set, and fits into the buffer. -/
def Conversion.Exact (v : Conversion) (a : BitVec 64) : Prop :=
  (v.sign = true ∨ v.long = true ∨ (a.setWidth 32).toNat < 2 ^ 31) ∧ v.Fits a

end Kernel

namespace User

def digits (d : Nat) : Byte := ("0123456789ABCDEF".toList.map ch).getD d 0

/-- `printint` of the user library; its parameter is an `int`. -/
def printint (xx : BitVec 32) (base : Nat) (sgn : Bool) : List Effect := emit (signedBuf digits base 32 xx sgn)

def effects : Item → List Effect
  | .text c => [.putc c]
  | .int v a => printint (a.setWidth 32) v.base v.sign
  | .ptr a => emitPtr digits a

/-- The loop of `vprintf`: `skip` characters are left out by `i += skip`, and `state` is `'%'`. -/
def items (str : BitVec 64 → List Byte) : (fmt : List Byte) → (skip : Nat) → (state : Bool) → (va : Nat → BitVec 64) → List Item
  | [], _, _, _ => []
  | _ :: fmt, skip + 1, state, va => items str fmt skip state va
  | c0 :: fmt, 0, false, va => if c0 = ch '%' then items str fmt 0 true va else .text c0 :: items str fmt 0 false va
  | c0 :: fmt, 0, true, va =>
    let c1 := if c0 ≠ 0 then fmt.getD 0 0 else 0
    let c2 := if c1 ≠ 0 then fmt.getD 1 0 else 0
    match conversion c0 c1 c2 with
    | some v => .int v (va 0) :: items str fmt (v.chars - 1) false fun k => va (k + 1)
    | none =>
      if c0 = ch 'p' then .ptr (va 0) :: items str fmt 0 false fun k => va (k + 1)
      else if c0 = ch 's' then
        (if va 0 = 0 then "(null)".toList.map ch else str (va 0)).map .text ++ items str fmt 0 false fun k => va (k + 1)
      else if c0 = ch '%' then .text (ch '%') :: items str fmt 0 false va
      else .text (ch '%') :: .text c0 :: items str fmt 0 false va

/-- The argument fits into the `int` that `printint` takes. -/
def Exact (v : Conversion) (a : BitVec 64) : Prop :=
  v.long = true → if v.sign then a.toInt = (a.setWidth 32).toInt else a.toNat < 2 ^ 32

variable {str : BitVec 64 → List Byte} {fmt : List Byte} {va : Nat → BitVec 64} {skip : Nat} {state : Bool} {v : Conversion} {a : BitVec 64}

theorem items_supported (h : .int v a ∈ items str fmt skip state va) : v.Supported := by
  induction fmt generalizing skip state va with
  | nil => exact absurd h not_mem_nil
  | cons c0 fmt ih =>
    cases skip with
    | succ skip => exact ih h
    | zero =>
      cases state with
      | false =>
        rw [items] at h
        split at h
        next => exact ih h
        next => exact ih ((mem_cons.mp h).resolve_left (by simp))
      | true =>
        simp only [items] at h
        split at h
        next v' hv' =>
          rcases mem_cons.mp h with heq | h
          · cases heq
            exact conversion_supported hv'
          · exact ih h
        next =>
          split_ifs at h
          all_goals simp only [mem_cons, mem_append, reduceCtorEq, int_notMem_text, false_or] at h
          all_goals exact ih h

end User

end Xv6.Printf
