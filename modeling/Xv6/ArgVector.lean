import Xv6.DiskLayout
import Xv6.Exec

/-!
The arguments of a new program, with their bytes: `sys_exec` fetches the strings, and `exec` pushes them
and the pointers to them onto the stack of the new address space.
-/

namespace Xv6.ArgVector

open List

open Fs (Byte byteOf put put_same put_ne)

open Vm (pgsize maxva uint64 pgroundup)

abbrev maxarg : Nat := 32

/-- An address space: the pages that `copyout` can write to, and the bytes by their virtual address. No two
virtual pages share a physical one. -/
structure Image where
  writable : Nat → Bool
  byte : Nat → Byte

def Image.write (im : Image) (dst n : Nat) (src : Nat → Byte) : Image :=
  { im with byte := fun a => if dst ≤ a ∧ a < dst + n then src (a - dst) else im.byte a }

/-- `copyout`: whether it succeeds, and the address space it leaves. -/
def copyout : (fuel : Nat) → Image → (dstva len : Nat) → (Nat → Byte) → Bool × Image
  | 0, im, _, _, _ => (true, im)
  | fuel + 1, im, dstva, len, src =>
    if 0 < len then
      let va0 := Vm.pgrounddown dstva
      if va0 ≥ maxva then (false, im)
      else if !im.writable (va0 / pgsize) then (false, im)
      else
        let n := min (pgsize - (dstva - va0)) len
        copyout fuel (im.write dstva n src) (va0 + pgsize) (len - n) fun i => src (n + i)
    else (true, im)

/-- `copyinstr` into a buffer of `max` bytes. -/
def fetchstr (user : Nat → Option Byte) : (max addr : Nat) → Option (List Byte)
  | 0, _ => none
  | max + 1, addr =>
    match user addr with
    | none => none
    | some c => if c = 0 then some [] else (fetchstr user max (addr + 1)).map (c :: ·)

/-- The loop of `sys_exec`, where `argv` has `slots` elements left: `uargv i` is what `fetchaddr` reads, and
`room i` tells whether `kalloc` has a page. -/
def fetchArgv (user : Nat → Option Byte) (uargv : Nat → Option Nat) (room : Nat → Bool) : (slots i : Nat) → Option (List (List Byte))
  | 0, _ => none
  | slots + 1, i =>
    match uargv i with
    | none => none
    | some uarg =>
      if uarg = 0 then some []
      else if !room i then none
      else
        match fetchstr user pgsize uarg with
        | none => none
        | some s => (fetchArgv user uargv room slots (i + 1)).map (s :: ·)

inductive Outcome
  /-- `ustack` is indexed at or past its end. -/
  | overflow
  /-- `goto bad`. -/
  | bad (im : Image)
  /-- The stack is ready: `ustack`, `argc` and `sp`. -/
  | pushed (ustack : Nat → Nat) (argc sp : Nat) (im : Image)

/-- `sp -= n; sp -= sp % 16`. -/
def down (sp n : Nat) : Nat := uint64 (sp + 2 ^ 64 - n) - uint64 (sp + 2 ^ 64 - n) % 16

def cstring (s : List Byte) (i : Nat) : Byte := s.getD i 0

def pushStrings (stackbase : Nat) : List (List Byte) → (ustack : Nat → Nat) → (argc sp : Nat) → Image → Outcome
  | [], ustack, argc, sp, im => .pushed ustack argc sp im
  | s :: argv, ustack, argc, sp, im =>
    if argc ≥ maxarg then .bad im
    else
      let sp := down sp (s.length + 1)
      if sp < stackbase then .bad im
      else
        let r := copyout (s.length + 1) im sp (s.length + 1) (cstring s)
        if !r.1 then .bad r.2
        else if argc < maxarg then pushStrings stackbase argv (put ustack argc sp) (argc + 1) sp r.2
        else .overflow

def arrayBytes (a : Nat → Nat) (i : Nat) : Byte := byteOf (a (i / 8)) (i % 8)

def pushPointers (stackbase : Nat) : Outcome → Outcome
  | .pushed ustack argc sp im =>
    if argc < maxarg then
      let ustack := put ustack argc 0
      let sp := down sp ((argc + 1) * 8)
      if sp < stackbase then .bad im
      else
        let r := copyout ((argc + 1) * 8) im sp ((argc + 1) * 8) (arrayBytes ustack)
        if !r.1 then .bad r.2 else .pushed ustack argc sp r.2
    else .overflow
  | r => r

/-- The size that `uvmalloc` returns, 0 if there are not `enough` pages. -/
def uvmalloc (oldsz newsz : Nat) (enough : Bool) : Nat :=
  if newsz < oldsz then oldsz else if enough then newsz else 0

/-- The size of the new image with its guard page and its stack page, from the size of the program. -/
def stackTop (sz : Nat) (enough : Bool) : Nat :=
  uvmalloc (pgroundup sz) (uint64 (pgroundup sz + 2 * pgsize)) enough

/-- What `exec` returns, with `a1` and `sp` of the trapframe. -/
structure Entry where
  ret : Int
  a1 : Nat
  sp : Nat

/-- `exec` from the allocation of the stack on: the return value and the registers if it gets there. -/
def exec (sz : Nat) (enough : Bool) (argv : List (List Byte)) (ustack : Nat → Nat) (im : Image) : Option (Option Entry × Image) :=
  if stackTop sz enough = 0 then some (none, im)
  else
    let stackbase := stackTop sz enough - pgsize
    match pushPointers stackbase (pushStrings stackbase argv ustack 0 (stackTop sz enough) im) with
    | .overflow => none
    | .bad im => some (none, im)
    | .pushed _ argc sp im => some (some ⟨argc, sp, sp⟩, im)

section Fetch

variable {user : Nat → Option Byte} {uargv : Nat → Option Nat} {room : Nat → Bool}

theorem fetchstr_spec {max addr : Nat} {s : List Byte} (h : fetchstr user max addr = some s) : s.length < max ∧ 0 ∉ s := by
  induction max generalizing addr s with
  | zero => exact nomatch h
  | succ max ih =>
    unfold fetchstr at h
    split at h
    next => exact nomatch h
    next c _ =>
      split at h
      next =>
        cases h
        exact ⟨Nat.succ_pos max, not_mem_nil⟩
      next hc =>
        obtain ⟨rest, hrest, rfl⟩ := Option.map_eq_some_iff.mp h
        obtain ⟨hlen, hzero⟩ := ih hrest
        refine ⟨by simpa using hlen, ?_⟩
        rw [mem_cons, not_or]
        exact ⟨fun h0 => hc h0.symm, hzero⟩

theorem fetchArgv_spec {slots i : Nat} {argv : List (List Byte)} (h : fetchArgv user uargv room slots i = some argv) :
    argv.length < slots ∧ ∀ s ∈ argv, s.length < pgsize ∧ 0 ∉ s := by
  induction slots generalizing i argv with
  | zero => exact nomatch h
  | succ slots ih =>
    unfold fetchArgv at h
    split at h
    next => exact nomatch h
    next uarg _ =>
      split at h
      next =>
        cases h
        exact ⟨Nat.succ_pos slots, fun s hs => absurd hs not_mem_nil⟩
      next =>
        split at h
        next => exact nomatch h
        next =>
          split at h
          next => exact nomatch h
          next s hs =>
            obtain ⟨rest, hrest, rfl⟩ := Option.map_eq_some_iff.mp h
            obtain ⟨hlen, hall⟩ := ih hrest
            refine ⟨by simpa using hlen, fun s' hs' => ?_⟩
            rcases mem_cons.mp hs' with rfl | hs'
            · exact fetchstr_spec hs
            · exact hall s' hs'

end Fetch

section Copyout

variable {im : Image} {dst n a : Nat} {src : Nat → Byte}

theorem Image.write_in {i : Nat} (hi : i < n) : (im.write dst n src).byte (dst + i) = src i := by
  rw [Image.write]
  dsimp only
  rw [if_pos ⟨Nat.le_add_right _ _, by omega⟩, Nat.add_sub_cancel_left]

theorem Image.write_out (h : a < dst ∨ dst + n ≤ a) : (im.write dst n src).byte a = im.byte a := if_neg (by omega)

theorem copyout_spec {fuel len : Nat} (hfuel : len ≤ fuel) :
    (∀ a, a < dst ∨ dst + len ≤ a → (copyout fuel im dst len src).2.byte a = im.byte a) ∧
      ((copyout fuel im dst len src).1 = true → ∀ i < len, (copyout fuel im dst len src).2.byte (dst + i) = src i) := by
  induction fuel generalizing im dst len src with
  | zero => exact ⟨fun _ _ => rfl, fun _ i hi => by omega⟩
  | succ fuel ih =>
    unfold copyout
    split
    next hpos =>
      dsimp only
      split
      next => exact ⟨fun _ _ => rfl, nofun⟩
      next =>
        split
        next => exact ⟨fun _ _ => rfl, nofun⟩
        next =>
          generalize hn : min (pgsize - (dst - Vm.pgrounddown dst)) len = n
          have hsize : 0 < n ∧ n ≤ len ∧ (n < len → Vm.pgrounddown dst + pgsize = dst + n) := by
            simp only [Vm.pgrounddown, pgsize] at *
            omega
          obtain ⟨hnpos, hnlen, hnext⟩ := hsize
          by_cases hrest : n < len
          · obtain ⟨hframe, hbytes⟩ := @ih (im.write dst n src) (Vm.pgrounddown dst + pgsize) (fun i => src (n + i)) (len - n) (by omega)
            rw [hnext hrest] at hframe hbytes ⊢
            refine ⟨fun a ha => ?_, fun hok i hi => ?_⟩
            · rw [hframe a (by omega), Image.write_out (by omega)]
            · by_cases hin : i < n
              · rw [hframe _ (by omega), Image.write_in hin]
              · have hlate := hbytes hok (i - n) (by omega)
                rw [show dst + n + (i - n) = dst + i by omega, show n + (i - n) = i by omega] at hlate
                exact hlate
          · obtain rfl : n = len := by omega
            have hstop : ∀ d f, copyout fuel (im.write dst n src) d (n - n) f = (true, im.write dst n src) := by
              intro d f
              rw [Nat.sub_self]
              cases fuel with
              | zero => rfl
              | succ fuel => rw [copyout, if_neg (lt_irrefl 0)]
            rw [hstop]
            exact ⟨fun a ha => Image.write_out ha, fun _ i hi => Image.write_in hi⟩
    next hzero => exact ⟨fun _ _ => rfl, fun _ i hi => by omega⟩

end Copyout

/-- The strings on the stack between `lo` and `hi`, in the order in which they were pushed, each with its
address. -/
structure Placed (lo hi : Nat) (im : Image) (placed : List (Nat × List Byte)) : Prop where
  order : placed.Pairwise fun x y => y.1 + (y.2.length + 1) ≤ x.1
  inside : ∀ x ∈ placed, lo ≤ x.1 ∧ x.1 + (x.2.length + 1) ≤ hi
  bytes : ∀ x ∈ placed, ∀ i < x.2.length + 1, im.byte (x.1 + i) = cstring x.2 i

structure Stack (stackbase sz : Nat) (start : Image) (placed : List (Nat × List Byte)) (ustack : Nat → Nat) (argc sp : Nat)
    (im : Image) : Prop where
  strings : Placed sp sz im placed
  count : argc = placed.length
  pointers : ∀ i (hi : i < placed.length), ustack i = (placed.get ⟨i, hi⟩).1
  aligned : sp % 16 = 0
  range : stackbase ≤ sp ∧ sp ≤ sz
  frame : ∀ a < stackbase, im.byte a = start.byte a

section Push

variable {stackbase sz argc sp n : Nat} {start im : Image} {placed : List (Nat × List Byte)} {ustack : Nat → Nat} {s : List Byte}

theorem down_spec (hsp : sp < 2 ^ 64) (hn : n ≤ sp) : down sp n % 16 = 0 ∧ down sp n + n ≤ sp := by
  unfold down uint64
  omega

theorem Placed.push {lo lo' hi : Nat} {im' : Image} (h : Placed lo hi im placed) (hlo : lo ≤ hi) (hroom : lo' + (s.length + 1) ≤ lo)
    (hframe : ∀ a, lo ≤ a → im'.byte a = im.byte a) (hbytes : ∀ i < s.length + 1, im'.byte (lo' + i) = cstring s i) :
    Placed lo' hi im' (placed ++ [(lo', s)]) where
  order := by
    rw [pairwise_append]
    refine ⟨h.order, pairwise_singleton _ _, fun x hx y hy => ?_⟩
    rw [mem_singleton.mp hy]
    exact hroom.trans (h.inside x hx).1
  inside x hx := by
    rcases mem_append.mp hx with hx | hx
    · have hin := h.inside x hx
      omega
    · rw [mem_singleton.mp hx]
      exact ⟨le_rfl, hroom.trans hlo⟩
  bytes x hx i hi := by
    rcases mem_append.mp hx with hx | hx
    · have hin := h.inside x hx
      rw [hframe _ (by omega), h.bytes x hx i hi]
    · rw [mem_singleton.mp hx] at hi ⊢
      exact hbytes i hi

def Pushes (stackbase sz : Nat) (start : Image) (strs : List (List Byte)) : Outcome → Prop
  | .overflow => False
  | .bad im => ∀ a < stackbase, im.byte a = start.byte a
  | .pushed ustack argc sp im => ∃ placed, placed.map Prod.snd = strs ∧ Stack stackbase sz start placed ustack argc sp im

theorem pushStrings_spec (hsz : sz < 2 ^ 64) (hbase : pgsize ≤ stackbase) {argv : List (List Byte)}
    (hlen : ∀ s ∈ argv, s.length < pgsize) (hcount : placed.length + argv.length < maxarg)
    (h : Stack stackbase sz start placed ustack argc sp im) :
    Pushes stackbase sz start (placed.map Prod.snd ++ argv) (pushStrings stackbase argv ustack argc sp im) := by
  induction argv generalizing placed ustack argc sp im with
  | nil => exact ⟨placed, by rw [append_nil], h⟩
  | cons s argv ih =>
    obtain ⟨hlow, hhigh⟩ := h.range
    have hs := hlen s mem_cons_self
    have hargc := h.count
    rw [length_cons] at hcount
    obtain ⟨halign, hdown⟩ := @down_spec sp (s.length + 1) (by omega) (by omega)
    unfold pushStrings
    rw [if_neg (by omega)]
    dsimp only
    split
    next => exact h.frame
    next hfit =>
      obtain ⟨hframe, hbytes⟩ := @copyout_spec im (down sp (s.length + 1)) (cstring s) (s.length + 1) _ le_rfl
      have hbelow : ∀ a < stackbase,
          (copyout (s.length + 1) im (down sp (s.length + 1)) (s.length + 1) (cstring s)).2.byte a = start.byte a := fun a ha => by
        rw [hframe a (by omega), h.frame a ha]
      split
      next => exact hbelow
      next hok =>
        rw [if_pos (by omega)]
        have hplaced := h.strings.push hhigh hdown (fun a ha => hframe a (by omega)) (hbytes (by simpa using hok))
        have hnext : Stack stackbase sz start (placed ++ [(down sp (s.length + 1), s)]) (put ustack argc (down sp (s.length + 1)))
            (argc + 1) (down sp (s.length + 1))
            (copyout (s.length + 1) im (down sp (s.length + 1)) (s.length + 1) (cstring s)).2 := by
          refine ⟨hplaced, by simp [hargc], fun i hi => ?_, halign, by omega, hbelow⟩
          by_cases hi' : i < placed.length
          · rw [put_ne _ _ _ (by omega), h.pointers i hi']
            simp [getElem_append_left hi']
          · obtain rfl : i = placed.length := by
              rw [length_append, length_singleton] at hi
              omega
            rw [hargc, put_same]
            simp
        have hrest := ih (fun s' hs' => hlen s' (mem_cons_of_mem s hs'))
          (by rw [length_append, length_singleton]; omega) hnext
        simpa using hrest

end Push

/-- The argument vector at `sp`: `argc` pointers and a null pointer, each to its string with its NUL. The
array lies below the strings, and each string below the one before it. -/
structure Argv (stackbase sz : Nat) (argv : List (List Byte)) (sp : Nat) (im : Image) : Prop where
  aligned : sp % 16 = 0
  range : stackbase ≤ sp ∧ sp < sz
  null : get64 im.byte (sp + 8 * argv.length) = 0
  inside : ∀ i (hi : i < argv.length), sp + 8 * (argv.length + 1) ≤ get64 im.byte (sp + 8 * i) ∧
    get64 im.byte (sp + 8 * i) + ((argv.get ⟨i, hi⟩).length + 1) ≤ sz
  bytes : ∀ i (hi : i < argv.length), (∀ j (hj : j < (argv.get ⟨i, hi⟩).length),
    im.byte (get64 im.byte (sp + 8 * i) + j) = (argv.get ⟨i, hi⟩).get ⟨j, hj⟩) ∧
    im.byte (get64 im.byte (sp + 8 * i) + (argv.get ⟨i, hi⟩).length) = 0
  apart : ∀ i j (_ : i < j) (hj : j < argv.length),
    get64 im.byte (sp + 8 * j) + ((argv.get ⟨j, hj⟩).length + 1) ≤ get64 im.byte (sp + 8 * i)

section Pointers

variable {stackbase sz argc sp : Nat} {start im : Image} {placed : List (Nat × List Byte)} {ustack : Nat → Nat}

theorem get64_of_bytes {b : Nat → Byte} {o v : Nat} (hv : v < 2 ^ 64) (h : ∀ i < 8, b (o + i) = byteOf v i) : get64 b o = v := by
  have hlow : Fs.get32 b o = v % 2 ^ 32 := Fs.get32_of_bytes fun i hi => h i (by omega)
  have hhigh : Fs.get32 b (o + 4) = v / 2 ^ 32 % 2 ^ 32 := by
    refine Fs.get32_of_bytes fun i hi => ?_
    have hdiv : v / 256 ^ (4 + i) = v / 2 ^ 32 / 256 ^ i := by
      rw [Nat.pow_add, Nat.div_div_eq_div_mul, show (256 : Nat) ^ 4 = 2 ^ 32 from rfl]
    rw [Nat.add_assoc, h (4 + i) (by omega), byteOf, byteOf, hdiv]
  rw [get64, hlow, hhigh]
  omega

theorem get64_arrayBytes {a : Nat → Nat} {n i : Nat} (hv : a i < 2 ^ 64) (hi : i < n)
    (h : ∀ j < n * 8, im.byte (sp + j) = arrayBytes a j) : get64 im.byte (sp + 8 * i) = a i := by
  refine get64_of_bytes hv fun j hj => ?_
  rw [Nat.add_assoc, h _ (by omega), arrayBytes, show (8 * i + j) / 8 = i by omega, show (8 * i + j) % 8 = j by omega]

theorem cstring_get {s : List Byte} {j : Nat} (hj : j < s.length) : cstring s j = s.get ⟨j, hj⟩ := by
  simp [cstring, hj]

theorem cstring_length (s : List Byte) : cstring s s.length = 0 := by
  simp [cstring]

theorem Placed.argv {lo : Nat} (h : Placed lo sz im placed) (hsz : sz < 2 ^ 64)
    (hptr : ∀ i (hi : i < placed.length), ustack i = (placed.get ⟨i, hi⟩).1) (hnull : ustack placed.length = 0)
    (halign : sp % 16 = 0) (hbase : stackbase ≤ sp) (hroom : sp + (placed.length + 1) * 8 ≤ lo) (hlo : lo ≤ sz)
    (harray : ∀ j < (placed.length + 1) * 8, im.byte (sp + j) = arrayBytes ustack j) :
    Argv stackbase sz (placed.map Prod.snd) sp im := by
  have hread : ∀ i (hi : i < placed.length), get64 im.byte (sp + 8 * i) = (placed.get ⟨i, hi⟩).1 := by
    intro i hi
    have hin := h.inside _ (get_mem placed ⟨i, hi⟩)
    rw [get64_arrayBytes (by rw [hptr i hi]; omega) (Nat.lt_succ_of_lt hi) harray, hptr i hi]
  have hstr : ∀ i (hi : i < (placed.map Prod.snd).length),
      (placed.map Prod.snd).get ⟨i, hi⟩ = (placed.get ⟨i, by rwa [length_map] at hi⟩).2 := by
    intro i hi
    simp
  refine ⟨halign, by omega, ?_, fun i hi => ?_, fun i hi => ?_, fun i j hij hj => ?_⟩
  · rw [length_map, get64_arrayBytes (by rw [hnull]; decide) (Nat.lt_succ_self _) harray, hnull]
  · have hi' : i < placed.length := by rwa [length_map] at hi
    have hin := h.inside _ (get_mem placed ⟨i, hi'⟩)
    have hlen : (placed.map Prod.snd).length = placed.length := length_map _
    rw [hread i hi', hstr]
    omega
  · have hi' : i < placed.length := by rwa [length_map] at hi
    have hbytes := h.bytes _ (get_mem placed ⟨i, hi'⟩)
    rw [← hstr i hi] at hbytes
    rw [hread i hi']
    refine ⟨fun j hj => ?_, ?_⟩
    · rw [hbytes j (by omega), cstring_get hj]
    · rw [hbytes _ (Nat.lt_succ_self _), cstring_length]
  · have hj' : j < placed.length := by rwa [length_map] at hj
    rw [hread i (by omega), hread j hj', hstr]
    exact pairwise_iff_getElem.mp h.order i j (by omega) hj' hij

def Builds (stackbase sz : Nat) (start : Image) (argv : List (List Byte)) : Outcome → Prop
  | .overflow => False
  | .bad im => ∀ a < stackbase, im.byte a = start.byte a
  | .pushed _ argc sp im => argc = argv.length ∧ Argv stackbase sz argv sp im ∧ ∀ a < stackbase, im.byte a = start.byte a

theorem pushPointers_spec (hsz : sz < 2 ^ 64) (hbase : pgsize ≤ stackbase) {argv : List (List Byte)}
    (hcount : argv.length < maxarg) {r : Outcome} (h : Pushes stackbase sz start argv r) :
    Builds stackbase sz start argv (pushPointers stackbase r) := by
  cases r with
  | overflow => exact h
  | bad im => exact h
  | pushed ustack argc sp im =>
    obtain ⟨placed, rfl, hstack⟩ := h
    obtain ⟨hlow, hhigh⟩ := hstack.range
    obtain rfl := hstack.count
    rw [length_map] at hcount
    have hsmall : (placed.length + 1) * 8 ≤ pgsize := by
      simp only [maxarg, pgsize] at *
      omega
    obtain ⟨halign, hdown⟩ := @down_spec sp ((placed.length + 1) * 8) (by omega) (by omega)
    dsimp only [pushPointers]
    rw [if_pos hcount]
    split
    next => exact hstack.frame
    next hfit =>
      obtain ⟨hframe, hbytes⟩ := @copyout_spec im (down sp ((placed.length + 1) * 8)) (arrayBytes (put ustack placed.length 0))
        ((placed.length + 1) * 8) _ le_rfl
      have hbelow : ∀ a < stackbase, (copyout ((placed.length + 1) * 8) im (down sp ((placed.length + 1) * 8))
          ((placed.length + 1) * 8) (arrayBytes (put ustack placed.length 0))).2.byte a = start.byte a := fun a ha => by
        rw [hframe a (by omega), hstack.frame a ha]
      split
      next => exact hbelow
      next hok =>
        refine ⟨by rw [length_map], ?_, hbelow⟩
        have hstrings : Placed sp sz _ placed :=
          ⟨hstack.strings.order, hstack.strings.inside, fun x hx i hi => by
            have hin := hstack.strings.inside x hx
            rw [hframe _ (.inr (by omega))]
            exact hstack.strings.bytes x hx i hi⟩
        refine hstrings.argv hsz (fun i hi => ?_) (put_same _ _ _) halign (by omega) hdown hhigh (hbytes (by simpa using hok))
        rw [put_ne _ _ _ (by omega)]
        exact hstack.pointers i hi

theorem stackTop_spec {enough : Bool} (h : stackTop sz enough ≠ 0) :
    2 * pgsize ≤ stackTop sz enough ∧ stackTop sz enough < 2 ^ 64 ∧ stackTop sz enough % pgsize = 0 := by
  unfold stackTop uvmalloc pgroundup uint64 at *
  simp only [pgsize] at *
  split at h
  next hwrap =>
    rw [if_pos hwrap]
    omega
  next hwrap =>
    rw [if_neg hwrap]
    split at h
    next henough =>
      rw [if_pos henough]
      omega
    next => exact absurd rfl h

end Pointers

section Exec

variable {user : Nat → Option Byte} {uargv : Nat → Option Nat} {room : Nat → Bool} {argv : List (List Byte)}

/-- Whatever `sys_exec` has fetched, `exec` stays inside `ustack`, writes nothing below `stackbase`, and if it
returns `argc` the argument vector is on the new stack. -/
theorem exec_argv (hargv : fetchArgv user uargv room maxarg 0 = some argv) (sz : Nat) (enough : Bool) (ustack : Nat → Nat) (im : Image) :
    ∃ r im', exec sz enough argv ustack im = some (r, im') ∧
      (∀ a < stackTop sz enough - pgsize, im'.byte a = im.byte a) ∧
      ∀ e, r = some e → e.ret = argv.length ∧ e.a1 = e.sp ∧
        Argv (stackTop sz enough - pgsize) (stackTop sz enough) argv e.sp im' := by
  obtain ⟨hcount, hstrings⟩ := fetchArgv_spec hargv
  unfold exec
  split
  next => exact ⟨none, im, rfl, fun _ _ => rfl, nofun⟩
  next htop =>
    obtain ⟨hlow, hhigh, halign⟩ := stackTop_spec htop
    dsimp only
    have hempty : Stack (stackTop sz enough - pgsize) (stackTop sz enough) im [] ustack 0 (stackTop sz enough) im := by
      refine ⟨⟨List.Pairwise.nil, ?_, ?_⟩, rfl, fun i hi => absurd hi (Nat.not_lt_zero i), ?_, by omega, fun _ _ => rfl⟩
      · exact fun x hx => absurd hx not_mem_nil
      · exact fun x hx => absurd hx not_mem_nil
      · simp only [pgsize] at halign
        omega
    have hbase : pgsize ≤ stackTop sz enough - pgsize := by omega
    have hpushed := pushStrings_spec hhigh hbase (fun s hs => (hstrings s hs).1) (by simpa using hcount) hempty
    have hbuilt := pushPointers_spec hhigh hbase hcount hpushed
    generalize pushPointers _ _ = r at hbuilt
    cases r with
    | overflow => exact hbuilt.elim
    | bad im' => exact ⟨none, im', rfl, hbuilt, nofun⟩
    | pushed ustack' argc sp im' =>
      obtain ⟨hargc, hvector, hbelow⟩ := hbuilt
      refine ⟨_, im', rfl, hbelow, fun e he => ?_⟩
      cases he
      exact ⟨congrArg _ hargc, rfl, hvector⟩

end Exec

def hiAt (a : Nat) : Option Byte := if a = 100 then some 104 else if a = 101 then some 105 else some 0

def hiArgv (i : Nat) : Option Nat := some (if i < 2 then 100 + i else 0)

/-- The vector `{"hi", "i"}`, whose second string is the end of the first in the caller's memory. -/
theorem exec_argv_hi :
    ∃ e im', exec 4096 true [[104, 105], [105]] (fun _ => 0) ⟨fun _ => true, fun _ => 0⟩ = some (some e, im') ∧
      e.ret = 2 ∧ Argv 8192 12288 [[104, 105], [105]] e.sp im' := by
  have hargv : fetchArgv hiAt hiArgv (fun _ => true) maxarg 0 = some [[104, 105], [105]] := by decide +kernel
  obtain ⟨r, im', hexec, -, hbuilt⟩ := exec_argv hargv 4096 true (fun _ => 0) ⟨fun _ => true, fun _ => 0⟩
  have hsome : ((exec 4096 true [[104, 105], [105]] (fun _ => 0) ⟨fun _ => true, fun _ => 0⟩).bind Prod.fst).isSome = true := by
    decide +kernel
  rw [hexec] at hsome
  obtain ⟨e, rfl⟩ := Option.isSome_iff_exists.mp hsome
  obtain ⟨hret, -, hvector⟩ := hbuilt e rfl
  exact ⟨e, im', hexec, hret, hvector⟩

end Xv6.ArgVector
