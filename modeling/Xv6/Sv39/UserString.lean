import Xv6.Sv39.UserCopy

namespace Xv6.Sv39

open Prog List

section Code

/-- What a part of `copyinstr` did: `got_null`, the bytes it wrote to `dst` one after the other and
the physical addresses `p` it read. -/
structure Copied where
  gotNull : Bool
  dst : List Byte
  reads : List Nat

/-- The loop `while(n > 0)` of `copyinstr`. -/
def stringLoop (mem : Nat → Byte) : (n p : Nat) → Copied
  | 0, _ => ⟨false, [], []⟩
  | n + 1, p =>
    if mem p = 0 then ⟨true, [0], [p]⟩
    else
      let rest := stringLoop mem n (p + 1)
      ⟨rest.gotNull, mem p :: rest.dst, p :: rest.reads⟩

/-- The outer loop of `copyinstr`, which runs at most `max` rounds. The inner loop counts `max` down
once for each byte that is not NUL. -/
def copyinstrLoop (pagetable : Nat) : (fuel srcva max : Nat) → M Copied
  | 0, _, _ => return ⟨false, [], []⟩
  | fuel + 1, srcva, max => do
    if max = 0 then return ⟨false, [], []⟩
    let va0 := pgrounddown srcva
    let pa0 ← walkaddr pagetable va0
    if pa0 = 0 then return ⟨false, [], []⟩
    let n := min (pgsize - (srcva - va0)) max
    let r := stringLoop (← get).mem n (pa0 + (srcva - va0))
    if r.gotNull then return r
    let rest ← copyinstrLoop pagetable fuel (uint64 (va0 + pgsize)) (max - r.dst.length)
    return ⟨rest.gotNull, r.dst ++ rest.dst, r.reads ++ rest.reads⟩

/-- It returns 0 if `gotNull`, else -1. -/
def copyinstr (pagetable srcva max : Nat) : M Copied := copyinstrLoop pagetable max srcva max

def strlen : List Byte → Nat
  | [] => 0
  | c :: rest => if c = 0 then 0 else strlen rest + 1

/-- The `int` parameter `max` becomes the `uint64` one of `copyinstr`, and `strlen` counts in an
`int`. -/
def fetchstr (pagetable addr : Nat) (max : Int) : M Int := do
  let r ← copyinstr pagetable addr (max % 2 ^ 64).toNat
  if !r.gotNull then return -1
  return Int.bmod (strlen r.dst) (2 ^ 32)

end Code

section Copyinstr

variable {s : Machine} {E : String → Prop} {pagetable : Nat} {byte byte' : Nat → Byte} {addr addr' : Nat → Nat}
  {r r' : Copied} {n k : Nat}

structure Scan (byte : Nat → Byte) (addr : Nat → Nat) (r : Copied) (n : Nat) : Prop where
  dst : r.dst = (List.range n).map byte
  reads : r.reads = (List.range n).map addr
  null : r.gotNull = true → ∃ k, n = k + 1 ∧ byte k = 0 ∧ ∀ i < k, byte i ≠ 0
  more : r.gotNull = false → ∀ i < n, byte i ≠ 0

theorem Scan.empty : Scan byte addr ⟨false, [], []⟩ 0 where
  dst := rfl
  reads := rfl
  null := by rintro ⟨⟩
  more := fun _ i hi => absurd hi (Nat.not_lt_zero i)

theorem Scan.congr (h : Scan byte addr r n) (hb : ∀ i < n, byte' i = byte i) (ha : ∀ i < n, addr' i = addr i) :
    Scan byte' addr' r n where
  dst := by
    rw [h.dst]
    exact map_congr_left fun i hi => (hb i (mem_range.mp hi)).symm
  reads := by
    rw [h.reads]
    exact map_congr_left fun i hi => (ha i (mem_range.mp hi)).symm
  null := by
    intro hr
    obtain ⟨k, rfl, hk, hlt⟩ := h.null hr
    exact ⟨k, rfl, by rw [hb k (by omega), hk], fun i hi => by rw [hb i (by omega)]; exact hlt i hi⟩
  more := fun hr i hi => by rw [hb i hi]; exact h.more hr i hi

theorem Scan.append (h : Scan byte addr r n) (hr : r.gotNull = false)
    (h' : Scan (fun i => byte (n + i)) (fun i => addr (n + i)) r' k) :
    Scan byte addr ⟨r'.gotNull, r.dst ++ r'.dst, r.reads ++ r'.reads⟩ (n + k) where
  dst := by simp only [h.dst, h'.dst, range_add, map_append, map_map, Function.comp_def]
  reads := by simp only [h.reads, h'.reads, range_add, map_append, map_map, Function.comp_def]
  null := by
    intro hn
    obtain ⟨j, rfl, hj, hlt⟩ := h'.null hn
    exact ⟨n + j, by omega, hj, forall_lt_add.mpr ⟨h.more hr, hlt⟩⟩
  more := fun hn => forall_lt_add.mpr ⟨h.more hr, h'.more hn⟩

theorem stringLoop_scan (mem : Nat → Byte) (n p : Nat) :
    ∃ j ≤ n, Scan (fun i => mem (p + i)) (p + ·) (stringLoop mem n p) j ∧
      ((stringLoop mem n p).gotNull = false → j = n) := by
  induction n generalizing p with
  | zero => exact ⟨0, Nat.le_refl 0, .empty, fun _ => rfl⟩
  | succ n ih =>
    unfold stringLoop
    by_cases hz : mem p = 0
    · rw [if_pos hz]
      refine ⟨1, by omega, ⟨by simp [hz], by simp, fun _ => ⟨0, rfl, hz, by simp⟩, by rintro ⟨⟩⟩, by rintro ⟨⟩⟩
    · rw [if_neg hz]
      obtain ⟨j, hj, hscan, hall⟩ := ih (p + 1)
      have hone : Scan (fun i => mem (p + i)) (p + ·) ⟨false, [mem p], [p]⟩ 1 :=
        ⟨by simp, by simp, by rintro ⟨⟩, fun _ i hi => by simpa [Nat.lt_one_iff.mp hi] using hz⟩
      have hrest := hscan.congr (fun i _ => congrArg mem (Nat.add_assoc p 1 i).symm)
        fun i _ => (Nat.add_assoc p 1 i).symm
      exact ⟨1 + j, by omega, hone.append rfl hrest, fun h => by rw [hall h, Nat.add_comm]⟩

theorem wp_copyinstrLoop (ht : UserTable s.mem pagetable) {fuel srcva max : Nat} (hf : max ≤ fuel) :
    wp (copyinstrLoop pagetable fuel srcva max) (fun r t => t = s ∧ ∃ j ≤ max,
      Scan (fun i => userByte s.mem pagetable (srcva + i)) (fun i => physAddr s.mem pagetable (srcva + i)) r j ∧
      (∀ i < j, Readable s.mem pagetable (srcva + i)) ∧
      (r.gotNull = false → j = max ∨ ¬ Readable s.mem pagetable (srcva + j))) E s := by
  induction fuel generalizing srcva max with
  | zero =>
    obtain rfl : max = 0 := by omega
    exact wp_pure.mpr ⟨rfl, 0, Nat.le_refl 0, .empty, by simp, by simp⟩
  | succ fuel ih =>
    simp only [copyinstrLoop, wp_bind, wp_ite, wp_pure]
    refine ⟨?_, fun hmax => ?_⟩
    · rintro rfl
      exact ⟨trivial, 0, Nat.le_refl 0, .empty, by simp, by simp⟩
    · refine (wp_walkaddr srcva ht).mono ?_ fun _ => id
      rintro pa0 t ⟨rfl, hpa, haddr⟩
      refine ⟨?_, fun hne => ?_⟩
      · rintro rfl
        have hnot : ¬ Readable t.mem pagetable srcva := fun h => absurd rfl (hpa.mpr h)
        exact ⟨rfl, 0, Nat.zero_le max, .empty, by simp, fun _ => .inr hnot⟩
      · have hread := hpa.mp hne
        have hbase := haddr hne
        generalize hn : min (pgsize - (srcva - pgrounddown srcva)) max = n
        obtain ⟨hsame, hnext, hnpos, hnle, hle, hlt⟩ := piece rfl hn.symm
        have hphys : ∀ i < n, physAddr t.mem pagetable (srcva + i) = pa0 + (srcva - pgrounddown srcva) + i := by
          intro i hi
          rw [physAddr_page (hsame i hi) (Nat.le_add_right _ _), physAddr_pgrounddown, hbase,
            Nat.add_sub_cancel_left]
        obtain ⟨j, hj, hscan, hall⟩ := stringLoop_scan t.mem n (pa0 + (srcva - pgrounddown srcva))
        have hscan' : Scan (fun i => userByte t.mem pagetable (srcva + i))
            (fun i => physAddr t.mem pagetable (srcva + i)) _ j :=
          hscan.congr (fun i hi => by rw [userByte, hphys i (by omega)]) fun i hi => hphys i (by omega)
        have hfirst : ∀ i < n, Readable t.mem pagetable (srcva + i) := fun i hi =>
          (readable_page (hsame i hi)).mp hread
        simp only [wp_get]
        generalize stringLoop t.mem n (pa0 + (srcva - pgrounddown srcva)) = r at hscan' hall ⊢
        refine ⟨fun hnull => ?_, fun hnull => ?_⟩
        · exact ⟨trivial, j, by omega, hscan', fun i hi => hfirst i (by omega), by simp [hnull]⟩
        · have hnull : r.gotNull = false := by simpa using hnull
          obtain rfl := hall hnull
          have hlen : r.dst.length = j := by simp [hscan'.dst]
          rw [hlen]
          obtain ⟨k, rfl⟩ := Nat.exists_eq_add_of_le hnle
          rw [Nat.add_sub_cancel_left]
          refine (ih (by omega)).mono ?_ fun _ => id
          rintro r' u ⟨rfl, i, hi, hrest, hreads, hstop⟩
          refine ⟨rfl, j + i, by omega, ?_⟩
          -- the next address matters only if something is left
          rcases Nat.eq_zero_or_pos k with rfl | hk
          · obtain rfl : i = 0 := by omega
            refine ⟨hscan'.append hnull (hrest.congr (by simp) (by simp)), hfirst, by simp⟩
          · rw [uint64_next hread.1 hle (hnext (by omega))] at hrest hreads hstop
            simp only [Nat.add_assoc] at hrest hreads hstop
            refine ⟨hscan'.append hnull hrest, forall_lt_add.mpr ⟨hfirst, hreads⟩, fun h => ?_⟩
            rcases hstop h with rfl | h
            · exact .inl rfl
            · exact .inr h

/-- There is a string of length `k` at `va` that the user may read. -/
structure StringAt (mem : Nat → Byte) (pagetable va k : Nat) : Prop where
  readable : ∀ i ≤ k, Readable mem pagetable (va + i)
  null : userByte mem pagetable (va + k) = 0
  nonzero : ∀ i < k, userByte mem pagetable (va + i) ≠ 0

theorem StringAt.unique {mem : Nat → Byte} {va : Nat} (h : StringAt mem pagetable va n)
    (h' : StringAt mem pagetable va k) : n = k := by
  rcases Nat.lt_trichotomy n k with hlt | heq | hlt
  · exact absurd h.null (h'.nonzero n hlt)
  · exact heq
  · exact absurd h'.null (h.nonzero k hlt)

theorem strlen_bytes (hz : byte k = 0) (h : ∀ i < k, byte i ≠ 0) : strlen ((range (k + 1)).map byte) = k := by
  induction k generalizing byte with
  | zero => simp [strlen, hz]
  | succ k ih =>
    have h0 : byte 0 ≠ 0 := h 0 (Nat.succ_pos k)
    rw [range_succ_eq_map, map_cons, map_map]
    simp only [strlen, if_neg h0]
    exact congrArg Nat.succ (ih hz fun i hi => h (i + 1) (by omega))

/-- What a run of `copyinstr` with room for `max` bytes did, and when it returned 0. -/
structure StringCopied (s : Machine) (pagetable srcva max : Nat) (r : Copied) : Prop where
  ok : r.gotNull = true ↔ ∃ k < max, StringAt s.mem pagetable srcva k
  dst : ∀ k < max, StringAt s.mem pagetable srcva k → r.dst = userBytes s.mem pagetable srcva (k + 1)
  room : r.dst.length ≤ max
  reads : ∀ a ∈ r.reads, ∃ i, a = physAddr s.mem pagetable (srcva + i) ∧ Readable s.mem pagetable (srcva + i) ∧
    ∀ j < i, userByte s.mem pagetable (srcva + j) ≠ 0

theorem wp_copyinstr (ht : UserTable s.mem pagetable) (srcva max : Nat) :
    wp (copyinstr pagetable srcva max) (fun r t => t = s ∧ StringCopied s pagetable srcva max r) E s := by
  refine (wp_copyinstrLoop ht (Nat.le_refl max)).mono ?_ fun _ => id
  rintro r t ⟨rfl, j, hj, hscan, hread, hstop⟩
  have hfound : ∀ k < max, StringAt t.mem pagetable srcva k → r.gotNull = true ∧ j = k + 1 := by
    intro k hk hstr
    cases hr : r.gotNull with
    | false =>
      -- the scan would have gone past the NUL
      have hmore := hscan.more hr
      have hle : j ≤ k := by
        by_contra hgt
        exact hmore k (by omega) hstr.null
      rcases hstop hr with rfl | hnot
      · omega
      · exact absurd (hstr.readable j hle) hnot
    | true =>
      obtain ⟨k', rfl, hz, hlt⟩ := hscan.null hr
      have hstr' : StringAt t.mem pagetable srcva k' := ⟨fun i hi => hread i (by omega), hz, hlt⟩
      exact ⟨rfl, by rw [hstr.unique hstr']⟩
  refine ⟨rfl, ⟨fun hr => ?_, ?_⟩, fun k hk hstr => ?_, ?_, fun a ha => ?_⟩
  · obtain ⟨k, rfl, hz, hlt⟩ := hscan.null hr
    exact ⟨k, by omega, fun i hi => hread i (by omega), hz, hlt⟩
  · rintro ⟨k, hk, hstr⟩
    exact (hfound k hk hstr).1
  · rw [hscan.dst, (hfound k hk hstr).2]
    rfl
  · rw [hscan.dst, length_map, length_range]
    exact hj
  · rw [hscan.reads] at ha
    obtain ⟨i, hi, rfl⟩ := mem_map.mp ha
    have hi := mem_range.mp hi
    refine ⟨i, rfl, hread i hi, fun m hm => ?_⟩
    cases hr : r.gotNull with
    | false => exact hscan.more hr m (by omega)
    | true =>
      obtain ⟨k, rfl, -, hlt⟩ := hscan.null hr
      exact hlt m (by omega)

/-- `copyinstr` returns 0 if and only if a string shorter than `max` stands at `srcva` in pages that
the user may read, and then `dst` holds it with its NUL and `fetchstr` returns its length. It writes at
most `max` bytes, and reads bytes of such pages only, none past the first NUL. -/
theorem copyinstr_exact (ht : UserTable s.mem pagetable) (srcva : Nat) :
    (∀ max, wp (copyinstr pagetable srcva max) (fun r t => t = s ∧ StringCopied s pagetable srcva max r)
      (fun _ => False) s) ∧
    ∀ (max : Int) (k : Nat), max < 2 ^ 31 → k < (max % 2 ^ 64).toNat → (0 ≤ max ∨ k < 2 ^ 31) →
      StringAt s.mem pagetable srcva k →
      wp (fetchstr pagetable srcva max) (fun r t => t = s ∧ r = k) (fun _ => False) s := by
  refine ⟨fun max => wp_copyinstr ht srcva max, fun max k hmax hk hint hstr => ?_⟩
  simp only [fetchstr, wp_bind]
  refine (wp_copyinstr ht srcva _).mono ?_ fun _ => id
  rintro r t ⟨rfl, h⟩
  have hnull : r.gotNull = true := h.ok.mpr ⟨k, hk, hstr⟩
  have hlen : strlen r.dst = k := by
    rw [h.dst k hk hstr]
    exact strlen_bytes hstr.null hstr.nonzero
  have hsmall : k < 2 ^ 31 := by omega
  simp only [hnull, Bool.not_true, Bool.false_eq_true, if_false, wp_pure, hlen]
  refine ⟨trivial, ?_⟩
  rw [Int.bmod_eq_of_le] <;> omega

/-- The string "hi" of the one page. -/
theorem onePage_fetchstr : wp (fetchstr 0x1000 0 128) (fun r t => t = ⟨onePage, 0, 0⟩ ∧ r = 2) (fun _ => False)
    ⟨onePage, 0, 0⟩ := by
  have hbyte : ∀ i < 3, userByte onePage 0x1000 (0 + i) = BitVec.ofNat 8 (0x6968 / 256 ^ i) := by
    intro i hi
    rw [Nat.zero_add, userByte, onePage_physAddr (by simp only [pgsize]; omega), onePage, store, blit,
      if_pos (by omega), Nat.add_sub_cancel_left]
    rfl
  have hstr : StringAt onePage 0x1000 0 2 := by
    refine ⟨fun i hi => onePage_readable.mpr (by simp only [pgsize]; omega), hbyte 2 (by norm_num), fun i hi => ?_⟩
    rw [hbyte i (by omega)]
    interval_cases i <;> decide
  exact (@copyinstr_exact ⟨onePage, 0, 0⟩ 0x1000 onePage_userTable 0).2 128 2 (by norm_num) (by norm_num)
    (.inr (by norm_num)) hstr

end Copyinstr

end Xv6.Sv39
