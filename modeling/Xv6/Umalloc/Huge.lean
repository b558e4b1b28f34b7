import Mathlib
import Xv6.Umalloc.Malloc

namespace Xv6.Umalloc

section Kernel

/-- `nu * sizeof(Header)`, a 64-bit product, as the `int` parameter of `sbrk`. -/
def sbrkArg (nu : Nat) : Int := Int.bmod (16 * nu : Nat) (2 ^ 32)

def uint64 (n : Int) : Nat := (n % 2 ^ 64).toNat

/-- The size of a process after `growproc(n)`, `none` for -1: `uvmalloc` fails if memory does not
suffice for the new size, and `uvmdealloc` returns the old size if the new one is not smaller. -/
def growproc (fits : Nat → Bool) (sz : Nat) (n : Int) : Option Nat :=
  if n > 0 then
    if fits (uint64 (sz + n)) then some (uint64 (sz + n)) else none
  else if n < 0 then
    if uint64 (sz + n) ≥ sz then some sz else some (uint64 (sz + n))
  else some sz

/-- The size of a process after the calls of `sbrk` that delivered the regions. -/
def procSize (sz0 : Nat) (regions : List Blk) : Nat :=
  regions.foldl (fun sz r => (growproc (fun _ => true) sz (sbrkArg r.2)).getD sz) sz0

/-- `sys_sbrk` returns the old size. -/
def kernelSbrk (fits : Nat → Bool) (sz0 : Nat) : Sbrk := fun regions nu =>
  (growproc fits (procSize sz0 regions) (sbrkArg nu)).map fun _ => procSize sz0 regions

/-- A call that returns, in a program whose requests are of less than `2 ^ 31` bytes with the header
and rounding. The memory that is left differs from call to call, and no process has `2 ^ 36` bytes. -/
inductive KernelStep (base : Nat) (sz0 : Nat) : State → Nat ⊕ Nat → State → Prop
  | malloc {s nbytes fits fuel h p} (hb : nbytes < 2 ^ 32) (hn : 16 * nunits nbytes < 2 ^ 31)
      (hram : ∀ sz, fits sz = true → sz < 2 ^ 36)
      (hcall : malloc base (kernelSbrk fits sz0) fuel s.heap nbytes = some (h, p)) :
      KernelStep base sz0 s (.inl nbytes)
        ⟨h, if p = 0 then s.live else (p - 16, (h.mem (p - 16)).size) :: s.live⟩
  | free {s bp size fuel h} (hlive : (bp, size) ∈ s.live) (hcall : free fuel s.heap (bp + 16) = some h) :
      KernelStep base sz0 s (.inr (bp + 16)) ⟨h, s.live.erase (bp, size)⟩

end Kernel

section Requests

variable {base sz0 nu sz : Nat} {fits : Nat → Bool} {regions : List Blk}

theorem sbrkArg_eq_iff (hnu : 16 * nu < 2 ^ 33) : sbrkArg nu = (16 * nu : Nat) ↔ 16 * nu < 2 ^ 31 := by
  unfold sbrkArg
  refine ⟨fun h => ?_, fun h => by rw [Int.bmod_eq_of_le] <;> omega⟩
  have := @Int.bmod_lt (16 * nu : Nat) (2 ^ 32) (by decide)
  omega

theorem growproc_pos (hpos : 0 < nu) (hnu : 16 * nu < 2 ^ 31) (hsz : sz < 2 ^ 63) :
    growproc fits sz (sbrkArg nu) = if fits (sz + 16 * nu) then some (sz + 16 * nu) else none := by
  have hsum : uint64 (sz + (16 * nu : Nat)) = sz + 16 * nu := by
    unfold uint64
    omega
  rw [growproc, (sbrkArg_eq_iff (by omega)).mpr hnu, if_pos (by omega), hsum]

/-- The regions make up the memory that the process has grown by. -/
def Filled (sz0 : Nat) (regions : List Blk) : Prop :=
  procSize sz0 regions = sz0 + 16 * units regions ∧ procSize sz0 regions < 2 ^ 36 ∧
    ∀ r ∈ regions, Blk.stop r ≤ procSize sz0 regions

theorem coreUnits_bounds (hn : 16 * nu < 2 ^ 31) : 0 < coreUnits nu ∧ 16 * coreUnits nu < 2 ^ 31 := by
  unfold coreUnits
  split <;> omega

theorem kernelSbrk_some {a : Nat} (hf : Filled sz0 regions) (hn : 16 * nu < 2 ^ 31)
    (ha : kernelSbrk fits sz0 regions (coreUnits nu) = some a) :
    a = procSize sz0 regions ∧ fits (a + 16 * coreUnits nu) = true := by
  obtain ⟨hpos, hlt⟩ := coreUnits_bounds hn
  rw [kernelSbrk, growproc_pos hpos hlt (by have := hf.2.1; omega)] at ha
  split at ha
  next hfits =>
    cases ha
    exact ⟨rfl, hfits⟩
  next => cases ha

variable {s t : State} {nbytes : Nat} (hbase : 0 < base) (hsz : base + 16 ≤ sz0)
  (hram : ∀ sz, fits sz = true → sz < 2 ^ 36)

section
include hram

theorem Filled.grew {regions' : List Blk} (hf : Filled sz0 regions) (hn : 16 * nu < 2 ^ 31)
    (hgrew : Grew (kernelSbrk fits sz0) nu regions regions') : Filled sz0 regions' := by
  rcases hgrew with rfl | ⟨a, ha, rfl⟩
  · exact hf
  obtain ⟨rfl, hfits⟩ := kernelSbrk_some hf hn ha
  obtain ⟨hpos, hlt⟩ := coreUnits_bounds hn
  obtain ⟨hsize, hsmall, hstop⟩ := hf
  have hnext : procSize sz0 (regions ++ [(procSize sz0 regions, coreUnits nu)]) =
      procSize sz0 regions + 16 * coreUnits nu := by
    rw [procSize, List.foldl_append, List.foldl_cons, List.foldl_nil, ← procSize,
      growproc_pos hpos hlt (by omega), if_pos rfl, Option.getD_some]
  rw [Filled, hnext]
  refine ⟨?_, hram _ hfits, fun r hr => ?_⟩
  · simp only [units_append, units_cons]
    simp only [units, List.map_nil, List.sum_nil] at *
    omega
  · rcases List.mem_append.mp hr with hr | hr
    · exact (hstop r hr).trans (Nat.le_add_right _ _)
    · rw [List.mem_singleton.mp hr]
      exact Nat.le_refl _

include hsz

theorem Filled.delivers (hf : Filled sz0 regions) (hn : 16 * nu < 2 ^ 31) :
    Delivers base (kernelSbrk fits sz0) regions (coreUnits nu) := by
  intro a ha
  obtain ⟨rfl, hfits⟩ := kernelSbrk_some hf hn ha
  have := hram _ hfits
  obtain ⟨hsize, -, hstop⟩ := hf
  exact ⟨by omega, hstop, by omega⟩

end

def Owned (base : Nat) (sz0 : Nat) (s : State) : Prop := Sound base s ∧ Filled sz0 s.heap.regions

include hbase hsz

theorem malloc_owned (hram : ∀ sz, fits sz = true → sz < 2 ^ 36) (hs : Owned base sz0 s) (hb : nbytes < 2 ^ 32)
    (hn : 16 * nunits nbytes < 2 ^ 31) :
    ∃ fuel r, malloc base (kernelSbrk fits sz0) fuel s.heap nbytes = some r ∧
      Mallocs base (nunits nbytes) s.live r ∧ Filled sz0 r.1.regions := by
  obtain ⟨fuel, r, hrun, hr, hgrew⟩ := malloc_ok hbase (hs.2.delivers hsz hram hn) hb hs.1
  exact ⟨fuel, r, hrun, hr, hs.2.grew hram hn hgrew⟩

theorem Owned.step {c : Nat ⊕ Nat} (hs : Owned base sz0 s) (hstep : KernelStep base sz0 s c t) : Owned base sz0 t := by
  cases hstep with
  | @malloc nbytes fits fuel h p hb hn hram hcall =>
    obtain ⟨fuel', r, hcall', hr, hfilled⟩ := malloc_owned hbase hsz hram hs hb hn
    obtain rfl := Mallocs.unique hcall' hcall
    exact ⟨hr.sound, hfilled⟩
  | @free bp size fuel h hlive hcall =>
    refine ⟨?_, by rw [free_regions hcall]; exact hs.2⟩
    exact hs.1.step hbase (.free hlive hcall)

/-- `sbrk` is asked for the bytes that `morecore` needs iff the request, with the header and rounding,
is of less than `2 ^ 31` bytes. While every request is, `malloc` returns 0 or a block of the
process's memory that is large enough and apart from the blocks in use. -/
theorem malloc_within_process {calls : List (Nat ⊕ Nat)} (hsz0 : sz0 < 2 ^ 36)
    (hram : ∀ sz, fits sz = true → sz < 2 ^ 36)
    (hrun : Transition.Path (KernelStep base sz0) initial calls s) (hb : nbytes < 2 ^ 32) :
    (sbrkArg (coreUnits (nunits nbytes)) = (16 * coreUnits (nunits nbytes) : Nat) ↔ 16 * nunits nbytes < 2 ^ 31) ∧
    (16 * nunits nbytes < 2 ^ 31 → 0 < sbrkArg (coreUnits (nunits nbytes)) ∧
      ∃ fuel h p, malloc base (kernelSbrk fits sz0) fuel s.heap nbytes = some (h, p) ∧
        (p = 0 ∨ ∃ a, p = a + 16 ∧ p + nbytes ≤ procSize sz0 h.regions ∧
          ∀ x ∈ s.live, Apart (a, nunits nbytes) x)) := by
  have hlen := (nunits_pos hb).2
  have harg : sbrkArg (coreUnits (nunits nbytes)) = (16 * coreUnits (nunits nbytes) : Nat) ↔
      16 * nunits nbytes < 2 ^ 31 := by
    have hsmall : 16 * nunits nbytes < 2 ^ 33 := by
      unfold nunits uint
      omega
    unfold coreUnits
    split
    · exact ⟨fun _ => by omega, fun _ => by decide⟩
    · exact sbrkArg_eq_iff hsmall
  refine ⟨harg, fun hn => ⟨by rw [harg.mpr hn]; have := coreUnits_bounds hn; omega, ?_⟩⟩
  have hs : Owned base sz0 s := hrun.invariant ⟨.inl ⟨rfl, rfl, rfl⟩, rfl, hsz0, by simp [initial]⟩ fun hs hstep =>
    hs.step hbase hsz hstep
  obtain ⟨fuel, ⟨h, p⟩, hcall, hr, hf⟩ := malloc_owned hbase hsz hram hs hb hn
  refine ⟨fuel, h, p, hcall, ?_⟩
  rcases hr with ⟨hzero, -⟩ | ⟨a, hpa, -, F, hok⟩
  · exact .inl hzero
  · have hmem : (a, nunits nbytes) ∈ F.tail ++ (a, nunits nbytes) :: s.live :=
      List.mem_append_right _ List.mem_cons_self
    have htop := hok.accounts.top _ hf.2.2 _ hmem
    have hpa : p = a + 16 := hpa
    refine .inr ⟨a, hpa, ?_, fun x hx => ?_⟩
    · simp only [Blk.stop] at htop
      omega
    · exact (List.pairwise_cons.mp (List.pairwise_append.mp hok.accounts.apart).2.1).1 x hx

end Requests

def smallRam (sz : Nat) : Bool := sz < 2 ^ 27

theorem malloc_within_process_first : ∃ fuel h p, malloc 4096 (kernelSbrk smallRam 16400) fuel initial.heap 100 = some (h, p) ∧
    (p = 0 ∨ ∃ a, p = a + 16 ∧ p + 100 ≤ procSize 16400 h.regions ∧ ∀ x ∈ initial.live, Apart (a, nunits 100) x) := by
  have hram : ∀ sz, smallRam sz = true → sz < 2 ^ 36 := by
    intro sz hsz
    have : sz < 2 ^ 27 := by simpa [smallRam] using hsz
    omega
  exact ((malloc_within_process (by decide) (by decide) (by decide) hram .nil (by decide)).2 (by decide)).2

/-- A request for `2 ^ 31 - 16` bytes is of `2 ^ 27` units: `sbrk` is asked for `-2 ^ 31` bytes, the
kernel leaves the size of the process as it is and reports success, and `malloc` returns the address
just after a header at the end of the process. For `2 ^ 32 - 16` bytes `sbrk` is asked for 0 bytes. -/
theorem malloc_past_process :
    sbrkArg (nunits (2 ^ 31 - 16)) = -2 ^ 31 ∧ sbrkArg (nunits (2 ^ 32 - 16)) = 0 ∧
    ∃ h, malloc 4096 (kernelSbrk smallRam 16400) 3 initial.heap (2 ^ 31 - 16) = some (h, 16416) ∧
      procSize 16400 h.regions = 16400 := by
  have hcall : ((malloc 4096 (kernelSbrk smallRam 16400) 3 initial.heap (2 ^ 31 - 16)).map fun r =>
      (r.2, procSize 16400 r.1.regions)) = some (16416, 16400) := by
    decide +kernel
  obtain ⟨⟨h, p⟩, hr, hp⟩ := Option.map_eq_some_iff.mp hcall
  obtain ⟨rfl, hsize⟩ := Prod.ext_iff.mp hp
  exact ⟨by decide, by decide, h, hr, hsize⟩

end Xv6.Umalloc
