import Xv6.Umalloc.Malloc

namespace Xv6.Umalloc

section Overflow

def lavish : Sbrk := fun regions _ => some (regions.foldl (fun a r => max a r.stop) 8192)

theorem le_foldl_stop (regions : List Blk) (a : Nat) :
    a ≤ regions.foldl (fun a r => max a r.stop) a ∧ ∀ r ∈ regions, r.stop ≤ regions.foldl (fun a r => max a r.stop) a := by
  induction regions generalizing a with
  | nil => simp
  | cons x regions ih =>
    obtain ⟨hle, hall⟩ := ih (max a x.stop)
    rw [List.foldl_cons, List.forall_mem_cons]
    exact ⟨(le_max_left _ _).trans hle, (le_max_right _ _).trans hle, hall⟩

theorem lavish_fresh : Fresh 4096 lavish := by
  intro regions nu a ha
  cases Option.some.inj ha
  obtain ⟨hle, hall⟩ := le_foldl_stop regions 8192
  exact ⟨le_trans (by decide) hle, hall⟩

/-- `malloc(2^30)` -/
def mallocLarge (s : State) : Option State :=
  (malloc 4096 lavish 4 s.heap (2 ^ 30)).map fun x =>
    ⟨x.1, if x.2 = 0 then s.live else (x.2 - 16, (x.1.mem (x.2 - 16)).size) :: s.live⟩

/-- `free` for the block that has been live for longest. -/
def freeOldest (s : State) : Option State :=
  s.live.getLast?.bind fun x => (free 4 s.heap (x.1 + 16)).map fun h => ⟨h, s.live.erase x⟩

def rounds (f : State → Option State) : Nat → State → Option State
  | 0, s => some s
  | n + 1, s => (f s).bind (rounds f n)

variable {s t : State}

theorem mallocLarge_step (h : mallocLarge s = some t) : ∃ c, Step 4096 (Fresh 4096) s c t := by
  obtain ⟨x, hx, rfl⟩ := Option.map_eq_some_iff.mp h
  exact ⟨_, .malloc le_rfl lavish_fresh hx⟩

theorem freeOldest_step (h : freeOldest s = some t) : ∃ c, Step 4096 (Fresh 4096) s c t := by
  obtain ⟨x, hx, h⟩ := Option.bind_eq_some_iff.mp h
  obtain ⟨heap, hheap, rfl⟩ := Option.map_eq_some_iff.mp h
  exact ⟨_, .free (List.mem_of_getLast? hx) hheap⟩

theorem rounds_path {f : State → Option State} (hf : ∀ {s t}, f s = some t → ∃ c, Step 4096 (Fresh 4096) s c t)
    {n : Nat} {calls : List Call}
    (hs : Transition.Path (Step 4096 (Fresh 4096)) initial calls s) (h : rounds f n s = some t) :
    ∃ calls, Transition.Path (Step 4096 (Fresh 4096)) initial calls t := by
  induction n generalizing s calls with
  | zero => exact ⟨calls, Option.some.inj h ▸ hs⟩
  | succ n ih =>
    obtain ⟨m, hm, hrest⟩ := Option.bind_eq_some_iff.mp h
    obtain ⟨c, hc⟩ := hf hm
    exact ih (hs.snoc hc) hrest

/-- The state at the end: all memory is free, in one block. -/
def overflowed (s : State) : Bool :=
  s.live = [] ∧ s.heap.freep = 8192 ∧ (s.heap.mem 4096).ptr = 8192 ∧ (s.heap.mem 4096).size = 0 ∧
    (s.heap.mem 8192).ptr = 4096 ∧ (s.heap.mem 8192).size = 64 ∧ units s.heap.regions = 2 ^ 32 + 64

theorem rounds_overflowed : ((rounds mallocLarge 64 initial).bind (rounds freeOldest 64)).any overflowed = true := by
  decide +kernel

/-- Without a bound on what `sbrk` delivers: 64 blocks of `2^26 + 1` units are freed, and the `size` of the one
free block is 64. -/
theorem free_overflows : ∃ calls s, Transition.Path (Step 4096 (Fresh 4096)) initial calls s ∧ s.live = [] ∧
    FreeList 4096 s.heap [(4096, 0), (8192, 64)] ∧ units s.heap.regions = 2 ^ 32 + 64 := by
  obtain ⟨s, hs, hover⟩ := (Option.any_eq_true _ _).mp rounds_overflowed
  obtain ⟨m, hm, hs⟩ := Option.bind_eq_some_iff.mp hs
  obtain ⟨hlive, hfreep, hbase, hzero, hlast, hsize, hunits⟩ := of_decide_eq_true hover
  obtain ⟨calls, hfull⟩ := rounds_path mallocLarge_step .nil hm
  obtain ⟨calls, hrun⟩ := rounds_path freeOldest_step hfull hs
  refine ⟨calls, s, hrun, hlive, ⟨⟨_, rfl⟩, ⟨hbase, hlast, trivial⟩, ?_, by decide, ?_⟩, hunits⟩
  · rw [List.forall_mem_cons, List.forall_mem_singleton]
    exact ⟨hzero, hsize⟩
  · rw [hfreep]
    decide

end Overflow

end Xv6.Umalloc
