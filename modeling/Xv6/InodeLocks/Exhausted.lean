import Xv6.InodeLocks.Room
import Xv6.Kernel

/-!
Fifty processes, each in a directory of its own, take every entry of the table of inodes: one `chdir` more, and
`iget` panics, although no table with a limit that a call reports is full.
-/

namespace Xv6.InodeLocks

open Fs (ninode)

section Limits

variable {P F : Type} [DecidableEq P] [DecidableEq F] [Fintype P]

/-- The limits that `fork`, `fdalloc` and `filealloc` keep. -/
def State.Limits (s : State P F) : Prop :=
  Fintype.card P ≤ nproc ∧ (∀ p, (s.desc.countP fun x => x.1 = p) ≤ nofile) ∧ (s.desc.map Prod.snd).toFinset.card ≤ nfile

def Kernel.Limits : Kernel P F → Prop
  | .running s _ => s.Limits
  | .noInodes => True

instance (k : Kernel P F) : Decidable k.Limits :=
  match k with
  | .running _ _ => inferInstanceAs (Decidable (_ ∧ _))
  | .noInodes => inferInstanceAs (Decidable True)

def Kernel.limited : Kernel P F → Ev P F → Option (Kernel P F) := Transition.guarded Kernel.step fun k _ => k.Limits

end Limits

abbrev Crowd := State (Fin 50) (Fin nfile)

def dirName (d : Nat) : Name := [BitVec.ofNat 8 (60 + d)]

/-- Fifty processes in the root directory, which has fifty directories. -/
def crowd : Crowd where
  node i := if i = 1 then ⟨.dir, 51, ⟨dot, 1⟩ :: ⟨dotdot, 1⟩ :: (List.range 50).map fun j => ⟨dirName (j + 2), j + 2⟩⟩
    else if i < 52 then ⟨.dir, 1, [⟨dot, i⟩, ⟨dotdot, 1⟩]⟩ else .free
  ref i := if i = 1 then 50 else 0
  valid _ := false
  owner _ := none
  code _ := .done 1
  desc := []
  ip _ := 0
  held := (List.finRange 50).map fun p => (.proc p, 1)
  age i := if i = 1 then 0 else 1
  clock := 2

def crowdTable : Table := fun k => if k = 0 then ⟨1, 50⟩ else ⟨0, 0⟩

def Kernel.noFiles : Kernel (Fin 50) (Fin nfile) → Bool
  | .running s _ => s.desc.isEmpty
  | .noInodes => true

theorem limited_of_noFiles {k k' : Kernel (Fin 50) (Fin nfile)} {e : Ev (Fin 50) (Fin nfile)}
    (h : Transition.guarded Kernel.step (fun k _ => k.noFiles) k e = some k') : k.limited e = some k' := by
  obtain ⟨hfiles, hstep⟩ := Transition.guarded_eq_some.mp h
  refine Transition.guarded_eq_some.mpr ⟨?_, hstep⟩
  cases k with
  | running s t =>
    have hdesc : s.desc = [] := List.isEmpty_iff.mp hfiles
    refine ⟨by decide, fun p => ?_, ?_⟩ <;> rw [hdesc] <;> exact Nat.zero_le _
  | noInodes => trivial

def chdirSteps (n : Nat) (p : Fin 50) : List (Ev (Fin 50) (Fin nfile)) :=
  .call p (.chdir ⟨true, [dirName (p + 2)]⟩) :: List.replicate n (.step p true none 0)

/-- All but the last process change to their directories, and the last one looks its directory up. -/
def crowdMoves : List (Ev (Fin 50) (Fin nfile)) := ((List.finRange 50).take 49).flatMap (chdirSteps 15) ++ chdirSteps 6 49

def Kernel.panicked : Kernel (Fin 50) (Fin nfile) → Bool
  | .running _ _ => false
  | .noInodes => true

theorem crowdMoves_panic :
    (Transition.exec (Transition.guarded Kernel.step fun k _ => k.noFiles) (.running crowd crowdTable) crowdMoves).any
    Kernel.panicked = true := by
  decide +kernel

theorem crowdTable_agrees : Agrees crowdTable crowd.ref :=
  single_agrees rfl (by decide) (fun k hk => by simp [crowdTable, hk]) fun i hi => if_neg hi

theorem crowd_quiet : Quiet crowd where
  code p := by
    refine ⟨1, rfl, fun i => ?_⟩
    by_cases hi : i = 1
    · subst hi
      revert p
      decide +kernel
    · rw [Multiset.count_singleton, if_neg hi, List.count_eq_zero]
      simp [crowd, Ne.symm hi]
  owner _ := rfl
  refs i := by
    by_cases hi : i = 1
    · subst hi
      decide +kernel
    · have hzero : (crowd.held.countP fun x => x.2 = i) = 0 := List.countP_eq_zero.mpr (by simp [crowd, Ne.symm hi])
      rw [hzero]
      exact if_neg hi
  files _ _ h := absurd h List.not_mem_nil
  edges d hd e he hne hdot := by
    by_cases hone : d = 1
    · subst hone
      have he : e ∈ (⟨dot, 1⟩ :: ⟨dotdot, 1⟩ :: (List.range 50).map fun j => ⟨dirName (j + 2), j + 2⟩ : List Dirent) := he
      simp only [List.mem_cons, List.mem_map] at he
      rcases he with rfl | rfl | ⟨j, -, rfl⟩
      · exact absurd (.inl rfl) hdot
      · exact absurd (.inr rfl) hdot
      · exact .inr (by simp [crowd])
    · have hlt : d < 52 := by
        by_contra hge
        simp [crowd, hone, hge, Node.free] at hd
      simp only [crowd, if_neg hone, if_pos hlt, List.mem_cons, List.not_mem_nil, or_false] at he
      rcases he with rfl | rfl
      · exact absurd (.inl rfl) hdot
      · exact absurd (.inr rfl) hdot
  ages i := by
    simp only [crowd]
    split <;> decide
  valid _ h := absurd h Bool.false_ne_true

/-- Fifty processes that no limit forbids bring the kernel to `panic("iget: no inodes")`. -/
theorem fifty_directories : Quiet crowd ∧ Agrees crowdTable crowd.ref ∧
    ∃ evs, Transition.Run Kernel.limited (.running crowd crowdTable) evs .noInodes := by
  obtain ⟨k, hexec, hpanic⟩ := (Option.any_eq_true _ _).mp crowdMoves_panic
  cases k with
  | running s t => cases hpanic
  | noInodes => exact ⟨crowd_quiet, crowdTable_agrees, crowdMoves, Transition.run_of_exec (Transition.exec_mono limited_of_noFiles hexec)⟩

end Xv6.InodeLocks
