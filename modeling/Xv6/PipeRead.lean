import Mathlib.Data.Nat.Find
import Xv6.Smp.Machine

/-!
One call of `piperead`. From the wait loop on it has `pi->lock`, so the rest of the call is a function of the
pipe and of the addresses that `copyout` can write to.
-/

namespace Xv6.PipeRead

open Smp BitVec

def ahead (pi : Pipe) (j : Nat) : UInt8 := pi.data ((pi.nread + BitVec.ofNat 32 j).toNat % pipesize)

def unread (pi : Pipe) : Nat := (pi.nwrite - pi.nread).toNat

structure Result where
  i : Int
  pi : Pipe
  bytes : List UInt8

/-- The copy loop: `copyout` of one byte works where `valid` holds. -/
def copyLoop (valid : BitVec 64 → Bool) (addr : BitVec 64) (id : Nat) : (rounds i : Nat) → Pipe → Result
  | 0, i, pi => ⟨i, pi, []⟩
  | rounds + 1, i, pi =>
    if pi.empty then ⟨i, pi, []⟩
    else if valid (addr + BitVec.ofNat 64 i) then
      let r := copyLoop valid addr id rounds (i + 1) (pi.get id)
      { r with bytes := ahead pi 0 :: r.bytes }
    else ⟨i, pi.get id, []⟩

/-- `piperead`; `none` while it sleeps. -/
def piperead (pi : Pipe) (killed : Bool) (valid : BitVec 64 → Bool) (addr : BitVec 64) (n : Int) (id : Nat) : Option Result :=
  if pi.empty ∧ pi.writeopen then if killed then some ⟨-1, pi, []⟩ else none
  else some (copyLoop valid addr id n.toNat 0 pi)

section Copy

variable {pi : Pipe} {valid : BitVec 64 → Bool} {addr : BitVec 64} {id : Nat}

theorem empty_iff : pi.empty ↔ unread pi = 0 := by
  unfold Pipe.empty unread
  constructor
  · intro h
    rw [h, sub_self]
    rfl
  · intro h
    have hzero : pi.nwrite - pi.nread = 0 := eq_of_toNat_eq h
    have hadd : pi.nwrite = 0 + pi.nread := BitVec.sub_eq_iff_eq_add.mp hzero
    rw [hadd]
    exact (zero_add _).symm

theorem unread_get (h : ¬ pi.empty) : unread pi = unread (pi.get id) + 1 := by
  rw [empty_iff] at h
  have hsub : pi.nwrite - (pi.nread + 1) = pi.nwrite - pi.nread - 1 := by rw [sub_sub]
  have hget : unread (pi.get id) = (pi.nwrite - pi.nread - 1).toNat := by rw [unread, ← hsub]; rfl
  have hpos : 1 ≤ (pi.nwrite - pi.nread).toNat := Nat.pos_of_ne_zero h
  rw [hget, toNat_sub_of_le hpos]
  show (pi.nwrite - pi.nread).toNat = _
  have hone : (1 : BitVec 32).toNat = 1 := rfl
  omega

theorem add_one_ofNat (a : BitVec 32) (j : Nat) : a + 1 + BitVec.ofNat 32 j = a + BitVec.ofNat 32 (j + 1) := by
  rw [BitVec.ofNat_add, BitVec.add_assoc, BitVec.add_comm (1 : BitVec 32)]
  rfl

theorem ahead_get (j : Nat) : ahead (pi.get id) j = ahead pi (j + 1) := by
  show pi.data ((pi.nread + 1 + BitVec.ofNat 32 j).toNat % pipesize) = _
  rw [add_one_ofNat]
  rfl

structure Skips (pi : Pipe) (k : Nat) (pi' : Pipe) : Prop where
  nread : pi'.nread = pi.nread + BitVec.ofNat 32 k
  nwrite : pi'.nwrite = pi.nwrite
  data : pi'.data = pi.data

theorem Skips.refl (pi : Pipe) : Skips pi 0 pi := ⟨(add_zero _).symm, rfl, rfl⟩

theorem Skips.of_get {k : Nat} {pi' : Pipe} (h : Skips (pi.get id) k pi') : Skips pi (k + 1) pi' :=
  ⟨h.nread.trans (add_one_ofNat _ _), h.nwrite, h.data⟩

theorem Skips.ahead {k : Nat} {pi' : Pipe} (h : Skips pi k pi') (j : Nat) : ahead pi' j = PipeRead.ahead pi (k + j) := by
  unfold PipeRead.ahead
  rw [h.data, h.nread, ofNat_add, add_assoc]

theorem copyLoop_valid : ∀ (rounds i : Nat) (pi : Pipe),
    (∀ j, i ≤ j → j < i + min rounds (unread pi) → valid (addr + BitVec.ofNat 64 j) = true) →
    ∃ k, k = min rounds (unread pi) ∧ (copyLoop valid addr id rounds i pi).i = (i + k : Nat) ∧
      Skips pi k (copyLoop valid addr id rounds i pi).pi ∧
      (copyLoop valid addr id rounds i pi).bytes = (List.range k).map (ahead pi) := by
  intro rounds
  induction rounds with
  | zero =>
    intro i pi _
    exact ⟨0, (Nat.zero_min _).symm, rfl, Skips.refl pi, rfl⟩
  | succ rounds ih =>
    intro i pi hvalid
    unfold copyLoop
    by_cases hempty : pi.empty
    · have hnone : unread pi = 0 := empty_iff.mp hempty
      rw [if_pos hempty]
      exact ⟨0, by omega, rfl, Skips.refl pi, rfl⟩
    · have hless : unread pi = unread (pi.get id) + 1 := unread_get hempty
      rw [if_neg hempty, if_pos (hvalid i (Nat.le_refl i) (by omega))]
      obtain ⟨k, hk, hi, hskips, hbytes⟩ := ih (i + 1) (pi.get id) (fun j hj hlt => hvalid j (by omega) (by omega))
      refine ⟨k + 1, by omega, hi.trans (congrArg _ (by omega)), hskips.of_get, ?_⟩
      simp only [hbytes, List.range_succ_eq_map, List.map_cons, List.map_map]
      congr 1
      exact List.map_congr_left fun j _ => ahead_get j

theorem copyLoop_fails : ∀ (rounds i : Nat) (pi : Pipe) (j : Nat), j < min rounds (unread pi) →
    (∀ l < j, valid (addr + BitVec.ofNat 64 (i + l)) = true) → valid (addr + BitVec.ofNat 64 (i + j)) = false →
    (copyLoop valid addr id rounds i pi).i = (i + j : Nat) ∧ Skips pi (j + 1) (copyLoop valid addr id rounds i pi).pi := by
  intro rounds
  induction rounds with
  | zero => exact fun i pi j hj => absurd hj (by omega)
  | succ rounds ih =>
    intro i pi j hj hbefore hat
    have hempty : ¬ pi.empty := fun h => by have := empty_iff.mp h; omega
    have hless : unread pi = unread (pi.get id) + 1 := unread_get hempty
    unfold copyLoop
    rw [if_neg hempty]
    cases j with
    | zero =>
      rw [if_neg (show ¬ valid (addr + BitVec.ofNat 64 i) = true from Bool.eq_false_iff.mp hat)]
      exact ⟨rfl, (Skips.refl _).of_get⟩
    | succ j =>
      rw [if_pos (show valid (addr + BitVec.ofNat 64 i) = true from hbefore 0 (Nat.succ_pos j))]
      obtain ⟨hi, hskips⟩ := ih (i + 1) (pi.get id) j (by omega)
        (fun l hl => by rw [Nat.add_right_comm]; exact hbefore (l + 1) (by omega)) (by rw [Nat.add_right_comm]; exact hat)
      exact ⟨hi.trans (congrArg _ (by omega)), hskips.of_get⟩

end Copy

def Delivers (pi : Pipe) (valid : BitVec 64 → Bool) (addr : BitVec 64) (n : Int) : Prop :=
  ∀ j < min n.toNat (unread pi), valid (addr + BitVec.ofNat 64 j) = true

section Piperead

variable {pi : Pipe} {killed : Bool} {valid : BitVec 64 → Bool} {addr : BitVec 64} {n : Int} {id : Nat} {r : Result}

theorem piperead_delivers (h : piperead pi killed valid addr n id = some r) (hd : Delivers pi valid addr n) :
    Skips pi r.i.toNat r.pi ∧ r.bytes = (List.range r.i.toNat).map (ahead pi) ∧
      (r.i = -1 ∨ r.i = min n.toNat (unread pi)) := by
  unfold piperead at h
  split at h
  · split at h
    · cases h
      exact ⟨Skips.refl pi, rfl, .inl rfl⟩
    · cases h
  · cases h
    obtain ⟨k, hk, hi, hskips, hbytes⟩ :=
      @copyLoop_valid valid addr id n.toNat 0 pi fun j _ hj => hd j (by rwa [Nat.zero_add] at hj)
    have hnat : (copyLoop valid addr id n.toNat 0 pi).i.toNat = k := by rw [hi]; omega
    rw [hnat]
    exact ⟨hskips, hbytes, .inr (hi.trans (by omega))⟩

theorem piperead_fails (h : piperead pi killed valid addr n id = some r) (hd : ¬ Delivers pi valid addr n) :
    Skips pi (r.i.toNat + 1) r.pi := by
  have hbad : ∃ j, j < min n.toNat (unread pi) ∧ valid (addr + BitVec.ofNat 64 j) = false := by
    unfold Delivers at hd
    push Not at hd
    simpa only [Bool.not_eq_true] using hd
  -- the loop stops at the first address that `copyout` refuses
  obtain ⟨hlt, hat⟩ := Nat.find_spec hbad
  have hbefore : ∀ l < Nat.find hbad, valid (addr + BitVec.ofNat 64 (0 + l)) = true := by
    intro l hl
    rw [Nat.zero_add]
    by_contra hl'
    exact Nat.find_min hbad hl ⟨by omega, Bool.eq_false_iff.mpr hl'⟩
  have hempty : ¬ pi.empty := fun he => by have := empty_iff.mp he; omega
  rw [piperead, if_neg fun hw => hempty hw.1] at h
  cases h
  obtain ⟨hi, hskips⟩ := @copyLoop_fails valid addr id n.toNat 0 pi _ hlt hbefore (by rwa [Nat.zero_add])
  have hnat : (copyLoop valid addr id n.toNat 0 pi).i.toNat = Nat.find hbad := by rw [hi]; omega
  rwa [hnat]

/-- A read in which no copy fails advances `nread` by what it returns, and the read after it goes on with the
next byte. A read in which a copy fails has taken one byte more. -/
theorem piperead_advances (h : piperead pi killed valid addr n id = some r) :
    (Delivers pi valid addr n →
      Skips pi r.i.toNat r.pi ∧ r.bytes = (List.range r.i.toNat).map (ahead pi) ∧
      (r.i = -1 ∨ r.i = min n.toNat (unread pi)) ∧
      ∀ killed' valid' addr' n' id' r', piperead r.pi killed' valid' addr' n' id' = some r' →
        Delivers r.pi valid' addr' n' → r'.bytes = (List.range r'.i.toNat).map fun j => ahead pi (r.i.toNat + j)) ∧
    (¬ Delivers pi valid addr n → r.pi.nread = pi.nread + BitVec.ofNat 32 (r.i.toNat + 1)) := by
  refine ⟨fun hd => ?_, fun hd => (piperead_fails h hd).nread⟩
  obtain ⟨hskips, hbytes, hi⟩ := piperead_delivers h hd
  refine ⟨hskips, hbytes, hi, fun killed' valid' addr' n' id' r' h' hd' => ?_⟩
  obtain ⟨-, hnext, -⟩ := piperead_delivers h' hd'
  rw [hnext]
  exact List.map_congr_left fun j _ => hskips.ahead j

end Piperead

def lastByte : Pipe := { Pipe.fresh with data := fun _ => 7, nwrite := 1, writeopen := false }

def threeBytes : Pipe := { Pipe.fresh with data := fun i => UInt8.ofNat (7 + i), nwrite := 3 }

theorem piperead_advances_threeBytes : ∃ r, piperead threeBytes false (fun _ => true) 4096 2 0 = some r ∧
    Delivers threeBytes (fun _ => true) 4096 2 ∧ r.bytes = [7, 8] := by
  have hrun : ∃ r, piperead threeBytes false (fun _ => true) 4096 2 0 = some r ∧ r.i = 2 := ⟨_, rfl, rfl⟩
  obtain ⟨r, hrun, hi⟩ := hrun
  have hd : Delivers threeBytes (fun _ => true) 4096 2 := fun _ _ => rfl
  refine ⟨r, hrun, hd, ((piperead_advances hrun).1 hd).2.1.trans ?_⟩
  rw [hi]
  rfl

/-- The read returns 0 and the byte is gone: the next read finds the pipe empty. -/
theorem piperead_drops_a_byte :
    ∃ r, piperead lastByte false (fun _ => false) 4096 1 0 = some r ∧ r.i = 0 ∧ r.bytes = [] ∧ unread lastByte = 1 ∧
      r.pi.nread = lastByte.nread + 1 ∧
      ∃ r', piperead r.pi false (fun _ => true) 4096 1 1 = some r' ∧ r'.i = 0 ∧ r'.bytes = [] :=
  ⟨_, rfl, rfl, rfl, rfl, rfl, _, rfl, rfl, rfl⟩

end Xv6.PipeRead
