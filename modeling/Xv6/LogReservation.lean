import Mathlib.Data.Finset.Card
import Xv6.LogAtomicity

namespace Xv6.Log

open Transition State

variable {β : Type} {g : Geom} {s s' : State β} {blocks : Finset Nat} {p : Nat} {b : Nat}

def groupNext (blocks : Finset Nat) : Ev β → Finset Nat
  | .logWrite _ b _ => insert b blocks
  | .eraseHead | .crash => ∅
  | _ => blocks

def groupBlocks (evs : List (Ev β)) : Finset Nat := evs.foldl groupNext ∅

def opNext (blocks : Nat → Finset Nat) : Ev β → Nat → Finset Nat
  | .beginOp p => Function.update blocks p ∅
  | .logWrite p b _ => Function.update blocks p (insert b (blocks p))
  | .crash => fun _ => ∅
  | _ => blocks

def opBlocks (evs : List (Ev β)) : Nat → Finset Nat := evs.foldl opNext (fun _ => ∅)

def Allowed (before : List (Ev β)) : Ev β → Prop
  | .logWrite p b _ => (insert b (opBlocks before p)).card ≤ maxOpBlocks
  | _ => True

instance (before : List (Ev β)) (e : Ev β) : Decidable (Allowed before e) := by
  cases e <;> unfold Allowed <;> infer_instance

def Disciplined (evs : List (Ev β)) : Prop := ∀ i (h : i < evs.length), Allowed (evs.take i) evs[i]

instance (evs : List (Ev β)) : Decidable (Disciplined evs) :=
  Nat.decidableBallLT evs.length fun i h => Allowed (evs.take i) evs[i]

/-- How a run ends: it goes on, or a `log_write` inside an operation panics. -/
inductive Outcome (g : Geom) (d : Disk β) : List (Ev β) → Except String (State β) → Prop
  | running {evs s} : Run (step g) (boot d) evs s → Outcome g d evs (.ok s)
  | panicked {evs s p b v msg} : Run (step g) (boot d) evs s → p ∈ s.ops → s.FreeFor p b → ¬ g.Area b →
      logWrite g (s.fillRelease b v) b = .error msg →
      Outcome g d (evs ++ [.logWrite p b v]) (.error msg)

theorem groupBlocks_snoc (evs : List (Ev β)) (e : Ev β) :
    groupBlocks (evs ++ [e]) = groupNext (groupBlocks evs) e := by
  simp [groupBlocks]

/-- `log.lh` lists the group's blocks, except in recovery, where no group is open. -/
structure Lists (blocks : Finset Nat) (s : State β) : Prop where
  up : s.up = true → s.lh.toFinset = blocks
  down : s.up = false → blocks = ∅

theorem Lists.of_up (hu : s.up = true) (h : s.lh.toFinset = blocks) : Lists blocks s :=
  ⟨fun _ => h, by simp [hu]⟩

theorem Lists.congr (h : Lists blocks s) (hl : s'.lh = s.lh) (hu : s'.up = s.up) :
    Lists blocks s' :=
  ⟨fun hh => hl ▸ h.up (hu ▸ hh), fun hh => h.down (hu ▸ hh)⟩

theorem beginOp_lh (h : s.beginOp p = some s') : s'.lh = s.lh ∧ s'.up = s.up := by
  unfold beginOp at h
  split at h
  next => simp at h
  next =>
    split at h
    next => simp at h
    next => cases Option.some.inj h; exact ⟨rfl, rfl⟩

theorem endOp_lh (hu : s.up = true) (h : s.endOp p = .ok s') : s'.lh = s.lh ∧ s'.up = true := by
  unfold endOp at h
  simp only at h
  split at h
  next => simp at h
  next =>
    split at h
    next => cases Except.ok.inj h; exact ⟨rfl, by by_cases hl : 0 < s.lh.length <;> simp [up, hl]⟩
    next => cases Except.ok.inj h; exact ⟨rfl, hu⟩

theorem logWrite_lh (h : logWrite g s b = .ok s') :
    s'.lh.toFinset = insert b s.lh.toFinset ∧ s'.up = s.up := by
  obtain ⟨_, _, ⟨hm, rfl⟩ | ⟨_, rfl⟩⟩ := logWrite_cases h
  · exact ⟨(Finset.insert_eq_of_mem (List.mem_toFinset.mpr hm)).symm, rfl⟩
  · refine ⟨?_, rfl⟩
    ext c
    simp

theorem up_of_op {D : Nat → β} {pending : List (Write β)} (h : Inv g D pending s)
    (hp : p ∈ s.ops) : s.up = true := by
  simp [up, h.idle_of_op hp]

theorem step_lists {D : Nat → β} {pending : List (Write β)} {e : Ev β}
    (hi : Inv g D pending s) (h : Lists blocks s) (hs : step g s e = some s') :
    Lists (groupNext blocks e) s' := by
  cases step_cases hs with
  | beginOp _ _ hb =>
    obtain ⟨hl, hu⟩ := beginOp_lh hb
    exact h.congr hl hu
  | @logWrite p b v _ hp _ _ hw =>
    obtain ⟨hl, hu⟩ := logWrite_lh hw
    have hup : s.up = true := up_of_op hi hp
    refine Lists.of_up (hu.trans hup) ?_
    rw [hl]
    exact congrArg (insert b) (h.up hup)
  | endOp hp _ he =>
    obtain ⟨hl, hu⟩ := endOp_lh (up_of_op hi hp) he
    exact h.congr hl (hu.trans (up_of_op hi hp).symm)
  | writeLog hpc _ | writeHead hpc | install hpc _ | wakeup hpc | recoverBlock hpc _ => exact h.congr rfl (by simp [up, hpc])
  | eraseHead hpc => exact Lists.of_up rfl rfl
  | recoverHead hpc =>
    have hz := h.down (by simp [up, hpc])
    exact Lists.of_up rfl (by simp [groupNext, hz, writeHead])
  | crash => exact ⟨by simp [up, boot], fun _ => rfl⟩
  | _ => exact h.congr rfl rfl

section
variable {d : Disk β} (hd : d.head = []) {evs : List (Ev β)} (h : Run (step g) (boot d) evs s)
include hd h

theorem run_lists : Lists (groupBlocks evs) s := by
  refine h.invariant (P := fun evs s => Lists (groupBlocks evs) s) ⟨by simp [up, boot], fun _ => rfl⟩ ?_
  intro evs s e s' hr hl hs
  rw [groupBlocks_snoc]
  exact step_lists (run_inv hd hr) hl hs

theorem lh_length_eq_card (hp : p ∈ s.ops) : s.lh.length = (groupBlocks evs).card := by
  have hi := run_inv hd h
  rw [← (run_lists hd h).up (up_of_op hi hp), List.toFinset_card_of_nodup hi.fits.nodup]

end

theorem logWrite_too_big_iff (hg : g.size = logSize) (hp : 0 < s.outstanding) :
    logWrite g s b = .error "too big a transaction" ↔ logSize - 1 ≤ s.lh.length := by
  unfold logWrite
  constructor
  · intro h
    split at h
    next hc => omega
    next =>
      rw [if_neg (by omega)] at h
      split at h <;> simp at h
  · intro h
    rw [if_pos (by omega)]

theorem logWrite_error_in_op {msg : String} (hp : 0 < s.outstanding)
    (h : logWrite g s b = .error msg) : msg = "too big a transaction" := by
  unfold logWrite at h
  split at h
  next => exact (Except.error.inj h).symm
  next =>
    rw [if_neg (by omega)] at h
    split at h <;> simp at h

/-- On the log `mkfs` lays out, no `log_write` of a run panics on the size exactly when each of them
is called before the group has logged `logSize - 1` distinct blocks. -/
theorem logWrite_fits_iff (hg : g.size = logSize) {d : Disk β} (hd : d.head = []) {evs : List (Ev β)}
    {r : Except String (State β)} (h : Outcome g d evs r) :
    r ≠ .error "too big a transaction" ↔
      ∀ before p b v after, evs = before ++ Ev.logWrite p b v :: after →
        (groupBlocks before).card < logSize - 1 := by
  have earlier : ∀ {evs s}, Run (step g) (boot d) evs s → ∀ before p b v after,
      evs = before ++ Ev.logWrite p b v :: after → (groupBlocks before).card < logSize - 1 := by
    intro evs s run before p b v after split
    obtain ⟨r, r', hr, hs⟩ := run.step_at split
    cases step_cases hs with
    | logWrite hp _ _ hw =>
      have hlen := (logWrite_cases hw).2.1
      have hcard := lh_length_eq_card hd hr hp
      simp only [fillRelease, setCache] at hlen
      omega
  cases h with
  | running run => exact ⟨fun _ => earlier run, fun _ => by simp⟩
  | @panicked evs s p b v msg run hp _ _ hw =>
    have hcard := lh_length_eq_card hd run hp
    have hout : 0 < (s.fillRelease b v).outstanding := by
      have := (run_inv hd run).count
      have := List.length_pos_of_mem hp
      simp only [fillRelease, setCache]
      omega
    have hmsg := logWrite_error_in_op hout hw
    subst hmsg
    have hbig := (logWrite_too_big_iff hg hout).mp hw
    simp only [fillRelease, setCache] at hbig
    refine ⟨fun hne => absurd rfl hne, fun hall => ?_⟩
    have := hall evs p b v [] rfl
    omega

def twoLogged : List (Ev Nat) := [.recoverHead, .beginOp 0, .beginOp 1, .logWrite 0 100 7, .logWrite 1 101 8, .logWrite 0 101 9]

theorem short_run_fits :
    ∃ s, Outcome ⟨2, logSize⟩ ⟨[], fun _ => 0⟩ twoLogged (.ok s) ∧
      ∀ before p b v after, twoLogged = before ++ Ev.logWrite p b v :: after → (groupBlocks before).card < logSize - 1 := by
  have hr : ∃ s, exec (step ⟨2, logSize⟩) (boot ⟨[], fun _ => 0⟩) twoLogged = some s := ⟨_, rfl⟩
  obtain ⟨s, hs⟩ := hr
  have out : Outcome ⟨2, logSize⟩ ⟨[], fun _ => 0⟩ twoLogged (.ok s) := .running (run_of_exec hs)
  exact ⟨s, out, (logWrite_fits_iff rfl rfl out).mp (by simp)⟩

/-- Three operations begin and log ten blocks each, the last of them one short. -/
def threeOps : List (Ev Nat) :=
  [.recoverHead, .beginOp 0, .beginOp 1, .beginOp 2] ++
    (List.range 29).map fun k => .logWrite (k / 10) (100 + k) 0

/-- Every operation stays within its allowance, and the thirtieth block panics. -/
theorem threeOps_panic :
    Disciplined (threeOps ++ [.logWrite 2 129 0]) ∧
      Outcome ⟨2, logSize⟩ ⟨[], fun _ => 0⟩ (threeOps ++ [.logWrite 2 129 0])
        (.error "too big a transaction") := by
  have hr : ∃ s, exec (step ⟨2, logSize⟩) (boot ⟨[], fun _ => 0⟩) threeOps = some s ∧ 2 ∈ s.ops ∧
      s.held = [] ∧ s.lh.length = 29 := ⟨_, rfl, by decide, rfl, by decide⟩
  obtain ⟨s, hs, hp, hh, hl⟩ := hr
  refine ⟨by decide +kernel, .panicked (run_of_exec hs) hp (by simp [State.FreeFor, hh]) (by decide) ?_⟩
  simp [logWrite, fillRelease, setCache, hl, logSize, maxOpBlocks]

end Xv6.Log
