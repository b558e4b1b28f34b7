import Xv6.LogInvariant

namespace Xv6.Log

open Transition

variable {β : Type} {g : Geom} {s s' : State β}

theorem step_inv {base : Nat → β} {h : History β} {e : Ev β}
    (hi : Inv g (contents base h.groups.flatten) h.pending s) (hs : step g s e = some s') :
    Inv g (contents base (h.next e).groups.flatten) (h.next e).pending s' := by
  cases step_cases hs with
  | beginOp hu _ h => exact inv_beginOp hi hu h
  | modify hp _ _ => exact inv_modify hi hp
  | logWrite hp _ ha h => exact inv_logWrite hi hp ha h
  | endOp hp free h => exact inv_endOp hi hp free h
  | bread => exact inv_bread hi _
  | evict hp => exact inv_evict hi hp
  | writeLog hpc hb => exact inv_writeLog hi hpc hb
  | writeHead hpc =>
    have hh := inv_writeHead hi hpc
    simpa [History.next, contents_append] using hh
  | install hpc hb => exact inv_install hi hpc hb
  | eraseHead hpc => exact inv_eraseHead hi hpc
  | wakeup hpc => exact inv_wakeup hi hpc
  | recoverBlock hpc hb => exact inv_recoverBlock hi hpc hb
  | recoverHead hpc => exact inv_recoverHead hi hpc
  | crash => exact inv_crash hi

theorem history_snoc (evs : List (Ev β)) (e : Ev β) :
    history (evs ++ [e]) = (history evs).next e := by
  simp [history]

theorem openOps_snoc (evs : List (Ev β)) (e : Ev β) :
    openOps (evs ++ [e]) = openNext (openOps evs) e := by
  simp [openOps]

theorem run_inv {d : Disk β} (hd : d.head = []) {evs : List (Ev β)} (h : Run (step g) (boot d) evs s) :
    Inv g (durable d.block evs) (history evs).pending s := by
  refine h.invariant (P := fun evs s => Inv g (durable d.block evs) (history evs).pending s) ?_ ?_
  · exact inv_boot Fits.nil (Installed.nil hd (fun _ _ => rfl))
  · intro evs s e s' _ hi hs
    rw [durable, history_snoc]
    exact step_inv hi hs

theorem beginOp_ops {p : Nat} (h : s.beginOp p = some s') : s'.ops = p :: s.ops := by
  unfold State.beginOp at h
  split at h
  next => simp at h
  next =>
    split at h
    next => simp at h
    next => cases Option.some.inj h; rfl

theorem endOp_ops {p : Nat} (h : s.endOp p = .ok s') : s'.ops = s.ops.erase p := by
  unfold State.endOp at h
  simp only at h
  split at h
  next => simp at h
  next => split at h <;> cases Except.ok.inj h <;> rfl

theorem step_ops {e : Ev β} (hs : step g s e = some s') : s'.ops = openNext s.ops e := by
  cases step_cases hs with
  | beginOp _ _ h => exact beginOp_ops h
  | logWrite _ _ _ h =>
    obtain ⟨_, _, ⟨_, rfl⟩ | ⟨_, rfl⟩⟩ := logWrite_cases h <;> rfl
  | endOp _ _ h => exact endOp_ops h
  | _ => rfl

theorem run_ops {d : Disk β} {evs : List (Ev β)} (h : Run (step g) (boot d) evs s) :
    s.ops = openOps evs := by
  refine h.invariant (P := fun evs s => s.ops = openOps evs) rfl ?_
  intro evs s e s' _ ho hs
  rw [openOps_snoc, ← ho]
  exact step_ops hs

section
variable {D : Nat → β} {pending : List (Write β)} (h : Inv g D pending s)
include h

theorem writeHead_ready (hpc : s.pc = .writeLog s.lh.length) : s.ops = [] := by
  have hph := h.phase
  rw [hpc] at hph
  exact hph.1

theorem idle_home (hpc : s.pc = .idle) {b : Nat} (hb : ¬ g.Area b) : s.disk.block b = D b := by
  have hph := h.phase
  rw [hpc] at hph
  exact hph.1.home b hb (by simp)

end

/-- Recovery after any run, with crashes anywhere in it, restores exactly the durable groups:
all of each group whose header reached the disk and nothing of any other. The machine's own
recovery steps end in the same contents, and a header is written only when no operation is open. -/
theorem recoverFromLog_durable (g : Geom) (d : Disk β) (hd : d.head = []) {evs : List (Ev β)} {s : State β}
    (h : Run (step g) (boot d) evs s) :
    (∀ b, ¬ g.Area b → (recoverFromLog g s.disk).block b = durable d.block evs b) ∧
      (s.pc = .idle → ∀ b, ¬ g.Area b → s.disk.block b = durable d.block evs b) ∧
      ∀ before after, evs = before ++ Ev.writeHead :: after → openOps before = [] := by
  refine ⟨?_, ?_, ?_⟩
  · obtain ⟨lh, t, fits, hin⟩ := (run_inv hd h).installed
    exact recoverFromLog_home fits hin
  · intro hpc b hb
    exact idle_home (run_inv hd h) hpc hb
  · intro before after split
    obtain ⟨r, r', hr, hs⟩ := h.step_at split
    cases step_cases hs with
    | writeHead hpc =>
      rw [← run_ops hr]
      exact writeHead_ready (run_inv hd hr) hpc

def crashTwice : List (Ev Nat) :=
  [.recoverHead, .beginOp 1, .beginOp 2, .logWrite 1 100 7, .logWrite 2 101 8, .logWrite 1 101 9, .endOp 2,
    .endOp 1, .writeLog, .writeLog, .writeHead, .crash, .recoverBlock, .crash]

theorem crashTwice_recovers :
    ∃ s, Run (step ⟨2, 30⟩) (boot ⟨[], fun _ => 0⟩) crashTwice s ∧ s.disk.block 101 = 0 ∧
      (recoverFromLog ⟨2, 30⟩ s.disk).block 101 = 9 := by
  have hr : ∃ s, exec (step ⟨2, 30⟩) (boot ⟨[], fun _ => 0⟩) crashTwice = some s ∧ s.disk.block 101 = 0 :=
    ⟨_, rfl, rfl⟩
  obtain ⟨s, hs, hb⟩ := hr
  have run := run_of_exec hs
  refine ⟨s, run, hb, ?_⟩
  have hrec := (recoverFromLog_durable ⟨2, 30⟩ ⟨[], fun _ => 0⟩ rfl run).1 101 (by decide)
  rw [hrec]
  rfl

end Xv6.Log
