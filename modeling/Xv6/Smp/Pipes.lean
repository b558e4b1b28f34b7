import Xv6.Smp.Wakeup

namespace Xv6.Smp

open Locks Transition

variable {C : Type*} {s t : State C} {me : Option Slot} {o n : Nat} {pc k : Pc} {a : Act} {p q r : Slot} {c d : C}
  {l : Lock} {σ : Site}

/-! ### What a thread knows about a pipe while it holds its lock -/

def State.SleepOk (s : State C) : Site → Prop
  | .piperead r => (s.pipe r.pi).empty ∧ (s.pipe r.pi).writeopen
  | .pipewrite w => (s.pipe w.pi).full ∧ (s.pipe w.pi).readopen
  | _ => True

def State.KilledOk (s : State C) : Site → Prop
  | .piperead r => (s.pipe r.pi).empty ∧ (s.pipe r.pi).writeopen
  | .pipewrite w => (s.pipe w.pi).readopen
  | _ => True

def State.PipeOk (s : State C) : Pc → Prop
  | .killedAcq σ | .killedRead σ | .killedRel σ _ => s.KilledOk σ
  | .sleepAcq σ | .sleepRel σ
  | .wake _ _ (.sleepAcq σ) | .wakeTest _ _ (.sleepAcq σ) | .wakeRel _ _ (.sleepAcq σ) => s.SleepOk σ
  | .writeFull w => (s.pipe w.pi).readopen
  | .writePut w => ¬ (s.pipe w.pi).full ∧ (s.pipe w.pi).readopen
  | .readGet r => ¬ (s.pipe r.pi).empty
  | _ => True

theorem State.SleepOk.congr (h : s.SleepOk σ) (hp : ∀ pi, σ.lock = .pipe pi → t.pipe pi = s.pipe pi) :
    t.SleepOk σ := by
  cases σ with
  | pipewrite w => simpa only [State.SleepOk, hp w.pi rfl] using h
  | piperead r => simpa only [State.SleepOk, hp r.pi rfl] using h
  | _ => trivial

theorem State.KilledOk.congr (h : s.KilledOk σ) (hp : ∀ pi, σ.lock = .pipe pi → t.pipe pi = s.pipe pi) :
    t.KilledOk σ := by
  cases σ with
  | pipewrite w => simpa only [State.KilledOk, hp w.pi rfl] using h
  | piperead r => simpa only [State.KilledOk, hp r.pi rfl] using h
  | _ => trivial

theorem State.PipeOk.congr (h : s.PipeOk pc) (me : Option Slot) (hp : ∀ pi, Lock.pipe pi ∈ pc.held me → t.pipe pi = s.pipe pi) :
    t.PipeOk pc := by
  cases pc with
  | killedAcq σ | killedRead σ | killedRel σ _ =>
    exact State.KilledOk.congr h fun pi hl => hp pi (by simp [Pc.held, hl])
  | sleepAcq σ | sleepRel σ => exact State.SleepOk.congr h fun pi hl => hp pi (by simp [Pc.held, hl])
  | wake _ _ k | wakeTest _ _ k | wakeRel _ _ k =>
    cases k with
    | sleepAcq σ => exact State.SleepOk.congr h fun pi hl => hp pi (by simp [Pc.held, hl])
    | _ => trivial
  | writeFull w | writePut w | readGet r =>
    rw [State.PipeOk, hp _ (List.mem_singleton_self _)]
    exact h
  | _ => trivial

theorem State.pipeOk_of_held (hl : pc.held me = []) : s.PipeOk pc := by
  cases pc with
  | killedAcq | killedRead | killedRel | sleepAcq | sleepRel | writeFull | writePut | readGet => simp [Pc.held] at hl
  | wake _ _ k | wakeTest _ _ k | wakeRel _ _ k =>
    cases k with
    | sleepAcq => simp [Pc.held] at hl
    | _ => trivial
  | _ => trivial

theorem State.pipeOk_sched (hw : pc.wf none) : s.PipeOk pc := by
  cases pc with
  | killedAcq | killedRead | killedRel | sleepAcq | sleepRel | writeFull | writePut | readGet => cases hw
  | wake _ _ k | wakeTest _ _ k | wakeRel _ _ k =>
    cases k with
    | sleepAcq => cases hw.2
    | _ => trivial
  | _ => trivial

theorem next_pipeOk (hw : pc.wf me) (h : next s me o pc = some (a, k)) (hp : s.PipeOk pc) : s.PipeOk k := by
  cases pc
  case yieldRel k' =>
    obtain ⟨p, rfl, h⟩ := Option.map_eq_some_iff.mp h
    cases h
    exact State.pipeOk_of_held hw.2.1
  case notifyRel d k' =>
    cases h
    exact State.pipeOk_of_held hw.1
  case wake ch i k' =>
    simp only [next] at h
    repeat' split at h
    all_goals cases h
    · cases k' <;> exact hp
    · cases k' <;> exact hp
    · cases k <;> first | exact hp | exact hw.1.1.elim
  case wakeTest ch q k' =>
    simp only [next] at h
    split at h <;> cases h <;> cases k' <;> exact hp
  case wakeRel ch q k' =>
    cases h
    cases k' <;> exact hp
  all_goals
    simp only [next] at h
    repeat' split at h
  all_goals
    simp only [Option.some.injEq, Prod.mk.injEq, Option.map_eq_some_iff, reduceCtorEq] at h
  all_goals first
    | obtain ⟨rfl, rfl⟩ := h
    | obtain ⟨_, rfl, rfl, rfl⟩ := h
  all_goals first
    | exact True.intro
    | exact hp
    | assumption
    | exact ⟨by assumption, hp⟩
    | exact And.right (by assumption)
    | (cases ‹Site› <;> first | exact True.intro | exact hp)

variable [DecidableEq C]

theorem keep_pipeOk (hi : Inv s) (h : ∀ p, s.PipeOk (s.ppc p)) (ht : step s (.run c o) = some t) (p : Slot) :
    t.PipeOk (t.ppc p) := by
  by_cases hc : s.cur c = some p
  · obtain ⟨a, k, u, hn, ha, rfl⟩ := step_run.mp ht
    rw [hc] at hn ha ⊢
    rw [State.pc_of_cur hc] at hn
    rw [goto_ppc, Function.update_self]
    have hk := next_pipeOk (hi.wfProc p) hn (h p)
    rcases next_pipe hn with he | hd
    · generalize s.ppc p = pc at he
      cases he <;> trivial
    · exact hk.congr (some p) fun pi _ => by rw [goto_pipe, Act.run_dry hd ha]
  · rcases ppc_of_ne ht hc with hpc | hpc
    · rw [hpc]
      by_cases hon : ∃ d, s.cur d = some p
      · obtain ⟨d, hd⟩ := hon
        refine (h p).congr (some p) fun pi hl => hi.locked_pipe ht (d := d) ?_ ?_
        · rwa [State.heldBy_of_cur hd]
        · rintro rfl
          exact hc hd
      · rcases hi.off_cpu fun d hd => hon ⟨d, hd⟩ with hdead | hr
        · rw [hdead]
          trivial
        · cases hpc : s.ppc p <;> simp only [hpc, Pc.resumable] at hr <;> trivial
    · rw [hpc]
      trivial

end Xv6.Smp
