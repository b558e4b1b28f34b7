import Xv6.Smp.Reaping

namespace Xv6.Smp

open Locks Transition State Function

variable {C : Type*} {s t : State C} {me : Option Slot} {o : Nat} {pc k : Pc} {a : Act} {p q r : Slot} {c d : C}
  {l : Lock} {σ : Site} {ch : Chan}

/-- The call of `sleep` that has released the lock of its caller and has not returned. -/
def Pc.doze : Pc → Option Site
  | .sleepChan σ | .sleepSet σ | .sleepSwtch σ | .sleepTidy σ => some σ
  | _ => none

/-- Process `p` sleeps on `ch`, or is on its way to it without the lock that it gave to `sleep`. -/
def State.Dozing (s : State C) (p : Slot) (ch : Chan) : Prop :=
  (∃ σ, (s.ppc p).doze = some σ ∧ σ.chan p = ch) ∧ ((s.ppc p).resumable → (s.proc p).state = .sleeping)

/-- A `wakeup(ch)` that has not got to slot `p`. -/
def Pc.pending (ch : Chan) (p : Slot) : Pc → Prop
  | .wake ch' i _ => ch' = ch ∧ i ≤ p
  | .wakeTest ch' q _ => ch' = ch ∧ q ≤ p
  | .wakeRel ch' q _ => ch' = ch ∧ q < p
  | _ => False

theorem Pc.held_of_doze (h : pc.doze = some σ) : pc.held (some p) = [.proc p] := by
  cases pc <;> simp_all [Pc.doze, Pc.held]

theorem next_doze (hw : pc.wf (some p)) (h : next s (some p) o pc = some (a, k)) (hk : k.doze = some σ) :
    pc = .sleepRel σ ∨ pc.doze = some σ ∧ ¬ pc.resumable := by
  have hret := Pc.not_return (q := p) hw (show _ ∈ k.held (some p) by simp [Pc.held_of_doze hk])
  cases pc
  all_goals
    simp only [next] at h
    repeat' split at h
  all_goals simp only [Option.some.injEq, Prod.mk.injEq, Option.map_some, reduceCtorEq] at h
  all_goals obtain ⟨rfl, rfl⟩ := h
  all_goals first
    | exact absurd rfl hret
    | (cases hk <;> simp [Pc.doze, Pc.resumable])
    | (cases ‹Site› <;> cases hk)

theorem sleeping_before [DecidableEq C] (ht : step s (.run c o) = some t) (hc : s.cur c ≠ some p)
    (hs : (t.proc p).state = .sleeping) : (s.proc p).state = .sleeping := by
  obtain ⟨a, k, u, hn, ha, rfl⟩ := step_run.mp ht
  rw [goto_proc] at hs
  rcases next_effect hn with he | hq
  · generalize s.cur c = me, s.pc c = pc at he ha hc
    rw [Act.run_table ha] at hs
    have hupd : ∀ {q x}, (update s.proc q x p).state = .sleeping → x.state ≠ .sleeping ∨ x.state = (s.proc q).state →
        (s.proc p).state = .sleeping := by
      intro q x hx hor
      by_cases hpq : p = q
      · subst hpq
        rw [update_self] at hx
        rcases hor with hne | heq
        · exact absurd hx hne
        · rw [← heq, hx]
      · rwa [update_of_ne hpq] at hx
    cases he with
    | setCpu | enter | clearCpu | yieldSwtch | sleepSwtch | exitSwtch | forkContext => exact hs
    | sleepSet =>
      have hpq : p ≠ _ := fun he => hc (congrArg some he.symm)
      simpa [Act.table, update_of_ne hpq] using hs
    | killTest =>
      refine hupd hs (.inl ?_)
      simp only [Upd.apply]
      split <;> simp_all
    | check | yieldSet | wakeTest | forkUsed | forkRunnable | exitZombie | forkFree | waitFree =>
      exact hupd hs (.inl (by simp [Upd.apply, Proc.free]))
    | _ => exact hupd hs (.inr rfl)
  · rwa [(Act.run_quiet hq ha).proc] at hs

theorem Inv.dozing_before [DecidableEq C] (h : Inv s) (ht : step s (.run c o) = some t) (hd : t.Dozing p ch) :
    s.Dozing p ch ∨ s.cur c = some p ∧ ∃ σ, s.ppc p = .sleepRel σ ∧ σ.chan p = ch := by
  obtain ⟨⟨σ, hσ, hch⟩, hsleep⟩ := hd
  by_cases hc : s.cur c = some p
  · obtain ⟨a, k, u, hn, -, -, rfl⟩ := step_proc hc ht
    rcases next_doze (h.wfProc p) hn hσ with hpc | ⟨hpc, hr⟩
    · exact .inr ⟨hc, σ, hpc, hch⟩
    · exact .inl ⟨⟨σ, hpc, hch⟩, fun hr' => absurd hr' hr⟩
  · rcases ppc_of_ne ht hc with hpc | hpc
    · rw [hpc] at hσ hsleep
      exact .inl ⟨⟨σ, hσ, hch⟩, fun hr => sleeping_before ht hc (hsleep hr)⟩
    · rw [hpc] at hσ
      cases hσ

theorem next_pending (hp : pc.pending ch p) (hme : me ≠ some p) (h : next s me o pc = some (a, k)) :
    (∃ k', pc = .wakeTest ch p k') ∨ k.pending ch p ∧ ∀ l, (∀ q, l ≠ .proc q) → l ∈ pc.held me → l ∈ k.held me := by
  cases pc with
  | wake ch' i k' =>
    obtain ⟨rfl, hi⟩ := hp
    simp only [next] at h
    split at h
    next q hq =>
      have hqi := slot?_eq_some.mp hq
      split at h <;> cases h
      next hm =>
        have hne : i ≠ p := fun he => hme (hm.trans (congrArg some (Fin.ext (hqi.trans he))))
        exact .inr ⟨⟨rfl, by omega⟩, fun _ _ hl => hl⟩
      next => exact .inr ⟨⟨rfl, Fin.le_def.mpr (by omega)⟩, fun _ _ hl => List.mem_cons_of_mem _ hl⟩
    next hq =>
      have hle := slot?_eq_none.mp hq
      omega
  | wakeTest ch' q k' =>
    obtain ⟨rfl, hq⟩ := hp
    by_cases hqp : q = p
    · exact .inl ⟨k', by rw [hqp]⟩
    · have hlt : q < p := Fin.lt_def.mpr (Nat.lt_of_le_of_ne hq (Fin.val_ne_of_ne hqp))
      simp only [next] at h
      split at h <;> cases h <;> exact .inr ⟨⟨rfl, hlt⟩, fun _ _ hl => hl⟩
  | wakeRel ch' q k' =>
    obtain ⟨rfl, hq⟩ := hp
    cases h
    refine .inr ⟨⟨rfl, Nat.succ_le_of_lt (Fin.lt_def.mp hq)⟩, fun l hl hmem => ?_⟩
    exact (List.mem_cons.mp hmem).resolve_left (hl q)
  | _ => exact hp.elim

theorem State.dozing_of_sleeping (h : Inv s) (hs : (s.proc p).state = .sleeping) (hc : (s.proc p).chan = some ch) :
    s.Dozing p ch := by
  refine ⟨?_, fun _ => hs⟩
  rw [h.chan p] at hc
  cases hpc : s.ppc p <;> simp [hpc, Pc.chan] at hc <;> exact ⟨_, rfl, hc⟩

section
variable [DecidableEq C] {n : Nat}

theorem Inv.pc_other (h : Inv s) (ht : step s (.run c o) = some t) (hdc : d ≠ c) :
    t.cur d = s.cur d ∧ t.pc d = s.pc d := by
  have hcur : t.cur d = s.cur d ∧ t.spc d = s.spc d := by
    obtain ⟨a, k, u, hn, ha, rfl⟩ := step_run.mp ht
    have hu : u.cur d = s.cur d ∧ u.spc d = s.spc d := by
      rcases next_effect hn with he | hq
      · generalize s.cur c = me, s.pc c = pc at he ha
        cases he with
        | enter | yieldSwtch | sleepSwtch | exitSwtch => cases ha; exact ⟨update_of_ne hdc _ _, rfl⟩
        | _ => cases ha; exact ⟨rfl, rfl⟩
      · rw [(Act.run_quiet hq ha).cur, (Act.run_quiet hq ha).spc]
        exact ⟨rfl, rfl⟩
    refine ⟨by rw [goto_cur, hu.1], ?_⟩
    cases hc : s.cur c with
    | none => rw [goto_none_spc, update_of_ne hdc, hu.2]
    | some p => rw [goto_spc, hu.2]
  refine ⟨hcur.1, ?_⟩
  cases hd : s.cur d with
  | none => rw [pc_of_idle hd, pc_of_idle (hcur.1.trans hd), hcur.2]
  | some p => rw [pc_of_cur hd, pc_of_cur (hcur.1.trans hd), h.ppc_other ht hd hdc]

omit [DecidableEq C] in
theorem State.Dozing.pc_ne (hz : s.Dozing p ch) (hd : (s.pc d).pending ch p) : s.cur d ≠ some p := by
  intro hp
  obtain ⟨⟨σ, hσ, -⟩, -⟩ := hz
  rw [pc_of_cur hp] at hd
  cases hpc : s.ppc p <;> simp [hpc, Pc.doze] at hσ <;> simp [hpc, Pc.pending] at hd

omit [DecidableEq C] in
theorem Inv.dozing_locked (h : Inv s) (hz : s.Dozing p ch) (hl : Lock.proc p ∈ s.heldBy c) (hc : s.cur c ≠ some p) :
    (s.ppc p).resumable ∧ (s.proc p).state = .sleeping ∧ (s.proc p).chan = some ch := by
  obtain ⟨⟨σ, hσ, hch⟩, hs⟩ := hz
  by_cases hr : (s.ppc p).resumable
  · refine ⟨hr, hs hr, ?_⟩
    rw [h.chan p]
    cases hpc : s.ppc p <;> simp_all [Pc.doze, Pc.resumable, Pc.chan]
  · obtain ⟨d, hd⟩ := h.on_cpu (p := p) (fun he => by simp [he, Pc.doze] at hσ) hr
    have hld : Lock.proc p ∈ s.heldBy d := by simp [heldBy_of_cur hd, Pc.held_of_doze hσ]
    obtain rfl := h.holder hl hld
    exact absurd hd hc

theorem Act.run_cur (hs : a ≠ .swtch) (hs' : ∀ q, a ≠ .swtchTo q) (ha : a.run c me s = some t) : t.cur = s.cur := by
  cases a with
  | acquire l => exact (Act.run_quiet (a := .acquire l) trivial ha).cur
  | device d v => exact (Act.run_quiet (a := .device d v) trivial ha).cur
  | swtch => exact absurd rfl hs
  | swtchTo q => exact absurd rfl (hs' q)
  | _ => cases ha; rfl

theorem step_stay (ht : step s (.run c o) = some t) :
    ∃ a k u, next s (s.cur c) o (s.pc c) = some (a, k) ∧ a.run c (s.cur c) s = some u ∧ t.proc = u.proc ∧
      t.pipe = u.pipe ∧ (a ≠ .swtch → (∀ q, a ≠ .swtchTo q) → t.cur c = s.cur c ∧ t.pc c = k) := by
  obtain ⟨a, k, u, hn, ha, rfl⟩ := step_run.mp ht
  refine ⟨a, k, u, hn, ha, goto_proc, goto_pipe, fun hs hs' => ?_⟩
  have hcur : u.cur c = s.cur c := by rw [Act.run_cur hs hs' ha]
  refine ⟨by rw [goto_cur, hcur], ?_⟩
  cases hc : s.cur c with
  | none => rw [pc_of_idle (by rw [goto_cur, hcur, hc]), goto_none_spc, update_self]
  | some r => rw [pc_of_cur (by rw [goto_cur, hcur, hc]), goto_ppc, update_self]

omit [DecidableEq C] in
theorem pending_stays (hp : pc.pending ch p) (h : next s me o pc = some (a, k)) :
    a ≠ .swtch ∧ ∀ q, a ≠ .swtchTo q := by
  cases pc with
  | wake | wakeTest | wakeRel =>
    simp only [next] at h
    repeat' split at h
    all_goals cases h; exact ⟨(by rintro ⟨⟩), (by rintro _ ⟨⟩)⟩
  | _ => exact hp.elim

/-- A `wakeup` on its way to a process gets to it before it stops dozing for good: as long as the process
dozes, the `wakeup` is still on its way, with the same locks. -/
theorem Inv.pending_step (h : Inv s) (ht : step s (.run c o) = some t) (hd : (s.pc d).pending ch p)
    (hz : s.Dozing p ch) (hzt : t.Dozing p ch) :
    t.cur d = s.cur d ∧ (t.pc d).pending ch p ∧ ∀ l, (∀ q, l ≠ .proc q) → l ∈ s.heldBy d → l ∈ t.heldBy d := by
  have hne := hz.pc_ne hd
  by_cases hdc : d = c
  · subst hdc
    obtain ⟨a, k, u, hn, ha, hproc, -, hstay⟩ := step_stay ht
    obtain ⟨hs, hs'⟩ := pending_stays hd hn
    obtain ⟨hcur, hpc⟩ := hstay hs hs'
    rcases next_pending hd hne hn with ⟨k', hk'⟩ | ⟨hk, hl⟩
    · -- the process is asleep and becomes `RUNNABLE`
      exfalso
      have hlock : Lock.proc p ∈ s.heldBy d := by rw [heldBy, hk']; exact List.mem_cons_self
      rw [hk'] at hn
      obtain ⟨hr, hs, hch⟩ := h.dozing_locked hz hlock hne
      simp only [next, hs, hch, and_self, if_true] at hn
      cases hn
      cases ha
      have hasleep := hzt.2 (by
        rcases ppc_of_ne ht hne with he | he <;> rw [he]
        · exact hr
        · trivial)
      simp [hproc, Upd.apply] at hasleep
    · rw [heldBy, heldBy, hpc, hcur]
      exact ⟨rfl, hk, hl⟩
  · obtain ⟨hcur, hpc⟩ := h.pc_other ht hdc
    rw [heldBy, heldBy, hpc, hcur]
    exact ⟨rfl, hd, fun _ _ hl => hl⟩

omit [DecidableEq C] in
theorem Jump.doze (hj : Jump s c n k) : k.doze = none := by
  cases hj with
  | call f => cases f <;> rfl
  | _ => rfl

theorem Jump.dozing_before (hj : Jump s c n k)
    (hd : (goto { s with calls := n } c (s.cur c) k).Dozing p ch) : s.Dozing p ch := by
  obtain ⟨⟨σ, hσ, hch⟩, hs⟩ := hd
  rw [goto_ppc_apply] at hσ hs
  rw [goto_proc] at hs
  split at hσ
  · rw [hj.doze] at hσ
    cases hσ
  next hne =>
    rw [if_neg hne] at hs
    exact ⟨⟨σ, hσ, hch⟩, hs⟩

theorem Inv.pc_jump (h : Inv s) (hdc : d ≠ c) :
    (goto { s with calls := n } c (s.cur c) k).cur d = s.cur d ∧
      (goto { s with calls := n } c (s.cur c) k).pc d = s.pc d := by
  refine ⟨by rw [goto_cur], ?_⟩
  cases hd : s.cur d with
  | none =>
    rw [pc_of_idle hd, pc_of_idle (by rw [goto_cur, hd])]
    cases hc : s.cur c with
    | none => rw [goto_none_spc, update_of_ne hdc]
    | some p => rw [goto_spc]
  | some r =>
    have hne : s.cur c ≠ some r := fun hc => hdc (h.cur_inj hd hc)
    rw [pc_of_cur hd, pc_of_cur (by rw [goto_cur, hd]), goto_ppc_apply, if_neg hne]

end

end Xv6.Smp
