import Xv6.LogCrash

namespace Xv6.Log

open List Option State Function

variable {β : Type} {g : Geom} {D : Nat → β} {pending : List (Write β)} {s s' : State β}

/-- Everything one step of the machine can do. -/
inductive Step (g : Geom) (s : State β) : Ev β → State β → Prop
  | beginOp {p s'} : s.up = true → p ∉ s.ops → s.beginOp p = some s' → Step g s (.beginOp p) s'
  | modify {p b v} : p ∈ s.ops → s.FreeFor p b → ¬ g.Area b →
      Step g s (.modify p b v) { s.setCache b (some v) with held := (p, b) :: s.held }
  | logWrite {p b v s'} : p ∈ s.ops → s.FreeFor p b → ¬ g.Area b →
      logWrite g (s.fillRelease b v) b = .ok s' → Step g s (.logWrite p b v) s'
  | endOp {p s'} : p ∈ s.ops → (∀ x ∈ s.held, x.1 ≠ p) → s.endOp p = .ok s' → Step g s (.endOp p) s'
  | bread {b} : Step g s (.bread b) (s.setCache b (some (s.bread b)))
  | evict {b} : s.pinned b = false → Step g s (.evict b) (s.setCache b none)
  | writeLog {t b} : s.pc = .writeLog t → s.lh[t]? = some b →
      Step g s .writeLog { s.bwrite (g.start + t + 1) (s.bread b) with pc := .writeLog (t + 1) }
  | writeHead : s.pc = .writeLog s.lh.length →
      Step g s .writeHead { s.writeHead with pc := .installTrans 0 }
  | install {t b} : s.pc = .installTrans t → s.lh[t]? = some b →
      Step g s .install
        { (s.bwrite b (s.bread (g.start + t + 1))).bunpin b with pc := .installTrans (t + 1) }
  | eraseHead : s.pc = .installTrans s.lh.length →
      Step g s .eraseHead { ({ s with lh := [] } : State β).writeHead with pc := .committed }
  | wakeup : s.pc = .committed → Step g s .wakeup { s with committing := false, pc := .idle }
  | recoverBlock {t b} : s.pc = .recover t → s.lh[t]? = some b →
      Step g s .recoverBlock { s.bwrite b (s.bread (g.start + t + 1)) with pc := .recover (t + 1) }
  | recoverHead : s.pc = .recover s.lh.length →
      Step g s .recoverHead { ({ s with lh := [] } : State β).writeHead with pc := .idle }
  | crash : Step g s .crash (boot s.disk)

theorem toOption_eq_some {ε α : Type} {x : Except ε α} {a : α} (h : x.toOption = some a) : x = .ok a := by
  cases x with
  | error => simp [Except.toOption] at h
  | ok => simpa [Except.toOption] using h

theorem opStep_cases {e : Ev β} (h : opStep g s e = some s') : Step g s e s' := by
  unfold opStep at h
  split at h
  next p b v =>
    split at h
    next hc => cases some.inj h; exact .modify hc.1 hc.2.1 hc.2.2
    next => simp at h
  next p b v =>
    split at h
    next hc => exact .logWrite hc.1 hc.2.1 hc.2.2 (toOption_eq_some h)
    next => simp at h
  next p =>
    split at h
    next hc => exact .endOp hc.1 hc.2 (toOption_eq_some h)
    next => simp at h
  next => simp at h

theorem diskStep_cases {e : Ev β} (h : diskStep g s e = some s') : Step g s e s' := by
  unfold diskStep at h
  split at h
  case h_1 | h_3 | h_5 =>
    split at h
    next t hpc =>
      obtain ⟨b, hb, h⟩ := bind_eq_some_iff.mp h
      cases some.inj h
      constructor <;> assumption
    next => simp at h
  case h_2 | h_4 | h_6 =>
    split at h
    next t hpc =>
      split at h
      next ht => subst t; cases some.inj h; constructor; assumption
      next => simp at h
    next => simp at h
  case h_7 => simp at h

theorem step_cases {e : Ev β} (h : step g s e = some s') : Step g s e s' := by
  unfold step at h
  split at h
  next p =>
    split at h
    next hc => exact .beginOp hc.1 hc.2 h
    next => simp at h
  next => exact opStep_cases h
  next => exact opStep_cases h
  next => exact opStep_cases h
  next => cases some.inj h; exact .bread
  next b =>
    split at h
    next hc => cases some.inj h; exact .evict hc.1
    next => simp at h
  next =>
    split at h
    next hc => cases some.inj h; exact .wakeup hc
    next => simp at h
  next => cases some.inj h; exact .crash
  next => exact diskStep_cases h

def State.Held (s : State β) (b : Nat) : Prop := ∃ x ∈ s.held, x.2 = b

/-- The in-memory side of an uncommitted group: its blocks are listed and pinned, and the cache
shows their last logged contents unless somebody is changing them. -/
structure Staged (D : Nat → β) (pending : List (Write β)) (s : State β) : Prop where
  listed : ∀ w ∈ pending, w.block ∈ s.lh
  pins : ∀ b, s.pinned b = true ↔ b ∈ s.lh
  view : ∀ b ∈ s.lh, ¬ s.Held b → s.cache b = some (contents D pending b)

/-- `log.committing` is set exactly while some process is in `commit`. -/
def Pc.committing : Pc → Bool
  | .writeLog _ | .installTrans _ | .committed => true
  | .idle | .recover _ => false

/-- What disk and memory hold at each point of `commit` and of recovery. -/
def Phase (g : Geom) (D : Nat → β) (pending : List (Write β)) (s : State β) : Pc → Prop
  | .idle => Installed g D s.disk [] 0 ∧ Staged D pending s
  | .writeLog t => s.ops = [] ∧ t ≤ s.lh.length ∧
      Installed g D s.disk [] 0 ∧ Staged D pending s ∧
      ∀ i b, i < t → s.lh[i]? = some b → s.disk.block (g.start + i + 1) = contents D pending b
  | .installTrans t => s.ops = [] ∧ pending = [] ∧
      Installed g D s.disk s.lh t ∧ ∀ b, s.pinned b = true ↔ b ∈ s.lh.drop t
  | .committed => s.ops = [] ∧ pending = [] ∧ s.lh = [] ∧
      Installed g D s.disk [] 0 ∧ ∀ b, s.pinned b = false
  | .recover t => s.ops = [] ∧ pending = [] ∧
      Installed g D s.disk s.lh t ∧ ∀ b, s.pinned b = false

structure Inv (g : Geom) (D : Nat → β) (pending : List (Write β)) (s : State β) : Prop where
  count : s.outstanding = s.ops.length
  busy : s.committing = s.pc.committing
  holders : ∀ x ∈ s.held, x.1 ∈ s.ops
  cached : ∀ b, s.pinned b = true → s.cache b ≠ none
  coherent : ∀ b v, s.cache b = some v → s.pinned b = false → ¬ s.Held b → v = s.disk.block b
  fits : Fits g s.lh
  phase : Phase g D pending s s.pc

theorem Inv.not_held (h : Inv g D pending s) (ho : s.ops = []) (b : Nat) : ¬ s.Held b := by
  rintro ⟨x, hx, _⟩
  have := h.holders x hx
  simp [ho] at this

theorem Inv.bread_clean (h : Inv g D pending s) {b : Nat} (hp : s.pinned b = false)
    (hh : ¬ s.Held b) : s.bread b = s.disk.block b := by
  unfold bread
  cases hc : s.cache b with
  | none => rfl
  | some v => exact h.coherent b v hc hp hh

theorem Inv.idle_of_op (h : Inv g D pending s) {p : Nat} (hp : p ∈ s.ops) : s.pc = .idle := by
  have hph := h.phase
  generalize s.pc = pc at hph
  cases pc with
  | idle => rfl
  | _ => simp [hph.1] at hp

theorem inv_boot {d : Disk β} {lh : List Nat} {t : Nat} (fits : Fits g lh)
    (h : Installed g D d lh t) : Inv g D [] (boot d) := by
  have hh : d.head = lh := h.head
  refine ⟨rfl, rfl, by simp [boot], by simp [boot], by simp [boot], by simpa [boot, hh] using fits, ?_⟩
  have hr := h.restart
  rw [← hh] at hr
  exact ⟨rfl, rfl, hr, fun _ => rfl⟩

theorem Staged.setCache (st : Staged D pending s) {b : Nat} {v : Option β}
    (view : s.pinned b = true → ¬ s.Held b → v = s.cache b) :
    Staged D pending (s.setCache b v) := by
  refine ⟨st.listed, st.pins, ?_⟩
  intro c hc hh
  have hold := st.view c hc hh
  by_cases hcb : c = b
  · subst c
    have hv := view ((st.pins b).mpr hc) hh
    simp [State.setCache, hv, hold]
  · simpa [State.setCache, update_of_ne hcb] using hold

theorem Phase.setCache {pc : Pc} (h : Phase g D pending s pc) {b : Nat} {v : Option β}
    (view : s.pinned b = true → ¬ s.Held b → v = s.cache b) :
    Phase g D pending (s.setCache b v) pc := by
  cases pc with
  | idle => exact ⟨h.1, h.2.setCache view⟩
  | writeLog t => exact ⟨h.1, h.2.1, h.2.2.1, h.2.2.2.1.setCache view, h.2.2.2.2⟩
  | installTrans t => exact h
  | committed => exact h
  | recover t => exact h

section
variable (h : Inv g D pending s)
include h

theorem inv_bread (b : Nat) : Inv g D pending (s.setCache b (some (s.bread b))) := by
  refine ⟨h.count, h.busy, h.holders, ?_, ?_, h.fits, h.phase.setCache ?_⟩
  · intro c hp
    by_cases hcb : c = b
    · subst c; simp [setCache]
    · simpa [setCache, update_of_ne hcb] using h.cached c hp
  · intro c w hw hp hh
    by_cases hcb : c = b
    · subst c
      have hw' : s.bread b = w := by simpa [setCache] using hw
      rw [← hw']
      exact h.bread_clean hp hh
    · exact h.coherent c w (by simpa [setCache, update_of_ne hcb] using hw) hp hh
  · intro hp _
    obtain ⟨v, hv⟩ := ne_none_iff_exists'.mp (h.cached b hp)
    simp [bread, hv]

theorem inv_evict {b : Nat} (hp : s.pinned b = false) : Inv g D pending (s.setCache b none) := by
  refine ⟨h.count, h.busy, h.holders, ?_, ?_, h.fits, h.phase.setCache (by simp [hp])⟩
  · intro c hc
    have hcb : c ≠ b := by
      intro he
      subst c
      rw [show s.pinned b = true from hc] at hp
      simp at hp
    simpa [setCache, update_of_ne hcb] using h.cached c hc
  · intro c w hw hc hh
    by_cases hcb : c = b
    · subst c; simp [setCache] at hw
    · exact h.coherent c w (by simpa [setCache, update_of_ne hcb] using hw) hc hh

theorem inv_beginOp (hu : s.up = true) {p : Nat} (hs : s.beginOp p = some s') : Inv g D pending s' := by
  unfold beginOp at hs
  split at hs
  next => simp at hs
  next hc =>
    split at hs
    next => simp at hs
    next =>
      cases some.inj hs
      have hpc : s.pc = .idle := by
        have hb := h.busy
        unfold up at hu
        cases hpc : s.pc <;> simp_all [Pc.committing]
      have hph := h.phase
      rw [hpc] at hph
      refine ⟨by simp [h.count], h.busy, fun x hx => mem_cons_of_mem p (h.holders x hx), h.cached,
        h.coherent, h.fits, ?_⟩
      simp only [hpc]
      exact ⟨hph.1, ⟨hph.2.listed, hph.2.pins, hph.2.view⟩⟩

theorem inv_modify {p b : Nat} {v : β} (hp : p ∈ s.ops) :
    Inv g D pending { s.setCache b (some v) with held := (p, b) :: s.held } := by
  have hpc := h.idle_of_op hp
  have hph := h.phase
  rw [hpc] at hph
  have other : ∀ c, ¬ State.Held { s.setCache b (some v) with held := (p, b) :: s.held } c →
      c ≠ b ∧ ¬ s.Held c := by
    intro c hc
    refine ⟨fun he => hc ⟨(p, b), by simp, he.symm⟩, fun hh => ?_⟩
    obtain ⟨x, hx, he⟩ := hh
    exact hc ⟨x, mem_cons_of_mem _ hx, he⟩
  refine ⟨h.count, h.busy, ?_, ?_, ?_, h.fits, ?_⟩
  · intro x hx
    rcases mem_cons.mp hx with rfl | hx
    · exact hp
    · exact h.holders x hx
  · intro c hc
    by_cases hcb : c = b
    · subst c; simp [setCache]
    · simpa [setCache, update_of_ne hcb] using h.cached c hc
  · intro c w hw hc hh
    obtain ⟨hcb, hh'⟩ := other c hh
    exact h.coherent c w (by simpa [setCache, update_of_ne hcb] using hw) hc hh'
  · simp only [setCache, hpc]
    refine ⟨hph.1, ⟨hph.2.listed, hph.2.pins, ?_⟩⟩
    intro c hc hh
    obtain ⟨hcb, hh'⟩ := other c hh
    simpa [update_of_ne hcb] using hph.2.view c hc hh'

end

theorem logWrite_cases {b : Nat} (h : logWrite g s b = .ok s') :
    s.lh.length < logSize ∧ s.lh.length + 1 < g.size ∧
      ((b ∈ s.lh ∧ s' = s) ∨
        (b ∉ s.lh ∧ s' = { s with lh := s.lh ++ [b], pinned := update s.pinned b true })) := by
  unfold logWrite at h
  split at h
  next => simp at h
  next hn =>
    split at h
    next => simp at h
    next =>
      split at h
      next hm =>
        cases Except.ok.inj h
        exact ⟨by omega, by omega, Or.inl ⟨hm, rfl⟩⟩
      next hm =>
        cases Except.ok.inj h
        exact ⟨by omega, by omega, Or.inr ⟨hm, rfl⟩⟩

theorem Fits.append {lh : List Nat} (h : Fits g lh) {b : Nat} (hb : b ∉ lh) (ha : ¬ g.Area b)
    (room : lh.length + 1 < g.size) : Fits g (lh ++ [b]) := by
  refine ⟨?_, ?_, ?_⟩
  · exact nodup_append.mpr ⟨h.nodup, by simp, by
      intro x hx y hy
      have he : y = b := by simpa using hy
      subst y
      exact fun he => hb (he ▸ hx)⟩
  · intro c hc
    rcases mem_append.mp hc with hc | hc
    · exact h.outside c hc
    · have he : c = b := by simpa using hc
      exact he ▸ ha
  · intro t ht
    simp only [length_append, length_singleton] at ht
    omega

def State.logged (s : State β) (b : Nat) (v : β) (lh : List Nat) (pinned : Nat → Bool) : State β :=
  { s.fillRelease b v with lh := lh, pinned := pinned }

theorem State.logged_not_held {b c : Nat} {v : β} {lh : List Nat} {pinned : Nat → Bool} (hcb : c ≠ b)
    (hc : ¬ (s.logged b v lh pinned).Held c) : ¬ s.Held c := by
  rintro ⟨x, hx, he⟩
  exact hc ⟨x, mem_filter.mpr ⟨hx, by simpa [he] using hcb⟩, he⟩

theorem inv_logged (h : Inv g D pending s) {p b : Nat} {v : β} (hp : p ∈ s.ops)
    {lh : List Nat} {pinned : Nat → Bool} (fits : Fits g lh) (hlh : ∀ c, c ∈ lh ↔ c = b ∨ c ∈ s.lh)
    (hpin : ∀ c, pinned c = true ↔ c = b ∨ s.pinned c = true) :
    Inv g D (pending ++ [⟨p, b, v⟩]) (s.logged b v lh pinned) := by
  have hpc := h.idle_of_op hp
  have hph := h.phase
  rw [hpc] at hph
  refine ⟨h.count, h.busy, fun x hx => h.holders x (mem_of_mem_filter hx), ?_, ?_, fits, ?_⟩
  · intro c hc
    by_cases hcb : c = b
    · subst c; simp [logged, fillRelease, setCache]
    · have hold := h.cached c (((hpin c).mp hc).resolve_left hcb)
      simpa [logged, fillRelease, setCache, update_of_ne hcb] using hold
  · intro c w hw hc hh
    have hunpinned : ¬ (c = b ∨ s.pinned c = true) := fun hor => by
      have : pinned c = false := hc
      simp [(hpin c).mpr hor] at this
    have hcb : c ≠ b := fun he => hunpinned (Or.inl he)
    have hold : s.pinned c = false := by simpa using fun he => hunpinned (Or.inr he)
    have hw' : s.cache c = some w := by
      simpa [logged, fillRelease, setCache, update_of_ne hcb] using hw
    exact h.coherent c w hw' hold (logged_not_held hcb hh)
  · show Phase g D _ _ s.pc
    rw [hpc]
    refine ⟨hph.1, ⟨?_, ?_, ?_⟩⟩
    · intro w hw
      rcases mem_append.mp hw with hw | hw
      · exact (hlh _).mpr (Or.inr (hph.2.listed w hw))
      · have he : w = ⟨p, b, v⟩ := by simpa using hw
        exact (hlh _).mpr (Or.inl (by rw [he]))
    · intro c
      exact (hpin c).trans ((or_congr Iff.rfl (hph.2.pins c)).trans (hlh c).symm)
    · intro c hc hh
      by_cases hcb : c = b
      · subst c
        have hsame := contents_snoc_same D pending ⟨p, b, v⟩
        simp only at hsame
        simp [logged, fillRelease, setCache, hsame]
      · have hold := hph.2.view c (((hlh c).mp hc).resolve_left hcb) (logged_not_held hcb hh)
        have hsame := contents_snoc_other D pending ⟨p, b, v⟩ hcb
        simpa [logged, fillRelease, setCache, update_of_ne hcb, hsame] using hold

theorem inv_logWrite (h : Inv g D pending s) {p b : Nat} {v : β} (hp : p ∈ s.ops) (ha : ¬ g.Area b)
    (hs : logWrite g (s.fillRelease b v) b = .ok s') :
    Inv g D (pending ++ [⟨p, b, v⟩]) s' := by
  have hpc := h.idle_of_op hp
  have hph := h.phase
  rw [hpc] at hph
  obtain ⟨_, hroom, ⟨hm, rfl⟩ | ⟨hm, rfl⟩⟩ := logWrite_cases hs
  · have hm' : b ∈ s.lh := hm
    have hpb := (hph.2.pins b).mpr hm'
    have hlh : ∀ c, c ∈ s.lh ↔ c = b ∨ c ∈ s.lh :=
      fun c => ⟨Or.inr, fun hor => hor.elim (fun he => he ▸ hm') id⟩
    have hpin : ∀ c, s.pinned c = true ↔ c = b ∨ s.pinned c = true :=
      fun c => ⟨Or.inr, fun hor => hor.elim (fun he => he ▸ hpb) id⟩
    exact inv_logged h hp h.fits hlh hpin
  · refine inv_logged h hp (h.fits.append hm ha hroom) (by intro c; simp [fillRelease, setCache, or_comm]) ?_
    intro c
    by_cases hcb : c = b
    · simp [hcb]
    · simp [fillRelease, setCache, hcb]

theorem Staged.of_lh_nil (st : Staged D pending s) (hl : s.lh = []) :
    pending = [] ∧ ∀ b, s.pinned b = false := by
  constructor
  · apply eq_nil_iff_forall_not_mem.mpr
    intro w hw
    simpa [hl] using st.listed w hw
  · intro b
    have := st.pins b
    simpa [hl] using this

section
variable (h : Inv g D pending s)
include h

theorem inv_endOp {p : Nat} (hp : p ∈ s.ops) (free : ∀ x ∈ s.held, x.1 ≠ p)
    (hs : s.endOp p = .ok s') : Inv g D pending s' := by
  have hpc := h.idle_of_op hp
  have hph := h.phase
  rw [hpc] at hph
  have hlen := length_erase_of_mem hp
  have holders : ∀ x ∈ s.held, x.1 ∈ s.ops.erase p := fun x hx =>
    (mem_erase_of_ne (free x hx)).mpr (h.holders x hx)
  have st := hph.2
  unfold endOp at hs
  simp only at hs
  split at hs
  next => simp at hs
  next =>
    split at hs
    next hz =>
      cases Except.ok.inj hs
      have hnil : s.ops.erase p = [] := length_eq_zero_iff.mp (by have := h.count; omega)
      by_cases hl : 0 < s.lh.length
      · refine ⟨by simp only; have := h.count; omega, by simp [hl, Pc.committing], holders, h.cached,
          h.coherent, h.fits, ?_⟩
        simp only [hl, if_true]
        exact ⟨hnil, by omega, hph.1, ⟨st.listed, st.pins, st.view⟩, by intro i b hi; omega⟩
      · have hnl : s.lh = [] := length_eq_zero_iff.mp (by omega)
        obtain ⟨hpend, hpin⟩ := st.of_lh_nil hnl
        refine ⟨by simp only; have := h.count; omega, by simp [hl, Pc.committing], holders, h.cached,
          h.coherent, h.fits, ?_⟩
        simp only [hl, if_false]
        exact ⟨hnil, hpend, hnl, hph.1, hpin⟩
    next =>
      cases Except.ok.inj hs
      refine ⟨by simp only; have := h.count; omega, h.busy, holders, h.cached, h.coherent, h.fits, ?_⟩
      simp only [hpc]
      exact ⟨hph.1, ⟨st.listed, st.pins, st.view⟩⟩

theorem inv_wakeup (hpc : s.pc = .committed) : Inv g D pending { s with committing := false, pc := .idle } := by
  obtain ⟨ho, rfl, hl, hin, hpin⟩ := hpc ▸ h.phase
  exact ⟨h.count, rfl, h.holders, h.cached, h.coherent, h.fits, hin,
    ⟨by simp, by intro b; simp [hpin b, hl], by intro b hb; rw [hl] at hb; simp at hb⟩⟩

theorem bwrite_coherent (b : Nat) (v : β) {c : Nat} {w : β}
    (hw : (s.bwrite b v).cache c = some w) (hp : c ≠ b → s.pinned c = false) (hh : ¬ s.Held c) :
    w = (s.bwrite b v).disk.block c := by
  by_cases hcb : c = b
  · subst c
    have : v = w := by simpa [bwrite, setCache] using hw
    simp [bwrite, Disk.write, this]
  · have hw' : s.cache c = some w := by
      simpa [bwrite, setCache, update_of_ne hcb] using hw
    have := h.coherent c w hw' (hp hcb) hh
    simpa [bwrite, Disk.write, update_of_ne hcb] using this

theorem bwrite_cached (b : Nat) (v : β) {c : Nat} (hp : s.pinned c = true) : (s.bwrite b v).cache c ≠ none := by
  by_cases hcb : c = b
  · subst c; simp [bwrite, setCache]
  · simpa [bwrite, setCache, update_of_ne hcb] using h.cached c hp

theorem inv_writeLog {t b : Nat} (hpc : s.pc = .writeLog t) (hb : s.lh[t]? = some b) :
    Inv g D pending { s.bwrite (g.start + t + 1) (s.bread b) with pc := .writeLog (t + 1) } := by
  obtain ⟨ho, _, hin, st, hcopy⟩ := hpc ▸ h.phase
  obtain ⟨ht, _⟩ := List.getElem?_eq_some_iff.mp hb
  have hmem : b ∈ s.lh := List.mem_of_getElem? hb
  have harea := h.fits.copy_in_area ht
  have hnot : ∀ c ∈ s.lh, c ≠ g.start + t + 1 := fun c hc he => h.fits.outside c hc (he ▸ harea)
  have hval : s.bread b = contents D pending b := by
    simp [bread, st.view b hmem (h.not_held ho b)]
  refine ⟨h.count, ?_, h.holders, fun c hc => bwrite_cached h _ _ hc, ?_, h.fits, ?_⟩
  · exact h.busy.trans (by rw [hpc]; rfl)
  · intro c w hw hp hh
    exact bwrite_coherent h _ _ hw (fun _ => hp) hh
  · refine ⟨ho, by simp only [bwrite, setCache]; omega, ?_, ⟨st.listed, st.pins, ?_⟩, ?_⟩
    · refine Installed.nil (d := s.disk.write (g.start + t + 1) (s.bread b)) hin.head ?_
      intro c hc
      have hne : c ≠ g.start + t + 1 := fun he => hc (he ▸ harea)
      simpa [Disk.write, update_of_ne hne] using hin.home c hc (by simp)
    · intro c hc hh
      simpa [bwrite, setCache, update_of_ne (hnot c hc)] using st.view c hc hh
    · intro i c hi hc
      by_cases hit : i = t
      · subst i
        have hcb : c = b := some.inj (hc.symm.trans hb)
        simp [bwrite, Disk.write, hval, hcb]
      · have hne : g.start + i + 1 ≠ g.start + t + 1 := by omega
        simpa [bwrite, Disk.write, update_of_ne hne] using hcopy i c (by omega) hc

theorem inv_writeHead (hpc : s.pc = .writeLog s.lh.length) :
    Inv g (contents D pending) [] { s.writeHead with pc := .installTrans 0 } := by
  obtain ⟨ho, _, hin, st, hcopy⟩ := hpc ▸ h.phase
  refine ⟨h.count, ?_, h.holders, h.cached, h.coherent, h.fits, ho, rfl, ⟨by omega, rfl, ?_, ?_⟩, ?_⟩
  · exact h.busy.trans (by rw [hpc]; rfl)
  · intro i b hb
    obtain ⟨hi, _⟩ := List.getElem?_eq_some_iff.mp hb
    exact hcopy i b hi hb
  · intro b hb hm
    have hother : contents D pending b = D b := by
      apply contents_other
      intro w hw he
      exact hm (by simpa using he ▸ st.listed w hw)
    rw [hother]
    exact hin.home b hb (by simp)
  · simpa [writeHead] using st.pins

theorem inv_install {t b : Nat} (hpc : s.pc = .installTrans t) (hb : s.lh[t]? = some b) : Inv g D pending
      { (s.bwrite b (s.bread (g.start + t + 1))).bunpin b with pc := .installTrans (t + 1) } := by
  obtain ⟨ho, hpend, hin, hpin⟩ := hpc ▸ h.phase
  obtain ⟨ht, hbt⟩ := List.getElem?_eq_some_iff.mp hb
  have harea := h.fits.copy_in_area ht
  have hunpinned : s.pinned (g.start + t + 1) = false := by
    by_contra hne
    have := (hpin _).mp (by simpa using hne)
    exact h.fits.outside _ (mem_of_mem_drop this) harea
  have hval : s.bread (g.start + t + 1) = D b := by
    rw [h.bread_clean hunpinned (h.not_held ho _)]
    exact hin.copies t b hb
  have hdrop := drop_eq_getElem_cons ht
  have hnb : b ∉ s.lh.drop (t + 1) := by
    have := h.fits.nodup.sublist (drop_sublist t s.lh)
    rw [hdrop, hbt] at this
    exact (nodup_cons.mp this).1
  refine ⟨h.count, ?_, h.holders, ?_, ?_, h.fits, ho, hpend, ?_, ?_⟩
  · exact h.busy.trans (by rw [hpc]; rfl)
  · intro c hc
    have hcb : c ≠ b := by
      intro he
      subst c
      simp [bunpin] at hc
    have hc' : s.pinned c = true := by
      simpa [bunpin, bwrite, setCache, update_of_ne hcb] using hc
    exact bwrite_cached h _ _ hc'
  · intro c w hw hp hh
    refine bwrite_coherent h _ _ hw (fun hcb => ?_) hh
    simpa [bunpin, bwrite, setCache, update_of_ne hcb] using hp
  · exact hin.advance h.fits hb hval
  · intro c
    by_cases hcb : c = b
    · subst c
      simpa [bunpin, bwrite, setCache] using hnb
    · have := hpin c
      rw [hdrop, hbt] at this
      simpa [bunpin, bwrite, setCache, update_of_ne hcb, hcb] using this

theorem inv_eraseHead (hpc : s.pc = .installTrans s.lh.length) :
    Inv g D pending { ({ s with lh := [] } : State β).writeHead with pc := .committed } := by
  obtain ⟨ho, hpend, hin, hpin⟩ := hpc ▸ h.phase
  refine ⟨h.count, ?_, h.holders, h.cached, h.coherent, Fits.nil, ho, hpend, rfl, hin.finish, ?_⟩
  · exact h.busy.trans (by rw [hpc]; rfl)
  · intro b
    have := hpin b
    simpa [writeHead] using this

theorem inv_recoverBlock {t b : Nat} (hpc : s.pc = .recover t) (hb : s.lh[t]? = some b) :
    Inv g D pending { s.bwrite b (s.bread (g.start + t + 1)) with pc := .recover (t + 1) } := by
  obtain ⟨ho, hpend, hin, hpin⟩ := hpc ▸ h.phase
  have hval : s.bread (g.start + t + 1) = D b := by
    rw [h.bread_clean (hpin _) (h.not_held ho _)]
    exact hin.copies t b hb
  refine ⟨h.count, ?_, h.holders, fun c hc => bwrite_cached h _ _ hc, ?_, h.fits, ho, hpend,
    hin.advance h.fits hb hval, hpin⟩
  · exact h.busy.trans (by rw [hpc]; rfl)
  · intro c w hw hp hh
    exact bwrite_coherent h _ _ hw (fun _ => hp) hh

theorem inv_recoverHead (hpc : s.pc = .recover s.lh.length) :
    Inv g D pending { ({ s with lh := [] } : State β).writeHead with pc := .idle } := by
  obtain ⟨ho, rfl, hin, hpin⟩ := hpc ▸ h.phase
  refine ⟨h.count, ?_, h.holders, h.cached, h.coherent, Fits.nil, hin.finish, ⟨by simp, ?_, by simp [writeHead]⟩⟩
  · exact h.busy.trans (by rw [hpc]; rfl)
  · intro b
    simp [writeHead, hpin b]

theorem Inv.installed : ∃ lh t, Fits g lh ∧ Installed g D s.disk lh t := by
  have hph := h.phase
  generalize s.pc = pc at hph
  cases pc with
  | idle => exact ⟨[], 0, Fits.nil, hph.1⟩
  | writeLog t => exact ⟨[], 0, Fits.nil, hph.2.2.1⟩
  | installTrans t | recover t => exact ⟨s.lh, t, h.fits, hph.2.2.1⟩
  | committed => exact ⟨[], 0, Fits.nil, hph.2.2.2.1⟩

theorem inv_crash : Inv g D [] (boot s.disk) := by
  obtain ⟨lh, t, fits, hin⟩ := h.installed
  exact inv_boot fits hin

end

end Xv6.Log
