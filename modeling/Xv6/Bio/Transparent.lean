import Mathlib.Data.Set.Card
import Xv6.Bio.BufferOps
import Xv6.Lib.Run

namespace Xv6.Bio

open Count Function LinkedRing Transition List Option State
open Log (Geom)

variable {α : Type} {g : Geom} {putHead : List Nat → α → α} {s t : State α} {u : User} {p : Use} {x : α}

def Carries (use : User → Option Use) (blockno : Nat) : Prop :=
  ∃ p, use .dbuf = some p ∧ p.dev = rootdev ∧ p.blockno = blockno ∧ p.stage ≠ .leaves

/-- How far the installation has come at an instruction of the commit. -/
def PartOk (s : State α) (k : Nat) : Part → Prop
  | .writeLog tail => tail < s.lh.length ∧ s.installed = 0
  | .writeHead => 0 < s.lh.length ∧ s.installed = 0
  | .installTrans tail =>
    tail < s.lh.length ∧ s.installed = (if k ≤ 4 then tail else tail + 1) ∧
      (2 ≤ k → k ≤ 4 → Carries s.use (s.lh.getD tail 0)) ∧
      (k = 4 → s.disk (s.lh.getD tail 0) = s.mem (s.lh.getD tail 0))
  | .clear => s.installed = if k = 0 then s.lh.length else 0
  | .eraseHead => s.installed = 0
  | .done => s.installed = 0

structure Control (g : Geom) (s : State α) : Prop where
  quiet : s.ops ≠ [] → s.commit = none
  start : s.commit = none → s.installed = 0
  distinct : s.lh.Nodup
  owners : ∀ x ∈ s.dirty, (∃ op ∈ s.ops, x.2 = some op) ∨
    ∃ pc, s.commit = some pc ∧ (pc.part.code g s.lh)[pc.k]? = some (.bwrite x.1)
  root : ∀ u p, s.use u = some p → (∀ n, u ≠ .proc n) → p.dev = rootdev
  part : ∀ pc, s.commit = some pc → PartOk s pc.k pc.part

def Inv (g : Geom) (s : State α) : Prop := s.Sound s.pins ∧ Control g s

theorem binit_buf (x : α) (i : Nat) : (Cache.binit x).buf i = ⟨false, 0, 0, 0, x, false⟩ := by
  have hloop : ∀ (l : List Nat) (c : Cache α), (l.foldl Cache.pushFront c).buf = c.buf := by
    intro l
    induction l with
    | nil => exact fun _ => rfl
    | cons a l ih => exact fun c => ih (c.pushFront a)
  unfold Cache.binit
  rw [hloop]

theorem inv_boot (g : Geom) (d : Nat → α) : Inv g (boot d) := by
  have hbuf := binit_buf (d 0)
  refine ⟨⟨Cache.binit_ordered _, ⟨∅, fun u hu => absurd rfl hu, fun i _ => ?_⟩, ?_⟩, ?_⟩
  · simp [boot, hbuf, Cache.pin, holders]
  · constructor <;> simp [boot, hbuf, pins]
  · constructor <;> simp [boot]

theorem pins_of_quiet (h : Control g s) (hq : s.commit = none) : s.pins = s.lh := by
  simp [pins, h.start hq]

theorem pins_of_open (h : Control g s) (ho : s.ops ≠ []) : s.pins = s.lh := pins_of_quiet h (h.quiet ho)

/-! ### Steps of the processes -/

theorem Control.root_update {r : Option Use} (h : Control g s)
    (hroot : ∀ p, r = some p → (∀ n, u ≠ .proc n) → p.dev = rootdev) :
    ∀ v p, update s.use u r v = some p → (∀ n, v ≠ .proc n) → p.dev = rootdev := by
  intro v p hv hn
  by_cases he : v = u
  · subst he
    exact hroot p (by simpa using hv) hn
  · exact h.root v p (by simpa [he] using hv) hn

theorem Control.setUse {c : Cache α} {r : Option Use} (h : Control g s)
    (hdbuf : u = .dbuf → ∀ b, Carries s.use b → Carries (update s.use u r) b)
    (hroot : ∀ p, r = some p → (∀ n, u ≠ .proc n) → p.dev = rootdev) :
    Control g { s with cache := c, use := update s.use u r } where
  quiet := h.quiet
  start := h.start
  distinct := h.distinct
  owners := h.owners
  root := h.root_update hroot
  part pc hpc := by
    have hp := h.part pc hpc
    have hcarries : ∀ b, Carries s.use b → Carries (update s.use u r) b := fun b hb => by
      by_cases hu : u = .dbuf
      · exact hdbuf hu b hb
      · obtain ⟨q, hq⟩ := hb
        exact ⟨q, by rwa [update_of_ne (Ne.symm hu)]⟩
    cases hpart : pc.part <;> rw [hpart] at hp
    case installTrans => exact ⟨hp.1, hp.2.1, fun h2 h4 => hcarries _ (hp.2.2.1 h2 h4), hp.2.2.2⟩
    all_goals exact hp

theorem Control.moveOn {c : Cache α} {q : Use} (h : Control g s) (hu : s.use u = some p)
    (hdev : q.dev = p.dev) (hno : q.blockno = p.blockno) (hstage : q.stage ≠ .leaves) :
    Control g { s with cache := c, use := update s.use u (some q) } := by
  refine h.setUse ?_ ?_
  · rintro rfl b ⟨r, hr, hrdev, hrno, -⟩
    obtain rfl := some.inj (hu.symm.trans hr)
    exact ⟨q, update_self .., hdev.trans hrdev, hno.trans hrno, hstage⟩
  · rintro r ⟨⟩ hn
    exact hdev.trans (h.root u p hu hn)

section
variable (h : Inv g s)
include h

theorem inv_proc {n dev blockno : Nat} (ht : s.bget (.proc n) dev blockno = some t) : Inv g t := by
  have hs := h.1.bget ht
  obtain ⟨-, i, c, -, rfl⟩ := bget_eq_some ht
  exact ⟨hs, h.2.setUse (by simp) (fun p _ hn => absurd rfl (hn n))⟩

theorem inv_acquire (ht : s.acquire u = some t) : Inv g t := by
  have hs := h.1.acquire ht
  obtain ⟨i, dev, blockno, hu, -, rfl⟩ := acquire_eq_some ht
  exact ⟨hs, h.2.moveOn hu rfl rfl (by simp)⟩

theorem inv_fill (ht : s.fill u = some t) : Inv g t := by
  have hs := h.1.fill ht
  obtain ⟨i, dev, blockno, hu, rfl⟩ := fill_eq_some ht
  exact ⟨hs, h.2.moveOn hu rfl rfl (by simp)⟩

theorem inv_drop (ht : s.drop u = some t) : Inv g t := by
  have hs := h.1.drop ht
  obtain ⟨p, hu, hleaves, rfl⟩ := drop_eq_some ht
  refine ⟨hs, h.2.setUse ?_ (by simp)⟩
  rintro rfl b ⟨r, hr, -, -, hstage⟩
  obtain rfl := some.inj (hu.symm.trans hr)
  exact absurd hleaves hstage

theorem inv_brelse {n : Nat} (hclean : ∀ x ∈ s.dirty, x.1 ≠ .proc n)
    (ht : s.releasesleep (.proc n) = some t) : Inv g t := by
  have hs := h.1.releasesleep hclean ht
  obtain ⟨p, hp, rfl⟩ := releasesleep_eq_some ht
  exact ⟨hs, h.2.setUse (by simp) (fun p _ hn => absurd rfl (hn n))⟩

end

theorem Control.of_open (h : Control g s) (ho : s.ops ≠ []) (hops : t.ops = s.ops) (hcommit : t.commit = s.commit)
    (hinst : t.installed = s.installed) (hlh : t.lh.Nodup) (huse : t.use = s.use)
    (hdirty : ∀ x ∈ t.dirty, ∃ op ∈ s.ops, x.2 = some op) : Control g t where
  quiet _ := by rw [hcommit, h.quiet ho]
  start _ := by rw [hinst, h.start (h.quiet ho)]
  distinct := hlh
  owners x hx := .inl (by rw [hops]; exact hdirty x hx)
  root := by rw [huse]; exact h.root
  part pc hpc := by rw [hcommit, h.quiet ho] at hpc; cases hpc

theorem Control.dirty_open (h : Control g s) (ho : s.ops ≠ []) : ∀ x ∈ s.dirty, ∃ op ∈ s.ops, x.2 = some op := by
  intro x hx
  refine (h.owners x hx).resolve_right ?_
  rintro ⟨pc, hpc, -⟩
  rw [h.quiet ho] at hpc
  cases hpc

theorem inv_modify {n op : Nat} (h : Inv g s) (hop : op ∈ s.ops)
    (hroot : ∀ p ∈ s.use (.proc n), p.dev = rootdev) (ht : s.store (.proc n) (some op) x = some t) : Inv g t := by
  have hopen := ne_nil_of_mem hop
  have hs := h.1.store (fun p hp => hroot p hp) ht
  obtain ⟨p, hp, rfl⟩ := store_eq_some ht
  refine ⟨hs, h.2.of_open hopen rfl rfl rfl h.2.distinct rfl fun y hy => ?_⟩
  rcases mem_cons.mp hy with rfl | hy
  · exact ⟨op, hop, rfl⟩
  · exact h.2.dirty_open hopen y hy

theorem inv_logWrite (h : Inv g s) (ht : s.logWrite g u = some t) : Inv g t := by
  obtain ⟨hsound, hctl⟩ := h
  obtain ⟨p, hp, -, hopen, hkind⟩ := logWrite_eq_some ht
  rw [pins_of_open hctl hopen] at hsound
  have hs := hsound.logWrite ht
  have hdirty : ∀ x ∈ (s.clean u).dirty, ∃ op ∈ s.ops, x.2 = some op := fun x hx =>
    hctl.dirty_open hopen x (mem_filter.mp hx).1
  have hc : Control g t := by
    rcases hkind with ⟨-, rfl⟩ | ⟨hmem, rfl⟩
    · exact hctl.of_open hopen rfl rfl rfl hctl.distinct rfl hdirty
    · refine hctl.of_open hopen rfl rfl rfl ?_ rfl hdirty
      exact nodup_append.mpr ⟨hctl.distinct, nodup_singleton _, fun a ha b hb => by
        obtain rfl := mem_singleton.mp hb
        exact fun he => hmem (he ▸ ha)⟩
  have hopen' : t.ops ≠ [] := by rcases hkind with ⟨-, rfl⟩ | ⟨-, rfl⟩ <;> exact hopen
  refine ⟨?_, hc⟩
  rw [pins_of_open hc hopen']
  exact hs

theorem inv_beginOp {op : Nat} (h : Inv g s) (ht : s.beginOp op = some t) : Inv g t := by
  unfold beginOp at ht
  split at ht
  next => cases ht
  next hguard =>
    obtain rfl := (some.inj ht).symm
    simp only [not_or, not_isSome_iff_eq_none] at hguard
    obtain ⟨hquiet, -, -⟩ := hguard
    refine ⟨h.1, ⟨fun _ => hquiet, h.2.start, h.2.distinct, fun x hx => ?_, h.2.root, h.2.part⟩⟩
    rcases h.2.owners x hx with ⟨o, ho, hxo⟩ | ⟨pc, hpc, -⟩
    · exact .inl ⟨o, mem_cons_of_mem op ho, hxo⟩
    · rw [hquiet] at hpc
      cases hpc

theorem inv_endOp {op : Nat} (h : Inv g s) (ht : s.endOp op = some t) : Inv g t := by
  obtain ⟨hsound, hctl⟩ := h
  unfold endOp at ht
  split at ht
  next => cases ht
  next hguard =>
    simp only [not_or, not_not, not_exists, not_and] at hguard
    obtain ⟨hop, hclean⟩ := hguard
    have hopen := ne_nil_of_mem hop
    have hquiet := hctl.quiet hopen
    have hinst := hctl.start hquiet
    have hdirty : ∀ x ∈ s.dirty, ∃ o ∈ s.ops.erase op, x.2 = some o := fun x hx => by
      obtain ⟨o, ho, hxo⟩ := hctl.dirty_open hopen x hx
      have hne : o ≠ op := fun he => hclean x hx (he ▸ hxo)
      exact ⟨o, (mem_erase_of_ne hne).mpr ho, hxo⟩
    dsimp only at ht
    split at ht
    next hempty =>
      obtain rfl := (some.inj ht).symm
      refine ⟨hsound, ⟨fun hne => absurd hempty hne, fun hn => (by cases hn), hctl.distinct, fun x hx => ?_, hctl.root,
        fun pc hpc => ?_⟩⟩
      · obtain ⟨o, ho, -⟩ := hdirty x hx
        rw [hempty] at ho
        cases ho
      · obtain rfl := some.inj hpc
        by_cases hlh : s.lh = []
        · simp only [hlh, if_true]
          exact hinst
        · simp only [hlh, if_false]
          exact ⟨length_pos_of_ne_nil hlh, hinst⟩
    next =>
      obtain rfl := (some.inj ht).symm
      exact ⟨hsound, ⟨fun _ => hquiet, hctl.start, hctl.distinct, fun x hx => .inl (hdirty x hx), hctl.root,
        hctl.part⟩⟩

/-! ### The commit -/

section Code

variable {part : Part} {lh : List Nat} {k : Nat} {i : Instr}

def Instr.users : Instr → List User
  | .bread u _ => [u]
  | .memmove dst src => [dst, src]
  | .putHead u => [u]
  | .bwrite u => [u]
  | .bunpin u => [u]
  | .brelse u => [u]
  | .clear => []

theorem code_users (h : (part.code g lh)[k]? = some i) : ∀ u ∈ i.users, ∀ n, u ≠ .proc n := by
  have hmem := mem_of_getElem? h
  cases part <;> simp only [Part.code, writeHeadCode, mem_cons, not_mem_nil, or_false] at hmem <;>
    rcases hmem with rfl | rfl | rfl | rfl | rfl | rfl | rfl <;> simp [Instr.users]

theorem code_stores (h : (part.code g lh)[k]? = some i) (hi : (∃ src, i = .memmove u src) ∨ i = .putHead u) :
    (part.code g lh)[k + 1]? = some (.bwrite u) := by
  rcases hi with ⟨src, rfl⟩ | rfl <;> cases part <;> simp only [Part.code, writeHeadCode] at h ⊢ <;>
    rcases k with _ | _ | _ | _ | _ | _ | _ | k <;> simp_all

end Code

/-- What the instructions other than `bunpin` and `clear` leave alone. -/
structure Keeps (s t : State α) : Prop where
  lh : t.lh = s.lh
  installed : t.installed = s.installed
  ops : t.ops = s.ops

theorem Keeps.pins (h : Keeps s t) : t.pins = s.pins := by rw [State.pins, State.pins, h.lh, h.installed]

structure Committing (g : Geom) (s : State α) (pc : Pc) (i : Instr) : Prop where
  inv : Inv g s
  here : s.commit = some pc
  instr : (pc.part.code g s.lh)[pc.k]? = some i

namespace Committing

variable {pc : Pc} {i : Instr}

section
variable (h : Committing g s pc i)
include h

theorem ops : s.ops = [] := by
  by_contra hne
  have := h.inv.2.quiet hne
  rw [h.here] at this
  cases this

theorem dirty : ∀ x ∈ s.dirty, i = .bwrite x.1 := by
  intro x hx
  rcases h.inv.2.owners x hx with ⟨op, hop, -⟩ | ⟨pc', hpc', hi⟩
  · rw [h.ops] at hop
    cases hop
  · obtain rfl := some.inj (h.here.symm.trans hpc')
    exact some.inj (h.instr.symm.trans hi)

theorem clean {P : _ → Prop} (hi : ∀ u, i ≠ .bwrite u) : ∀ x ∈ s.dirty, P x := fun x hx => absurd (h.dirty x hx) (hi _)

theorem root (hu : u ∈ i.users) : ∀ p, s.use u = some p → p.dev = rootdev := fun p hp =>
  h.inv.2.root u p hp (code_users h.instr u hu)

theorem next (hk : Keeps s t) (hs : t.Sound s.pins)
    (hdirty : ∀ x ∈ t.dirty, (pc.part.code g s.lh)[pc.k + 1]? = some (.bwrite x.1))
    (hroot : ∀ u p, t.use u = some p → (∀ n, u ≠ .proc n) → p.dev = rootdev)
    (hpart : PartOk t (pc.k + 1) pc.part) :
    Inv g { t with commit := some { pc with k := pc.k + 1 } } := by
  refine ⟨?_, ⟨fun hne => ?_, fun hn => (by cases hn), ?_, fun x hx => .inr ⟨_, rfl, ?_⟩, hroot, fun pc' hpc' => ?_⟩⟩
  · show t.Sound t.pins
    rw [hk.pins]
    exact hs
  · rw [hk.ops, h.ops] at hne
    exact absurd rfl hne
  · rw [hk.lh]
    exact h.inv.2.distinct
  · rw [hk.lh]
    exact hdirty x hx
  · obtain rfl := some.inj hpc'
    cases hp : pc.part <;> rw [hp] at hpart <;> exact hpart

theorem part_of_keeps (hk : Keeps s t) (hc : i ≠ .clear)
    (hinst : ∀ tail, ((Part.installTrans tail).code g s.lh)[pc.k]? = some i → PartOk s pc.k (.installTrans tail) →
      PartOk t (pc.k + 1) (.installTrans tail)) : PartOk t (pc.k + 1) pc.part := by
  have hp := h.inv.2.part pc h.here
  have hi := h.instr
  cases hpart : pc.part with
  | installTrans tail =>
    rw [hpart] at hi hp
    exact hinst tail hi hp
  | clear =>
    rw [hpart] at hi
    rcases hk' : pc.k with _ | k
    · rw [hk'] at hi
      exact absurd (some.inj hi).symm hc
    · rw [hk'] at hi
      simp [Part.code] at hi
  | _ =>
    rw [hpart] at hp
    simpa only [PartOk, hk.lh, hk.installed] using hp

end

theorem step_bread {blockno : Nat} (h : Committing g s pc (.bread u blockno)) (ht : s.bget u rootdev blockno = some t) :
    Inv g { t with commit := some { pc with k := pc.k + 1 } } := by
  have hs := h.inv.1.bget ht
  obtain ⟨hu, j, c, -, rfl⟩ := bget_eq_some ht
  refine h.next ⟨rfl, rfl, rfl⟩ hs (h.clean (by simp)) (h.inv.2.root_update ?_) ?_
  · rintro p ⟨⟩ -
    rfl
  · refine h.part_of_keeps ⟨rfl, rfl, rfl⟩ (by simp) fun tail hi hp => ?_
    obtain ⟨htail, hinst, -, -⟩ := hp
    -- the first two instructions read the buffers
    rcases hk : pc.k with _ | _ | k <;> rw [hk] at hi hinst
    · exact ⟨htail, hinst, fun h2 => absurd h2 (by decide), fun h4 => absurd h4 (by decide)⟩
    · obtain ⟨rfl, rfl⟩ : User.dbuf = u ∧ s.lh.getD tail 0 = blockno := by
        simpa [Part.code] using hi
      refine ⟨htail, hinst, fun _ _ => ⟨⟨j, rootdev, s.lh.getD tail 0, .waits⟩, ?_, rfl, rfl, by simp⟩,
        fun h4 => absurd h4 (by decide)⟩
      simp
    · rcases k with _ | _ | _ | _ | _ | k <;> simp [Part.code] at hi

theorem step_store (h : Committing g s pc i) (hi : (∃ src, i = .memmove u src) ∨ i = .putHead u)
    (ht : s.store u none x = some t) : Inv g { t with commit := some { pc with k := pc.k + 1 } } := by
  have hu : u ∈ i.users := by rcases hi with ⟨src, rfl⟩ | rfl <;> simp [Instr.users]
  have hs := h.inv.1.store (h.root hu) ht
  obtain ⟨p, hp, rfl⟩ := store_eq_some ht
  have hnone : ∀ y ∈ s.dirty, False := fun y hy => by
    have := h.dirty y hy
    rcases hi with ⟨src, rfl⟩ | rfl <;> cases this
  refine h.next ⟨rfl, rfl, rfl⟩ hs (fun y hy => ?_) h.inv.2.root ?_
  · rcases mem_cons.mp hy with rfl | hy
    · exact code_stores h.instr hi
    · exact (hnone y hy).elim
  · refine h.part_of_keeps ⟨rfl, rfl, rfl⟩ (by rcases hi with ⟨src, rfl⟩ | rfl <;> simp) fun tail hcode hpt => ?_
    obtain ⟨htail, hinst, hcarries, -⟩ := hpt
    -- `memmove` is the third instruction
    have hk : pc.k = 2 := by
      rcases hk : pc.k with _ | _ | _ | _ | _ | _ | _ | k <;> rw [hk] at hcode <;>
        rcases hi with ⟨src, rfl⟩ | rfl <;> simp [Part.code] at hcode ⊢
    rw [hk] at hinst hcarries ⊢
    exact ⟨htail, hinst, fun _ _ => hcarries (by decide) (by decide), fun h4 => absurd h4 (by decide)⟩

theorem step_bwrite (h : Committing g s pc (.bwrite u)) (ht : s.bwrite u = some t) :
    Inv g { t with commit := some { pc with k := pc.k + 1 } } := by
  have hroot := h.root (u := u) (by simp [Instr.users])
  have hs := h.inv.1.bwrite hroot ht
  obtain ⟨p, hp, rfl⟩ := bwrite_eq_some ht
  obtain ⟨hu, hholds⟩ := held_eq_some hp
  refine h.next ⟨rfl, rfl, rfl⟩ hs (fun x hx => ?_) h.inv.2.root ?_
  · obtain ⟨hx, hne⟩ := mem_filter.mp hx
    obtain ⟨rfl⟩ := h.dirty x hx
    simp at hne
  · refine h.part_of_keeps ⟨rfl, rfl, rfl⟩ (by simp) fun tail hcode hpt => ?_
    obtain ⟨htail, hinst, hcarries, -⟩ := hpt
    -- `dbuf` is written by the fourth instruction
    obtain ⟨hk, rfl⟩ : pc.k = 3 ∧ u = .dbuf := by
      rcases hk : pc.k with _ | _ | _ | _ | _ | _ | _ | k <;> rw [hk] at hcode <;> simp [Part.code] at hcode
      exact ⟨rfl, hcode.symm⟩
    rw [hk] at hinst hcarries ⊢
    have hc := hcarries (by decide) (by decide)
    refine ⟨htail, hinst, fun _ _ => hc, fun _ => ?_⟩
    obtain ⟨q, hq, hqdev, hqno, -⟩ := hc
    obtain rfl := some.inj (hu.symm.trans hq)
    obtain ⟨hlt, hbdev, hbno⟩ := h.inv.1.2.2.names _ p hu
    have hcur := h.inv.1.2.2.current p.buf hlt (hbdev.trans hqdev) (h.inv.1.2.2.loaded _ p hu hholds)
    show update s.disk _ _ (s.lh.getD tail 0) = s.mem (s.lh.getD tail 0)
    rw [← hqno, ← hbno, update_self, hcur]

theorem step_brelse (h : Committing g s pc (.brelse u)) (ht : s.releasesleep u = some t) :
    Inv g { t with commit := some { pc with k := pc.k + 1 } } := by
  have hs := h.inv.1.releasesleep (h.clean (by simp)) ht
  obtain ⟨p, hp, rfl⟩ := releasesleep_eq_some ht
  obtain ⟨hu, -⟩ := held_eq_some hp
  refine h.next ⟨rfl, rfl, rfl⟩ hs (h.clean (by simp)) (h.inv.2.root_update ?_) ?_
  · rintro q ⟨⟩ hn
    exact h.inv.2.root u p hu hn
  · refine h.part_of_keeps ⟨rfl, rfl, rfl⟩ (by simp) fun tail hcode hpt => ?_
    obtain ⟨htail, hinst, -, -⟩ := hpt
    have hk : 5 ≤ pc.k := by
      rcases hk : pc.k with _ | _ | _ | _ | _ | k <;> rw [hk] at hcode <;> simp [Part.code] at hcode
      omega
    rw [if_neg (by omega)] at hinst
    exact ⟨htail, by rw [if_neg (by omega)]; exact hinst, fun _ h4 => absurd h4 (by omega), fun h4 => absurd h4 (by omega)⟩

theorem step_bunpin (h : Committing g s pc (.bunpin u)) (ht : s.bunpin u = some t) :
    Inv g { t with commit := some { pc with k := pc.k + 1 } } := by
  obtain ⟨tail, hpart, hk, rfl⟩ : ∃ tail, pc.part = .installTrans tail ∧ pc.k = 4 ∧ u = .dbuf := by
    have hcode := h.instr
    cases hpart : pc.part <;> rw [hpart] at hcode <;>
      rcases hk : pc.k with _ | _ | _ | _ | _ | _ | _ | k <;> rw [hk] at hcode <;>
      simp [Part.code, writeHeadCode] at hcode
    exact ⟨_, rfl, rfl, hcode.symm⟩
  have hpt := h.inv.2.part pc h.here
  rw [hpart, hk] at hpt
  obtain ⟨htail, hinst, hcarries, hsync⟩ := hpt
  obtain ⟨q, hq, hqdev, hqno, -⟩ := hcarries (by decide) (by decide)
  rw [if_pos (by decide)] at hinst
  have hpins : s.pins = s.lh.getD tail 0 :: s.lh.drop (tail + 1) := by
    rw [pins, hinst, drop_eq_getElem_cons htail, getD_eq_getElem?_getD, getElem?_eq_getElem htail, getD_some]
  have hnot : s.lh.getD tail 0 ∉ s.lh.drop (tail + 1) := by
    have hnodup : s.pins.Nodup := h.inv.2.distinct.sublist (drop_sublist _ _)
    rw [hpins] at hnodup
    exact (nodup_cons.mp hnodup).1
  have hsound := h.inv.1
  rw [hpins] at hsound
  have hs := hsound.bunpin hnot (hsync rfl)
    (fun p hp => by obtain rfl := some.inj (hq.symm.trans hp); exact ⟨hqdev, hqno⟩) ht
  obtain ⟨p, -, rfl⟩ := bunpin_eq_some ht
  refine ⟨?_, ⟨fun hne => absurd h.ops hne, fun hn => (by cases hn), h.inv.2.distinct, h.clean (by simp),
    h.inv.2.root, fun pc' hpc' => ?_⟩⟩
  · show State.Sound (s.lh.drop (s.installed + 1)) _
    rw [hinst]
    exact hs
  · obtain rfl := some.inj hpc'
    simp only [hpart, hk]
    exact ⟨htail, congrArg (· + 1) hinst, fun _ h4 => absurd h4 (by decide), fun h4 => absurd h4 (by decide)⟩

theorem step_clear (h : Committing g s pc .clear) :
    Inv g { s with lh := [], installed := 0, commit := some { pc with k := pc.k + 1 } } := by
  obtain ⟨hpart, hk⟩ : pc.part = .clear ∧ pc.k = 0 := by
    have hcode := h.instr
    cases hpart : pc.part <;> rw [hpart] at hcode <;>
      rcases hk : pc.k with _ | _ | _ | _ | _ | _ | _ | k <;> rw [hk] at hcode <;>
      simp [Part.code, writeHeadCode] at hcode
    exact ⟨rfl, rfl⟩
  have hpt := h.inv.2.part pc h.here
  rw [hpart, hk] at hpt
  have hpins : s.pins = [] := by
    rw [pins, show s.installed = s.lh.length from hpt, drop_length]
  refine ⟨?_, ⟨fun hne => absurd h.ops hne, fun hn => (by cases hn), nodup_nil, h.clean (by simp),
    h.inv.2.root, fun pc' hpc' => ?_⟩⟩
  · have hs := h.inv.1
    rw [hpins] at hs
    exact hs
  · obtain rfl := some.inj hpc'
    rw [hpart, hk]
    exact rfl

end Committing

theorem inv_nextPart {pc : Pc} (h : Inv g s) (hpc : s.commit = some pc) (hend : (pc.part.code g s.lh)[pc.k]? = none) :
    Inv g { s with commit := (pc.part.next s.lh.length).map (⟨·, 0⟩) } := by
  have hlen := getElem?_eq_none_iff.mp hend
  have hops : s.ops = [] := by
    by_contra hne
    have := h.2.quiet hne
    rw [hpc] at this
    cases this
  have hnone : ∀ x ∈ s.dirty, False := fun x hx => by
    rcases h.2.owners x hx with ⟨op, hop, -⟩ | ⟨pc', hpc', hi⟩
    · rw [hops] at hop
      cases hop
    · obtain rfl := some.inj (hpc.symm.trans hpc')
      rw [hend] at hi
      cases hi
  have hp := h.2.part pc hpc
  obtain ⟨part, k⟩ := pc
  dsimp only at hp hlen
  refine ⟨h.1, ⟨fun hne => absurd hops hne, fun hn => ?_, h.2.distinct, fun x hx => (hnone x hx).elim, h.2.root,
    fun pc' hpc' => ?_⟩⟩
  · cases part <;> simp [Part.next] at hn
    exact hp
  · cases part with
    | writeLog tail =>
      obtain rfl := some.inj hpc'
      obtain ⟨htail, hinst⟩ := hp
      by_cases hmore : tail + 1 < s.lh.length
      · simp only [hmore, if_true]
        exact ⟨hmore, hinst⟩
      · simp only [hmore, if_false]
        exact ⟨by show 0 < s.lh.length; omega, hinst⟩
    | writeHead =>
      obtain rfl := some.inj hpc'
      exact ⟨hp.1, hp.2, fun h2 => absurd h2 (by decide), fun h4 => absurd h4 (by decide)⟩
    | installTrans tail =>
      obtain rfl := some.inj hpc'
      obtain ⟨htail, hinst, -, -⟩ := hp
      have hk : 7 ≤ k := hlen
      rw [if_neg (by omega)] at hinst
      by_cases hmore : tail + 1 < s.lh.length
      · simp only [hmore, if_true]
        exact ⟨hmore, hinst, fun h2 => absurd h2 (by decide), fun h4 => absurd h4 (by decide)⟩
      · simp only [hmore, if_false]
        show s.installed = s.lh.length
        omega
    | clear =>
      obtain rfl := some.inj hpc'
      have hk : 1 ≤ k := hlen
      exact Eq.trans hp (if_neg (by omega))
    | eraseHead =>
      obtain rfl := some.inj hpc'
      exact hp
    | done => cases hpc'

theorem inv_commit (h : Inv g s) (ht : s.commitStep g putHead = some t) : Inv g t := by
  unfold commitStep at ht
  split at ht
  next => cases ht
  next pc hpc =>
    split at ht
    next =>
      split at ht
      next i hi =>
        obtain ⟨t', ht', rfl⟩ := map_eq_some_iff.mp ht
        have hat : Committing g s pc i := ⟨h, hpc, hi⟩
        cases i with
        | bread u blockno => exact hat.step_bread ht'
        | memmove dst src | putHead u =>
          simp only [instr] at ht'
          split at ht'
          next p hp => exact hat.step_store (by simp) ht'
          next => cases ht'
        | bwrite u => exact hat.step_bwrite ht'
        | bunpin u => exact hat.step_bunpin ht'
        | brelse u => exact hat.step_brelse ht'
        | clear =>
          obtain rfl := (some.inj ht').symm
          exact hat.step_clear
      next hend =>
        obtain rfl := (some.inj ht).symm
        exact inv_nextPart h hpc hend
    next => cases ht

theorem inv_step {e : Event α} (h : Inv g s) (ht : s.step g putHead e = some t) : Inv g t := by
  cases e with
  | bget n dev blockno => exact inv_proc h ht
  | acquire u => exact inv_acquire h ht
  | fill u => exact inv_fill h ht
  | modify n op x =>
    simp only [State.step] at ht
    split at ht
    next hguard => exact inv_modify h hguard.1 hguard.2 ht
    next => cases ht
  | logWrite n => exact inv_logWrite h ht
  | brelse n =>
    simp only [State.step] at ht
    split at ht
    next => cases ht
    next hguard => exact inv_brelse h (fun x hx he => hguard ⟨x, hx, he⟩) ht
  | drop u => exact inv_drop h ht
  | beginOp op => exact inv_beginOp h ht
  | endOp op => exact inv_endOp h ht
  | commit => exact inv_commit h ht

theorem inv_run {d : Nat → α} {evs : List (Event α)} (h : Run (State.step g putHead) (boot d) evs s) : Inv g s :=
  h.invariant (P := fun _ s => Inv g s) (inv_boot g d) fun _ hi hs => inv_step hi hs

/-! ### What holds in every state -/

def State.users (s : State α) (i : Nat) : Set User := { u | bufs s.use u = some i }

/-- One if the block of buffer `i` is logged and not yet installed. -/
def State.logged (s : State α) (i : Nat) : Nat :=
  if (s.cache.buf i).dev = rootdev ∧ (s.cache.buf i).blockno ∈ s.pins then 1 else 0

theorem refcnt_eq {i : Nat} (h : Inv g s) (hi : i < nbuf) : (s.cache.buf i).refcnt = (s.users i).ncard + s.logged i := by
  obtain ⟨S, hS, hcount⟩ := h.1.2.1
  have hc := hcount i hi
  have husers : s.users i = ↑(S.filter fun u => bufs s.use u = some i) := by
    ext u
    simp only [users, Set.mem_ofPred_eq, Finset.coe_filter]
    constructor
    · refine fun hu => ⟨hS u fun hn => ?_, hu⟩
      simp [bufs, hn] at hu
    · exact fun hu => hu.2
  rw [husers, Set.ncard_coe_finset]
  have hpin : s.cache.pin s.pins i = s.logged i := by
    unfold Cache.pin logged
    split <;> rfl
  rw [hpin, holders] at hc
  exact_mod_cast hc

def SameBlock (i : Nat) (s t : State α) : Prop :=
  (t.cache.buf i).dev = (s.cache.buf i).dev ∧ (t.cache.buf i).blockno = (s.cache.buf i).blockno

section

variable {i : Nat} {u : User}

theorem bget_sameBlock {dev blockno : Nat} (h : Inv g s) (hpos : 0 < (s.cache.buf i).refcnt) (ht : s.bget u dev blockno = some t) :
    SameBlock i s t := by
  obtain ⟨-, j, c, hc, rfl⟩ := bget_eq_some ht
  unfold SameBlock
  rcases (h.1.1.bget_some hc).2 with ⟨-, -, rfl⟩ | ⟨hzero, -, rfl⟩
  · grind [Cache.incr, Cache.buf_setBuf]
  · have hne : i ≠ j := by
      rintro rfl
      omega
    simp [Cache.recycle, Cache.buf_setBuf, hne]

theorem store_sameBlock {op : Option Nat} (ht : s.store u op x = some t) : SameBlock i s t := by
  obtain ⟨p, -, rfl⟩ := store_eq_some ht
  unfold SameBlock
  grind [Cache.setData, Cache.buf_setBuf]

theorem releasesleep_sameBlock (ht : s.releasesleep u = some t) : SameBlock i s t := by
  obtain ⟨p, -, rfl⟩ := releasesleep_eq_some ht
  unfold SameBlock
  grind [Cache.setLocked, Cache.buf_setBuf]

theorem instr_sameBlock {ins : Instr} (h : Inv g s) (hpos : 0 < (s.cache.buf i).refcnt) (ht : s.instr putHead ins = some t) :
    SameBlock i s t := by
  cases ins with
  | bread u blockno => exact bget_sameBlock h hpos ht
  | memmove dst src | putHead u =>
    simp only [instr] at ht
    split at ht
    next => exact store_sameBlock ht
    next => cases ht
  | bwrite u =>
    obtain ⟨p, -, rfl⟩ := bwrite_eq_some ht
    exact ⟨rfl, rfl⟩
  | bunpin u =>
    obtain ⟨p, -, rfl⟩ := bunpin_eq_some ht
    unfold SameBlock
    grind [Cache.decr, Cache.buf_setBuf]
  | brelse u => exact releasesleep_sameBlock ht
  | clear =>
    cases ht
    exact ⟨rfl, rfl⟩

theorem step_sameBlock {e : Event α} (h : Inv g s) (hpos : 0 < (s.cache.buf i).refcnt) (ht : s.step g putHead e = some t) :
    SameBlock i s t := by
  cases e with
  | bget n dev blockno => exact bget_sameBlock h hpos ht
  | acquire u =>
    obtain ⟨j, dev, blockno, -, -, rfl⟩ := acquire_eq_some ht
    unfold SameBlock
    grind [Cache.setLocked, Cache.buf_setBuf]
  | fill u =>
    obtain ⟨j, dev, blockno, -, rfl⟩ := fill_eq_some ht
    have hf := fill_frame s.cache s.disk j i
    exact ⟨hf.1, hf.2.1⟩
  | modify n op x =>
    simp only [State.step] at ht
    split at ht
    next => exact store_sameBlock ht
    next => cases ht
  | logWrite n =>
    obtain ⟨p, -, -, -, ⟨-, rfl⟩ | ⟨-, rfl⟩⟩ := logWrite_eq_some ht
    · exact ⟨rfl, rfl⟩
    · unfold SameBlock
      grind [Cache.incr, Cache.buf_setBuf]
  | brelse n =>
    simp only [State.step] at ht
    split at ht
    next => cases ht
    next => exact releasesleep_sameBlock ht
  | drop u =>
    obtain ⟨p, -, -, rfl⟩ := drop_eq_some ht
    unfold SameBlock
    simp only [drop_buf]
    grind [Cache.decr, Cache.buf_setBuf]
  | beginOp op | endOp op =>
    simp only [State.step, beginOp, endOp] at ht
    repeat' split at ht
    all_goals cases ht <;> exact ⟨rfl, rfl⟩
  | commit =>
    simp only [State.step, commitStep] at ht
    split at ht
    next => cases ht
    next pc hpc =>
      split at ht
      next =>
        split at ht
        next ins hins =>
          obtain ⟨t', ht', rfl⟩ := map_eq_some_iff.mp ht
          exact instr_sameBlock (t := t') h hpos ht'
        next =>
          cases ht
          exact ⟨rfl, rfl⟩
      next => cases ht

end

/-- Along any run of processes and commits: a block has at most one buffer, the list of the buffers is intact,
the counts are exact, the buffer of a block that is logged and not yet installed is not recycled, and who holds
a buffer finds in it what was last stored in its block. -/
theorem buffer_cache_transparent {d : Nat → α} {evs : List (Event α)}
    (h : Run (State.step g putHead) (boot d) evs s) :
    (∀ i < nbuf, ∀ j < nbuf, (s.cache.buf i).dev ≠ 0 → (s.cache.buf i).dev = (s.cache.buf j).dev →
      (s.cache.buf i).blockno = (s.cache.buf j).blockno → i = j) ∧
    (∃ nodes, nodes.Perm (range nbuf) ∧ Linked s.cache.next s.cache.prev (around head nodes)) ∧
    (∀ i < nbuf, (s.cache.buf i).refcnt = (s.users i).ncard + s.logged i) ∧
    (∀ b ∈ s.pins, ∃ i < nbuf, (s.cache.buf i).dev = rootdev ∧ (s.cache.buf i).blockno = b ∧
      ∀ e t, s.step g putHead e = some t → (t.cache.buf i).dev = rootdev ∧ (t.cache.buf i).blockno = b) ∧
    ∀ u p, s.use u = some p → p.stage = .holds →
      (s.cache.buf p.buf).dev = p.dev ∧ (s.cache.buf p.buf).blockno = p.blockno ∧
        (p.dev = rootdev → (s.cache.buf p.buf).data = s.mem p.blockno) := by
  have hinv := inv_run h
  obtain ⟨hord, hcount, hcoh⟩ := hinv.1
  refine ⟨hcoh.unique, hord, fun i hi => refcnt_eq hinv hi, fun b hb => ?_, fun u p hu hp => ?_⟩
  · obtain ⟨i, hi, hdev, hno, -⟩ := hcoh.pinned b hb
    refine ⟨i, hi, hdev, hno, fun e t ht => ?_⟩
    have hkeep := step_sameBlock hinv (hcount.pinned_pos hi hdev (by rwa [hno])) ht
    exact ⟨hkeep.1.trans hdev, hkeep.2.trans hno⟩
  · obtain ⟨hlt, hdev, hno⟩ := hcoh.names u p hu
    refine ⟨hdev, hno, fun hroot => ?_⟩
    rw [hcoh.current p.buf hlt (hdev.trans hroot) (hcoh.loaded u p hu hp), hno]

/-- An operation changes a block, a reader gets the buffer, and the operation commits. -/
def sharedBlock : List (Event Nat) :=
  [.beginOp 0, .bget 0 rootdev 50, .acquire (.proc 0), .fill (.proc 0), .modify 0 0 7, .logWrite 0, .brelse 0,
    .drop (.proc 0), .bget 1 rootdev 50, .acquire (.proc 1), .fill (.proc 1), .endOp 0, .commit, .acquire .lbuf,
    .fill .lbuf, .commit, .brelse 1]

theorem sharedBlock_transparent :
    ∃ s, Run (State.step ⟨2, 30⟩ fun _ x => x) (boot fun b => b) sharedBlock s ∧ s.pins = [50] ∧
      ∀ u p, s.use u = some p → p.stage = .holds → p.dev = rootdev → (s.cache.buf p.buf).data = s.mem p.blockno := by
  have hexec : (exec (State.step ⟨2, 30⟩ fun _ x => x) (boot fun b => b) sharedBlock).any (·.pins = [50]) := by
    decide +kernel
  obtain ⟨s, hs, hpins⟩ := (any_eq_true _ _).mp hexec
  have hrun := run_of_exec hs
  have hclear := (buffer_cache_transparent hrun).2.2.2.2
  exact ⟨s, hrun, by simpa using hpins, fun u p hu hp hroot => (hclear u p hu hp).2.2 hroot⟩

end Xv6.Bio
