import Mathlib.Data.List.Perm.Subperm
import Xv6.Lib.Prog
import Xv6.Lib.Ring
import Xv6.Virtio.Driver

namespace Xv6.Virtio

open Function Prog Transition List Option State

abbrev never : String → Prop := fun _ => False

variable {d d' : Driver} {s t : State} {i i0 i1 i2 b : Nat} {blockno : Nat} {write : Bool}

/-! ### The functions of the driver -/

theorem allocDesc_spec : wp allocDesc (fun r d' => match r with
    | none => d' = d
    | some i => i < num ∧ d.free i = true ∧ d' = { d with free := update d.free i false }) never d := by
  simp only [allocDesc, wp_bind, wp_get]
  cases hfind : (range num).find? d.free with
  | none => simp
  | some i =>
    have hfree := find?_some hfind
    have hmem := mem_range.mp (mem_of_find?_eq_some hfind)
    simp only [wp_bind, wp_set, wp_pure]
    exact ⟨hmem, hfree, trivial⟩

theorem freeDesc_spec (hi : i < num) (hbusy : d.free i = false) :
    wp (freeDesc i) (fun _ d' => d' = { d with desc := update d.desc i .zero, free := update d.free i true }) never d := by
  simp [freeDesc, Nat.not_le.mpr hi, hbusy]

def Idle (d d' : Driver) : Prop :=
  ∃ desc, (∀ i, d.free i = false → desc i = d.desc i) ∧ d' = { d with desc := desc }

theorem alloc3Desc_spec : wp alloc3Desc (fun r d' => match r with
    | none => Idle d d'
    | some (i0, i1, i2) => (i0 < num ∧ i1 < num ∧ i2 < num) ∧ (i0 ≠ i1 ∧ i0 ≠ i2 ∧ i1 ≠ i2) ∧
      (d.free i0 = true ∧ d.free i1 = true ∧ d.free i2 = true) ∧
      d' = { d with free := update (update (update d.free i0 false) i1 false) i2 false }) never d := by
  unfold alloc3Desc
  refine allocDesc_spec.bind ?_
  rintro (_ | i0) d0 h0
  · subst h0
    exact wp_pure.mpr ⟨d0.desc, fun _ _ => rfl, rfl⟩
  obtain ⟨hlt0, hfree0, rfl⟩ := h0
  have hback0 : update d.free i0 true = d.free := by rw [← hfree0, update_eq_self]
  refine allocDesc_spec.bind ?_
  rintro (_ | i1) d1 h1
  · subst h1
    refine (freeDesc_spec hlt0 (update_self ..)).bind ?_
    rintro _ d2 rfl
    refine wp_pure.mpr ⟨update d.desc i0 .zero, fun i hi => ?_, by rw [update_idem, hback0]⟩
    exact update_of_ne (fun he => by rw [he, hfree0] at hi; cases hi) _ _
  obtain ⟨hlt1, hfree1, rfl⟩ := h1
  have hne01 : i0 ≠ i1 := by
    rintro rfl
    simp at hfree1
  have hfree1' : d.free i1 = true := by simpa [hne01.symm] using hfree1
  refine allocDesc_spec.bind ?_
  rintro (_ | i2) d2 h2
  · subst h2
    refine (freeDesc_spec hlt0 (by simp [hne01])).bind ?_
    rintro _ d3 rfl
    refine (freeDesc_spec hlt1 (by simp [hne01.symm])).bind ?_
    rintro _ d4 rfl
    refine wp_pure.mpr ⟨update (update d.desc i0 .zero) i1 .zero, fun i hi => ?_, ?_⟩
    · have hi0 : i ≠ i0 := fun he => by rw [he, hfree0] at hi; cases hi
      have hi1 : i ≠ i1 := fun he => by rw [he, hfree1'] at hi; cases hi
      rw [update_of_ne hi1, update_of_ne hi0]
    · have hback : update (update (update (update d.free i0 false) i1 false) i0 true) i1 true = d.free := by
        rw [update_comm hne01.symm, update_idem, update_idem, hback0, ← hfree1', update_eq_self]
      rw [hback]
  obtain ⟨hlt2, hfree2, rfl⟩ := h2
  have hne12 : i1 ≠ i2 := by
    rintro rfl
    simp at hfree2
  have hne02 : i0 ≠ i2 := by
    rintro rfl
    simp [hne01] at hfree2
  exact wp_pure.mpr ⟨⟨hlt0, hlt1, hlt2⟩, ⟨hne01, hne02, hne12⟩,
    ⟨hfree0, hfree1', by simpa [hne12.symm, hne02.symm] using hfree2⟩, rfl⟩

structure Formatted (d : Driver) (b i0 i1 i2 : Nat) : Prop where
  lt : i0 < num ∧ i1 < num ∧ i2 < num
  ne : i0 ≠ i1 ∧ i0 ≠ i2 ∧ i1 ≠ i2
  busy : d.free i0 = false ∧ d.free i1 = false ∧ d.free i2 = false
  first : (d.desc i0).flags &&& vringDescFNext ≠ 0 ∧ (d.desc i0).next = i1
  second : (d.desc i1).flags &&& vringDescFNext ≠ 0 ∧ (d.desc i1).next = i2
  third : (d.desc i2).flags &&& vringDescFNext = 0 ∧ (d.desc i2).addr = .status i0
  info : d.infoB i0 = some b

def members (x : Nat × Nat × Nat) : List Nat := [x.1, x.2.1, x.2.2]

section
variable (h : Formatted d b i0 i1 i2)
include h

theorem Formatted.congr (hdesc : ∀ i ∈ members (i0, i1, i2), d'.desc i = d.desc i)
    (hfree : ∀ i ∈ members (i0, i1, i2), d'.free i = d.free i) (hinfo : d'.infoB i0 = d.infoB i0) :
    Formatted d' b i0 i1 i2 := by
  have h0 := hdesc i0 (by simp [members])
  have h1 := hdesc i1 (by simp [members])
  have h2 := hdesc i2 (by simp [members])
  refine ⟨h.lt, h.ne, ?_, ?_, ?_, ?_, hinfo.trans h.info⟩
  · rw [hfree i0 (by simp [members]), hfree i1 (by simp [members]), hfree i2 (by simp [members])]
    exact h.busy
  · rw [h0]
    exact h.first
  · rw [h1]
    exact h.second
  · rw [h2]
    exact h.third

theorem Formatted.off {j0 j1 j2 : Nat}
    (hoff : ∀ i ∈ members (i0, i1, i2), i ≠ j0 ∧ i ≠ j1 ∧ i ≠ j2)
    (hsame : ∀ i, i ≠ j0 ∧ i ≠ j1 ∧ i ≠ j2 →
      d'.desc i = d.desc i ∧ d'.free i = d.free i ∧ d'.infoB i = d.infoB i) : Formatted d' b i0 i1 i2 :=
  h.congr (fun i hi => (hsame i (hoff i hi)).1) (fun i hi => (hsame i (hoff i hi)).2.1)
    (hsame i0 (hoff i0 (by simp [members]))).2.2

theorem Formatted.member_busy (hi : i ∈ members (i0, i1, i2)) : d.free i = false := by
  simp only [members, mem_cons, not_mem_nil, or_false] at hi
  rcases hi with rfl | rfl | rfl
  exacts [h.busy.1, h.busy.2.1, h.busy.2.2]

end

theorem formatted_publish (hlt : i0 < num ∧ i1 < num ∧ i2 < num)
    (hne : i0 ≠ i1 ∧ i0 ≠ i2 ∧ i1 ≠ i2) (hbusy : d.free i0 = false ∧ d.free i1 = false ∧ d.free i2 = false) :
    Formatted (d.publish b blockno write i0 i1 i2) b i0 i1 i2 := by
  obtain ⟨h01, h02, h12⟩ := hne
  refine ⟨hlt, ⟨h01, h02, h12⟩, hbusy, ?_, ?_, ?_, ?_⟩
  · simp [Driver.publish, h01, h02, vringDescFNext]
  · simp only [Driver.publish, update_of_ne h12, update_self, and_true]
    cases write <;> decide
  · simp only [Driver.publish, update_self, and_true]
    decide
  · simp [Driver.publish]

def Driver.freed (d : Driver) (i0 i1 i2 : Nat) : Driver :=
  { d with
    desc := update (update (update d.desc i0 .zero) i1 .zero) i2 .zero
    free := update (update (update d.free i0 true) i1 true) i2 true }

theorem freeChain_spec (h : Formatted d b i0 i1 i2) (d' : Driver) (hdesc : d'.desc = d.desc) (hfree : d'.free = d.free) :
    wp (freeChain num i0) (fun _ e => e = d'.freed i0 i1 i2) never d' := by
  obtain ⟨h01, h02, h12⟩ := h.ne
  simp only [freeChain, wp_bind, wp_get]
  refine (freeDesc_spec h.lt.1 (by rw [hfree]; exact h.busy.1)).mono ?_ fun _ => id
  rintro _ d1 rfl
  rw [hdesc, if_pos h.first.1, h.first.2]
  simp only [wp_bind, wp_get]
  refine (freeDesc_spec h.lt.2.1 (by simp [h01.symm, hfree, h.busy.2.1])).mono ?_ fun _ => id
  rintro _ d2 rfl
  simp only [update_of_ne h01.symm]
  rw [if_pos h.second.1, h.second.2]
  simp only [wp_bind, wp_get]
  refine (freeDesc_spec h.lt.2.2 (by simp [h02.symm, h12.symm, hfree, h.busy.2.2])).mono ?_ fun _ => id
  rintro _ d3 rfl
  simp only [update_of_ne h12.symm, update_of_ne h02.symm]
  rw [if_neg (by simp [h.third.1])]
  refine wp_pure.mpr ?_
  simp [Driver.freed, hdesc]

theorem submit_spec : wp (submit b blockno write) (fun r d' => match r with
    | none => Idle d d'
    | some (i0, i1, i2) => (i0 < num ∧ i1 < num ∧ i2 < num) ∧ (i0 ≠ i1 ∧ i0 ≠ i2 ∧ i1 ≠ i2) ∧
      (d.free i0 = true ∧ d.free i1 = true ∧ d.free i2 = true) ∧
      d' = { d with free := update (update (update d.free i0 false) i1 false) i2 false }.publish b blockno write i0 i1 i2)
    never d := by
  unfold submit
  refine alloc3Desc_spec.bind ?_
  rintro (_ | ⟨i0, i1, i2⟩) d1 h1
  · exact wp_pure.mpr h1
  · obtain ⟨hlt, hne, hfree, rfl⟩ := h1
    simp only [wp_bind, wp_modify, wp_pure]
    exact ⟨hlt, hne, hfree, trivial⟩

theorem collect_spec (h : Formatted d b i0 i1 i2) : wp (collect b i0) (fun back d' => match back with
    | false => d.bdisk b = true ∧ d' = d
    | true => d.bdisk b = false ∧ d' = { d with infoB := update d.infoB i0 none }.freed i0 i1 i2) never d := by
  simp only [collect, wp_bind, wp_get]
  by_cases hb : d.bdisk b = true
  · simp [hb]
  · rw [if_neg hb]
    simp only [wp_bind, wp_set, wp_pure]
    refine (freeChain_spec h { d with infoB := update d.infoB i0 none } rfl rfl).mono ?_ fun _ => id
    rintro _ e rfl
    exact ⟨by simpa using hb, rfl⟩

theorem handleUsed_spec {ring : Nat → Nat} (hid : ring (d.usedIdx.toNat % num) = i) (hstatus : d.infoStatus i = 0)
    (hb : d.infoB i = some b) :
    wp (handleUsed ring) (fun x d' => x = (i, b) ∧
      d' = { d with bdisk := update d.bdisk b false, usedIdx := d.usedIdx + 1 }) never d := by
  simp only [handleUsed, wp_bind, wp_get, hid, hstatus, hb, wp_ite]
  exact ⟨fun hne => absurd rfl hne, fun _ => by simp only [wp_set, wp_pure, and_self]⟩

theorem run_spec {α : Type} {m : M α} {Q : α → Driver → Prop} (h : wp m Q never s.drv) (k : α → Driver → State) :
    ∃ a d, Q a d ∧ s.run m k = k a d := by
  obtain ⟨h⟩ := h
  unfold run
  cases hm : m s.drv with
  | ok r =>
    rw [hm] at h
    exact ⟨r.1, r.2, h, rfl⟩
  | error e =>
    rw [hm] at h
    exact h.elim

/-! ### The rings -/

namespace State

/-- Published chains that the device has not taken yet. -/
def avail (s : State) : List Nat := Ring.contents num s.drv.availRing s.dev.lastAvail s.drv.availIdx

/-- Completed chains that `virtio_disk_intr` has not seen yet. -/
def used (s : State) : List Nat := Ring.contents num s.dev.usedRing s.drv.usedIdx s.dev.usedIdx

/-- The chains that the device may still use. -/
def inFlight (s : State) : List Nat := s.avail ++ s.dev.busy

/-- The chains whose owners have to wait. -/
def pending (s : State) : List Nat := s.inFlight ++ s.used

end State

/-- What the driver, the callers and the device agree on. -/
structure Agree (s : State) : Prop where
  fine : s.panicked = none
  chains : ∀ p c i0 i1 i2, s.call p = some c → c.chain = some (i0, i1, i2) → Formatted s.drv c.b i0 i1 i2
  disjoint : ∀ p q c c' x y, p ≠ q → s.call p = some c → s.call q = some c' → c.chain = some x → c'.chain = some y →
    ∀ i ∈ members x, i ∉ members y
  covered : ∀ i < num, s.drv.free i = false → ∃ p c x, s.call p = some c ∧ c.chain = some x ∧ i ∈ members x
  buffers : ∀ p q c c', s.call p = some c → s.call q = some c' → c.b = c'.b → p = q
  fresh : ∀ p c, s.call p = some c → c.chain = none → c.done = false
  nodup : s.pending.Nodup
  owned : ∀ h ∈ s.pending, ∃ p c i1 i2, s.call p = some c ∧ c.chain = some (h, i1, i2)
  waiting : ∀ p c i0 i1 i2, s.call p = some c → c.chain = some (i0, i1, i2) →
    (s.drv.bdisk c.b = true ↔ i0 ∈ s.pending)
  working : ∀ p c i0 i1 i2, s.call p = some c → c.chain = some (i0, i1, i2) → (c.done = false ↔ i0 ∈ s.inFlight)
  status : ∀ h ∈ s.used, s.drv.infoStatus h = 0
  history : s.completed = s.handled.map (·.1) ++ s.used

theorem agree_boot : Agree boot := by
  constructor <;> simp [boot, pending, inFlight, avail, used, Ring.contents]

namespace Agree

variable {p q : Nat} {c : Call} {x : Nat} {c' : Call} {y : Nat}

theorem pending_lt (h : Agree s) (hx : x ∈ s.pending) : x < num := by
  obtain ⟨p, c, i1, i2, hp, hc⟩ := h.owned x hx
  exact (h.chains p c x i1 i2 hp hc).lt.1

theorem pending_busy (h : Agree s) (hx : x ∈ s.pending) : s.drv.free x = false := by
  obtain ⟨p, c, i1, i2, hp, hc⟩ := h.owned x hx
  exact (h.chains p c x i1 i2 hp hc).busy.1

theorem room {l : List Nat} (hsub : ∀ y ∈ x :: l, y < num) (hnodup : (x :: l).Nodup) : l.length < num := by
  have hle := (subperm_of_subset hnodup fun y hy => mem_range.mpr (hsub y hy)).length_le
  rw [length_range] at hle
  exact hle

theorem owner_unique (h : Agree s) {j1 j2 : Nat} (hp : s.call p = some c) (hc : c.chain = some (i0, i1, i2))
    (hq : s.call q = some c') (hc' : c'.chain = some (i0, j1, j2)) : q = p := by
  by_contra hne
  exact h.disjoint p q c c' _ _ (Ne.symm hne) hp hq hc hc' i0 (by simp [members]) (by simp [members])

theorem of_update {call : Nat → Option Call} {c c' : Call} (h : update call p (some c) q = some c') :
    q = p ∧ c' = c ∨ q ≠ p ∧ call q = some c' := by
  by_cases hqp : q = p
  · subst hqp
    rw [update_self] at h
    exact .inl ⟨rfl, (some.inj h).symm⟩
  · rw [update_of_ne hqp] at h
    exact .inr ⟨hqp, h⟩

theorem call (h : Agree s) (hp : s.call p = none)
    (hb : ∀ q c, s.call q = some c → c.b ≠ b) :
    Agree { s with call := update s.call p (some ⟨b, blockno, write, none, false⟩) } := by
  -- the new call has no chain
  have hold : ∀ {q c y}, update s.call p (some ⟨b, blockno, write, none, false⟩) q = some c → c.chain = some y →
      s.call q = some c := by
    intro q c y hq hy
    rcases of_update hq with ⟨-, rfl⟩ | ⟨-, hq⟩
    · cases hy
    · exact hq
  have hnew : ∀ {q c}, s.call q = some c → update s.call p (some ⟨b, blockno, write, none, false⟩) q = some c := by
    intro q c hq
    rw [update_of_ne (fun he => by rw [he, hp] at hq; cases hq)]
    exact hq
  refine ⟨h.fine, fun q c i0 i1 i2 hq hc => h.chains q c i0 i1 i2 (hold hq hc) hc,
    fun q r c c' x y hne hq hr hx hy => h.disjoint q r c c' x y hne (hold hq hx) (hold hr hy) hx hy,
    fun i hi hf => ?_, fun q r c c' hq hr he => ?_, fun q c hq hc => ?_, h.nodup, fun x hx => ?_,
    fun q c i0 i1 i2 hq hc => h.waiting q c i0 i1 i2 (hold hq hc) hc,
    fun q c i0 i1 i2 hq hc => h.working q c i0 i1 i2 (hold hq hc) hc, h.status, h.history⟩
  · obtain ⟨q, c, y, hq, hy⟩ := h.covered i hi hf
    exact ⟨q, c, y, hnew hq, hy⟩
  · rcases of_update hq with ⟨hqp, rfl⟩ | ⟨-, hq⟩ <;> rcases of_update hr with ⟨hrp, rfl⟩ | ⟨-, hr⟩
    · rw [hqp, hrp]
    · exact absurd he.symm (hb r c' hr)
    · exact absurd he (hb q c hq)
    · exact h.buffers q r c c' hq hr he
  · rcases of_update hq with ⟨-, rfl⟩ | ⟨-, hq⟩
    · rfl
    · exact h.fresh q c hq hc
  · obtain ⟨q, c, i1, i2, hq, hc⟩ := h.owned x hx
    exact ⟨q, c, i1, i2, hnew hq, hc⟩

theorem idle (h : Agree s) (hd : Idle s.drv d) : Agree { s with drv := d } := by
  obtain ⟨desc, hdesc, rfl⟩ := hd
  refine { h with chains := fun p c i0 i1 i2 hp hc => ?_ }
  have hf := h.chains p c i0 i1 i2 hp hc
  exact hf.congr (fun i hi => hdesc i (hf.member_busy hi)) (fun _ _ => rfl) rfl

theorem dvd_num : num ∣ 2 ^ 16 := by decide

section
variable (h : Agree s)
include h

theorem member_ne {j j0 j1 j2 : Nat} (hq : s.call q = some c') (hc' : c'.chain = some (j0, j1, j2))
    (hi : i ∈ members (j0, j1, j2)) (hj : s.drv.free j = true) : i ≠ j := by
  rintro rfl
  rw [(h.chains q c' j0 j1 j2 hq hc').member_busy hi] at hj
  cases hj

theorem not_pending (hfree : s.drv.free x = true) : x ∉ s.pending := fun hx => by
  rw [h.pending_busy hx] at hfree
  cases hfree

theorem ring_room {l : List Nat} (hsub : List.Sublist l s.pending) (hx : x < num) (hnot : x ∉ l) : l.length < num := by
  refine room (x := x) (fun y hy => ?_) (nodup_cons.mpr ⟨hnot, h.nodup.sublist hsub⟩)
  rcases mem_cons.mp hy with rfl | hy
  · exact hx
  · exact h.pending_lt (hsub.subset hy)

theorem submit (hp : s.call p = some c) (hc : c.chain = none)
    (hlt : i0 < num ∧ i1 < num ∧ i2 < num) (hne : i0 ≠ i1 ∧ i0 ≠ i2 ∧ i1 ≠ i2)
    (hfree : s.drv.free i0 = true ∧ s.drv.free i1 = true ∧ s.drv.free i2 = true) :
    Agree { s with
      drv := { s.drv with free := update (update (update s.drv.free i0 false) i1 false) i2 false }.publish c.b blockno
        write i0 i1 i2
      call := update s.call p (some { c with chain := some (i0, i1, i2) }) } := by
  set d := { s.drv with free := update (update (update s.drv.free i0 false) i1 false) i2 false } with hd
  set t : State := { s with
    drv := d.publish c.b blockno write i0 i1 i2, call := update s.call p (some { c with chain := some (i0, i1, i2) }) }
    with ht
  obtain ⟨h01, h02, h12⟩ := hne
  have hnot : i0 ∉ s.pending := h.not_pending hfree.1
  have havail : t.avail = s.avail ++ [i0] := by
    have hsub : List.Sublist s.avail s.pending := (sublist_append_left _ _).trans (sublist_append_left _ _)
    have hroom := h.ring_room hsub hlt.1 fun hx => hnot (hsub.subset hx)
    exact Ring.contents_put dvd_num (by decide) (by simpa [avail] using hroom) i0
  have hflight : ∀ y, y ∈ t.inFlight ↔ y = i0 ∨ y ∈ s.inFlight := by
    intro y
    simp only [inFlight, havail, mem_append, mem_singleton]
    tauto
  have hpending : t.pending.Perm (i0 :: s.pending) := by
    show ((t.avail ++ s.dev.busy) ++ s.used).Perm (i0 :: ((s.avail ++ s.dev.busy) ++ s.used))
    rw [havail, append_assoc s.avail]
    simp only [append_assoc, singleton_append]
    exact perm_middle
  -- the calls that have a chain now
  have hcall : ∀ {q c' j0 j1 j2}, t.call q = some c' → c'.chain = some (j0, j1, j2) →
      q = p ∧ c' = { c with chain := some (i0, i1, i2) } ∧ (j0, j1, j2) = (i0, i1, i2) ∨
        q ≠ p ∧ s.call q = some c' := by
    intro q c' j0 j1 j2 hq hc'
    rcases of_update hq with ⟨hqp, rfl⟩ | hold
    · exact .inl ⟨hqp, rfl, (some.inj hc').symm⟩
    · exact .inr hold
  have hother : ∀ {q c' j0 j1 j2 i}, s.call q = some c' → c'.chain = some (j0, j1, j2) → i ∈ members (j0, j1, j2) →
      i ≠ i0 ∧ i ≠ i1 ∧ i ≠ i2 := fun hq hc' hi =>
    ⟨h.member_ne hq hc' hi hfree.1, h.member_ne hq hc' hi hfree.2.1, h.member_ne hq hc' hi hfree.2.2⟩
  have hnew : ∀ {q c' y}, s.call q = some c' → c'.chain = some y → t.call q = some c' := by
    intro q c' y hq hy
    have he : q ≠ p := by
      rintro rfl
      obtain rfl := some.inj (hp.symm.trans hq)
      rw [hc] at hy
      cases hy
    simpa [ht, he] using hq
  refine ⟨h.fine, ?_, ?_, ?_, ?_, ?_, ?_, ?_, ?_, ?_, ?_, h.history⟩
  · intro q c' j0 j1 j2 hq hc'
    rcases hcall hq hc' with ⟨rfl, rfl, hj⟩ | ⟨-, hq'⟩
    · cases hj
      refine formatted_publish hlt ⟨h01, h02, h12⟩ ?_
      simp [hd, h01, h02, h12]
    · refine (h.chains q c' j0 j1 j2 hq' hc').off (fun i hi => hother hq' hc' hi) fun i hi => ?_
      simp [ht, hd, Driver.publish, hi]
  · rintro q r cq cr ⟨x0, x1, x2⟩ ⟨y0, y1, y2⟩ hqr hq hr hx hy i hi
    rcases hcall hq hx with ⟨rfl, rfl, hx'⟩ | ⟨hqp, hq'⟩ <;> rcases hcall hr hy with ⟨rfl, rfl, hy'⟩ | ⟨hrp, hr'⟩
    · exact absurd rfl hqr
    · cases hx'
      intro hi'
      obtain ⟨hi0, hi1, hi2⟩ := hother hr' hy hi'
      simp [members, hi0, hi1, hi2] at hi
    · cases hy'
      obtain ⟨hi0, hi1, hi2⟩ := hother hq' hx hi
      simp [members, hi0, hi1, hi2]
    · exact h.disjoint q r cq cr _ _ hqr hq' hr' hx hy i hi
  · intro i hi hf
    by_cases hm : i ∈ members (i0, i1, i2)
    · exact ⟨p, _, _, update_self (f := s.call) .., rfl, hm⟩
    · have hf' : s.drv.free i = false := by
        simp only [members, mem_cons, not_mem_nil, or_false, not_or] at hm
        simpa [ht, hd, Driver.publish, hm.1, hm.2.1, hm.2.2] using hf
      obtain ⟨q, c', y, hq, hy, hiy⟩ := h.covered i hi hf'
      exact ⟨q, c', y, hnew hq hy, hy, hiy⟩
  · intro q r cq cr hq hr he
    have hback : ∀ {q cq}, t.call q = some cq → ∃ c', s.call q = some c' ∧ c'.b = cq.b := by
      intro q cq hq
      rcases of_update hq with ⟨rfl, rfl⟩ | ⟨-, hq⟩
      · exact ⟨c, hp, rfl⟩
      · exact ⟨cq, hq, rfl⟩
    obtain ⟨c1, h1, hb1⟩ := hback hq
    obtain ⟨c2, h2, hb2⟩ := hback hr
    exact h.buffers q r c1 c2 h1 h2 (by rw [hb1, hb2, he])
  · intro q c' hq hc'
    rcases of_update hq with ⟨-, rfl⟩ | ⟨-, hq⟩
    · cases hc'
    · exact h.fresh q c' hq hc'
  · exact hpending.nodup_iff.mpr (nodup_cons.mpr ⟨hnot, h.nodup⟩)
  · intro y hy
    rcases mem_cons.mp (hpending.mem_iff.mp hy) with rfl | hy
    · exact ⟨p, _, i1, i2, update_self (f := s.call) .., rfl⟩
    · obtain ⟨q, c', j1, j2, hq, hc'⟩ := h.owned y hy
      exact ⟨q, c', j1, j2, hnew hq hc', hc'⟩
  · intro q c' j0 j1 j2 hq hc'
    rw [hpending.mem_iff, mem_cons]
    rcases hcall hq hc' with ⟨rfl, rfl, hj⟩ | ⟨hqp, hq'⟩
    · cases hj
      simp [ht, Driver.publish]
    · have hb : c'.b ≠ c.b := fun he => hqp (h.buffers q p c' c hq' hp he)
      obtain ⟨hj0, -, -⟩ := hother hq' hc' (i := j0) (by simp [members])
      have hw := h.waiting q c' j0 j1 j2 hq' hc'
      simpa [ht, hd, Driver.publish, hb, hj0] using hw
  · intro q c' j0 j1 j2 hq hc'
    rw [hflight]
    rcases hcall hq hc' with ⟨rfl, rfl, hj⟩ | ⟨hqp, hq'⟩
    · cases hj
      simp [h.fresh q c hp hc]
    · obtain ⟨hj0, -, -⟩ := hother hq' hc' (i := j0) (by simp [members])
      have hw := h.working q c' j0 j1 j2 hq' hc'
      simpa [hj0] using hw
  · intro y hy
    have hy' : y ∈ s.used := hy
    have hyne : y ≠ i0 := by
      rintro rfl
      exact hnot (by simp [pending, hy'])
    simpa [ht, hd, Driver.publish, hyne] using h.status y hy'

theorem collect (hp : s.call p = some c) (hc : c.chain = some (i0, i1, i2))
    (hb : s.drv.bdisk c.b = false) :
    Agree { s with
      drv := { s.drv with infoB := update s.drv.infoB i0 none }.freed i0 i1 i2, call := update s.call p none } := by
  have hnot : i0 ∉ s.pending := fun hx => by
    have := (h.waiting p c i0 i1 i2 hp hc).mpr hx
    rw [hb] at this
    cases this
  have hcall : ∀ {q c'}, update s.call p none q = some c' → q ≠ p ∧ s.call q = some c' := by
    intro q c' hq
    by_cases he : q = p
    · rw [he, update_self] at hq
      cases hq
    · exact ⟨he, by rwa [update_of_ne he] at hq⟩
  have hother : ∀ {q c' y i}, q ≠ p → s.call q = some c' → c'.chain = some y → i ∈ members y →
      i ≠ i0 ∧ i ≠ i1 ∧ i ≠ i2 := by
    intro q c' y i hqp hq hy hi
    have hnm := h.disjoint q p c' c y _ hqp hq hp hy hc i hi
    simpa [members] using hnm
  refine ⟨h.fine, ?_, ?_, ?_, ?_, ?_, h.nodup, ?_, ?_, ?_, h.status, h.history⟩
  · intro q c' j0 j1 j2 hq hc'
    obtain ⟨hqp, hq'⟩ := hcall hq
    refine (h.chains q c' j0 j1 j2 hq' hc').off (fun i hi => hother hqp hq' hc' hi) fun i hi => ?_
    simp [Driver.freed, hi]
  · intro q r cq cr x y hqr hq hr
    exact h.disjoint q r cq cr x y hqr (hcall hq).2 (hcall hr).2
  · intro i hi hf
    have hm : i ≠ i0 ∧ i ≠ i1 ∧ i ≠ i2 := by
      refine ⟨?_, ?_, ?_⟩ <;> rintro rfl <;> simp [Driver.freed, update_apply] at hf
    have hf' : s.drv.free i = false := by simpa [Driver.freed, hm.1, hm.2.1, hm.2.2] using hf
    obtain ⟨q, c', y, hq, hy, hiy⟩ := h.covered i hi hf'
    have hqp : q ≠ p := by
      rintro rfl
      obtain rfl := some.inj (hp.symm.trans hq)
      obtain rfl := some.inj (hc.symm.trans hy)
      simp [members, hm.1, hm.2.1, hm.2.2] at hiy
    exact ⟨q, c', y, by simpa [hqp] using hq, hy, hiy⟩
  · intro q r cq cr hq hr
    exact h.buffers q r cq cr (hcall hq).2 (hcall hr).2
  · intro q c' hq
    exact h.fresh q c' (hcall hq).2
  · intro y hy
    obtain ⟨q, c', j1, j2, hq, hc'⟩ := h.owned y hy
    have hqp : q ≠ p := by
      rintro rfl
      obtain rfl := some.inj (hp.symm.trans hq)
      cases hc.symm.trans hc'
      exact hnot hy
    exact ⟨q, c', j1, j2, by simpa [hqp] using hq, hc'⟩
  · intro q c' j0 j1 j2 hq
    exact h.waiting q c' j0 j1 j2 (hcall hq).2
  · intro q c' j0 j1 j2 hq
    exact h.working q c' j0 j1 j2 (hcall hq).2

end

theorem used_eq (hmore : s.drv.usedIdx ≠ s.dev.usedIdx) :
    s.used = s.dev.usedRing (s.drv.usedIdx.toNat % num) ::
      Ring.contents num s.dev.usedRing (s.drv.usedIdx + 1) s.dev.usedIdx :=
  Ring.contents_get dvd_num hmore

theorem used_mem (hmore : s.drv.usedIdx ≠ s.dev.usedIdx) : s.dev.usedRing (s.drv.usedIdx.toNat % num) ∈ s.used :=
  used_eq hmore ▸ mem_cons_self

theorem handle (h : Agree s) (hmore : s.drv.usedIdx ≠ s.dev.usedIdx) {x : Nat}
    (hx : s.dev.usedRing (s.drv.usedIdx.toNat % num) = x) (hp : s.call p = some c) (hc : c.chain = some (x, i1, i2)) :
    Agree { s with
      drv := { s.drv with bdisk := update s.drv.bdisk c.b false, usedIdx := s.drv.usedIdx + 1 }
      handled := s.handled ++ [(x, c.b)] } := by
  set t : State := { s with
    drv := { s.drv with bdisk := update s.drv.bdisk c.b false, usedIdx := s.drv.usedIdx + 1 }
    handled := s.handled ++ [(x, c.b)] } with ht
  have hused : s.used = x :: t.used := hx ▸ used_eq hmore
  have hperm : s.pending.Perm (x :: t.pending) := by
    show (s.inFlight ++ s.used).Perm (x :: (s.inFlight ++ t.used))
    rw [hused]
    exact perm_middle
  obtain ⟨hnot, hnodup⟩ := nodup_cons.mp (hperm.nodup_iff.mp h.nodup)
  have hmem : ∀ y, y ∈ s.pending ↔ y = x ∨ y ∈ t.pending := fun y => by rw [hperm.mem_iff, mem_cons]
  refine { h with
    chains := fun q c' j0 j1 j2 hq hc' =>
      (h.chains q c' j0 j1 j2 hq hc').congr (fun _ _ => rfl) (fun _ _ => rfl) rfl
    nodup := hnodup
    owned := fun y hy => h.owned y ((hmem y).mpr (.inr hy))
    waiting := ?_
    status := ?_
    history := ?_ }
  · intro q c' j0 j1 j2 hq hc'
    have hw := h.waiting q c' j0 j1 j2 hq hc'
    by_cases hqp : q = p
    · subst hqp
      obtain rfl := some.inj (hp.symm.trans hq)
      cases hc.symm.trans hc'
      exact iff_of_false (by simp [ht]) hnot
    · have hb : c'.b ≠ c.b := fun he => hqp (h.buffers q p c' c hq hp he)
      have hj0 : j0 ≠ x := by
        rintro rfl
        exact hqp (h.owner_unique hp hc hq hc')
      rw [hmem] at hw
      simpa [ht, hb, hj0] using hw
  · exact fun y hy => h.status y (by rw [hused]; exact mem_cons_of_mem x hy)
  · show s.completed = (s.handled ++ [(x, c.b)]).map (·.1) ++ t.used
    rw [h.history, hused]
    simp

theorem take (h : Agree s) (hmore : s.dev.lastAvail ≠ s.drv.availIdx) :
    Agree { s with
      dev := { s.dev with
        busy := s.drv.availRing (s.dev.lastAvail.toNat % num) :: s.dev.busy, lastAvail := s.dev.lastAvail + 1 } } := by
  set t : State := { s with
    dev := { s.dev with
      busy := s.drv.availRing (s.dev.lastAvail.toNat % num) :: s.dev.busy, lastAvail := s.dev.lastAvail + 1 } } with ht
  have havail : s.avail = s.drv.availRing (s.dev.lastAvail.toNat % num) :: t.avail :=
    Ring.contents_get dvd_num hmore
  have hflight : t.inFlight.Perm s.inFlight := by
    show (t.avail ++ t.dev.busy).Perm (s.avail ++ s.dev.busy)
    rw [havail]
    exact perm_middle
  have hpending : t.pending.Perm s.pending := hflight.append_right s.used
  exact { h with
    nodup := hpending.nodup_iff.mpr h.nodup
    owned := fun y hy => h.owned y (hpending.mem_iff.mp hy)
    waiting := fun q c i0 i1 i2 hq hc => (h.waiting q c i0 i1 i2 hq hc).trans hpending.mem_iff.symm
    working := fun q c i0 i1 i2 hq hc => (h.working q c i0 i1 i2 hq hc).trans hflight.mem_iff.symm }

theorem markDone_eq_some {call : Nat → Option Call} :
    markDone call y q = some c' ↔
      ∃ c, call q = some c ∧ c' = if c.chain.map (·.1) = some y then { c with done := true } else c := by
  simp [markDone, eq_comm]

theorem markDone_back {call : Nat → Option Call} (h : markDone call y q = some c') :
    ∃ c, call q = some c ∧ c.b = c'.b ∧ c.chain = c'.chain ∧
      (c.chain.map (·.1) ≠ some y → c' = c) ∧ (c.chain.map (·.1) = some y → c'.done = true) := by
  obtain ⟨c, hc, rfl⟩ := markDone_eq_some.mp h
  refine ⟨c, hc, ?_⟩
  split
  next he => exact ⟨rfl, rfl, fun hn => absurd he hn, fun _ => rfl⟩
  next he => exact ⟨rfl, rfl, fun _ => rfl, fun hn => absurd hn he⟩

theorem markDone_forth {call : Nat → Option Call} (y : Nat) (h : call q = some c) :
    ∃ c', markDone call y q = some c' ∧ c'.b = c.b ∧ c'.chain = c.chain := by
  refine ⟨_, markDone_eq_some.mpr ⟨c, h, rfl⟩, ?_⟩
  split <;> exact ⟨rfl, rfl⟩

theorem complete (h : Agree s) (hy : y ∈ s.dev.busy) :
    Agree { s with
      drv := { s.drv with infoStatus := statusOf s.drv y }
      dev := { s.dev with
        busy := s.dev.busy.erase y
        usedRing := update s.dev.usedRing (s.dev.usedIdx.toNat % num) y
        usedIdx := s.dev.usedIdx + 1 }
      call := markDone s.call y
      completed := s.completed ++ [y] } := by
  set t : State := { s with
    drv := { s.drv with infoStatus := statusOf s.drv y }
    dev := { s.dev with
      busy := s.dev.busy.erase y
      usedRing := update s.dev.usedRing (s.dev.usedIdx.toNat % num) y
      usedIdx := s.dev.usedIdx + 1 }
    call := markDone s.call y
    completed := s.completed ++ [y] } with ht
  have hyflight : y ∈ s.inFlight := mem_append_right _ hy
  have hypend : y ∈ s.pending := mem_append_left _ hyflight
  obtain ⟨hflightnd, -, hdisj⟩ := nodup_append.mp h.nodup
  have hused : t.used = s.used ++ [y] := by
    have hroom := h.ring_room (sublist_append_right _ _) (h.pending_lt hypend) fun hz => hdisj y hyflight y hz rfl
    exact Ring.contents_put dvd_num (by decide) (by simpa [used] using hroom) y
  have hflight : s.inFlight.Perm (y :: t.inFlight) := by
    show (s.avail ++ s.dev.busy).Perm (y :: (s.avail ++ s.dev.busy.erase y))
    exact ((perm_cons_erase hy).append_left s.avail).trans perm_middle
  have hpending : t.pending.Perm s.pending := by
    show (t.inFlight ++ t.used).Perm (s.inFlight ++ s.used)
    rw [hused]
    refine ((perm_append_singleton y s.used).append_left t.inFlight).trans ?_
    exact perm_middle.trans (hflight.symm.append_right s.used)
  have hynot : y ∉ t.inFlight := (nodup_cons.mp (hflight.nodup_iff.mp hflightnd)).1
  obtain ⟨p, c, j1, j2, hp, hc⟩ := h.owned y hypend
  have hform := h.chains p c y j1 j2 hp hc
  have hstatus : statusOf s.drv y = update s.drv.infoStatus y 0 := by
    simp [statusOf, hform.first.2, hform.second.2, hform.third.2]
  refine ⟨h.fine, ?_, ?_, ?_, ?_, ?_, hpending.nodup_iff.mpr h.nodup, ?_, ?_, ?_, ?_, ?_⟩
  · intro q c' i0 i1 i2 hq hc'
    obtain ⟨c, hcq, hb, hch, -⟩ := markDone_back hq
    have hf := h.chains q c i0 i1 i2 hcq (hch.trans hc')
    rw [← hb]
    exact hf.congr (fun _ _ => rfl) (fun _ _ => rfl) rfl
  · intro q r cq cr x z hqr hq hr hx hz
    obtain ⟨c1, h1, -, hch1, -⟩ := markDone_back hq
    obtain ⟨c2, h2, -, hch2, -⟩ := markDone_back hr
    exact h.disjoint q r c1 c2 x z hqr h1 h2 (hch1.trans hx) (hch2.trans hz)
  · intro i hi hf
    obtain ⟨q, c, x, hq, hx, hix⟩ := h.covered i hi hf
    obtain ⟨c', hq', -, hch⟩ := markDone_forth y hq
    exact ⟨q, c', x, hq', hch.trans hx, hix⟩
  · intro q r cq cr hq hr he
    obtain ⟨c1, h1, hb1, -⟩ := markDone_back hq
    obtain ⟨c2, h2, hb2, -⟩ := markDone_back hr
    exact h.buffers q r c1 c2 h1 h2 (by rw [hb1, hb2, he])
  · intro q c' hq hc'
    obtain ⟨c, hcq, -, hch, hsame, -⟩ := markDone_back hq
    rw [hsame (by simp [hch, hc'])]
    exact h.fresh q c hcq (hch.trans hc')
  · intro z hz
    obtain ⟨q, c, k1, k2, hq, hcq⟩ := h.owned z (hpending.mem_iff.mp hz)
    obtain ⟨c', hq', -, hch⟩ := markDone_forth y hq
    exact ⟨q, c', k1, k2, hq', hch.trans hcq⟩
  · intro q c' i0 i1 i2 hq hc'
    obtain ⟨c, hcq, hb, hch, -⟩ := markDone_back hq
    rw [hpending.mem_iff, ← hb]
    exact h.waiting q c i0 i1 i2 hcq (hch.trans hc')
  · intro q c' i0 i1 i2 hq hc'
    obtain ⟨c, hcq, -, hch, hsame, hdone⟩ := markDone_back hq
    have hw := h.working q c i0 i1 i2 hcq (hch.trans hc')
    by_cases hi0 : i0 = y
    · subst hi0
      rw [hdone (by simp [hch, hc'])]
      simp [hynot]
    · rw [hsame (by simp [hch, hc', hi0]), hw, hflight.mem_iff, mem_cons]
      simp [hi0]
  · intro z hz
    show statusOf s.drv y z = 0
    rw [hused] at hz
    rw [hstatus]
    by_cases hzy : z = y
    · rw [hzy, update_self]
    · rw [update_of_ne hzy]
      refine h.status z ?_
      simpa [hzy] using hz
  · show s.completed ++ [y] = s.handled.map (·.1) ++ t.used
    rw [h.history, hused, append_assoc]

end Agree

theorem agree_step {e : Event} (h : Agree s) (hs : Step s e t) : Agree t := by
  cases hs with
  | call hp hb => exact h.call hp hb
  | @submit p c hfree hp hc =>
    obtain ⟨r, d, hspec, hrun⟩ := run_spec (s := s) submit_spec fun idx d =>
      { s with drv := d, call := update s.call p (some { c with chain := idx }) }
    rw [hrun]
    rcases r with _ | ⟨i0, i1, i2⟩
    · have hsame : update s.call p (some { c with chain := none }) = s.call := by
        rw [← hc, ← hp, update_eq_self]
      rw [hsame]
      exact h.idle hspec
    · obtain ⟨hlt, hne, hfr, rfl⟩ := hspec
      exact h.submit hp hc hlt hne hfr
  | @collect p c i0 i1 i2 hfree hp hc =>
    obtain ⟨back, d, hspec, hrun⟩ := run_spec (s := s) (collect_spec (h.chains p c i0 i1 i2 hp hc)) fun back d =>
      { s with drv := d, call := if back then update s.call p none else s.call }
    rw [hrun]
    cases back with
    | false =>
      obtain ⟨-, rfl⟩ := hspec
      exact h
    | true =>
      obtain ⟨hb, rfl⟩ := hspec
      exact h.collect hp hc hb
  | intr _ => exact { h with }
  | handle hintr hmore =>
    have hmem := Agree.used_mem hmore
    obtain ⟨p, c, i1, i2, hp, hc⟩ := h.owned _ (mem_append_right _ hmem)
    obtain ⟨x, d, ⟨rfl, rfl⟩, hrun⟩ := run_spec (s := s)
      (handleUsed_spec rfl (h.status _ hmem) (h.chains p c _ i1 i2 hp hc).info) fun x d =>
        { s with drv := d, handled := s.handled ++ [x] }
    rw [hrun]
    exact h.handle hmore rfl hp hc
  | leave _ _ => exact { h with }
  | take hmore => exact h.take hmore
  | complete hbusy => exact h.complete hbusy

theorem agree_path {evs : List Event} (h : Path Step boot evs s) : Agree s := h.invariant agree_boot agree_step

theorem step_keeps_chain {e : Event} {p : Nat} {c : Call} (h : Agree s) (hs : Step s e t) (hp : s.call p = some c)
    (hc : c.chain = some (i0, i1, i2)) (hx : i0 ∈ s.pending) (hi : i ∈ members (i0, i1, i2)) :
    t.drv.free i = false ∧ t.drv.desc i = s.drv.desc i := by
  have hbusy : s.drv.free i = false := (h.chains p c i0 i1 i2 hp hc).member_busy hi
  cases hs with
  | @submit q c' hfree hq hc' =>
    obtain ⟨r, d, hspec, hrun⟩ := run_spec (s := s) submit_spec fun idx d =>
      { s with drv := d, call := update s.call q (some { c' with chain := idx }) }
    rw [hrun]
    rcases r with _ | ⟨j0, j1, j2⟩
    · obtain ⟨desc, hdesc, rfl⟩ := hspec
      exact ⟨hbusy, hdesc i hbusy⟩
    · obtain ⟨-, -, ⟨hj0, hj1, hj2⟩, rfl⟩ := hspec
      have h0 : i ≠ j0 := fun he => by rw [he, hj0] at hbusy; cases hbusy
      have h1 : i ≠ j1 := fun he => by rw [he, hj1] at hbusy; cases hbusy
      have h2 : i ≠ j2 := fun he => by rw [he, hj2] at hbusy; cases hbusy
      simp [Driver.publish, h0, h1, h2, hbusy]
  | @collect q c' j0 j1 j2 hfree hq hc' =>
    obtain ⟨back, d, hspec, hrun⟩ := run_spec (s := s) (collect_spec (h.chains q c' j0 j1 j2 hq hc')) fun back d =>
      { s with drv := d, call := if back then update s.call q none else s.call }
    rw [hrun]
    cases back with
    | false =>
      obtain ⟨-, rfl⟩ := hspec
      exact ⟨hbusy, rfl⟩
    | true =>
      obtain ⟨hb, rfl⟩ := hspec
      have hqp : p ≠ q := by
        rintro rfl
        obtain rfl := some.inj (hp.symm.trans hq)
        have := (h.waiting p c i0 i1 i2 hp hc).mpr hx
        rw [hb] at this
        cases this
      have hnm := h.disjoint p q c c' _ _ hqp hp hq hc hc' i hi
      simp only [members, mem_cons, not_mem_nil, or_false, not_or] at hnm
      simp [Driver.freed, hnm.1, hnm.2.1, hnm.2.2, hbusy]
  | handle hintr hmore =>
    have hmem := Agree.used_mem hmore
    obtain ⟨q, c', j1, j2, hq, hc'⟩ := h.owned _ (mem_append_right _ hmem)
    obtain ⟨x, d, ⟨rfl, rfl⟩, hrun⟩ := run_spec (s := s)
      (handleUsed_spec rfl (h.status _ hmem) (h.chains q c' _ j1 j2 hq hc').info) fun x d =>
        { s with drv := d, handled := s.handled ++ [x] }
    rw [hrun]
    exact ⟨hbusy, rfl⟩
  | _ => exact ⟨hbusy, rfl⟩

theorem step_handle {t : State} (h : Agree s) (hmore : s.drv.usedIdx ≠ s.dev.usedIdx) (hs : Step s .handle t) :
    ∃ p c x i1 i2, s.call p = some c ∧ c.chain = some (x, i1, i2) ∧ s.completed[s.handled.length]? = some x ∧
      s.drv.bdisk c.b = true ∧ t.drv.bdisk = update s.drv.bdisk c.b false ∧ t.handled = s.handled ++ [(x, c.b)] := by
  cases hs with
  | handle hintr _ =>
    have hmem := Agree.used_mem hmore
    have hpend := mem_append_right s.inFlight hmem
    obtain ⟨p, c, i1, i2, hp, hc⟩ := h.owned _ hpend
    obtain ⟨x, d, ⟨rfl, rfl⟩, hrun⟩ := run_spec (s := s)
      (handleUsed_spec rfl (h.status _ hmem) (h.chains p c _ i1 i2 hp hc).info) fun x d =>
        { s with drv := d, handled := s.handled ++ [x] }
    rw [hrun]
    refine ⟨p, c, _, i1, i2, hp, hc, ?_, (h.waiting p c _ i1 i2 hp hc).mpr hpend, rfl, rfl⟩
    rw [h.history, Agree.used_eq hmore, getElem?_append_right (by simp)]
    simp
  | leave _ hnone => exact absurd hnone hmore

theorem step_collect {p : Nat} {c : Call} (h : Agree s) (hs : Step s (.collect p) t) (hp : s.call p = some c)
    (hback : t.call p = none) : c.done = true := by
  cases hs with
  | @collect _ c' i0 i1 i2 hfree hp' hc =>
    obtain rfl := some.inj (hp.symm.trans hp')
    obtain ⟨back, d, hspec, hrun⟩ := run_spec (s := s) (collect_spec (h.chains p c i0 i1 i2 hp hc)) fun back d =>
      { s with drv := d, call := if back then update s.call p none else s.call }
    rw [hrun] at hback
    cases back with
    | false =>
      have hback : s.call p = none := hback
      rw [hp] at hback
      cases hback
    | true =>
      obtain ⟨hb, -⟩ := hspec
      by_contra hdone
      have hflight := (h.working p c i0 i1 i2 hp hc).mp (by simpa using hdone)
      have := (h.waiting p c i0 i1 i2 hp hc).mpr (mem_append_left _ hflight)
      rw [hb] at this
      cases this

/-- Along any run of calls, interrupts and device: every descriptor is free or in one chain of three; the
descriptors of a chain that the device may still use stay as they are; the entries of the used ring are
handled in order, each for the buffer of its request; a call returns after its request is completed; and there
is no panic. -/
theorem driver_device_agree {evs : List Event} (h : Path Step boot evs s) :
    (∀ i < num,
      s.drv.free i = true ∧ (∀ p c x, s.call p = some c → c.chain = some x → i ∉ members x) ∨
      s.drv.free i = false ∧ ∃ p c x, s.call p = some c ∧ c.chain = some x ∧ i ∈ members x ∧ (members x).Nodup ∧
        ∀ q c' y, s.call q = some c' → c'.chain = some y → i ∈ members y → q = p) ∧
    (∀ x ∈ s.inFlight, ∃ p c i1 i2, s.call p = some c ∧ c.chain = some (x, i1, i2) ∧
      ∀ e t, Step s e t → ∀ i ∈ members (x, i1, i2), t.drv.free i = false ∧ t.drv.desc i = s.drv.desc i) ∧
    s.handled.map (·.1) <+: s.completed ∧
    (∀ t, Step s .handle t → s.drv.usedIdx ≠ s.dev.usedIdx → ∃ p c x i1 i2, s.call p = some c ∧
      c.chain = some (x, i1, i2) ∧ s.completed[s.handled.length]? = some x ∧ s.drv.bdisk c.b = true ∧
      t.drv.bdisk = update s.drv.bdisk c.b false ∧ t.handled = s.handled ++ [(x, c.b)]) ∧
    (∀ p c t, Step s (.collect p) t → s.call p = some c → t.call p = none → c.done = true) ∧
    s.panicked = none := by
  have hagree := agree_path h
  refine ⟨fun i hi => ?_, fun x hx => ?_, ⟨s.used, hagree.history.symm⟩, fun t ht hmore => step_handle hagree hmore ht,
    fun p c t ht hp hback => step_collect hagree ht hp hback, hagree.fine⟩
  · cases hfree : s.drv.free i with
    | true =>
      refine .inl ⟨rfl, ?_⟩
      rintro p c ⟨i0, i1, i2⟩ hp hc hm
      rw [(hagree.chains p c i0 i1 i2 hp hc).member_busy hm] at hfree
      cases hfree
    | false =>
      obtain ⟨p, c, ⟨i0, i1, i2⟩, hp, hc, hm⟩ := hagree.covered i hi hfree
      have hne := (hagree.chains p c i0 i1 i2 hp hc).ne
      refine .inr ⟨rfl, p, c, _, hp, hc, hm, by simp [members, hne], fun q c' y hq hy hmy => ?_⟩
      by_contra hqp
      exact hagree.disjoint p q c c' _ y (Ne.symm hqp) hp hq hc hy i hm hmy
  · have hpend : x ∈ s.pending := mem_append_left _ hx
    obtain ⟨p, c, i1, i2, hp, hc⟩ := hagree.owned x hpend
    exact ⟨p, c, i1, i2, hp, hc, fun e t ht i hi => step_keeps_chain hagree ht hp hc hpend hi⟩

/-- Two requests; the device completes the second one first, and one interrupt covers both. -/
theorem twoRequests_agree :
    ∃ evs s, Path Step boot evs s ∧ s.handled = [(3, 11), (0, 10)] ∧ s.handled.map (·.1) <+: s.completed ∧
      s.panicked = none := by
  have h1 := Path.nil.snoc (@Step.call boot 0 10 7 false rfl fun q c hq => by cases hq)
  have h2 := h1.snoc (@Step.call _ 1 11 9 true rfl fun q c hq => by
    by_cases hq0 : q = 0
    · subst hq0
      cases hq
      decide
    · simp [boot, hq0] at hq)
  have h3 := h2.snoc (@Step.submit _ 0 ⟨10, 7, false, none, false⟩ rfl rfl rfl)
  have h4 := h3.snoc (@Step.submit _ 1 ⟨11, 9, true, none, false⟩ rfl rfl rfl)
  have h5 := h4.snoc (.take (by decide))
  have h6 := h5.snoc (.take (by decide))
  have h7 := h6.snoc (.complete (h := 3) (by decide))
  have h8 := h7.snoc (.complete (h := 0) (by decide))
  have h9 := h8.snoc (.intr rfl)
  have h10 := h9.snoc (.handle rfl (by decide))
  have h11 := h10.snoc (.handle rfl (by decide))
  have hagree := driver_device_agree h11
  exact ⟨_, _, h11, by decide, hagree.2.2.1, hagree.2.2.2.2.2⟩

end Xv6.Virtio
