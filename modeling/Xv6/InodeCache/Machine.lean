import Xv6.InodeCache.Calls
import Xv6.InodeLocks.Machine
import Xv6.Lib.RefCount

namespace Xv6.InodeCache

open List Function
open InodeLocks (Holder file_ne_proc proc_ne proc_ne_file)

abbrev ninode : Nat := 50

structure State (P F : Type) where
  /-- the dinodes of each block, as seen through the buffer cache -/
  block : Nat → Nat → Dinode
  inodestart : Nat
  -- the entries of the table
  inum : Slot → Nat
  ref : Slot → Nat
  valid : Slot → Bool
  node : Slot → Dinode
  owner : Slot → Option P
  code : P → Code
  desc : List (P × F)
  ip : F → Slot
  held : List (Holder P F × Slot)

def Dinode.new (type : Int) : Dinode := { Dinode.zero with type := type }

section Disk

variable {P F : Type} {s t : State P F} {i j : Nat} {v : Dinode}

def State.iblock (s : State P F) (i : Nat) : Nat := i / ipb + s.inodestart

def State.dinode (s : State P F) (i : Nat) : Dinode := s.block (s.iblock i) (i % ipb)

def State.setDinode (s : State P F) (i : Nat) (v : Dinode) : State P F :=
  { s with block := update s.block (s.iblock i) (update (s.block (s.iblock i)) (i % ipb) v) }

theorem dinode_set_self : (s.setDinode i v).dinode i = v := by
  simp only [State.dinode, State.setDinode, State.iblock, update_self]

theorem dinode_set_of_ne (h : j ≠ i) : (s.setDinode i v).dinode j = s.dinode j := by
  simp only [State.dinode, State.setDinode, State.iblock]
  by_cases hb : j / ipb + s.inodestart = i / ipb + s.inodestart
  · have hplace : j % ipb ≠ i % ipb := by
      intro hmod
      have hdiv : j / ipb = i / ipb := Nat.add_right_cancel hb
      apply h
      rw [← Nat.div_add_mod j ipb, hdiv, hmod, Nat.div_add_mod]
    rw [hb, update_self, update_of_ne hplace]
  · rw [update_of_ne hb]

def Fresh (s : State P F) (ip : Slot) : Prop := s.valid ip = true → s.node ip = s.dinode (s.inum ip) ∧
    (s.node ip).type ≠ 0

def Held.Holds (s : State P F) (ip : Slot) : Held → Prop
  | .unread => Fresh s ip
  | .has v dirty => s.valid ip = true ∧ s.node ip = v ∧ (s.dinode (s.inum ip)).type ≠ 0 ∧
      (dirty = false → s.dinode (s.inum ip) = v)
  | .freed => True

structure Same (s t : State P F) (ip : Slot) : Prop where
  valid : t.valid ip = s.valid ip
  node : t.node ip = s.node ip
  inum : t.inum ip = s.inum ip
  dinode : t.dinode (t.inum ip) = s.dinode (s.inum ip)

theorem Fresh.keep {ip : Slot} (h : Fresh s ip) (hs : Same s t ip) : Fresh t ip := by
  unfold Fresh
  rw [hs.valid, hs.node, hs.dinode]
  exact h

theorem Held.Holds.keep {ip : Slot} {x : Held} (h : x.Holds s ip) (hs : Same s t ip) : x.Holds t ip := by
  cases x with
  | unread => exact Fresh.keep h hs
  | freed => trivial
  | has v d =>
    unfold Held.Holds
    rw [hs.valid, hs.node, hs.dinode]
    exact h

end Disk

section Machine

variable {P F : Type} [DecidableEq P] [DecidableEq F]

def State.goto (s : State P F) (p : P) (k : Code) : State P F := { s with code := update s.code p k }

def State.find (s : State P F) (i : Nat) : Option Slot := (range ninode).find? fun ip => 0 < s.ref ip ∧ s.inum ip = i

def State.empty (s : State P F) : Option Slot := (range ninode).find? fun ip => s.ref ip = 0

def State.take (s : State P F) (p : P) (ip : Slot) : State P F :=
  { s with ref := update s.ref ip (s.ref ip + 1), held := (.proc p, ip) :: s.held }

def State.recycle (s : State P F) (ip : Slot) (i : Nat) : State P F :=
  { s with inum := update s.inum ip i, valid := update s.valid ip false }

/-- The next step of process `p`; `none` if it has to wait. -/
def State.act (s : State P F) (p : P) (n : Nat) (inum : Option Nat) (f : F) : Code → Option (State P F)
  | .done _ => none
  | .exited => none
  | .panic => none
  | .iget i k =>
    match s.find i with
    | some ip => some ((s.take p ip).goto p (k ip))
    | none =>
      match s.empty with
      | none => some (s.goto p .panic)
      | some ip => some (((s.recycle ip i).take p ip).goto p (k ip))
  | .idup ip k => some ((s.take p ip).goto p k)
  | .acquire ip k => if s.owner ip = none then some (State.goto { s with owner := update s.owner ip (some p) } p k)
      else none
  | .load ip k =>
    if s.valid ip then some (s.goto p k)
    else
      some (State.goto { s with node := update s.node ip (s.dinode (s.inum ip)), valid := update s.valid ip true } p
        (if (s.dinode (s.inum ip)).type = 0 then .panic else k))
  | .read ip k => some (s.goto p (k (s.node ip)))
  | .set ip g k => some (State.goto { s with node := update s.node ip (g (s.node ip)) } p k)
  | .iupdate ip k => some ((s.setDinode (s.inum ip) (s.node ip)).goto p k)
  | .invalidate ip k => some (State.goto { s with valid := update s.valid ip false } p k)
  | .release ip k => some (State.goto { s with owner := update s.owner ip none } p k)
  | .last ip k =>
    if s.ref ip = 1 ∧ s.valid ip ∧ (s.node ip).nlink = 0 then
      if s.owner ip = none then some (State.goto { s with owner := update s.owner ip (some p) } p (k true)) else none
    else some (s.goto p (k false))
  | .deref ip k => some
    (State.goto { s with ref := update s.ref ip (s.ref ip - 1), held := s.held.erase (.proc p, ip) } p k)
  | .ialloc type k =>
    match inum with
    | none => some (s.goto p (k none))
    | some c => if (s.dinode c).type = 0 then some ((s.setDinode c (Dinode.new type)).goto p (k (some c))) else none
  | .choose k => some (s.goto p (k n))
  | .install ip k =>
    if ∀ x ∈ s.desc, x.2 ≠ f then
      some (State.goto { s with
        desc := (p, f) :: s.desc, ip := update s.ip f ip,
        held := (.file f, ip) :: s.held.erase (.proc p, ip) } p k)
    else none

structure Real (p : P) (L : Local) (s : State P F) : Prop where
  ok : Ok L (s.code p)
  tokens : ∀ ip, s.held.count (.proc p, ip) = L.refs.count ip
  locks : ∀ ip, s.owner ip = some p ↔ L.locks ip ≠ none
  backed : ∀ ip, L.locks ip ≠ none → ip ∈ L.refs ∨ L.pin = some ip
  pin : ∀ ip, L.pin = some ip → ∃ f, (p, f) ∈ s.desc ∧ s.ip f = ip
  status : ∀ ip h, L.locks ip = some h → h.Holds s ip

structure Inv (s : State P F) : Prop where
  locals : ∀ p, ∃ L, Real p L s
  refs : ∀ ip, s.ref ip = s.held.countP fun x => x.2 = ip
  files : ∀ p f, (p, f) ∈ s.desc → (.file f, s.ip f) ∈ s.held
  small : ∀ ip, 0 < s.ref ip → ip < ninode
  once : ∀ a b, 0 < s.ref a → 0 < s.ref b → s.inum a = s.inum b → a = b
  free : ∀ ip, s.owner ip = none → 0 < s.ref ip → Fresh s ip
  disk : ∀ i, (s.dinode i).type ≠ 0 → Good (s.dinode i)

variable {s t : State P F} {p q : P} {L M : Local} {ip : Slot} {k : Code} {i : Nat}

theorem Inv.counts (hs : Inv s) : RefCount.Counts s.ref s.held := hs.refs

theorem Real.holds (h : Real p L s) : RefCount.Holds s.held (.proc p) L.refs := h.tokens

theorem Real.mem_held (h : Real p L s) (hi : ip ∈ L.refs) : (.proc p, ip) ∈ s.held := h.holds.mem hi

theorem Real.pos (hs : Inv s) (h : Real p L s) (hi : ip ∈ L.refs ∨ L.pin = some ip) : 0 < s.ref ip := by
  rcases hi with href | hpin
  · exact hs.counts.pos (h.mem_held href)
  · obtain ⟨f, hdesc, rfl⟩ := h.pin ip hpin
    exact hs.counts.pos (hs.files p f hdesc)

theorem Real.counted (hs : Inv s) (h : Real p L s) (hl : L.locks ip ≠ none) : 0 < s.ref ip := h.pos hs (h.backed ip hl)

structure Frame (p : P) (s t : State P F) : Prop where
  code : ∀ q ≠ p, t.code q = s.code q
  tokens : ∀ q ≠ p, ∀ ip, t.held.count (.proc q, ip) = s.held.count (.proc q, ip)
  owner : ∀ q ≠ p, ∀ ip, t.owner ip = some q ↔ s.owner ip = some q
  desc : ∀ q ≠ p, ∀ f, (q, f) ∈ s.desc → (q, f) ∈ t.desc ∧ t.ip f = s.ip f
  status : ∀ q ≠ p, ∀ L, Real q L s → ∀ ip h, L.locks ip = some h → h.Holds t ip

theorem Frame.real (h : Frame p s t) (hqp : q ≠ p) (hq : Real q L s) : Real q L t where
  ok := h.code q hqp ▸ hq.ok
  tokens ip := (h.tokens q hqp ip).trans (hq.tokens ip)
  locks ip := (h.owner q hqp ip).trans (hq.locks ip)
  backed := hq.backed
  pin ip hi := by
    obtain ⟨f, hf, hfi⟩ := hq.pin ip hi
    exact ⟨f, (h.desc q hqp f hf).1, (h.desc q hqp f hf).2.trans hfi⟩
  status := h.status q hqp L hq

theorem Frame.locals (hs : Inv s) (hf : Frame p s t) (hp : Real p M t) (q : P) : ∃ L, Real q L t := by
  by_cases hqp : q = p
  · exact hqp ▸ ⟨M, hp⟩
  · obtain ⟨L, hL⟩ := hs.locals q
    exact ⟨L, hf.real hqp hL⟩

omit [DecidableEq F] in
theorem goto_ok (h : Ok M k) : Ok M ((s.goto p k).code p) := by
  show Ok M (update s.code p k p)
  rw [update_self]
  exact h

omit [DecidableEq F] in
theorem goto_code (hqp : q ≠ p) : (s.goto p k).code q = s.code q := update_of_ne hqp _ _

theorem Real.apart {Lq : Local} (hL : Real p L s) (hq : Real q Lq s) (hqp : q ≠ p) (hl : L.locks ip ≠ none) :
    Lq.locks ip = none := by
  by_contra hlq
  have hp := (hL.locks ip).mpr hl
  rw [(hq.locks ip).mpr hlq] at hp
  exact hqp (Option.some.inj hp)

theorem Inv.goto (hs : Inv s) (hL : Real p L s) (hk : Ok L k) : Inv (s.goto p k) := by
  have hf : Frame p s (s.goto p k) := ⟨fun q hq => goto_code hq, fun _ _ _ => rfl, fun _ _ _ => Iff.rfl,
    fun _ _ _ h => ⟨h, rfl⟩,
    fun q _ Lq hq ip h hl => (hq.status ip h hl).keep ⟨rfl, rfl, rfl, rfl⟩⟩
  refine ⟨hf.locals hs (M := L) ⟨goto_ok hk, hL.tokens, hL.locks, hL.backed, hL.pin, fun ip h hl => ?_⟩, hs.refs,
    hs.files, hs.small, hs.once, hs.free, hs.disk⟩
  exact (hL.status ip h hl).keep ⟨rfl, rfl, rfl, rfl⟩

theorem Inv.owner {o : Option P} {x : Option Held} (hs : Inv s) (hL : Real p L s)
    (hk : Ok { L with locks := update L.locks ip x } k)
    (ho : o = some p ↔ x ≠ none) (hothers : ∀ q ≠ p, o = some q ↔ s.owner ip = some q)
      (hback : x ≠ none → ip ∈ L.refs ∨ L.pin = some ip)
    (hx : ∀ h, x = some h → h.Holds s ip) (hfree : o = none → 0 < s.ref ip → Fresh s ip) :
    Inv (State.goto { s with owner := update s.owner ip o } p k) := by
  have hself : update s.owner ip o ip = o := update_self _ _ _
  have hne : ∀ j ≠ ip, update s.owner ip o j = s.owner j := fun j hj => update_of_ne hj _ _
  have hf : Frame p s (State.goto { s with owner := update s.owner ip o } p k) := by
    refine ⟨fun q hq => goto_code hq, fun _ _ _ => rfl, fun q hq j => ?_, fun _ _ _ h => ⟨h, rfl⟩,
      fun q _ Lq hq j h hl => (hq.status j h hl).keep ⟨rfl, rfl, rfl, rfl⟩⟩
    show update s.owner ip o j = some q ↔ _
    by_cases hj : j = ip
    · rw [hj, hself]
      exact hothers q hq
    · rw [hne j hj]
  refine ⟨hf.locals hs (M := { L with locks := update L.locks ip x }) ⟨goto_ok hk, hL.tokens, fun j => ?_,
    fun j hj => ?_, hL.pin, fun j h hl => ?_⟩,
    hs.refs, hs.files, hs.small, hs.once, fun j hj hpos => ?_, hs.disk⟩
  · show update s.owner ip o j = some p ↔ update L.locks ip x j ≠ none
    by_cases hj : j = ip
    · rw [hj, hself, update_self]
      exact ho
    · rw [hne j hj, update_of_ne hj]
      exact hL.locks j
  · have hj : update L.locks ip x j ≠ none := hj
    by_cases hji : j = ip
    · rw [hji, update_self] at hj
      exact hji ▸ hback hj
    · rw [update_of_ne hji] at hj
      exact hL.backed j hj
  · have hl : update L.locks ip x j = some h := hl
    refine Held.Holds.keep (s := s) ?_ ⟨rfl, rfl, rfl, rfl⟩
    by_cases hji : j = ip
    · rw [hji, update_self] at hl
      exact hji ▸ hx h hl
    · rw [update_of_ne hji] at hl
      exact hL.status j h hl
  · have hj : update s.owner ip o j = none := hj
    refine Fresh.keep (s := s) ?_ ⟨rfl, rfl, rfl, rfl⟩
    by_cases hji : j = ip
    · rw [hji, hself] at hj
      rw [hji] at hpos ⊢
      exact hfree hj hpos
    · rw [hne j hji] at hj
      exact hs.free j hj hpos

theorem Inv.known {x : Held} (hs : Inv s) (hL : Real p L s) (hl : L.locks ip ≠ none) (hk : Ok (L.lock ip x) k)
    (hcode : t.code = update s.code p k) (hheld : t.held = s.held) (href : t.ref = s.ref) (hinum : t.inum = s.inum)
    (howner : t.owner = s.owner)
    (hdesc : t.desc = s.desc) (hip : t.ip = s.ip) (hvalid : ∀ j ≠ ip, t.valid j = s.valid j)
    (hnode : ∀ j ≠ ip, t.node j = s.node j)
    (hdinode : ∀ i ≠ s.inum ip, t.dinode i = s.dinode i) (hx : x.Holds t ip) (hdisk : ∀ i, (t.dinode i).type ≠ 0 →
    Good (t.dinode i)) : Inv t := by
  have hpos := hL.counted hs hl
  have hsame : ∀ j ≠ ip, 0 < s.ref j → Same s t j := fun j hj hjpos => by
    refine ⟨hvalid j hj, hnode j hj, by rw [hinum], ?_⟩
    rw [hinum]
    exact hdinode _ fun heq => hj (hs.once j ip hjpos hpos heq)
  have hf : Frame p s t := by
    refine ⟨fun q hq => by rw [hcode, update_of_ne hq], fun _ _ _ => by rw [hheld], fun _ _ _ => by rw [howner],
      fun _ _ f h => ⟨hdesc ▸ h, by rw [hip]⟩, fun q hqp Lq hq j h hlq => ?_⟩
    have hj : j ≠ ip := by
      rintro rfl
      rw [hL.apart hq hqp hl] at hlq
      cases hlq
    exact (hq.status j h hlq).keep (hsame j hj (hq.counted hs (by rw [hlq]; exact nofun)))
  refine ⟨hf.locals hs (M := L.lock ip x) ⟨?_,
    fun j => by rw [hheld]; exact hL.tokens j, fun j => ?_, fun j hj => ?_, fun j hj => ?_, fun j h hlj => ?_⟩,
    fun j => by rw [href, hheld]; exact hs.refs j, fun q f h => ?_, fun j => by rw [href]; exact hs.small j,
    fun a b => by rw [href, hinum]; exact hs.once a b,
    fun j hj hjpos => ?_, hdisk⟩
  · rw [hcode, update_self]
    exact hk
  · rw [howner, hL.locks j]
    by_cases hji : j = ip
    · subst hji
      rw [lock_self]
      exact ⟨fun _ => nofun, fun _ => hl⟩
    · rw [lock_of_ne hji]
  · by_cases hji : j = ip
    · exact hji ▸ hL.backed ip hl
    · rw [lock_of_ne hji] at hj
      exact hL.backed j hj
  · obtain ⟨f, hf, hfj⟩ := hL.pin j hj
    exact ⟨f, hdesc ▸ hf, by rw [hip]; exact hfj⟩
  · by_cases hji : j = ip
    · subst hji
      rw [lock_self] at hlj
      exact Option.some.inj hlj ▸ hx
    · rw [lock_of_ne hji] at hlj
      exact (hL.status j h hlj).keep (hsame j hji (hL.counted hs (by rw [hlj]; exact nofun)))
  · rw [hheld, hip]
    exact hs.files q f (hdesc ▸ h)
  · rw [howner] at hj
    rw [href] at hjpos
    have hji : j ≠ ip := by
      rintro rfl
      rw [(hL.locks j).mpr hl] at hj
      cases hj
    exact (hs.free j hj hjpos).keep (hsame j hji hjpos)

omit [DecidableEq P] [DecidableEq F] in
theorem find_some (h : s.find i = some ip) : ip < ninode ∧ 0 < s.ref ip ∧ s.inum ip = i := by
  have hprop := find?_some h
  exact ⟨mem_range.mp (mem_of_find?_eq_some h), of_decide_eq_true hprop⟩

omit [DecidableEq P] [DecidableEq F] in
theorem empty_some (h : s.empty = some ip) : ip < ninode ∧ s.ref ip = 0 := by
  have hprop := find?_some h
  exact ⟨mem_range.mp (mem_of_find?_eq_some h), of_decide_eq_true hprop⟩

section
variable (hs : Inv s)
include hs

theorem Inv.find_none (h : s.find i = none) (j : Slot) (hpos : 0 < s.ref j) : s.inum j ≠ i := by
  intro heq
  have hmiss := find?_eq_none.mp h j (mem_range.mpr (hs.small j hpos))
  exact hmiss (decide_eq_true ⟨hpos, heq⟩)

variable (hL : Real p L s)
include hL

theorem Inv.take (hpos : 0 < s.ref ip) (hk : Ok (L.get ip) k) : Inv ((s.take p ip).goto p k) := by
  have hle : ∀ j, 0 < (s.take p ip).ref j → 0 < s.ref j := fun j hj => by
    have hj : 0 < update s.ref ip (s.ref ip + 1) j := hj
    by_cases hji : j = ip
    · exact hji ▸ hpos
    · rwa [update_of_ne hji] at hj
  have hf : Frame p s ((s.take p ip).goto p k) :=
    ⟨fun q hq => goto_code hq, fun q hq => RefCount.count_take (proc_ne hq) _ ip, fun _ _ _ => Iff.rfl, fun _ _ _ h =>
      ⟨h, rfl⟩,
      fun q _ Lq hq j h hl => (hq.status j h hl).keep ⟨rfl, rfl, rfl, rfl⟩⟩
  refine ⟨hf.locals hs (M := L.get ip) ⟨goto_ok hk, hL.holds.take ip, hL.locks, fun j hj => ?_, hL.pin,
    fun j h hl => ?_⟩, hs.counts.take _ ip,
    fun q f h => mem_cons_of_mem _ (hs.files q f h), fun j hj => hs.small j (hle j hj), fun a b ha hb => hs.once a b
      (hle a ha) (hle b hb),
    fun j hj hjpos => (hs.free j hj (hle j hjpos)).keep ⟨rfl, rfl, rfl, rfl⟩, hs.disk⟩
  · exact (hL.backed j hj).imp_left Multiset.mem_cons_of_mem
  · exact (hL.status j h hl).keep ⟨rfl, rfl, rfl, rfl⟩

theorem Inv.recycle (hip : ip < ninode) (hzero : s.ref ip = 0) (hnew : ∀ j, 0 < s.ref j → s.inum j ≠ i)
    (hk : Ok (L.get ip) k) : Inv (((s.recycle ip i).take p ip).goto p k) := by
  have hother : ∀ j, 0 < s.ref j → j ≠ ip := by
    rintro j hj rfl
    omega
  have hsame : ∀ j ≠ ip, Same s (((s.recycle ip i).take p ip).goto p k) j := fun j hj => by
    have hinum : update s.inum ip i j = s.inum j := update_of_ne hj _ _
    exact ⟨update_of_ne hj _ _, rfl, hinum, congrArg s.dinode hinum⟩
  have href : ∀ j ≠ ip, (((s.recycle ip i).take p ip).goto p k).ref j = s.ref j := fun j hj => update_of_ne hj _ _
  have hf : Frame p s (((s.recycle ip i).take p ip).goto p k) := by
    refine ⟨fun q hq => goto_code hq, fun q hq => RefCount.count_take (proc_ne hq) _ ip, fun _ _ _ => Iff.rfl,
      fun _ _ _ h => ⟨h, rfl⟩,
      fun q _ Lq hq j h hl => ?_⟩
    exact (hq.status j h hl).keep (hsame j (hother j (hq.counted hs (by rw [hl]; exact nofun))))
  refine ⟨hf.locals hs (M := L.get ip) ⟨goto_ok hk, hL.holds.take ip, hL.locks, fun j hj => ?_, hL.pin,
    fun j h hl => ?_⟩, hs.counts.take _ ip,
    fun q f h => mem_cons_of_mem _ (hs.files q f h), fun j hj => ?_, fun a b ha hb heq => ?_, fun j hj hjpos => ?_,
      hs.disk⟩
  · exact (hL.backed j hj).imp_left Multiset.mem_cons_of_mem
  · exact (hL.status j h hl).keep
      (hsame j (hother j (hL.counted hs (by rw [show L.locks j = some h from hl]; exact nofun))))
  · by_cases hji : j = ip
    · exact hji ▸ hip
    · rw [href j hji] at hj
      exact hs.small j hj
  · have heq : update s.inum ip i a = update s.inum ip i b := heq
    by_cases hai : a = ip
    · by_cases hbi : b = ip
      · rw [hai, hbi]
      · rw [href b hbi] at hb
        rw [hai, update_self, update_of_ne hbi] at heq
        exact absurd heq.symm (hnew b hb)
    · rw [href a hai] at ha
      rw [update_of_ne hai] at heq
      by_cases hbi : b = ip
      · rw [hbi, update_self] at heq
        exact absurd heq (hnew a ha)
      · rw [href b hbi] at hb
        rw [update_of_ne hbi] at heq
        exact hs.once a b ha hb heq
  · by_cases hji : j = ip
    · subst hji
      intro hvalid
      have hvalid : update s.valid j false j = true := hvalid
      rw [update_self] at hvalid
      cases hvalid
    · rw [href j hji] at hjpos
      exact (hs.free j hj hjpos).keep (hsame j hji)

theorem Inv.deref (hi : ip ∈ L.refs) (hl : L.locks ip ≠ none → ip ∈ L.refs.erase ip) (hk : Ok (L.put ip) k) :
    Inv (State.goto { s with ref := update s.ref ip (s.ref ip - 1), held := s.held.erase (.proc p, ip) } p k) := by
  have hle : ∀ j, 0 < update s.ref ip (s.ref ip - 1) j → 0 < s.ref j := fun j hj => by
    by_cases hji : j = ip
    · exact hji ▸ hs.counts.pos (hL.mem_held hi)
    · rwa [update_of_ne hji] at hj
  have hf : Frame p s (State.goto { s with ref := update s.ref ip (s.ref ip - 1), held := s.held.erase (.proc p, ip) }
    p k) :=
    ⟨fun q hq => goto_code hq, fun q hq => RefCount.count_drop (proc_ne hq) _ ip, fun _ _ _ => Iff.rfl, fun _ _ _ h =>
      ⟨h, rfl⟩,
      fun q _ Lq hq j h hl => (hq.status j h hl).keep ⟨rfl, rfl, rfl, rfl⟩⟩
  refine ⟨hf.locals hs (M := L.put ip) ⟨goto_ok hk, hL.holds.drop ip, hL.locks, fun j hj => ?_, hL.pin,
    fun j h hlj => ?_⟩,
    hs.counts.drop (hL.mem_held hi), fun q f h => ?_,
    fun j hj => hs.small j (hle j hj), fun a b ha hb => hs.once a b (hle a ha) (hle b hb),
    fun j hj hjpos => (hs.free j hj (hle j hjpos)).keep ⟨rfl, rfl, rfl, rfl⟩, hs.disk⟩
  · by_cases hji : j = ip
    · exact .inl (hji ▸ hl (hji ▸ hj))
    · exact (hL.backed j hj).imp_left (Multiset.mem_erase_of_ne hji).mpr
  · exact (hL.status j h hlj).keep ⟨rfl, rfl, rfl, rfl⟩
  · exact (mem_erase_of_ne file_ne_proc).mpr (hs.files q f h)

theorem Inv.install {f : F} (hi : ip ∈ L.refs) (hpin : L.pin = none) (hk : Ok { L.put ip with pin := some ip } k)
    (hnew : ∀ x ∈ s.desc, x.2 ≠ f) :
    Inv (State.goto { s with
        desc := (p, f) :: s.desc, ip := update s.ip f ip,
        held := (.file f, ip) :: s.held.erase (.proc p, ip) } p k) := by
  have hold : ∀ q g, (q, g) ∈ s.desc → update s.ip f ip g = s.ip g := fun q g hg => update_of_ne (hnew _ hg) _ _
  have hf : Frame p s (State.goto { s with
      desc := (p, f) :: s.desc, ip := update s.ip f ip,
      held := (.file f, ip) :: s.held.erase (.proc p, ip) } p k) :=
    ⟨fun q hq => goto_code hq, fun q hq j => (RefCount.count_take (proc_ne_file q f) _ ip j).trans
      (RefCount.count_drop (proc_ne hq) _ ip j), fun _ _ _ => Iff.rfl,
      fun q _ g h => ⟨mem_cons_of_mem _ h, hold q g h⟩, fun q _ Lq hq j h hl => (hq.status j h hl).keep
        ⟨rfl, rfl, rfl, rfl⟩⟩
  refine ⟨hf.locals hs (M := { L.put ip with pin := some ip }) ⟨goto_ok hk, hL.holds.give (proc_ne_file p f) ip,
    hL.locks, fun j hj => ?_, fun j hj => ?_,
    fun j h hlj => ?_⟩, hs.counts.move (hL.mem_held hi) _, fun q g h => ?_, hs.small, hs.once, fun j hj hjpos =>
      (hs.free j hj hjpos).keep ⟨rfl, rfl, rfl, rfl⟩, hs.disk⟩
  · by_cases hji : j = ip
    · exact .inr (congrArg some hji.symm)
    · refine (hL.backed j hj).imp (Multiset.mem_erase_of_ne hji).mpr fun h => ?_
      rw [hpin] at h
      cases h
  · exact ⟨f, mem_cons_self, (update_self _ _ _).trans (Option.some.inj hj)⟩
  · exact (hL.status j h hlj).keep ⟨rfl, rfl, rfl, rfl⟩
  · show (.file g, update s.ip f ip g) ∈ (.file f, ip) :: s.held.erase (.proc p, ip)
    rcases mem_cons.mp h with heq | h
    · cases heq
      rw [update_self]
      exact mem_cons_self
    · rw [hold q g h]
      exact mem_cons_of_mem _ ((mem_erase_of_ne file_ne_proc).mpr (hs.files q g h))

theorem Inv.ialloc {c : Nat} {type : Int} (htype : type ≠ 0) (hfree : (s.dinode c).type = 0) (hk : Ok L k) :
    Inv ((s.setDinode c (Dinode.new type)).goto p k) := by
  have hset : ∀ i ≠ c, ((s.setDinode c (Dinode.new type)).goto p k).dinode i = s.dinode i := fun i hi =>
    dinode_set_of_ne (s := s) hi
  have hfresh : ∀ j, Fresh s j → Fresh ((s.setDinode c (Dinode.new type)).goto p k) j := by
    intro j h hvalid
    obtain ⟨heq, hne⟩ := h hvalid
    have hj : s.inum j ≠ c := fun hj => by
      rw [heq, hj] at hne
      exact hne hfree
    exact ⟨heq.trans (hset _ hj).symm, hne⟩
  have hstatus : ∀ j (h : Held), h.Holds s j → h.Holds ((s.setDinode c (Dinode.new type)).goto p k) j := by
    intro j h hh
    cases h with
    | unread => exact hfresh j hh
    | freed => trivial
    | has v d =>
      have hj : s.inum j ≠ c := fun hj => hh.2.2.1 (hj ▸ hfree)
      exact Held.Holds.keep (s := s) (x := .has v d) hh ⟨rfl, rfl, rfl, hset _ hj⟩
  have hf : Frame p s ((s.setDinode c (Dinode.new type)).goto p k) :=
    ⟨fun q hq => goto_code hq, fun _ _ _ => rfl, fun _ _ _ => Iff.rfl, fun _ _ _ h => ⟨h, rfl⟩,
      fun q _ Lq hq j h hl => hstatus j h (hq.status j h hl)⟩
  refine ⟨hf.locals hs (M := L) ⟨goto_ok hk, hL.tokens, hL.locks, hL.backed, hL.pin, fun j h hl =>
    hstatus j h (hL.status j h hl)⟩,
    hs.refs, hs.files, hs.small, hs.once, fun j hj hjpos => hfresh j (hs.free j hj hjpos), fun i hi => ?_⟩
  by_cases hic : i = c
  · have hnew : ((s.setDinode c (Dinode.new type)).goto p k).dinode c = Dinode.new type :=
      dinode_set_self (s := s) (i := c) (v := Dinode.new type)
    rw [hic, hnew]
    exact ⟨htype, fun bn hbn => absurd hbn (Nat.not_lt_zero _)⟩
  · rw [hset i hic] at hi ⊢
    exact hs.disk i hi

end

end Machine

end Xv6.InodeCache
