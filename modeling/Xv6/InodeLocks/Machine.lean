import Xv6.InodeLocks.Discipline
import Xv6.Lib.RefCount

namespace Xv6.InodeLocks

open Option

/-- What a counted reference belongs to. -/
inductive Holder (P F : Type)
  | proc (p : P)
  | file (f : F)
  deriving DecidableEq

structure State (P F : Type) where
  node : Nat → Node
  ref : Nat → Nat
  valid : Nat → Bool
  owner : Nat → Option P
  code : P → Code
  desc : List (P × F)
  ip : F → Nat
  held : List (Holder P F × Nat)
  /-- when each inode was allocated -/
  age : Nat → Nat
  clock : Nat

section Facts

variable {P F : Type} {s t : State P F} {p : P} {L : Local} {i : Nat} {x : Fact}

def Fact.Holds (s : State P F) : Fact → Prop
  | .live i => (s.node i).type ≠ .free
  | .isDir d => (s.node d).type = .dir
  | .notDir c => (s.node c).type ≠ .dir ∧ (s.node c).type ≠ .free
  | .entry d name c => (s.node d).type = .dir ∧ ∃ e ∈ (s.node d).ents, e.inum ≠ 0 ∧ e.name = name ∧ e.inum = c
  | .younger d c => (s.node d).type = .dir ∧ s.age d < s.age c

theorem Fact.about_of_isEntry (h : x.isEntry i) : x.about i := by
  cases x <;> first | exact h | exact h.elim

theorem Fact.Holds.keep (h : x.Holds s) (htype : ∀ j, x.about j → (t.node j).type = (s.node j).type)
    (hents : ∀ j, x.isEntry j → (t.node j).ents = (s.node j).ents) (hage : ∀ j, x.about j → t.age j = s.age j)
    (hold : ∀ j, s.age j ≤ t.age j) : x.Holds t := by
  cases x with
  | live i => rw [Fact.Holds, htype i rfl]; exact h
  | isDir d => rw [Fact.Holds, htype d rfl]; exact h
  | notDir c => rw [Fact.Holds, htype c rfl]; exact h
  | entry d name c => rw [Fact.Holds, htype d rfl, hents d rfl]; exact h
  | younger d c =>
    rw [Fact.Holds, htype d rfl, hage d rfl]
    exact ⟨h.1, lt_of_lt_of_le h.2 (hold c)⟩

theorem Fact.Holds.live (h : x.Holds s) (hi : x.about i) : (s.node i).type ≠ .free := by
  cases x <;> cases hi
  · exact h
  · rw [show (s.node _).type = .dir from h]; decide
  · exact h.2
  · rw [h.1]; decide
  · rw [h.1]; decide

theorem Fact.Anchored.mem (h : x.Anchored L) (hi : x.about i) : i ∈ L.refs := by
  cases x <;> cases hi
  · exact h
  · exact h
  · exact h
  · exact h.1
  · exact h

theorem Fact.Anchored.grow {M : Local} (h : x.Anchored L) (hr : ∀ i ∈ L.refs, i ∈ M.refs) (hl : L.locks ⊆ M.locks) :
    x.Anchored M := by
  cases x with
  | entry d name c => exact ⟨hr d h.1, hl h.2⟩
  | live i => exact hr i h
  | isDir d => exact hr d h
  | notDir c => exact hr c h
  | younger d c => exact hr d h

theorem Fact.Holds.same (h : x.Holds s) (hnode : t.node = s.node) (hage : t.age = s.age) : x.Holds t :=
  h.keep (fun _ _ => by rw [hnode]) (fun _ _ => by rw [hnode]) (fun _ _ => by rw [hage]) fun _ => by rw [hage]

theorem learned_holds {n : Node} (hl : i ∈ L.locks) (hn : n = s.node i) (hx : x ∈ learned L i n) :
    x.Holds s ∧ x.Anchored L := by
  subst hn
  obtain ⟨hr, hfree, ⟨rfl, hdir⟩ | ⟨rfl, hdir⟩ | ⟨e, he, hne, rfl, hdir⟩⟩ := hx
  · exact ⟨hdir, hr⟩
  · exact ⟨⟨hdir, hfree⟩, hr⟩
  · exact ⟨⟨hdir, e, he, hne, rfl, rfl⟩, hr, hl⟩

theorem file_ne_proc {f : F} {j : Nat} : ((.file f, j) : Holder P F × Nat) ≠ (.proc p, i) :=
    fun h => nomatch congrArg Prod.fst h

end Facts

section Machine

variable {P F : Type} [DecidableEq P] [DecidableEq F]

open Function

def State.goto (s : State P F) (p : P) (k : Code) : State P F := { s with code := update s.code p k }

/-- The next step of process `p`; `none` if it has to wait. -/
def State.act (s : State P F) (p : P) (b : Bool) (inum : Option Nat) (f : F) : Code → Option (State P F)
  | .done _ => none
  | .panic => none
  | .iget i k => some (State.goto { s with
      ref := update s.ref i (s.ref i + 1),
      valid := if s.ref i = 0 then update s.valid i false else s.valid,
      held := (.proc p, i) :: s.held } p k)
  | .acquire i k => if s.owner i = none then some (State.goto { s with owner := update s.owner i (some p) } p k) else
    none
  | .load i k =>
    if s.valid i then some (s.goto p k)
    else if (s.node i).type = .free then some (s.goto p .panic)
    else some (State.goto { s with valid := update s.valid i true } p k)
  | .read i k => some (s.goto p (k (s.node i)))
  | .write i g k => some (State.goto { s with node := update s.node i (g (s.node i)) } p k)
  | .release i k => some (State.goto { s with owner := update s.owner i none } p k)
  | .last i k =>
    if s.ref i = 1 ∧ s.valid i ∧ (s.node i).nlink = 0 then
      if s.owner i = none then
        some (State.goto { s with
          owner := update s.owner i (some p), node := update s.node i .free,
          valid := update s.valid i false } p (k true))
      else none
    else some (s.goto p (k false))
  | .deref i k => some (State.goto { s with ref := update s.ref i (s.ref i - 1), held := s.held.erase (.proc p, i) } p
    k)
  | .ialloc type k =>
    match inum with
    | none => some (s.goto p (k none))
    | some c =>
      if (s.node c).type = .free then
        some (State.goto { s with
          node := update s.node c ⟨type, 0, []⟩, age := update s.age c s.clock,
          clock := s.clock + 1 } p (k (some c)))
      else none
  | .choose k => some (s.goto p (k b))
  | .install i k =>
    if ∀ x ∈ s.desc, x.2 ≠ f then
      some (State.goto { s with
        desc := (p, f) :: s.desc, ip := update s.ip f i,
        held := (.file f, i) :: s.held.erase (.proc p, i) } p k)
    else none

structure Real (p : P) (L : Local) (s : State P F) : Prop where
  ok : Ok L (s.code p)
  tokens : ∀ i, s.held.count (.proc p, i) = L.refs.count i
  locks : ∀ i, s.owner i = some p ↔ i ∈ L.locks
  backed : ∀ i ∈ L.locks, i ∈ L.refs ∨ L.pin = some i
  pin : ∀ i, L.pin = some i → ∃ f, (p, f) ∈ s.desc ∧ s.ip f = i
  facts : ∀ x ∈ L.facts, x.Holds s ∧ x.Anchored L

/-- An entry of a directory names a younger inode, or one that is not a directory. -/
def Edges (s : State P F) : Prop := ∀ d, (s.node d).type = .dir → ∀ e ∈ (s.node d).ents, e.inum ≠ 0 → ¬ Dot e.name →
  (s.node e.inum).type ≠ .dir ∨ s.age d < s.age e.inum

structure Inv (s : State P F) : Prop where
  locals : ∀ p, ∃ L, Real p L s
  refs : ∀ i, s.ref i = s.held.countP fun x => x.2 = i
  files : ∀ p f, (p, f) ∈ s.desc → (.file f, s.ip f) ∈ s.held
  edges : Edges s
  ages : ∀ i, s.age i < s.clock
  valid : ∀ i, s.valid i = true → (s.node i).type ≠ .free

variable {s t : State P F} {p q : P} {L : Local} {i : Nat} {k : Code}

theorem Inv.counts (hs : Inv s) : RefCount.Counts s.ref s.held := hs.refs

theorem Real.holds (h : Real p L s) : RefCount.Holds s.held (.proc p) L.refs := h.tokens

theorem Real.mem_held (h : Real p L s) (hi : i ∈ L.refs) : (.proc p, i) ∈ s.held := h.holds.mem hi

theorem Real.locks_insert (h : Real p L s) (i j : Nat) :
    update s.owner i (some p) j = some p ↔ j ∈ insert i L.locks := by
  by_cases hji : j = i
  · rw [hji, update_self]
    exact ⟨fun _ => .inl rfl, fun _ => rfl⟩
  · rw [update_of_ne hji, h.locks]
    exact ⟨.inr, fun h => h.resolve_left hji⟩

theorem Real.locks_erase (h : Real p L s) (i j : Nat) : update s.owner i none j = some p ↔ j ∈ L.locks \ {i} := by
  by_cases hji : j = i
  · rw [hji, update_self]
    exact ⟨nofun, fun h => absurd rfl h.2⟩
  · rw [update_of_ne hji, h.locks]
    exact ⟨fun h => ⟨h, hji⟩, fun h => h.1⟩

omit [DecidableEq P] [DecidableEq F] in
theorem owner_other (hfree : s.owner i = none) (hqp : q ≠ p) (j : Nat) :
    update s.owner i (some p) j = some q ↔ s.owner j = some q := by
  by_cases hji : j = i
  · rw [hji, update_self, hfree]
    exact ⟨fun h => absurd (some.inj h).symm hqp, nofun⟩
  · rw [update_of_ne hji]

omit [DecidableEq P] [DecidableEq F] in
theorem owner_released (howner : s.owner i = some p) (hqp : q ≠ p) (j : Nat) :
    update s.owner i none j = some q ↔ s.owner j = some q := by
  by_cases hji : j = i
  · rw [hji, update_self, howner]
    exact ⟨nofun, fun h => absurd (some.inj h).symm hqp⟩
  · rw [update_of_ne hji]

omit [DecidableEq P] [DecidableEq F] in
theorem proc_ne (hq : q ≠ p) : (.proc q : Holder P F) ≠ .proc p := fun heq => hq (Holder.proc.inj heq)

omit [DecidableEq P] [DecidableEq F] in
theorem proc_ne_file (p : P) (f : F) : (.proc p : Holder P F) ≠ .file f := nofun

theorem Real.counted (hs : Inv s) (h : Real p L s) (hi : s.owner i = some p) :
    (.proc p, i) ∈ s.held ∨ ∃ f, (p, f) ∈ s.desc ∧ s.ip f = i ∧ (.file f, i) ∈ s.held := by
  rcases h.backed i ((h.locks i).mp hi) with href | hpin
  · exact .inl (h.mem_held href)
  · obtain ⟨f, hdesc, rfl⟩ := h.pin i hpin
    exact .inr ⟨f, hdesc, rfl, hs.files p f hdesc⟩

theorem Inv.sole (hs : Inv s) (h : Real p L s) (hi : i ∈ L.refs) (hone : s.ref i = 1) :
    i ∉ L.refs.erase i ∧ (∀ q M, Real q M s → q ≠ p → i ∉ M.refs) ∧ ∀ q, s.owner i = some q → q = p := by
  have hmine := h.mem_held hi
  refine ⟨fun hmem => ?_, fun q M hq hqp hmem => ?_, fun q hq => ?_⟩
  · have := hs.counts.two_le_again h.holds hmem
    omega
  · have := hs.counts.two_le hmine (hq.mem_held hmem) (proc_ne hqp).symm
    omega
  · by_contra hqp
    obtain ⟨M, hq'⟩ := hs.locals q
    rcases hq'.counted hs hq with hmem | ⟨f, -, -, hmem⟩
    · have := hs.counts.two_le hmine hmem (proc_ne hqp).symm
      omega
    · have := hs.counts.two_le hmine hmem (proc_ne_file p _)
      omega

structure Frame (p : P) (s t : State P F) : Prop where
  code : ∀ q ≠ p, t.code q = s.code q
  tokens : ∀ q ≠ p, ∀ i, t.held.count (.proc q, i) = s.held.count (.proc q, i)
  owner : ∀ q ≠ p, ∀ i, t.owner i = some q ↔ s.owner i = some q
  desc : ∀ q ≠ p, ∀ f, (q, f) ∈ s.desc → (q, f) ∈ t.desc ∧ t.ip f = s.ip f
  facts : ∀ q ≠ p, ∀ L, Real q L s → ∀ x ∈ L.facts, x.Holds t

theorem Frame.real (h : Frame p s t) (hqp : q ≠ p) (hq : Real q L s) : Real q L t where
  ok := h.code q hqp ▸ hq.ok
  tokens i := (h.tokens q hqp i).trans (hq.tokens i)
  locks i := (h.owner q hqp i).trans (hq.locks i)
  backed := hq.backed
  pin i hi := by
    obtain ⟨f, hf, hfi⟩ := hq.pin i hi
    exact ⟨f, (h.desc q hqp f hf).1, (h.desc q hqp f hf).2.trans hfi⟩
  facts x hx := ⟨h.facts q hqp L hq x hx, (hq.facts x hx).2⟩

theorem Inv.of_frame {M : Local} (hs : Inv s) (hf : Frame p s t) (hp : Real p M t)
    (refs : ∀ i, t.ref i = t.held.countP fun x => x.2 = i) (files : ∀ p f, (p, f) ∈ t.desc → (.file f, t.ip f) ∈ t.held)
    (edges : Edges t) (ages : ∀ i, t.age i < t.clock) (valid : ∀ i, t.valid i = true → (t.node i).type ≠ .free) :
    Inv t := by
  refine ⟨fun q => ?_, refs, files, edges, ages, valid⟩
  by_cases hqp : q = p
  · exact hqp ▸ ⟨M, hp⟩
  · obtain ⟨Lq, hq⟩ := hs.locals q
    exact ⟨Lq, hf.real hqp hq⟩

omit [DecidableEq F] in
theorem ok_goto (hk : Ok L k) : Ok L (update s.code p k p) := by
  rw [update_self]
  exact hk

section
variable (hs : Inv s)
include hs

section
variable (hL : Real p L s)
include hL

theorem Inv.moved {M : Local} {o : Nat → Option P} {v : Nat → Bool} (hk : Ok M k)
    (hr : M.refs = L.refs) (hpin : M.pin = L.pin) (hlocks : ∀ i, o i = some p ↔ i ∈ M.locks)
    (hothers : ∀ q ≠ p, ∀ i, o i = some q ↔ s.owner i = some q) (hback : ∀ i ∈ M.locks, i ∈ M.refs ∨ M.pin = some i)
    (hfacts : ∀ x ∈ M.facts, x.Holds s ∧ x.Anchored M) (hvalid : ∀ i, v i = true → (s.node i).type ≠ .free) :
    Inv (State.goto { s with owner := o, valid := v } p k) := by
  refine hs.of_frame ⟨fun q hq => update_of_ne hq _ _, fun _ _ _ => rfl, hothers, fun _ _ _ h => ⟨h, rfl⟩,
    fun q _ Lq hq x hx => (hq.facts x hx).1.same rfl rfl⟩ (M := M) ⟨?_, fun i => hr ▸ hL.tokens i, hlocks, hback,
      hpin ▸ hL.pin,
    fun x hx => ⟨(hfacts x hx).1.same rfl rfl, (hfacts x hx).2⟩⟩ hs.refs hs.files hs.edges hs.ages hvalid
  exact ok_goto hk

theorem Inv.goto {M : Local} (hk : Ok M k) (hr : M.refs = L.refs) (hpin : M.pin = L.pin)
    (hl : M.locks = L.locks) (hfacts : ∀ x ∈ M.facts, x.Holds s ∧ x.Anchored M) : Inv (s.goto p k) :=
  hs.moved (o := s.owner) (v := s.valid) hL hk hr hpin (hl ▸ hL.locks) (fun _ _ _ => Iff.rfl)
    (fun i hi => by rw [hr, hpin]; exact hL.backed i (hl ▸ hi)) hfacts hs.valid

theorem Inv.iget (hk : Ok { L with refs := i ::ₘ L.refs } k) :
    Inv (State.goto { s with ref := update s.ref i (s.ref i + 1), valid := if s.ref i = 0 then update s.valid i false
      else s.valid,
                             held := (.proc p, i) :: s.held } p k) := by
  refine hs.of_frame (M := { L with refs := i ::ₘ L.refs }) ⟨fun q hq => update_of_ne hq _ _,
    fun q hq => RefCount.count_take (proc_ne hq) _ i, fun _ _ _ => Iff.rfl, fun _ _ _ h => ⟨h, rfl⟩,
      fun q _ Lq hq x hx => ?_⟩
    ⟨?_, hL.holds.take i, hL.locks, fun j hj => ?_, hL.pin, fun x hx => ⟨?_, ?_⟩⟩ (hs.counts.take _ i)
    (fun q f hf => List.mem_cons_of_mem _ (hs.files q f hf)) hs.edges hs.ages fun j hj => ?_
  · exact (hq.facts x hx).1.same rfl rfl
  · exact ok_goto hk
  · exact (hL.backed j hj).imp_left Multiset.mem_cons_of_mem
  · exact (hL.facts x hx).1.same rfl rfl
  · exact (hL.facts x hx).2.grow (fun _ => Multiset.mem_cons_of_mem) (Set.Subset.refl _)
  · refine hs.valid j ?_
    have hj : (if s.ref i = 0 then update s.valid i false else s.valid) j = true := hj
    split at hj
    · by_cases hji : j = i
      · rw [hji, update_self] at hj
        exact absurd hj Bool.false_ne_true
      · rwa [update_of_ne hji] at hj
    · exact hj

theorem Inv.deref (hi : i ∈ L.refs) (hl : i ∈ L.locks → i ∈ L.refs.erase i)
    (hk : Ok (Local.settle { L with refs := L.refs.erase i }) k) :
    Inv (State.goto { s with ref := update s.ref i (s.ref i - 1), held := s.held.erase (.proc p, i) } p k) := by
  refine hs.of_frame (M := Local.settle { L with refs := L.refs.erase i }) ⟨fun q hq => update_of_ne hq _ _,
    fun q hq => RefCount.count_drop (proc_ne hq) _ i, fun _ _ _ => Iff.rfl, fun _ _ _ h => ⟨h, rfl⟩,
      fun q _ Lq hq x hx => ?_⟩
    ⟨?_, hL.holds.drop i, hL.locks, fun j hj => ?_, hL.pin, fun x hx => ⟨?_, hx.2⟩⟩ (hs.counts.drop (hL.mem_held hi))
      (fun q f hf => ?_)
    hs.edges hs.ages hs.valid
  · exact (hq.facts x hx).1.same rfl rfl
  · exact ok_goto hk
  · by_cases hji : j = i
    · exact .inl (hji ▸ hl (hji ▸ hj))
    · exact (hL.backed j hj).imp_left (Multiset.mem_erase_of_ne hji).mpr
  · exact (hL.facts x hx.1).1.same rfl rfl
  · exact (List.mem_erase_of_ne file_ne_proc).mpr (hs.files q f hf)

theorem Inv.install {f : F} (hi : i ∈ L.refs) (hpin : L.pin = none)
    (hk : Ok (Local.settle { L with refs := L.refs.erase i, pin := some i }) k) (hnew : ∀ x ∈ s.desc, x.2 ≠ f) :
    Inv (State.goto { s with
        desc := (p, f) :: s.desc, ip := update s.ip f i,
        held := (.file f, i) :: s.held.erase (.proc p, i) } p k) := by
  have hip : ∀ q f', (q, f') ∈ s.desc → update s.ip f i f' = s.ip f' := fun q f' hmem => update_of_ne (hnew _ hmem) _ _
  refine hs.of_frame (M := Local.settle { L with refs := L.refs.erase i, pin := some i })
    ⟨fun q hq => update_of_ne hq _ _,
    fun q hq j => ?_, fun _ _ _ => Iff.rfl, fun q _ f' h => ⟨List.mem_cons_of_mem _ h, hip q f' h⟩,
      fun q _ Lq hq x hx => ?_⟩
    ⟨?_, hL.holds.give (proc_ne_file p f) i, hL.locks, fun j hj => ?_, fun j hj => ?_, fun x hx => ⟨?_, hx.2⟩⟩
      (hs.counts.move (hL.mem_held hi) _)
    (fun q f' hf => ?_) hs.edges hs.ages hs.valid
  · exact (RefCount.count_take (proc_ne_file q f) _ i j).trans (RefCount.count_drop (proc_ne hq) _ i j)
  · exact (hq.facts x hx).1.same rfl rfl
  · exact ok_goto hk
  · by_cases hji : j = i
    · exact .inr (hji ▸ rfl)
    · refine (hL.backed j hj).imp (Multiset.mem_erase_of_ne hji).mpr fun h => ?_
      rw [hpin] at h
      cases h
  · cases some.inj hj
    exact ⟨f, List.mem_cons_self, update_self _ _ _⟩
  · exact (hL.facts x hx.1).1.same rfl rfl
  · show (.file f', update s.ip f i f') ∈ (.file f, i) :: s.held.erase (.proc p, i)
    rcases List.mem_cons.mp hf with heq | hmem
    · cases heq
      rw [update_self]
      exact List.mem_cons_self
    · rw [hip q f' hmem]
      exact List.mem_cons_of_mem _ ((List.mem_erase_of_ne file_ne_proc).mpr (hs.files q f' hmem))

theorem Inv.write {g : Node → Node} (hi : i ∈ L.locks) (htype : ∀ n, (g n).type = n.type)
    (hents : ∀ n, ∀ x ∈ (g n).ents, x.inum ≠ 0 → x ∈ n.ents ∨ Dot x.name ∨ .notDir x.inum ∈ L.facts ∨
    .younger i x.inum ∈ L.facts)
    (hk : Ok { L with facts := {x ∈ L.facts | ¬ x.isEntry i} } k) :
    Inv (State.goto { s with node := update s.node i (g (s.node i)) } p k) := by
  have hsame : ∀ j, (update s.node i (g (s.node i)) j).type = (s.node j).type := by
    intro j
    by_cases hji : j = i
    · rw [hji, update_self, htype]
    · rw [update_of_ne hji]
  have hkeep : ∀ x : Fact, x.Holds s → ¬ x.isEntry i →
    x.Holds (State.goto { s with node := update s.node i (g (s.node i)) } p k) :=
    fun x hx hno => hx.keep (fun j _ => hsame j)
      (fun j hj => congrArg Node.ents (update_of_ne (fun heq : j = i => hno (heq ▸ hj)) _ _)) (fun _ _ => rfl)
        fun _ => le_rfl
  refine hs.of_frame (M := { L with facts := {x ∈ L.facts | ¬ x.isEntry i} }) ⟨fun q hq => update_of_ne hq _ _,
    fun _ _ _ => rfl, fun _ _ _ => Iff.rfl, fun _ _ _ h => ⟨h, rfl⟩, fun q hqp Lq hq x hx => hkeep x (hq.facts x hx).1
      fun hentry => ?_⟩
    ⟨?_, hL.tokens, hL.locks, hL.backed, hL.pin, fun x hx => ⟨hkeep x (hL.facts x hx.1).1 hx.2, (hL.facts x hx.1).2⟩⟩
      hs.refs hs.files
    (fun d hd e he hne hdot => ?_) hs.ages fun j hj => ?_
  · -- only the holder of the lock knows an entry
    have hanch := (hq.facts x hx).2
    cases x with
    | entry d name c =>
      have hdi : d = i := hentry
      have howner := (hq.locks d).mpr hanch.2
      rw [hdi, (hL.locks i).mpr hi] at howner
      exact hqp (some.inj howner).symm
    | _ => exact hentry.elim
  · exact ok_goto hk
  · have hdir : (s.node d).type = .dir := (hsame d).symm.trans hd
    show (update s.node i (g (s.node i)) e.inum).type ≠ .dir ∨ s.age d < s.age e.inum
    rw [hsame]
    have he : e ∈ (update s.node i (g (s.node i)) d).ents := he
    by_cases hdi : d = i
    · subst hdi
      rw [update_self] at he
      rcases hents _ e he hne with hold | hdot' | hnot | hyoung
      · exact hs.edges d hdir e hold hne hdot
      · exact absurd hdot' hdot
      · exact .inl (hL.facts _ hnot).1.1
      · exact .inr (hL.facts _ hyoung).1.2
    · rw [update_of_ne hdi] at he
      exact hs.edges d hdir e he hne hdot
  · show (update s.node i (g (s.node i)) j).type ≠ .free
    rw [hsame]
    exact hs.valid j hj

theorem Inv.last (hi : i ∈ L.refs) (hone : s.ref i = 1) (hfree : s.owner i = none)
    (hk : Ok { L with locks := insert i L.locks, facts := {x ∈ L.facts | ¬ x.about i} } k) :
    Inv (State.goto { s with
        owner := update s.owner i (some p), node := update s.node i .free,
        valid := update s.valid i false } p k) := by
  obtain ⟨-, hothers, -⟩ := hs.sole hL hi hone
  have hnode : ∀ j, j ≠ i → update s.node i .free j = s.node j := fun j hji => update_of_ne hji _ _
  have hkeep : ∀ (t : State P F) (x : Fact), t.node = update s.node i .free → t.age = s.age → x.Holds s →
    ¬ x.about i → x.Holds t := by
    intro t x hn ha hx hno
    refine hx.keep (fun j hj => ?_) (fun j hj => ?_) (fun _ _ => by rw [ha]) fun _ => by rw [ha]
    · rw [hn, hnode j fun heq : j = i => hno (heq ▸ hj)]
    · rw [hn, hnode j fun heq : j = i => hno (heq ▸ Fact.about_of_isEntry hj)]
  refine hs.of_frame (M := { L with locks := insert i L.locks, facts := {x ∈ L.facts | ¬ x.about i} })
    ⟨fun q hq => update_of_ne hq _ _, fun _ _ _ => rfl, fun q hqp => owner_other hfree hqp, fun _ _ _ h => ⟨h, rfl⟩,
      fun q hqp Lq hq x hx =>
      hkeep _ x rfl rfl (hq.facts x hx).1 fun habout => hothers q Lq hq hqp ((hq.facts x hx).2.mem habout)⟩
    ⟨?_, hL.tokens, hL.locks_insert i, fun j hj => ?_, hL.pin, fun x hx => ⟨hkeep _ x rfl rfl (hL.facts x hx.1).1 hx.2,
      (hL.facts x hx.1).2.grow (fun _ => id) (Set.subset_insert _ _)⟩⟩ hs.refs hs.files
        (fun d hd e he hne hdot => ?_) hs.ages fun j hj => ?_
  · exact ok_goto hk
  · rcases hj with rfl | hj
    · exact .inl hi
    · exact hL.backed j hj
  · have hd : (update s.node i .free d).type = .dir := hd
    have he : e ∈ (update s.node i .free d).ents := he
    show (update s.node i .free e.inum).type ≠ .dir ∨ s.age d < s.age e.inum
    have hdi : d ≠ i := by
      rintro rfl
      rw [update_self] at hd
      exact absurd hd (by decide)
    rw [hnode d hdi] at hd he
    by_cases hei : e.inum = i
    · rw [hei, update_self]
      exact .inl (by decide)
    · rw [hnode _ hei]
      exact hs.edges d hd e he hne hdot
  · have hj : update s.valid i false j = true := hj
    show (update s.node i .free j).type ≠ .free
    have hji : j ≠ i := by
      rintro rfl
      rw [update_self] at hj
      exact absurd hj Bool.false_ne_true
    rw [update_of_ne hji] at hj
    rw [hnode j hji]
    exact hs.valid j hj

theorem Inv.ialloc {type : Kind} {c : Nat} (htype : type ≠ .free) (hc : (s.node c).type = .free)
    (hk : Ok { L with facts := L.facts ∪ {x | ∃ d, .isDir d ∈ L.facts ∧ x = .younger d c} } k) :
    Inv (State.goto { s with
        node := update s.node c ⟨type, 0, []⟩, age := update s.age c s.clock,
        clock := s.clock + 1 } p k) := by
  have hnode : ∀ j, j ≠ c → update s.node c ⟨type, 0, []⟩ j = s.node j := fun j hjc => update_of_ne hjc _ _
  have hage : ∀ j, j ≠ c → update s.age c s.clock j = s.age j := fun j hjc => update_of_ne hjc _ _
  have hold : ∀ j, s.age j ≤ update s.age c s.clock j := by
    intro j
    by_cases hjc : j = c
    · rw [hjc, update_self]
      exact (hs.ages c).le
    · rw [hage j hjc]
  have hkeep : ∀ (t : State P F) (x : Fact), t.node = update s.node c ⟨type, 0, []⟩ → t.age = update s.age c s.clock →
    x.Holds s → x.Holds t := by
    intro t x hn ha hx
    have hne : ∀ j, x.about j → j ≠ c := fun j hj heq => hx.live hj (heq ▸ hc)
    refine hx.keep (fun j hj => ?_) (fun j hj => ?_) (fun j hj => ?_) fun j => ?_
    · rw [hn, hnode j (hne j hj)]
    · rw [hn, hnode j (hne j (Fact.about_of_isEntry hj))]
    · rw [ha, hage j (hne j hj)]
    · rw [ha]
      exact hold j
  refine hs.of_frame (M := { L with facts := L.facts ∪ {x | ∃ d, .isDir d ∈ L.facts ∧ x = .younger d c} })
    ⟨fun q hq => update_of_ne hq _ _, fun _ _ _ => rfl, fun _ _ _ => Iff.rfl, fun _ _ _ h => ⟨h, rfl⟩,
      fun q hqp Lq hq x hx => hkeep _ x rfl rfl (hq.facts x hx).1⟩
    ⟨?_, hL.tokens, hL.locks, hL.backed, hL.pin, ?_⟩ hs.refs hs.files (fun d hd e he hne hdot => ?_) (fun j => ?_)
      fun j hj => ?_
  · exact ok_goto hk
  · rintro x (hx | ⟨d, hd, rfl⟩)
    · exact ⟨hkeep _ x rfl rfl (hL.facts x hx).1, (hL.facts x hx).2⟩
    · obtain ⟨hdir, hanch⟩ := hL.facts _ hd
      have hdir : (s.node d).type = .dir := hdir
      have hdc : d ≠ c := by
        rintro rfl
        rw [hc] at hdir
        exact absurd hdir (by decide)
      refine ⟨⟨?_, ?_⟩, hanch⟩
      · show (update s.node c ⟨type, 0, []⟩ d).type = .dir
        rw [hnode d hdc, hdir]
      · show update s.age c s.clock d < update s.age c s.clock c
        rw [hage d hdc, update_self]
        exact hs.ages d
  · have hd : (update s.node c ⟨type, 0, []⟩ d).type = .dir := hd
    have he : e ∈ (update s.node c ⟨type, 0, []⟩ d).ents := he
    show (update s.node c ⟨type, 0, []⟩ e.inum).type ≠ .dir ∨ update s.age c s.clock d < update s.age c s.clock e.inum
    have hdc : d ≠ c := by
      rintro rfl
      rw [update_self] at he
      exact absurd he List.not_mem_nil
    rw [hnode d hdc] at hd he
    rw [hage d hdc]
    by_cases hec : e.inum = c
    · have hnew : update s.age c s.clock c = s.clock := update_self _ _ _
      rw [hec, hnew]
      exact .inr (hs.ages d)
    · rw [hnode _ hec, hage _ hec]
      exact hs.edges d hd e he hne hdot
  · show update s.age c s.clock j < s.clock + 1
    by_cases hjc : j = c
    · rw [hjc, update_self]
      omega
    · rw [hage j hjc]
      have := hs.ages j
      omega
  · show (update s.node c ⟨type, 0, []⟩ j).type ≠ .free
    by_cases hjc : j = c
    · rw [hjc, update_self]
      exact htype
    · rw [hnode j hjc]
      exact hs.valid j hj

theorem Inv.acquire (hi : i ∈ L.refs ∨ L.pin = some i) (hfree : s.owner i = none)
    (hk : Ok { L with locks := insert i L.locks } k) :
    Inv (State.goto { s with owner := update s.owner i (some p) } p k) := by
  refine hs.moved (v := s.valid) hL hk rfl rfl (hL.locks_insert i) (fun q hqp => owner_other hfree hqp) (fun j hj => ?_)
    (fun x hx => ?_) hs.valid
  · rcases hj with rfl | hj
    · exact hi
    · exact hL.backed j hj
  · exact ⟨(hL.facts x hx).1, (hL.facts x hx).2.grow (fun _ => id) (Set.subset_insert _ _)⟩

theorem Inv.release (hi : i ∈ L.locks)
    (hk : Ok (Local.settle { L with locks := L.locks \ {i} }) k) :
    Inv (State.goto { s with owner := update s.owner i none } p k) :=
  hs.moved (v := s.valid) hL hk rfl rfl (hL.locks_erase i) (fun _ hqp => owner_released ((hL.locks i).mpr hi) hqp)
    (fun j hj => hL.backed j hj.1) (fun x hx => ⟨(hL.facts x hx.1).1, hx.2⟩) hs.valid

end

theorem Inv.act {b : Bool} {inum : Option Nat} {f : F} (h : s.act p b inum f (s.code p) = some t) : Inv t := by
  obtain ⟨L, hL⟩ := hs.locals p
  have hok := hL.ok
  generalize s.code p = code at h hok
  cases code with
  | done cwd => cases h
  | panic => cases h
  | iget i k =>
    cases some.inj h
    exact hs.iget hL hok
  | acquire i k =>
    obtain ⟨href, -, hk⟩ := hok
    simp only [State.act] at h
    split at h
    next hfree =>
      cases some.inj h
      have hout : i ∉ L.locks := fun hi => by
        rw [(hL.locks i).mpr hi] at hfree
        cases hfree
      exact hs.acquire hL href hfree (hk hout)
    next => cases h
  | load i k =>
    have hnew : (s.node i).type ≠ .free → ∀ x ∈ L.facts ∪ {x | x = .live i ∧ i ∈ L.refs}, x.Holds s ∧ x.Anchored L := by
      rintro htype x (hx | ⟨rfl, hi⟩)
      · exact hL.facts x hx
      · exact ⟨htype, hi⟩
    simp only [State.act] at h
    split at h
    next hvalid =>
      cases some.inj h
      exact hs.goto hL hok rfl rfl rfl (hnew (hs.valid i hvalid))
    next =>
      split at h
      next =>
        cases some.inj h
        exact hs.goto hL trivial rfl rfl rfl hL.facts
      next htype =>
        cases some.inj h
        refine hs.moved (o := s.owner) hL hok rfl rfl hL.locks (fun _ _ _ => Iff.rfl) hL.backed (hnew htype)
          fun j hj => ?_
        by_cases hji : j = i
        · exact hji ▸ htype
        · rw [update_of_ne hji] at hj
          exact hs.valid j hj
  | read i k =>
    cases some.inj h
    refine hs.goto hL (hok.2 (s.node i) fun hlive => (hL.facts _ hlive).1) rfl rfl rfl ?_
    rintro x (hx | hx)
    · exact hL.facts x hx
    · exact learned_holds hok.1 rfl hx
  | write i g k =>
    cases some.inj h
    exact hs.write hL hok.1 hok.2.1 hok.2.2.1 hok.2.2.2
  | release i k =>
    cases some.inj h
    exact hs.release hL hok.1 hok.2
  | last i k =>
    obtain ⟨hi, -, hfalse, htrue⟩ := hok
    simp only [State.act] at h
    split at h
    next htest =>
      split at h
      next hfree =>
        cases some.inj h
        exact hs.last hL hi htest.1 hfree (htrue (hs.sole hL hi htest.1).1)
      next => cases h
    next =>
      cases some.inj h
      exact hs.goto hL hfalse rfl rfl rfl hL.facts
  | deref i k =>
    cases some.inj h
    exact hs.deref hL hok.1 hok.2.1 hok.2.2
  | ialloc type k =>
    obtain ⟨htype, hnone, hsome⟩ := hok
    cases inum with
    | none =>
      cases some.inj h
      exact hs.goto hL hnone rfl rfl rfl hL.facts
    | some c =>
      simp only [State.act] at h
      split at h
      next hfree =>
        cases some.inj h
        exact hs.ialloc hL htype hfree (hsome c)
      next => cases h
  | choose k =>
    cases some.inj h
    exact hs.goto hL (hok b) rfl rfl rfl hL.facts
  | install i k =>
    obtain ⟨hi, hpin, hk⟩ := hok
    simp only [State.act] at h
    split at h
    next hnew =>
      cases some.inj h
      exact hs.install hL hi hpin hk hnew
    next => cases h

end

end Machine

end Xv6.InodeLocks
