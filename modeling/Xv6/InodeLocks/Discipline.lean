import Xv6.InodeLocks.Code

namespace Xv6.InodeLocks

open Multiset Set

inductive Fact
  /-- the type is not 0 -/
  | live (i : Nat)
  | isDir (d : Nat)
  | notDir (c : Nat)
  /-- the locked directory `d` has an entry for `c` -/
  | entry (d : Nat) (name : Name) (c : Nat)
  /-- `c` was allocated after `d` -/
  | younger (d c : Nat)

structure Local where
  refs : Multiset Nat
  pin : Option Nat
  locks : Set Nat
  facts : Set Fact

def Fact.about (i : Nat) : Fact → Prop
  | .live d => d = i
  | .isDir d => d = i
  | .notDir c => c = i
  | .entry d _ _ => d = i
  | .younger d _ => d = i

/-- Nothing that another process does can make the fact false. -/
def Fact.Anchored (L : Local) : Fact → Prop
  | .live d => d ∈ L.refs
  | .isDir d => d ∈ L.refs
  | .notDir c => c ∈ L.refs
  | .entry d _ _ => d ∈ L.refs ∧ d ∈ L.locks
  | .younger d _ => d ∈ L.refs

def Fact.isEntry (i : Nat) : Fact → Prop
  | .entry d _ _ => d = i
  | _ => False

def Local.settle (L : Local) : Local := { L with facts := {x ∈ L.facts | x.Anchored L} }

def learned (L : Local) (i : Nat) (n : Node) : Set Fact :=
  {x | i ∈ L.refs ∧ n.type ≠ .free ∧ ((x = .isDir i ∧ n.type = .dir) ∨ (x = .notDir i ∧ n.type ≠ .dir) ∨
    ∃ e ∈ n.ents, e.inum ≠ 0 ∧ x = .entry i e.name e.inum ∧ n.type = .dir)}

/-- The discipline: from the point where the process has `L`, every step of the call is in order. -/
def Ok (L : Local) : Code → Prop
  | .done cwd => L.locks = ∅ ∧ L.refs = {cwd}
  | .panic => True
  | .iget i k => Ok { L with refs := i ::ₘ L.refs } k
  | .acquire i k => (i ∈ L.refs ∨ L.pin = some i) ∧
      (∀ d ∈ L.locks, .isDir d ∈ L.facts ∧ ((∃ name, ¬ Dot name ∧ .entry d name i ∈ L.facts) ∨
        .younger d i ∈ L.facts)) ∧
      (i ∉ L.locks → Ok { L with locks := insert i L.locks } k)
  | .load i k => Ok { L with facts := L.facts ∪ {x | x = .live i ∧ i ∈ L.refs} } k
  | .read i k => i ∈ L.locks ∧ ∀ n, (.live i ∈ L.facts → n.type ≠ .free) →
    Ok { L with facts := L.facts ∪ learned L i n } (k n)
  | .write i f k => i ∈ L.locks ∧ (∀ n, (f n).type = n.type) ∧
      (∀ n, ∀ x ∈ (f n).ents, x.inum ≠ 0 → x ∈ n.ents ∨ Dot x.name ∨ .notDir x.inum ∈ L.facts ∨
        .younger i x.inum ∈ L.facts) ∧
      Ok { L with facts := {x ∈ L.facts | ¬ x.isEntry i} } k
  | .release i k => i ∈ L.locks ∧ Ok (Local.settle { L with locks := L.locks \ {i} }) k
  | .last i k => i ∈ L.refs ∧ (i ∈ L.locks → i ∈ L.refs.erase i) ∧ Ok L (k false) ∧
      (i ∉ L.refs.erase i → Ok { L with locks := insert i L.locks, facts := {x ∈ L.facts | ¬ x.about i} } (k true))
  | .deref i k => i ∈ L.refs ∧ (i ∈ L.locks → i ∈ L.refs.erase i) ∧
    Ok (Local.settle { L with refs := L.refs.erase i }) k
  | .ialloc type k => type ≠ .free ∧ Ok L (k none) ∧
      ∀ c, Ok { L with facts := L.facts ∪ {x | ∃ d, .isDir d ∈ L.facts ∧ x = .younger d c} } (k (some c))
  | .choose k => ∀ b, Ok L (k b)
  | .install i k => i ∈ L.refs ∧ L.pin = none ∧ Ok (Local.settle { L with refs := L.refs.erase i, pin := some i }) k

theorem Fact.Anchored.mono {L M : Local} {x : Fact} (h : x.Anchored L) (hr : L.refs ⊆ M.refs) (hl : L.locks = M.locks) :
    x.Anchored M := by
  cases x with
  | entry => exact ⟨hr h.1, hl ▸ h.2⟩
  | live | isDir | notDir | younger => exact hr h

theorem Fact.Anchored.congr {L M : Local} {x : Fact} (h : x.Anchored L) (hr : L.refs = M.refs)
    (hl : L.locks = M.locks) :
    x.Anchored M :=
  h.mono (hr ▸ Multiset.Subset.refl _) hl

theorem Ok.mono {c : Code} {L M : Local} (h : Ok L c) (hr : M.refs = L.refs) (hp : M.pin = L.pin)
    (hl : M.locks = L.locks)
    (hf : L.facts ⊆ M.facts) : Ok M c := by
  induction c generalizing L M with
  | done cwd => exact ⟨hl ▸ h.1, hr ▸ h.2⟩
  | panic => trivial
  | iget i k ih => exact ih h (congrArg (i ::ₘ ·) hr) hp hl hf
  | acquire i k ih =>
    obtain ⟨hi, hd, hk⟩ := h
    refine ⟨by rw [hr, hp]; exact hi, fun d hdl => ?_, fun hn => ih (hk (hl ▸ hn)) hr hp (congrArg (insert i ·) hl) hf⟩
    obtain ⟨hdir, hor⟩ := hd d (hl ▸ hdl)
    exact ⟨hf hdir, hor.imp (fun ⟨name, hn, he⟩ => ⟨name, hn, hf he⟩) fun hy => hf hy⟩
  | load i k ih => exact ih h hr hp hl fun x hx => hx.imp (fun hx => hf hx) fun hx => ⟨hx.1, hr ▸ hx.2⟩
  | read i k ih =>
    refine ⟨hl ▸ h.1, fun n hn => ih n (h.2 n fun hlive => hn (hf hlive)) hr hp hl ?_⟩
    have hsame : learned M i n = learned L i n := by simp only [learned, hr]
    rw [hsame]
    exact fun x hx => hx.imp_left fun hx => hf hx
  | write i f k ih =>
    obtain ⟨hi, ht, he, hk⟩ := h
    refine ⟨hl ▸ hi, ht, fun n x hx hx0 => ?_, ih hk hr hp hl fun x hx => ⟨hf hx.1, hx.2⟩⟩
    exact (he n x hx hx0).imp_right fun h => h.imp_right fun h => h.imp (fun h => hf h) fun h => hf h
  | release i k ih =>
    refine ⟨hl ▸ h.1, ih h.2 hr hp (congrArg (fun l : Set Nat => l \ {i}) hl) fun x hx =>
      ⟨hf hx.1, hx.2.congr hr.symm (congrArg (· \ {i}) hl.symm)⟩⟩
  | last i k ih =>
    obtain ⟨hi, hl', hk, hk'⟩ := h
    refine ⟨hr ▸ hi, by rw [hr, hl]; exact hl', ih false hk hr hp hl hf,
      fun hn => ih true (hk' (hr ▸ hn)) hr hp (congrArg (insert i ·) hl) ?_⟩
    exact fun x hx => ⟨hf hx.1, hx.2⟩
  | deref i k ih =>
    refine ⟨hr ▸ h.1, by rw [hr, hl]; exact h.2.1,
      ih h.2.2 (congrArg (·.erase i) hr) hp hl fun x hx => ⟨hf hx.1, hx.2.congr (congrArg (·.erase i) hr.symm) hl.symm⟩⟩
  | ialloc type k ih =>
    refine ⟨h.1, ih none h.2.1 hr hp hl hf, fun c => ih (some c) (h.2.2 c) hr hp hl ?_⟩
    rintro x (hx | ⟨d, hd, rfl⟩)
    · exact .inl (hf hx)
    · exact .inr ⟨d, hf hd, rfl⟩
  | choose k ih => exact fun b => ih b (h b) hr hp hl hf
  | install i k ih =>
    refine ⟨hr ▸ h.1, hp ▸ h.2.1, ih h.2.2 (congrArg (·.erase i) hr) rfl hl fun x hx =>
      ⟨hf hx.1, hx.2.congr (congrArg (·.erase i) hr.symm) hl.symm⟩⟩

section Calls

variable {L M : Local} {k : Code} {i c d cwd : Nat} {r : Multiset Nat} {name : Name} {path : Path} {parent : Bool}
  {l : Set Nat}

theorem ite_ok {p : Prop} [Decidable p] {a b : Code} (ha : p → Ok L a) (hb : ¬ p → Ok L b) :
    Ok L (if p then a else b) :=
  iteInduction ha hb

/-- What is left of the facts is enough for the rest. -/
structure Leaves (L M : Local) : Prop where
  pin : M.pin = L.pin
  facts : ∀ x ∈ M.facts, x ∈ L.facts ∧ x.Anchored M

theorem iput_ok (hi : i ∈ L.refs) (hl : i ∈ L.locks → i ∈ L.refs.erase i) (hr : M.refs = L.refs.erase i)
    (hlk : M.locks = L.locks) (hf : Leaves L M)
    (hk : Ok M k) : Ok L (iput i k) := by
  refine ⟨hi, hl, ⟨hi, hl, hk.mono hr.symm hf.pin.symm hlk.symm fun x hx => ?_⟩, fun hn => ?_⟩
  · obtain ⟨hx, hanch⟩ := hf.facts x hx
    exact ⟨hx, hanch.congr hr hlk⟩
  · have hback : insert i L.locks \ {i} = L.locks := by
      exact insert_sdiff_self_of_notMem fun hmem => hn (hl hmem)
    refine ⟨mem_insert i L.locks, hi, fun hmem => absurd rfl hmem.2,
      hk.mono hr.symm hf.pin.symm (hback.trans hlk.symm) fun x hx => ?_⟩
    obtain ⟨hx, hanch⟩ := hf.facts x hx
    have hout : ¬ x.about i := by
      rintro habout
      apply hn
      rw [← hr]
      cases x <;> simp only [Fact.about, Fact.Anchored] at habout hanch
      · exact habout ▸ hanch
      · exact habout ▸ hanch
      · exact habout ▸ hanch
      · exact habout ▸ hanch.1
      · exact habout ▸ hanch
    have hweak : x.Anchored ⟨L.refs, L.pin, insert i L.locks \ {i}, L.facts⟩ := by
      rw [hback]
      exact hanch.mono (hr ▸ erase_subset i L.refs) hlk
    refine ⟨⟨⟨hx, hout⟩, hweak.congr rfl rfl⟩, hanch.congr hr (hlk.trans hback.symm)⟩

theorem iunlockput_ok (hi : i ∈ L.refs) (hl : i ∈ L.locks) (hr : M.refs = L.refs.erase i)
    (hlk : M.locks = L.locks \ {i})
    (hf : Leaves L M) (hk : Ok M k) : Ok L (iunlockput i k) := by
  refine ⟨hl, iput_ok hi (fun hmem => absurd rfl hmem.2) hr hlk ⟨hf.pin, fun x hx => ?_⟩ hk⟩
  obtain ⟨hx, hanch⟩ := hf.facts x hx
  exact ⟨⟨hx, hanch.mono (hr ▸ erase_subset i L.refs) hlk⟩, hanch⟩

theorem find_spec {n : Node} {x : Dirent} (h : n.find name = some x) : x ∈ n.ents ∧ x.inum ≠ 0 ∧ x.name = name := by
  have hprop := List.find?_some h
  simp only [decide_eq_true_eq] at hprop
  exact ⟨List.mem_of_find?_eq_some h, hprop⟩

theorem dirlookup_ok {k : Option Nat → Code} (hr : d ∈ L.refs) (hl : d ∈ L.locks)
    (hnone : Ok { L with facts := insert (.isDir d) L.facts } (k none))
    (hsome : ∀ c, Ok { L with refs := c ::ₘ L.refs, facts := insert (.entry d name c) (insert (.isDir d) L.facts) }
      (k (some c))) :
    Ok L (dirlookup d name k) := by
  refine ⟨hl, fun n _ => ?_⟩
  by_cases hdir : n.type = .dir
  · have hfree : n.type ≠ .free := by rw [hdir]; decide
    have hisDir : Fact.isDir d ∈ learned L d n := ⟨hr, hfree, .inl ⟨rfl, hdir⟩⟩
    simp only [hdir, if_true]
    cases hfind : n.find name with
    | none => exact hnone.mono rfl rfl rfl (insert_subset (.inr hisDir) subset_union_left)
    | some x =>
      obtain ⟨hmem, hne, hname⟩ := find_spec hfind
      refine (hsome x.inum).mono rfl rfl rfl (insert_subset (.inr ?_) (insert_subset (.inr hisDir) subset_union_left))
      exact ⟨hr, hfree, .inr (.inr ⟨x, hmem, hne, by rw [hname], hdir⟩)⟩
  · simp only [hdir, if_false]
    trivial

theorem fill_mem {x y : Dirent} {l : List Dirent} (h : y ∈ fill x l) : y = x ∨ y ∈ l := by
  induction l with
  | nil => exact .inl (List.mem_singleton.mp h)
  | cons z l ih =>
    unfold fill at h
    split at h
    · rcases List.mem_cons.mp h with h | h
      · exact .inl h
      · exact .inr (List.mem_cons_of_mem z h)
    · rcases List.mem_cons.mp h with h | h
      · exact .inr (h ▸ List.mem_cons_self)
      · exact (ih h).imp_right (List.mem_cons_of_mem z)

theorem clear_mem {y : Dirent} {l : List Dirent} (h : y ∈ clear name l) (hne : y.inum ≠ 0) : y ∈ l := by
  induction l with
  | nil => exact h
  | cons z l ih =>
    unfold clear at h
    split at h
    · rcases List.mem_cons.mp h with h | h
      · exact absurd (h ▸ rfl) hne
      · exact List.mem_cons_of_mem z h
    · rcases List.mem_cons.mp h with h | h
      · exact h ▸ List.mem_cons_self
      · exact List.mem_cons_of_mem z (ih h)

theorem write_ok {f : Node → Node} (hl : i ∈ L.locks) (htype : ∀ n, (f n).type = n.type)
    (hents : ∀ n, (f n).ents = n.ents)
    (hk : Ok M k) (hr : M.refs = L.refs) (hlk : M.locks = L.locks) (hp : M.pin = L.pin)
    (hf : ∀ x ∈ M.facts, x ∈ L.facts ∧ ¬ x.isEntry i) : Ok L (.write i f k) :=
  ⟨hl, htype, fun n _ hx _ => .inl (hents n ▸ hx), hk.mono hr.symm hp.symm hlk.symm hf⟩

theorem dirlink_ok {k : Bool → Code} (hr : d ∈ L.refs) (hl : d ∈ L.locks)
    (hnew : Dot name ∨ .notDir c ∈ L.facts ∨ .younger d c ∈ L.facts) (hplain : ∀ x ∈ L.facts, ¬ x.isEntry d ∧
    x.Anchored L)
    (hsub : ∀ i ∈ L.locks, i ∈ L.refs) (hk : ∀ b, Ok L (k b)) : Ok L (dirlink d name c k) := by
  refine dirlookup_ok hr hl (fun room => ?_) fun i => ?_
  · cases room with
    | false => exact (hk false).mono rfl rfl rfl (subset_insert _ _)
    | true =>
      refine ⟨hl, fun _ => rfl, fun n y hy _ => ?_, (hk true).mono rfl rfl rfl fun x hx => ⟨.inr hx, (hplain x hx).1⟩⟩
      rcases fill_mem hy with rfl | hy
      · exact .inr (hnew.imp_right fun h => h.imp .inr .inr)
      · exact .inl hy
  · have hback : (i ::ₘ L.refs).erase i = L.refs := erase_cons_head _ _
    refine iput_ok (mem_cons_self _ _) (fun hi => ?_) hback.symm rfl
      ⟨rfl, fun x hx => ⟨.inr (.inr hx), (hplain x hx).2⟩⟩
      (hk false)
    rw [hback]
    exact hsub i hi

theorem erase_second (a b : Nat) (r : Multiset Nat) : (a ::ₘ b ::ₘ r).erase b = a ::ₘ r := by
  rw [cons_swap, erase_cons_head]

theorem namexLoop_ok {path : List Name} {k : Option (Nat × Name) → Code} (hlocks : L.locks = ∅)
    (hfacts : ∀ x ∈ L.facts, x.Anchored L) (hnone : Ok L (k none))
    (hsome : ∀ r name, Ok { L with refs := r ::ₘ L.refs } (k (some (r, name)))) :
    Ok { L with refs := i ::ₘ L.refs } (namexLoop parent path i k) := by
  have hout : i ∉ L.locks := by rw [hlocks]; exact notMem_empty i
  have hempty : insert i L.locks \ {i} = L.locks := insert_sdiff_self_of_notMem hout
  induction path generalizing i with
  | nil =>
    cases parent with
    | true =>
      exact iput_ok (mem_cons_self _ _) (fun h => absurd h hout) (erase_cons_head _ _).symm rfl
        ⟨rfl, fun x hx => ⟨hx, hfacts x hx⟩⟩ hnone
    | false => exact hsome i []
  | cons name path ih =>
    refine ⟨.inl (mem_cons_self _ _), fun d hd => absurd (hlocks ▸ hd : d ∈ (∅ : Set Nat)) (notMem_empty d), fun _ =>
      ⟨mem_insert _ _, fun n _ => ?_⟩⟩
    have hput : ∀ facts : Set Fact, L.facts ⊆ facts →
        Ok ⟨i ::ₘ L.refs, L.pin, insert i L.locks, facts⟩ (iunlockput i (k none)) := fun facts hsub =>
      iunlockput_ok (mem_cons_self _ _) (mem_insert _ _) (erase_cons_head _ _).symm hempty.symm
        ⟨rfl, fun x hx => ⟨hsub hx, hfacts x hx⟩⟩ hnone
    by_cases hdir : n.type ≠ .dir
    · simp only [if_pos hdir]
      exact hput _ fun x hx => .inl (.inl hx)
    simp only [if_neg hdir]
    by_cases hstop : parent ∧ path = []
    · simp only [if_pos hstop]
      refine ⟨mem_insert _ _, (hsome i name).mono rfl rfl hempty fun x hx => ⟨.inl (.inl hx), ?_⟩⟩
      exact (hfacts x hx).mono (subset_cons _ _) hempty.symm
    simp only [if_neg hstop]
    refine dirlookup_ok (mem_cons_self _ _) (mem_insert _ _) (hput _ fun x hx => .inr (.inl (.inl hx))) fun next => ?_
    refine iunlockput_ok (M := { L with refs := next ::ₘ L.refs }) (mem_cons_of_mem (mem_cons_self _ _))
      (mem_insert _ _)
      (erase_second _ _ _).symm hempty.symm ⟨rfl, fun x hx => ⟨.inr (.inr (.inl (.inl hx))), ?_⟩⟩ (ih ?_ ?_)
    · exact (hfacts x hx).mono (subset_cons _ _) rfl
    · rw [hlocks]
      exact notMem_empty next
    · exact insert_sdiff_self_of_notMem (hlocks ▸ notMem_empty next)

theorem namex_ok {k : Option (Nat × Name) → Code} (hlocks : L.locks = ∅)
    (hfacts : ∀ x ∈ L.facts, x.Anchored L) (hnone : Ok L (k none))
    (hsome : ∀ r name, Ok { L with refs := r ::ₘ L.refs } (k (some (r, name)))) : Ok L (namex parent cwd path k) :=
  namexLoop_ok hlocks hfacts hnone hsome

abbrev plain (r : Multiset Nat) (l : Set Nat) : Local := ⟨r, none, l, ∅⟩

theorem Leaves.plain (h : L.pin = none) : Leaves L (plain r l) := ⟨h.symm, fun _ hx => absurd hx (notMem_empty _)⟩

theorem plain_ok (h : Ok (plain r l) k) (hr : L.refs = r) (hp : L.pin = none) (hl : L.locks = l) : Ok L k :=
  h.mono hr hp hl (empty_subset _)

theorem unlock_ok (hp : L.pin = none) (hi : i ∈ L.refs) (hl : i ∈ L.locks) (hr : r = L.refs.erase i)
    (hlk : l = L.locks \ {i})
    (hk : Ok (plain r l) k) : Ok L (iunlockput i k) := iunlockput_ok hi hl hr hlk (.plain hp) hk

theorem walk_ok {k : Option (Nat × Name) → Code} (hnone : Ok (plain r ∅) (k none))
    (hsome : ∀ i name, Ok (plain (i ::ₘ r) ∅) (k (some (i, name)))) : Ok (plain r ∅) (namex parent cwd path k) :=
  namex_ok rfl (fun _ hx => absurd hx (notMem_empty _)) hnone hsome

theorem ilock_ok (hi : i ∈ L.refs) (hl : L.locks = ∅)
    (hk : Ok { L with locks := {i}, facts := L.facts ∪ {x | x = .live i ∧ i ∈ L.refs} } k) :
    Ok L (ilock i k) := by
  refine ⟨.inl hi, fun d hd => absurd (hl ▸ hd) (notMem_empty d), fun _ => hk.mono rfl rfl ?_ fun _ => id⟩
  show insert i L.locks = {i}
  rw [hl]
  exact ext fun x => ⟨fun hx => hx.resolve_right (notMem_empty x), .inl⟩

def making (r : Multiset Nat) (dp ip : Nat) : Local :=
    ⟨ip ::ₘ dp ::ₘ r, none, insert ip {dp}, {.isDir dp, .younger dp ip}⟩

theorem making_facts (j : Nat) : ∀ x ∈ (making r d i).facts, ¬ x.isEntry j ∧ x.Anchored (making r d i) := by
  have hd : d ∈ i ::ₘ d ::ₘ r := mem_cons_of_mem (mem_cons_self _ _)
  rintro x (rfl | rfl)
  · exact ⟨id, hd⟩
  · exact ⟨id, hd⟩

theorem making_locks : ∀ j ∈ (making r d i).locks, j ∈ (making r d i).refs := by
  rintro j (rfl | rfl)
  · exact mem_cons_self _ _
  · exact mem_cons_of_mem (mem_cons_self _ _)

theorem making_write {f : Node → Node} {j : Nat} (hj : j ∈ (making r d i).locks) (htype : ∀ n, (f n).type = n.type)
    (hents : ∀ n, (f n).ents = n.ents) (hk : Ok (making r d i) k) : Ok (making r d i) (.write j f k) :=
  write_ok hj htype hents hk rfl rfl rfl fun x hx => ⟨hx, (making_facts j x hx).1⟩

theorem making_link {k : Bool → Code} {j : Nat} (hj : j ∈ (making r d i).locks)
    (hnew : Dot name ∨ .younger j c ∈ (making r d i).facts)
    (hk : ∀ b, Ok (making r d i) (k b)) : Ok (making r d i) (dirlink j name c k) :=
  dirlink_ok (making_locks j hj) hj (hnew.imp_right .inr) (making_facts j) making_locks hk

theorem create_ok {type : Kind} {k : Option Nat → Code} (htype : type ≠ .free) (hnone : Ok (plain r ∅) (k none))
    (hsome : ∀ ip, Ok (plain (ip ::ₘ r) {ip}) (k (some ip))) : Ok (plain r ∅) (create cwd path type k) := by
  refine walk_ok hnone fun dp name => ?_
  have hdp : dp ∈ dp ::ₘ r := mem_cons_self _ _
  have hback : r = (dp ::ₘ r).erase dp := (erase_cons_head _ _).symm
  have hempty : (∅ : Set Nat) = {dp} \ {dp} := Set.sdiff_self.symm
  refine ilock_ok hdp rfl (dirlookup_ok hdp rfl ?_ fun ip => ?_)
  · refine ⟨htype, unlock_ok rfl hdp rfl hback hempty hnone, fun ip => ?_⟩
    refine ⟨.inl (mem_cons_self _ _), ?_, fun hout => ?_⟩
    · rintro d rfl
      exact ⟨.inl (.inl rfl), .inr (.inr ⟨d, .inl rfl, rfl⟩)⟩
    have hne : ip ≠ dp := hout
    have hip : ip ∈ (making r dp ip).locks := .inl rfl
    have hdpl : dp ∈ (making r dp ip).locks := .inr rfl
    have hfail : Ok (making r dp ip)
      (.write ip (fun x => { x with nlink := 0 }) (iunlockput ip (iunlockput dp (k none)))) := by
      refine making_write hip (fun _ => rfl) (fun _ => rfl) ?_
      refine unlock_ok rfl (making_locks ip hip) hip (erase_cons_head _ _).symm
        (insert_sdiff_self_of_notMem (s := {dp}) fun h => hne h).symm ?_
      exact unlock_ok rfl hdp rfl hback hempty hnone
    have hdone : Ok (making r dp ip) (iunlockput dp (k (some ip))) :=
      unlock_ok rfl (making_locks dp hdpl) hdpl (erase_second _ _ _).symm (pair_sdiff_right hne).symm (hsome ip)
    have hfinish : Ok (making r dp ip) (dirlink dp name ip fun linked =>
        if linked then
          if type = .dir then .write dp (addLink 1) (iunlockput dp (k (some ip))) else iunlockput dp (k (some ip))
        else .write ip (fun x => { x with nlink := 0 }) (iunlockput ip (iunlockput dp (k none)))) := by
      refine making_link hdpl (.inr (.inr rfl)) fun linked => ite_ok (fun _ => ite_ok (fun _ => ?_) fun _ => hdone)
        fun _ => hfail
      exact making_write hdpl (fun _ => rfl) (fun _ => rfl) hdone
    show Ok _ (.write ip _ _)
    refine Ok.mono (L := making r dp ip) ?_ rfl rfl rfl ?_
    · refine making_write hip (fun _ => rfl) (fun _ => rfl) (ite_ok (fun _ => ?_) fun _ => hfinish)
      refine making_link hip (.inl (.inl rfl)) fun _ => ite_ok (fun _ => ?_) fun _ => hfail
      exact making_link hip (.inl (.inr rfl)) fun _ => ite_ok (fun _ => hfinish) fun _ => hfail
    · rintro x (rfl | rfl)
      · exact .inl (.inl (.inl rfl))
      · exact .inl (.inr ⟨dp, .inl rfl, rfl⟩)
  · refine unlock_ok (r := ip ::ₘ r) rfl (mem_cons_of_mem hdp) rfl (erase_second _ _ _).symm hempty ?_
    refine ilock_ok (mem_cons_self _ _) rfl ⟨rfl, fun n _ => ?_⟩
    refine ite_ok (fun _ => plain_ok (hsome ip) rfl rfl rfl) fun _ => ?_
    exact unlock_ok rfl (mem_cons_self _ _) rfl (erase_cons_head _ _).symm Set.sdiff_self.symm hnone

theorem done_ok : Ok (plain {cwd} ∅) (.done cwd) := ⟨rfl, rfl⟩

theorem leave_ok (hp : L.pin = none) (hr : L.refs = i ::ₘ {cwd}) (hl : L.locks = {i}) :
    Ok L (iunlockput i (.done cwd)) := by
  refine unlock_ok hp (hr ▸ mem_cons_self _ _) (hl ▸ rfl) ?_ ?_ done_ok
  · rw [hr, erase_cons_head]
  · rw [hl, Set.sdiff_self]

theorem sysMknod_ok {type : Kind} (htype : type ≠ .free) : Ok (plain {cwd} ∅) (sysMknod cwd path type) :=
  create_ok htype done_ok fun _ => leave_ok rfl rfl rfl

theorem openInode_ok (hp : L.pin = none) (hr : L.refs = i ::ₘ {cwd}) (hl : L.locks = {i}) : Ok L (openInode cwd i) := by
  intro ok
  refine ite_ok (fun _ => ⟨hr ▸ mem_cons_self _ _, hp, ?_⟩) fun _ => leave_ok hp hr hl
  refine ⟨hl ▸ rfl, ?_, ?_⟩
  · show L.locks \ {i} = ∅
    rw [hl, Set.sdiff_self]
  · show L.refs.erase i = {cwd}
    rw [hr, erase_cons_head]

theorem sysOpen_ok {creating rdonly : Bool} : Ok (plain {cwd} ∅) (sysOpen cwd path creating rdonly) := by
  refine ite_ok (fun _ => create_ok (by decide) done_ok fun _ => openInode_ok rfl rfl rfl) fun _ => ?_
  refine walk_ok done_ok fun ip _ => ilock_ok (mem_cons_self ip {cwd}) rfl ⟨rfl, fun n _ => ?_⟩
  exact ite_ok (fun _ => leave_ok rfl rfl rfl) fun _ => openInode_ok rfl rfl rfl

theorem sysChdir_ok : Ok (plain {cwd} ∅) (sysChdir cwd path) := by
  refine walk_ok done_ok fun ip _ => ilock_ok (mem_cons_self ip {cwd}) rfl ⟨rfl, fun n _ => ?_⟩
  refine ite_ok (fun _ => leave_ok rfl rfl rfl) fun _ => ⟨rfl, ?_⟩
  have hback : ({ip} : Multiset Nat) = (ip ::ₘ {cwd}).erase cwd := (erase_second ip cwd 0).symm
  refine iput_ok (M := plain {ip} ∅) (mem_cons_of_mem (mem_singleton_self _)) (fun h => absurd h.1 h.2) hback
    Set.sdiff_self.symm (.plain rfl) done_ok

theorem sysUnlink_ok : Ok (plain {cwd} ∅) (sysUnlink cwd path) := by
  refine walk_ok done_ok fun dp name => ?_
  have hdp : dp ∈ dp ::ₘ ({cwd} : Multiset Nat) := mem_cons_self _ _
  refine ilock_ok hdp rfl (ite_ok (fun _ => leave_ok rfl rfl rfl) fun hdot => ?_)
  refine dirlookup_ok hdp rfl (leave_ok rfl rfl rfl) fun ip => ⟨.inl (mem_cons_self ip (dp ::ₘ {cwd})), ?_,
    fun hout => ?_⟩
  · rintro d rfl
    exact ⟨.inr (.inl rfl), .inl ⟨name, hdot, .inl rfl⟩⟩
  have hne : ip ≠ dp := hout
  have hboth : ∀ facts, Ok ⟨ip ::ₘ dp ::ₘ {cwd}, none, insert ip {dp}, facts⟩
    (iunlockput ip (iunlockput dp (.done cwd))) := fun facts =>
    unlock_ok rfl (mem_cons_self ip (dp ::ₘ {cwd})) (.inl rfl) (erase_cons_head _ _).symm
      (insert_sdiff_self_of_notMem (s := {dp}) fun h => hne h).symm (leave_ok rfl rfl rfl)
  have hrest : ∀ facts, Ok ⟨ip ::ₘ dp ::ₘ {cwd}, none, insert ip {dp}, facts⟩
      (iunlockput dp <| .write ip (addLink (-1)) <| iunlockput ip (.done cwd)) := fun facts =>
    unlock_ok (r := ip ::ₘ {cwd}) (l := {ip}) rfl (mem_cons_of_mem hdp) (.inr rfl) (erase_second _ _ _).symm
      (pair_sdiff_right hne).symm
      ⟨rfl, fun _ => rfl, fun _ _ hx _ => .inl hx, leave_ok rfl rfl rfl⟩
  refine ⟨.inl rfl, fun n _ => ite_ok (fun _ => trivial) fun _ => ite_ok (fun _ => hboth _) fun _ => ?_⟩
  refine ⟨.inr rfl, fun _ => rfl, fun n x hx hx0 => .inl (clear_mem hx hx0), ite_ok (fun _ => ?_) fun _ => hrest _⟩
  exact ⟨.inr rfl, fun _ => rfl, fun _ _ hx _ => .inl hx, hrest _⟩

theorem closeLast_ok : Ok (plain (i ::ₘ {cwd}) ∅) (closeLast cwd i) :=
  iput_ok (M := plain {cwd} ∅) (mem_cons_self i {cwd}) (fun h => absurd h (notMem_empty _)) (erase_cons_head _ _).symm
    rfl (.plain rfl) done_ok

theorem sysLink_ok {old new : Path} : Ok (plain {cwd} ∅) (sysLink cwd old new) := by
  refine walk_ok done_ok fun ip _ => ilock_ok (mem_cons_self ip {cwd}) rfl ⟨rfl, fun n hlive => ?_⟩
  refine ite_ok (fun _ => leave_ok rfl rfl rfl) fun hdir => ?_
  have hip : ip ∈ ip ::ₘ ({cwd} : Multiset Nat) := mem_cons_self _ _
  have hbad : ∀ facts, Ok ⟨ip ::ₘ {cwd}, none, ∅, facts⟩ (ilock ip <| .write ip (addLink (-1)) <|
    iunlockput ip (.done cwd)) :=
    fun facts => ilock_ok hip rfl ⟨rfl, fun _ => rfl, fun _ _ hx _ => .inl hx, leave_ok rfl rfl rfl⟩
  refine ⟨rfl, fun _ => rfl, fun _ _ hx _ => .inl hx, rfl, ?_⟩
  refine Ok.mono (L := ⟨ip ::ₘ {cwd}, none, ∅, {.notDir ip}⟩) ?_ rfl rfl Set.sdiff_self ?_
  · refine namex_ok rfl ?_ (hbad _) fun dp name => ?_
    · rintro x rfl
      exact hip
    · have hdp : dp ∈ dp ::ₘ ip ::ₘ ({cwd} : Multiset Nat) := mem_cons_self _ _
      refine ilock_ok hdp rfl (Ok.mono (L := ⟨dp ::ₘ ip ::ₘ {cwd}, none, {dp}, {.notDir ip}⟩) ?_ rfl rfl rfl
        fun x hx => .inl hx)
      refine dirlink_ok hdp rfl (.inr (.inl rfl)) ?_ ?_ fun linked => ite_ok (fun _ => ?_) fun _ => ?_
      · rintro x rfl
        exact ⟨id, mem_cons_of_mem hip⟩
      · rintro j rfl
        exact hdp
      · exact unlock_ok rfl hdp rfl (erase_cons_head _ _).symm Set.sdiff_self.symm closeLast_ok
      · exact unlock_ok rfl hdp rfl (erase_cons_head _ _).symm Set.sdiff_self.symm (hbad _)
  · rintro x rfl
    exact ⟨⟨.inr ⟨hip, hlive (.inr ⟨rfl, hip⟩), .inr (.inl ⟨rfl, hdir⟩)⟩, id⟩, hip⟩

theorem fileAccess_ok : Ok ⟨{cwd}, some i, ∅, ∅⟩ (fileAccess cwd i) := by
  refine ⟨.inr rfl, fun d hd => absurd hd (notMem_empty d), fun hout => ⟨.inl rfl, ?_, rfl⟩⟩
  exact insert_sdiff_self_of_notMem hout

end Calls

end Xv6.InodeLocks
