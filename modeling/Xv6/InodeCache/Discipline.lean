import Mathlib.Data.Multiset.AddSub
import Xv6.InodeCache.Code

namespace Xv6.InodeCache

open Function

def Mapped (v : Dinode) (bn : Nat) : Prop := if bn < ndirect then v.addrs bn ≠ 0 else v.addrs ndirect ≠ 0

def SolidTo (v : Dinode) (n : Nat) : Prop := ∀ bn, bn * bsize < n → Mapped v bn

structure Good (v : Dinode) : Prop where
  type : v.type ≠ 0
  solid : SolidTo v v.size

/-- What the holder of the lock of an entry knows. -/
inductive Held
  /-- nothing: the entry may not be valid -/
  | unread
  /-- the fields, and whether they may differ from the disk -/
  | has (v : Dinode) (dirty : Bool)
  /-- the dinode has been freed, but the entry is still valid -/
  | freed

structure Local where
  refs : Multiset Slot
  pin : Option Slot
  locks : Slot → Option Held

def Local.lock (L : Local) (ip : Slot) (h : Held) : Local := { L with locks := update L.locks ip (some h) }

def Local.unlock (L : Local) (ip : Slot) : Local := { L with locks := update L.locks ip none }

def Local.get (L : Local) (ip : Slot) : Local := { L with refs := ip ::ₘ L.refs }

def Local.put (L : Local) (ip : Slot) : Local := { L with refs := L.refs.erase ip }

/-- The discipline: fields are only touched under the lock, and a lock is only released when the disk has the
fields. -/
def Ok (L : Local) : Code → Prop
  | .done cwd => L.refs = {cwd} ∧ ∀ ip, L.locks ip = none
  | .exited => L.refs = 0 ∧ ∀ ip, L.locks ip = none
  | .panic => True
  | .iget _ k => ∀ ip, Ok (L.get ip) (k ip)
  | .idup ip k => ip ∈ L.refs ∧ Ok (L.get ip) k
  | .acquire ip k => (ip ∈ L.refs ∨ L.pin = some ip) ∧ (L.locks ip = none → Ok (L.lock ip .unread) k)
  | .load ip k => L.locks ip = some .unread ∧ ∀ v, Good v → Ok (L.lock ip (.has v false)) k
  | .read ip k => ∃ v d, L.locks ip = some (.has v d) ∧ Ok L (k v)
  | .set ip f k => ∃ v d, L.locks ip = some (.has v d) ∧ Ok (L.lock ip (.has (f v) true)) k
  | .iupdate ip k => ∃ v d, L.locks ip = some (.has v d) ∧
      (v.type = 0 ∧ Ok (L.lock ip .freed) k ∨ Good v ∧ Ok (L.lock ip (.has v false)) k)
  | .invalidate ip k => L.locks ip = some .freed ∧ Ok (L.lock ip .unread) k
  | .release ip k => ((∃ v, L.locks ip = some (.has v false)) ∨ L.locks ip = some .unread) ∧ Ok (L.unlock ip) k
  | .last ip k => ip ∈ L.refs ∧ (L.locks ip ≠ none → ip ∈ L.refs.erase ip) ∧ Ok L (k false) ∧
      (L.locks ip = none → ∀ v, Good v → Ok (L.lock ip (.has v false)) (k true))
  | .deref ip k => ip ∈ L.refs ∧ (L.locks ip ≠ none → ip ∈ L.refs.erase ip) ∧ Ok (L.put ip) k
  | .ialloc type k => type ≠ 0 ∧ ∀ r, Ok L (k r)
  | .choose k => ∀ n, Ok L (k n)
  | .install ip k => ip ∈ L.refs ∧ L.pin = none ∧ Ok { L.put ip with pin := some ip } k

section Locals

variable {L : Local} {ip dp : Slot} {h g : Held}

theorem lock_self : (L.lock ip h).locks ip = some h := update_self _ _ _

theorem lock_of_ne (hne : dp ≠ ip) : (L.lock ip h).locks dp = L.locks dp := update_of_ne hne _ _

theorem lock_lock : (L.lock ip h).lock ip g = L.lock ip g := by
  simp only [Local.lock, update_idem]

theorem lock_unlock : (L.lock ip h).unlock ip = L.unlock ip := by
  simp only [Local.lock, Local.unlock, update_idem]

theorem lock_eq (heq : L.locks ip = some h) : L.lock ip h = L := by
  simp only [Local.lock, ← heq, update_eq_self]

theorem unlock_eq (hnone : L.locks ip = none) : L.unlock ip = L := by
  simp only [Local.unlock, ← hnone, update_eq_self]

theorem unlock_lock (hne : dp ≠ ip) : (L.lock ip h).unlock dp = (L.unlock dp).lock ip h := by
  simp only [Local.lock, Local.unlock, update_comm hne]

theorem get_put : (L.get ip).put ip = L := by
  simp only [Local.get, Local.put, Multiset.erase_cons_head]

end Locals

section Blocks

variable {v w : Dinode} {n off bn : Nat}

structure Extends (v w : Dinode) : Prop where
  type : w.type = v.type
  size : w.size = v.size
  mapped : ∀ bn, Mapped v bn → Mapped w bn

theorem Extends.refl (v : Dinode) : Extends v v := ⟨rfl, rfl, fun _ h => h⟩

theorem Extends.trans {u : Dinode} (h : Extends v w) (h' : Extends w u) : Extends v u :=
  ⟨h'.type.trans h.type, h'.size.trans h.size, fun bn hm => h'.mapped bn (h.mapped bn hm)⟩

theorem setAddr_extends {i addr : Nat} (h : addr ≠ 0) : Extends v (setAddr i addr v) := by
  have hkeep : ∀ j, v.addrs j ≠ 0 → update v.addrs i addr j ≠ 0 := by
    intro j hj
    by_cases hji : j = i
    · rw [hji, update_self]
      exact h
    · rwa [update_of_ne hji]
  refine ⟨rfl, rfl, fun bn hm => ?_⟩
  unfold Mapped at hm ⊢
  split at hm
  next hlt =>
    rw [if_pos hlt]
    exact hkeep bn hm
  next hge =>
    rw [if_neg hge]
    exact hkeep ndirect hm

theorem SolidTo.extends (h : SolidTo v n) (hw : Extends v w) : SolidTo w n := fun bn hbn => hw.mapped bn (h bn hbn)

theorem SolidTo.grow {m : Nat} (h : SolidTo v off) (hm : Mapped v (off / bsize)) (hle : off + m ≤ (off / bsize + 1) * bsize) :
    SolidTo v (off + m) := by
  intro bn hbn
  by_cases hlow : bn * bsize < off
  · exact h bn hlow
  · have heq : bn = off / bsize := by
      have hup : bn < off / bsize + 1 := by
        by_contra hge
        have := Nat.mul_le_mul_right bsize (Nat.le_of_not_lt hge)
        omega
      have hdown : off / bsize ≤ bn := by
        rw [Nat.div_le_iff_le_mul_add_pred (by decide)]
        simp only [bsize] at hlow ⊢
        omega
      omega
    exact heq ▸ hm

theorem chunk_le (off n : Nat) : off + chunk off n ≤ (off / bsize + 1) * bsize := by
  have hdiv := Nat.div_add_mod off bsize
  have hmod := Nat.mod_lt off (show 0 < bsize by decide)
  unfold chunk
  simp only [bsize] at *
  omega

end Blocks

section Content

variable {L : Local} {ip : Slot} {v : Dinode} {d : Bool} {off n bn : Nat} {k : Int → Code}

theorem ite_ok {p : Prop} [Decidable p] {a b : Code} (ha : p → Ok L a) (hb : ¬ p → Ok L b) : Ok L (if p then a else b) :=
  iteInduction ha hb

section
variable (hip : L.locks ip = some (.has v d))
include hip

theorem bmap_ok {k : Bool → Code}
    (hk : ∀ w d' found, Extends v w → (found = true → Mapped w bn) → (Mapped v bn → w = v ∧ d' = d) →
      Ok (L.lock ip (.has w d')) (k found)) :
    Ok L (bmap ip bn k) := by
  have hsame : ∀ found, (found = true → Mapped v bn) → Ok L (k found) := fun found hm => by
    have hok := hk v d found (Extends.refl v) hm fun _ => ⟨rfl, rfl⟩
    rwa [lock_eq hip] at hok
  refine ⟨v, d, hip, ?_⟩
  refine ite_ok (fun hlt => ite_ok (fun hzero => ?_) fun hne => ?_) fun hge =>
    ite_ok (fun _ => ite_ok (fun hzero => ?_) fun hne => ?_) fun _ => trivial
  · refine fun addr => ite_ok (fun _ => hsame false nofun) fun haddr =>
      ⟨v, d, hip, hk _ true true (setAddr_extends haddr) (fun _ => ?_) fun hm => ?_⟩
    · simp only [Mapped, if_pos hlt, setAddr, update_self]
      exact haddr
    · rw [Mapped, if_pos hlt] at hm
      exact absurd hzero hm
  · exact hsame true fun _ => by rw [Mapped, if_pos hlt]; exact hne
  · refine fun addr => ite_ok (fun _ => hsame false nofun) fun haddr => ⟨v, d, hip, fun b => ?_⟩
    have hnot : ¬ Mapped v bn := by
      rw [Mapped, if_neg hge]
      exact not_not.mpr hzero
    refine ite_ok (fun _ => hk _ true false (setAddr_extends haddr) nofun fun hm => absurd hm hnot) fun _ => ?_
    refine hk _ true true (setAddr_extends haddr) (fun _ => ?_) fun hm => absurd hm hnot
    simp only [Mapped, if_neg hge, setAddr, update_self]
    exact haddr
  · have hm : Mapped v bn := by
      rw [Mapped, if_neg hge]
      exact hne
    exact fun b => ite_ok (fun _ => hsame false nofun) fun _ => hsame true fun _ => hm

theorem readLoop_ok {tot : Nat} (hsolid : SolidTo v (off + n)) (hk : ∀ r, Ok L (k r)) :
    Ok L (readLoop ip k off n tot) := by
  induction n using Nat.strong_induction_on generalizing off tot with
  | _ n ih =>
    rw [readLoop]
    split
    next => exact hk _
    next hn =>
      have hpos := chunk_pos off hn
      have hle : chunk off n ≤ n := Nat.min_le_left _ _
      have hm : Mapped v (off / bsize) := hsolid _ (by have := Nat.div_mul_le_self off bsize; omega)
      refine bmap_ok hip fun w d' found _ _ hsame => ?_
      obtain ⟨rfl, rfl⟩ := hsame hm
      rw [lock_eq hip]
      refine ite_ok (fun _ c => ite_ok (fun _ => hk _) fun _ => ?_) fun _ => hk _
      exact ih _ (by omega) (by rw [Nat.add_assoc, Nat.add_sub_cancel' hle]; exact hsolid)

theorem readi_ok (hsolid : SolidTo v v.size) (hk : ∀ r, Ok L (k r)) : Ok L (readi ip off n k) := by
  refine ⟨v, d, hip, ite_ok (fun _ => hk 0) fun hin => readLoop_ok hip (fun bn hbn => hsolid bn ?_) hk⟩
  have hoff : off ≤ v.size := Nat.le_of_not_lt fun hlt => hin (.inl hlt)
  have := Nat.min_le_right n (v.size - off)
  omega

theorem writeLoop_ok {k : Nat → Int → Code} {tot : Nat} (hsolid : SolidTo v v.size) (hoff : SolidTo v off)
    (hk : ∀ w d' off' tot', Extends v w → SolidTo w off' → Ok (L.lock ip (.has w d')) (k off' tot')) : Ok L (writeLoop ip k off n tot) := by
  induction n using Nat.strong_induction_on generalizing L v d off tot with
  | _ n ih =>
    rw [writeLoop]
    split
    next =>
      have hok := hk v d off tot (Extends.refl v) hoff
      rwa [lock_eq hip] at hok
    next hn =>
      have hpos := chunk_pos off hn
      refine bmap_ok hip fun w d' found hext hm _ => ?_
      have hstop : Ok (L.lock ip (.has w d')) (k off tot) := hk w d' off tot hext (hoff.extends hext)
      refine ite_ok (fun hfound c => ite_ok (fun _ => hstop) fun _ => ?_) fun _ => hstop
      have hmore := (hoff.extends hext).grow (hm hfound) (chunk_le off n)
      refine ih _ (by omega) lock_self (hext.size ▸ hsolid.extends hext) hmore fun u d'' off' tot' hu hsolid' => ?_
      rw [lock_lock]
      exact hk u d'' off' tot' (hext.trans hu) hsolid'

end

theorem writei_ok (hip : L.locks ip = some (.has v false)) (hgood : Good v)
    (hk : ∀ w r, Good w → Ok (L.lock ip (.has w false)) (k r)) : Ok L (writei ip off n k) := by
  have hsame : ∀ r, Ok L (k r) := fun r => by
    have hok := hk v r hgood
    rwa [lock_eq hip] at hok
  refine ⟨v, false, hip, ite_ok (fun _ => hsame _) fun hin => ite_ok (fun _ => hsame _) fun _ => ?_⟩
  have hle : off ≤ v.size := Nat.le_of_not_lt fun hlt => hin (.inl hlt)
  refine writeLoop_ok hip hgood.solid (fun bn hbn => hgood.solid bn (hbn.trans_le hle)) fun w d' off' tot' hext hsolid => ?_
  have hsolid' : SolidTo w w.size := hext.size ▸ hgood.solid.extends hext
  have htype : w.type ≠ 0 := hext.type ▸ hgood.type
  refine ⟨w, d', lock_self, ite_ok (fun _ => ⟨w, d', lock_self, ?_⟩) fun _ => ?_⟩
  · rw [lock_lock]
    have hnew : Good (setSize off' w) := ⟨htype, hsolid⟩
    refine ⟨_, true, lock_self, .inr ⟨hnew, ?_⟩⟩
    rw [lock_lock]
    exact hk _ _ hnew
  · refine ⟨w, d', lock_self, .inr ⟨⟨htype, hsolid'⟩, ?_⟩⟩
    rw [lock_lock]
    exact hk w _ ⟨htype, hsolid'⟩

theorem itruncLoop_ok {k : Code} {is : List Nat} (hip : L.locks ip = some (.has v d))
    (hk : ∀ w d', w.type = v.type → Ok (L.lock ip (.has w d')) k) : Ok L (itruncLoop ip k is) := by
  induction is generalizing L v d with
  | nil =>
    have hok := hk v d rfl
    rwa [lock_eq hip] at hok
  | cons i is ih =>
    refine ⟨v, d, hip, ite_ok (fun _ => ⟨v, d, hip, ih lock_self fun w d' hw => ?_⟩) fun _ => ih hip hk⟩
    rw [lock_lock]
    exact hk w d' hw

theorem itrunc_ok {k : Code} (hip : L.locks ip = some (.has v d)) (htype : v.type ≠ 0)
    (hk : ∀ w, Good w → Ok (L.lock ip (.has w false)) k) : Ok L (itrunc ip k) := by
  refine itruncLoop_ok hip fun w d' hw => ⟨w, d', lock_self, ?_⟩
  have hgood : Good (setSize 0 w) := ⟨by rw [← hw] at htype; exact htype, fun bn hbn => absurd hbn (Nat.not_lt_zero _)⟩
  rw [lock_lock]
  refine ⟨_, true, lock_self, .inr ⟨hgood, ?_⟩⟩
  rw [lock_lock]
  exact hk _ hgood

theorem iput_ok {k : Code} (hi : ip ∈ L.refs) (hl : L.locks ip ≠ none → ip ∈ L.refs.erase ip) (hk : Ok (L.put ip) k) :
    Ok L (iput ip k) := by
  refine ⟨hi, hl, ⟨hi, hl, hk⟩, fun hnone v hgood => ?_⟩
  refine itrunc_ok lock_self hgood.type fun w hw => ⟨w, false, lock_self, ?_⟩
  simp only [lock_lock]
  refine ⟨_, true, lock_self, .inl ⟨rfl, lock_self, ?_⟩⟩
  simp only [lock_lock]
  refine ⟨.inr lock_self, ?_⟩
  rw [lock_unlock, unlock_eq hnone]
  exact ⟨hi, hl, hk⟩

theorem ilock_ok {k : Code} (hi : ip ∈ L.refs ∨ L.pin = some ip) (hk : L.locks ip = none → ∀ v, Good v → Ok (L.lock ip (.has v false)) k) :
    Ok L (ilock ip k) := by
  refine ⟨hi, fun hnone => ⟨lock_self, fun v hgood => ?_⟩⟩
  rw [lock_lock]
  exact hk hnone v hgood

end Content

end Xv6.InodeCache
