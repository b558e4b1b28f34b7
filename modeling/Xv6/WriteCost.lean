import Xv6.FileWrite

namespace Xv6.Fs

open Prog

/-- How many blocks a transaction can log before `log_write` panics. -/
def State.logCap (s : State) : Nat := min 30 (s.sb.nlog - 1)

def State.indirect (s : State) (k : Nat) : Nat := (s.itable k).din.addrs ndirect

/-- The blocks logged, with those that the first use of the indirect block `a` will add. -/
def charge (lh : List Nat) (a : Nat) : Nat := lh.length + if a = 0 then 2 else if a ∈ lh then 0 else 1

def State.charge (s : State) (k : Nat) : Nat := Fs.charge s.lh (s.indirect k)

def logged (lh : List Nat) (b : Nat) : List Nat := if b ∈ lh then lh else lh ++ [b]

section Logged

variable {lh : List Nat} {a b : Nat}

theorem mem_logged : a ∈ logged lh b ↔ a ∈ lh ∨ a = b := by
  unfold logged
  split
  next hb =>
    constructor
    · exact .inl
    · rintro (ha | rfl)
      · exact ha
      · exact hb
  next => simp

theorem length_logged_le (lh : List Nat) (b : Nat) : (logged lh b).length ≤ lh.length + 1 := by
  unfold logged
  split <;> simp

theorem charge_logged (lh : List Nat) (a b : Nat) : charge (logged lh b) a ≤ charge lh a + 1 := by
  by_cases hb : b ∈ lh
  · simp [logged, hb]
  · by_cases ha : a ∈ lh
    · simp [charge, logged, hb, ha]
      omega
    · by_cases hab : a = b <;> simp [charge, logged, hb, ha, hab] <;> split <;> omega

theorem charge_logged_self (ha : a ≠ 0) : charge (logged lh a) a = (logged lh a).length := by
  have hmem : a ∈ logged lh a := mem_logged.mpr (.inr rfl)
  simp [charge, ha, hmem]

theorem charge_logged_le (ha : a ≠ 0) : charge (logged lh a) a ≤ charge lh a := by
  rw [charge_logged_self ha]
  by_cases hmem : a ∈ lh <;> simp [charge, logged, ha, hmem]

theorem logged_of_mem (hb : b ∈ lh) : logged lh b = lh := if_pos hb

end Logged

structure Charged (k c : Nat) (s t : State) : Prop where
  super : t.sb = s.sb
  ops : t.outstanding = s.outstanding
  logged : ∀ b ∈ s.lh, b ∈ t.lh
  charge : t.charge k ≤ s.charge k + c

def TooBig (k c : Nat) (s : State) (e : Fault) : Prop :=
  e = .panic "too big a transaction" ∧ s.logCap ≤ s.charge k + c

section Charge

variable {s t u : State} {k c d b : Nat} {e : Fault}

theorem Charged.refl (k : Nat) (s : State) : Charged k 0 s s := ⟨rfl, rfl, fun _ h => h, le_rfl⟩

theorem Charged.trans (h : Charged k c s t) (h' : Charged k d t u) : Charged k (c + d) s u where
  super := h'.super.trans h.super
  ops := h'.ops.trans h.ops
  logged b hb := h'.logged b (h.logged b hb)
  charge := by
    have hst := h.charge
    have htu := h'.charge
    omega

theorem Charged.trans_same (h : Charged k c s t) (h' : Charged k 0 t u) : Charged k c s u := h.trans h'

theorem Charged.mono (h : Charged k c s t) (hcd : c ≤ d) : Charged k d s t :=
  ⟨h.super, h.ops, h.logged, h.charge.trans (by omega)⟩

theorem Charged.tooBig (hst : Charged k c s t) (h : TooBig k d t e) : TooBig k (c + d) s e := by
  obtain ⟨he, hcap⟩ := h
  refine ⟨he, ?_⟩
  have hcharge := hst.charge
  rw [State.logCap, hst.super] at hcap
  rw [State.logCap]
  omega

theorem TooBig.mono (h : TooBig k c s e) (hcd : c ≤ d) : TooBig k d s e := ⟨h.1, h.2.trans (by omega)⟩

theorem length_le_charge (s : State) (k : Nat) : s.lh.length ≤ s.charge k := Nat.le_add_right _ _

theorem Charged.of_same (hsuper : t.sb = s.sb) (hops : t.outstanding = s.outstanding) (hlh : t.lh = s.lh)
    (hind : t.indirect k = s.indirect k) : Charged k 0 s t :=
  ⟨hsuper, hops, fun _ hb => hlh.symm ▸ hb, by rw [State.charge, State.charge, hlh, hind]; exact le_rfl⟩

structure Logs (b : Nat) (s t : State) : Prop where
  super : t.sb = s.sb
  ops : t.outstanding = s.outstanding
  itable : t.itable = s.itable
  lh : t.lh = logged s.lh b

theorem logWrite_cost (k b : Nat) (hops : 0 < s.outstanding) : wp (logWrite b) (fun _ t => Logs b s t) (TooBig k 0 s) s := by
  simp only [logWrite, wp_bind, wp_get, wp_ite, wp_panic, wp_set]
  refine ⟨fun hfull => ⟨rfl, ?_⟩, fun _ => ⟨fun hout => by omega, fun _ => ⟨rfl, rfl, rfl, rfl⟩⟩⟩
  have hle := length_le_charge s k
  unfold State.logCap
  omega

section
variable (h : Logs b s t)
include h

theorem Logs.indirect (k : Nat) : t.indirect k = s.indirect k := by
  rw [State.indirect, State.indirect, h.itable]

theorem Logs.mem : b ∈ t.lh := h.lh.symm ▸ mem_logged.mpr (.inr rfl)

theorem Logs.charged (k : Nat) : Charged k 1 s t where
  super := h.super
  ops := h.ops
  logged a ha := h.lh.symm ▸ mem_logged.mpr (.inl ha)
  charge := by
    rw [State.charge, State.charge, h.lh, h.indirect]
    exact charge_logged _ _ _

theorem Logs.charged_of_mem (k : Nat) (hb : b ∈ s.lh) : Charged k 0 s t :=
  .of_same h.super h.ops (h.lh.trans (logged_of_mem hb)) (h.indirect k)

theorem Logs.charged_indirect {k : Nat} (hb : s.indirect k = b) (hne : b ≠ 0) : Charged k 0 s t where
  super := h.super
  ops := h.ops
  logged a ha := h.lh.symm ▸ mem_logged.mpr (.inl ha)
  charge := by
    rw [State.charge, State.charge, h.lh, h.indirect, hb]
    exact charge_logged_le hne

end

theorem balloc_cost (k : Nat) (hops : 0 < s.outstanding) :
    wp balloc (fun b t => b = 0 ∧ t = s ∨
      Charged k 2 s t ∧ t.itable = s.itable ∧ t.lh.length ≤ s.lh.length + 2 ∧ b ∈ t.lh) (TooBig k 2 s) s := by
  simp only [balloc, wp_bind, wp_get]
  split
  next => exact wp_pure.mpr (.inl ⟨rfl, rfl⟩)
  next b _ =>
    rw [wp_bind, wp_set, wp_bind]
    have hset : Charged k 0 s { s with disk := s.disk.setBit s.sb b true } := .of_same rfl rfl rfl rfl
    refine (logWrite_cost k _ (by exact hops)).mono ?_ fun e he => (hset.tooBig he).mono (show 0 + 0 ≤ 2 by omega)
    intro _ t hlog
    have hfirst : Charged k 1 s t := (hset.trans (hlog.charged k)).mono (by omega)
    simp only [bzero, wp_bind, wp_bwrite]
    have hzero : Charged k 0 t { t with disk := put t.disk b fun _ => 0 } := .of_same rfl rfl rfl rfl
    refine (logWrite_cost k b (by rw [hfirst.ops]; exact hops)).mono ?_ fun e he =>
      ((hfirst.trans hzero).tooBig he).mono (show 1 + 0 + 0 ≤ 2 by omega)
    intro _ u hlog'
    refine wp_pure.mpr (.inr ⟨((hfirst.trans hzero).trans (hlog'.charged k)).mono (by omega), ?_, ?_, hlog'.mem⟩)
    · rw [hlog'.itable]
      exact hlog.itable
    · have hlh : t.lh = logged s.lh (s.sb.bblock b) := hlog.lh
      have hlh' : u.lh = logged t.lh b := hlog'.lh
      have h1 := length_logged_le s.lh (s.sb.bblock b)
      have h2 := length_logged_le t.lh b
      rw [hlh']
      rw [← hlh] at h1
      omega

structure MapCost (k : Nat) (s : State) (b : Nat) (t : State) : Prop where
  charged : Charged k 2 s t
  found : Charged k 1 s t ∨ b ∈ t.lh

theorem MapCost.refl (k : Nat) (s : State) (b : Nat) : MapCost k s b s :=
  ⟨(Charged.refl k s).mono (by omega), .inl ((Charged.refl k s).mono (by omega))⟩

theorem Charged.mapCost (h : Charged k 0 s t) (hmap : MapCost k t b u) : MapCost k s b u :=
  ⟨(h.trans hmap.charged).mono (by omega), hmap.found.imp_left fun ht => (h.trans ht).mono (by omega)⟩

section
variable (hops : 0 < s.outstanding)
include hops

theorem bmapSlot_cost {j : Nat} (hj : j < ndirect) :
    wp (bmapSlot k j) (MapCost k s) (TooBig k 2 s) s := by
  simp only [bmapSlot, wp_bind, wp_inode, wp_ite]
  refine ⟨fun _ => ?_, fun _ => wp_pure.mpr (.refl k s _)⟩
  refine (balloc_cost k hops).mono ?_ fun _ => id
  rintro b t (⟨rfl, rfl⟩ | ⟨hcharge, htable, hlen, hmem⟩)
  · exact ⟨fun hb => absurd rfl hb, fun _ => wp_pure.mpr (.refl k t 0)⟩
  · refine ⟨fun _ => ?_, fun _ => wp_pure.mpr ⟨hcharge, .inr hmem⟩⟩
    simp only [setAddr, wp_setDin]
    refine wp_pure.mpr ⟨hcharge.trans_same (.of_same rfl rfl rfl ?_), .inr hmem⟩
    simp only [State.indirect, put_same]
    exact put_ne _ _ _ (by omega)

theorem bmapIndirect_cost :
    wp (bmapSlot k ndirect) (fun a t => a = 0 ∧ Charged k 2 s t ∨ Charged k 0 s t ∧ t.indirect k = a) (TooBig k 2 s) s := by
  simp only [bmapSlot, wp_bind, wp_inode, wp_ite]
  refine ⟨fun hempty => ?_, fun _ => wp_pure.mpr (.inr ⟨.refl k s, rfl⟩)⟩
  refine (balloc_cost k hops).mono ?_ fun _ => id
  rintro b t (⟨rfl, rfl⟩ | ⟨hcharge, htable, hlen, hmem⟩)
  · exact ⟨fun hb => absurd rfl hb, fun _ => wp_pure.mpr (.inl ⟨rfl, (Charged.refl k t).mono (by omega)⟩)⟩
  · refine ⟨fun hb => ?_, fun hb => wp_pure.mpr (.inl ⟨not_not.mp hb, hcharge⟩)⟩
    simp only [setAddr, wp_setDin]
    refine wp_pure.mpr (.inr ⟨⟨hcharge.super, hcharge.ops, hcharge.logged, ?_⟩, ?_⟩)
    · have hs : s.indirect k = 0 := hempty
      simp only [State.charge, State.indirect, put_same] at hs ⊢
      simp only [charge, hs, hmem, if_neg hb, if_true]
      omega
    · simp only [State.indirect, put_same]

theorem bmapEntry_cost {a j : Nat} (ha : s.indirect k = a) (hne : a ≠ 0) :
    wp (bmapEntry a j) (MapCost k s) (TooBig k 2 s) s := by
  simp only [bmapEntry, wp_bind, wp_get, wp_ite]
  refine ⟨fun _ => ?_, fun _ => wp_pure.mpr (.refl k s _)⟩
  refine (balloc_cost k hops).mono ?_ fun _ => id
  rintro b t (⟨rfl, rfl⟩ | ⟨hcharge, htable, hlen, hmem⟩)
  · exact ⟨fun hb => absurd rfl hb, fun _ => wp_pure.mpr (.refl k t 0)⟩
  · refine ⟨fun _ => ?_, fun _ => wp_pure.mpr ⟨hcharge, .inr hmem⟩⟩
    rw [wp_bwrite]
    have hwrite : Charged k 2 s { t with disk := put t.disk a (splice (t.disk a) (4 * j) 4 (byteOf b)) } :=
      hcharge.trans_same (by exact .of_same rfl rfl rfl rfl)
    refine (logWrite_cost k a (by rw [hwrite.ops]; exact hops)).mono ?_ fun e he => hwrite.tooBig he
    intro _ u hlog
    have hind : t.indirect k = a := by
      rw [← ha, State.indirect, State.indirect, htable]
    exact wp_pure.mpr ⟨hwrite.trans (hlog.charged_indirect hind hne), .inr (hlog.lh.symm ▸ mem_logged.mpr (.inl hmem))⟩

theorem bmap_cost {bn : Nat} (hbn : bn < maxfile) :
    wp (bmap k bn) (fun b t => b = 0 ∧ Charged k 2 s t ∨ MapCost k s b t) (TooBig k 2 s) s := by
  unfold bmap
  split
  next hdirect => exact (bmapSlot_cost hops hdirect).mono (fun _ _ => .inr) fun _ => id
  next hindirect =>
    have hlt : bn - ndirect < nindirect := by
      simp only [maxfile] at hbn
      omega
    rw [if_pos hlt, wp_bind]
    refine (bmapIndirect_cost hops).mono ?_ fun _ => id
    intro a t hcase
    split
    next ha =>
      refine wp_pure.mpr (.inl ⟨rfl, ?_⟩)
      rcases hcase with ⟨-, hcharge⟩ | ⟨hcharge, -⟩
      · exact hcharge
      · exact hcharge.mono (by omega)
    next ha =>
      rcases hcase with ⟨h0, -⟩ | ⟨hcharge, hind⟩
      · exact absurd h0 ha
      · refine (bmapEntry_cost (by rw [hcharge.ops]; exact hops) hind ha).mono ?_ fun e he => ?_
        · exact fun b u hmap => .inr (hcharge.mapCost hmap)
        · exact (hcharge.tooBig he).mono (by omega)

end

def touched (off n : Nat) : Nat := if n = 0 then 0 else pastBlock (off + n) - off / bsize

theorem touched_step {off n m : Nat} (hn : 0 < n) (hm : min n (bsize - off % bsize) = m) :
    touched (off + m) (n - m) + 1 ≤ touched off n := by
  have hpos : 1 ≤ touched off n := by
    rw [touched, if_neg (by omega)]
    simp only [pastBlock, bsize]
    omega
  by_cases hrest : n - m = 0
  · rw [touched, if_pos hrest]
    omega
  · have hfull : m = bsize - off % bsize := by
      rcases le_total n (bsize - off % bsize) with hle | hle
      · rw [min_eq_left hle] at hm
        omega
      · rw [min_eq_right hle] at hm
        exact hm.symm
    have hend : off + m + (n - m) = off + n := by omega
    have hnext : (off + m) / bsize = off / bsize + 1 := by
      simp only [bsize] at *
      omega
    rw [touched, touched, if_neg hrest, if_neg (by omega), hend, hnext]
    simp only [pastBlock, bsize] at *
    omega

theorem writeLoop_cost {n : Nat} {src : Source} {fuel tot off : Nat} (hops : 0 < s.outstanding) (htot : tot ≤ n)
    (hend : off + (n - tot) ≤ maxfile * bsize) :
    wp (writeLoop k n src fuel tot off) (fun _ t => Charged k (2 * touched off (n - tot)) s t)
      (TooBig k (2 * touched off (n - tot)) s) s := by
  induction fuel generalizing tot off s with
  | zero => exact wp_pure.mpr ((Charged.refl k s).mono (by omega))
  | succ fuel ih =>
    unfold writeLoop
    split
    next hlt =>
      have hbn : off / bsize < maxfile := by
        simp only [maxfile, ndirect, nindirect, bsize] at *
        omega
      generalize hm : min (n - tot) (bsize - off % bsize) = m
      have htouch : touched (off + m) (n - (tot + m)) + 1 ≤ touched off (n - tot) := by
        rw [← Nat.sub_sub]
        exact touched_step (by omega) hm
      rw [wp_bind]
      refine (bmap_cost hops hbn).mono ?_ fun e he => TooBig.mono he (by omega)
      intro b t hcase
      have ht : Charged k 2 s t := by
        rcases hcase with ⟨-, hcharge⟩ | hmap
        · exact hcharge
        · exact hmap.charged
      split
      next => exact wp_pure.mpr (ht.mono (by omega))
      next hb =>
        have hfound := (hcase.resolve_left fun h => hb h.1).found
        rcases hsrc : src tot m with ⟨ok, data⟩
        simp only [hsrc, wp_bind, wp_get, wp_bwrite]
        have hwrite : Charged k 0 t { t with disk := put t.disk b (splice (t.disk b) (off % bsize) m data) } :=
          .of_same rfl rfl rfl rfl
        split
        next => exact wp_pure.mpr ((ht.trans_same hwrite).mono (by omega))
        next =>
          rw [wp_bind]
          refine (logWrite_cost k b (by rw [hwrite.ops, ht.ops]; exact hops)).mono ?_ fun e he =>
            ((ht.trans_same hwrite).tooBig he).mono (by omega)
          intro _ u hlog
          have hu : Charged k 2 s u := by
            rcases hfound with hone | hmem
            · exact (hone.trans_same hwrite).trans (hlog.charged k)
            · exact (ht.trans_same hwrite).trans_same (hlog.charged_of_mem k hmem)
          refine (ih (by rw [hu.ops]; exact hops) (by omega) (by omega)).mono ?_ fun e he => ?_
          · exact fun _ r hr => (hu.trans hr).mono (by omega)
          · exact (hu.tooBig he).mono (by omega)
    next => exact wp_pure.mpr ((Charged.refl k s).mono (by omega))

/-- `writei` panics in the log only if the transaction has no room for two blocks for each block of the
file, and two for the indirect block. -/
theorem writei_cost {off n : Nat} {src : Source} (hops : 0 < s.outstanding) :
    wp (writei k src off n) (fun _ _ => True)
      (fun e => e = .panic "too big a transaction" ∧ s.logCap ≤ s.lh.length + (2 * touched off n + 2)) s := by
  simp only [writei, wp_bind, wp_inode, wp_ite]
  refine ⟨fun _ => wp_pure.mpr trivial, fun _ => ⟨fun _ => wp_pure.mpr trivial, fun hbig => ?_⟩⟩
  have hroom : ∀ e, TooBig k (2 * touched off n) s e →
      e = .panic "too big a transaction" ∧ s.logCap ≤ s.lh.length + (2 * touched off n + 2) := by
    rintro e ⟨he, hcap⟩
    refine ⟨he, hcap.trans ?_⟩
    have hcharge : s.charge k ≤ s.lh.length + 2 := by
      unfold State.charge charge
      split
      next => exact le_rfl
      next => split <;> omega
    omega
  refine (writeLoop_cost hops (Nat.zero_le n) (by omega)).mono ?_ hroom
  intro r t ht
  rw [wp_setDin]
  simp only [iupdate, wp_bind, wp_get, wp_set]
  generalize hu : State.mk _ _ _ _ _ _ = u
  have hsame : Charged k 0 t u := by
    subst hu
    refine .of_same rfl rfl rfl ?_
    simp only [State.indirect, put_same]
    split <;> rfl
  refine (logWrite_cost k _ (by rw [hsame.ops, ht.ops]; exact hops)).mono (fun _ _ _ => wp_pure.mpr trivial) fun e he => ?_
  exact hroom e ((ht.trans_same hsame).tooBig he)

end Charge

end Xv6.Fs
