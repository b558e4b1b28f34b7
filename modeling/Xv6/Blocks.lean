import Mathlib.Order.Interval.Finset.Nat
import Mathlib.Data.Nat.Count
import Xv6.FsView

namespace Xv6.Fs

open Count Prog

/-- The panics that the invariants of the file system rule out. -/
def ruledOut : List String := ["freeing free block", "ilock: no type", "dirlookup read", "dirlink read",
  "isdirempty: readi", "log_write outside of trans", "bmap: out of range"]

/-- What the specifications of the file system are relative to: the superblock, the operations in
progress, what holds of every disk that a transaction leaves, and the faults that are allowed. -/
structure Setting where
  sb : Superblock
  wf : sb.Wf
  ops : Nat
  pos : 0 < ops
  committed : Disk → Prop
  fault : Fault → Prop
  other : ∀ f, (∀ msg ∈ ruledOut, f ≠ .panic msg) → fault f

structure At (S : Setting) (R : Nat → ℤ) (dirty : Option Nat) (e : Nat → ℤ) (v : View) (s : State) : Prop where
  super : s.sb = S.sb
  ops : s.outstanding = S.ops
  sim : Sim S.sb R dirty e v s.disk s.itable
  commits : ∀ d ∈ s.commits, S.committed d

def View.free (sb : Superblock) (v : View) : Nat := Nat.count (fun b => v.bit b = false) sb.size

def SameTags (s t : State) : Prop := ∀ k, (t.itable k).inum = (s.itable k).inum ∧
  (t.itable k).valid = (s.itable k).valid ∧ (t.itable k).din.type = (s.itable k).din.type

section Basic

variable {S : Setting} {R e : Nat → ℤ} {dirty : Option Nat} {v w : View} {s t u : State} {i k b : Nat}

theorem SameTags.refl (s : State) : SameTags s s := fun _ => ⟨rfl, rfl, rfl⟩

theorem SameTags.of_eq (h : t.itable = s.itable) : SameTags s t := fun k => by rw [h]; exact ⟨rfl, rfl, rfl⟩

theorem SameTags.trans (h : SameTags s t) (h' : SameTags t u) : SameTags s u := fun k =>
  ⟨(h' k).1.trans (h k).1, (h' k).2.1.trans (h k).2.1, (h' k).2.2.trans (h k).2.2⟩

theorem SameTags.of_put {ip : Inode} (htable : t.itable = put s.itable k ip) (hinum : ip.inum = (s.itable k).inum)
    (hvalid : ip.valid = (s.itable k).valid) (htype : ip.din.type = (s.itable k).din.type) : SameTags s t := by
  intro l
  rw [htable]
  by_cases hl : l = k
  · rw [hl, put_same]
    exact ⟨hinum, hvalid, htype⟩
  · rw [put_ne _ _ _ hl]
    exact ⟨rfl, rfl, rfl⟩

theorem Loaded.of_tags (h : SameTags s t) (hk : Loaded R s.itable k i) : Loaded R t.itable k i :=
  ⟨hk.pos, (h k).2.1.trans hk.valid, (h k).1.trans hk.inum⟩

theorem At.weaken (h : At S R none e v s) (i : Nat) : At S R (some i) e v s := ⟨h.super, h.ops, h.sim.weaken i, h.commits⟩

theorem setDin_at {c : Nat → ℤ} {f : Dinode → Dinode} (h : At S R (some i) e v s) (hk : Loaded R s.itable k i)
    (hnorm : (f (v.inode i)).Norm) (htype : (f (v.inode i)).type = (v.inode i).type)
    (howned : View.owned S.sb (v.setInode i (f (v.inode i))) + c = v.owned S.sb + e) :
    wp (setDin k f) (fun _ t => SameTags s t ∧ At S R (some i) c (v.setInode i (f (v.inode i))) t) S.fault s := by
  have hdin := hk.din h.sim
  have hsim := h.sim.setDin hk hnorm (htype.symm ▸ hk.type h.sim) howned
  rw [wp_setDin, hdin]
  exact ⟨.of_put rfl rfl rfl (htype.trans (congrArg Dinode.type hdin).symm), h.super, h.ops, hsim, h.commits⟩

theorem panic_other {msg : String} (h : msg ∉ ruledOut) : S.fault (.panic msg) :=
  S.other _ fun _ hm heq => h (Fault.panic.inj heq ▸ hm)

theorem sleep_other : S.fault .sleep := S.other _ nofun

theorem count_clear {p q : Nat → Prop} [DecidablePred p] [DecidablePred q] {n : Nat} (hb : b < n) (hp : p b)
    (hq : ¬ q b) (hsame : ∀ a, a ≠ b → (q a ↔ p a)) : Nat.count p n = Nat.count q n + 1 := by
  induction n with
  | zero => omega
  | succ n ih =>
    rw [Nat.count_succ, Nat.count_succ]
    by_cases hbn : b = n
    · subst hbn
      have hbelow : Nat.count p b = Nat.count q b := by
        rw [Nat.count_eq_card_filter_range, Nat.count_eq_card_filter_range]
        congr 1
        refine Finset.filter_congr fun a ha => (hsame a ?_).symm
        have := Finset.mem_range.mp ha
        omega
      rw [if_pos hp, if_neg hq, hbelow]
    · have hrest := ih (by omega)
      have hn := hsame n (Ne.symm hbn)
      simp only [hn]
      omega

theorem free_setBit (hb : b < S.sb.size) (hfree : v.bit b = false) (hbit : w.bit = put v.bit b true) :
    v.free S.sb = w.free S.sb + 1 := by
  refine count_clear hb hfree ?_ fun a ha => ?_
  · rw [hbit, put_same]
    decide
  · rw [hbit, put_ne _ _ _ ha]

theorem logWrite_at (b : Nat) (h : At S R dirty e v s) :
    wp (logWrite b) (fun _ t => At S R dirty e v t ∧ t.itable = s.itable ∧ t.disk = s.disk) S.fault s := by
  have hops : ¬ s.outstanding < 1 := by
    have := S.pos
    rw [h.ops]
    omega
  simp only [logWrite, wp_bind, wp_get, wp_ite, wp_panic, wp_set]
  refine ⟨fun _ => panic_other (by decide), fun _ => ⟨fun hlt => absurd hlt hops, fun _ => ?_⟩⟩
  exact ⟨⟨h.super, h.ops, h.sim, h.commits⟩, trivial, trivial⟩

theorem iupdate_at (h : At S R (some i) e v s) (hk : Loaded R s.itable k i) :
    wp (iupdate k) (fun _ t => At S R none e v t ∧ t.itable = s.itable) S.fault s := by
  have hsim := h.sim.iupdate hk
  have hat : At S R none e v { s with disk := s.disk.setDinode s.sb (s.itable k).inum (s.itable k).din } :=
    ⟨h.super, h.ops, h.super.symm ▸ hsim, h.commits⟩
  simp only [iupdate, wp_bind, wp_get, wp_set]
  refine (logWrite_at _ hat).mono ?_ fun _ => id
  exact fun _ t ht => ⟨ht.1, ht.2.1⟩

def View.alloc (v : View) (b : Nat) : View := (v.setBit b true).setData b fun _ => 0

theorem balloc_at (h : At S R dirty e v s) (he : ∀ b, 0 ≤ e b) :
    wp balloc (fun b t => t.itable = s.itable ∧ (b = 0 ∧ t = s ∧ v.free S.sb = 0 ∨
      b ≠ 0 ∧ b < S.sb.size ∧ v.bit b = false ∧ At S R dirty (e + one b) (v.alloc b) t ∧
        ∀ i < S.sb.ninodes, SameFile i v (v.alloc b))) S.fault s := by
  simp only [balloc, wp_bind, wp_get]
  split
  next hfind =>
    refine wp_pure.mpr ⟨rfl, .inl ⟨rfl, rfl, ?_⟩⟩
    rw [View.free, Nat.count_eq_card_filter_range, Finset.card_eq_zero, Finset.filter_eq_empty_iff]
    intro b hb
    have hbit := List.find?_eq_none.mp hfind b (by rw [h.super]; simpa using hb)
    rw [h.super, h.sim.bits b (Finset.mem_range.mp hb)] at hbit
    simpa using hbit
  next b hfind =>
    have hb : b < S.sb.size := by
      rw [h.super] at hfind
      exact List.mem_range.mp (List.mem_of_find?_eq_some hfind)
    have hfree : v.bit b = false := by
      have := List.find?_some hfind
      rw [h.super, h.sim.bits b hb] at this
      simpa using this
    obtain ⟨hlow, hsim, hsame⟩ := h.sim.alloc (he b) hb hfree
    have hne : b ≠ 0 := by
      have := S.sb.bmapstart_lt
      omega
    have hops : ¬ s.outstanding < 1 := by
      have := S.pos
      rw [h.ops]
      omega
    rw [wp_bind, wp_set, wp_bind]
    simp only [bzero, logWrite, wp_bind, wp_get, wp_ite, wp_panic, wp_set, wp_bwrite, wp_pure]
    refine ⟨fun _ => panic_other (by decide), fun _ => ⟨fun hlt => absurd hlt hops, fun _ =>
      ⟨fun _ => panic_other (by decide), fun _ => ⟨fun hlt => absurd hlt hops, fun _ => ?_⟩⟩⟩⟩
    refine ⟨trivial, .inr ⟨hne, hb, hfree, ⟨h.super, h.ops, ?_, h.commits⟩, hsame⟩⟩
    rw [h.super]
    exact hsim

end Basic

end Xv6.Fs
