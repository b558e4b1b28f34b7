import Xv6.PageOwner

namespace Xv6.Vm

open Fs (put put_same put_ne)
open Count Prog Finset Nat Table

def npages (sz : Nat) : Nat := (sz + (pgsize - 1)) / pgsize

/-- A user page: readable, and open to user code unless it is the stack guard. -/
structure UserPte (guard : Option Nat) (v : Nat) (e : Pte) : Prop where
  valid : e.has pteV = true
  read : e.has pteR = true
  user : guard ≠ some v → e.has pteU = true

/-- The first `n` virtual pages are mapped, and no other page below `TRAPFRAME`. -/
structure Table.User (T : Table) (n : Nat) (guard : Option Nat) : Prop where
  le : n ≤ userTop
  mapped : ∀ v < n, UserPte guard v (T.leaf v)
  void : ∀ v, n ≤ v → v < userTop → T.leaf v = .zero

structure Table.High (T : Table) (tf tramp : Nat) : Prop where
  trapframe : T.leaf userTop = pa2pte tf (pteR ||| pteW ||| pteV)
  trampoline : T.leaf (userTop + 1) = pa2pte tramp (pteR ||| pteX ||| pteV)
  void : ∀ v, userTop + 2 ≤ v → T.leaf v = .zero

structure Resize (rest : Nat → ℤ) (m : Mem) (T : Table) (m' : Mem) (T' : Table) : Prop extends Step rest m T m' T' where
  high : ∀ v, userTop ≤ v → T'.leaf v = T.leaf v

variable {m : Mem} {T : Table} {rest : Nat → ℤ} {guard : Option Nat} {n : Nat} {T' : Table} {sz : Nat} {e : Pte}

theorem Resize.refl (h : Owns m T rest) : Resize rest m T m T := ⟨.refl h, fun _ _ => rfl⟩

theorem Resize.trans {m' m'' : Mem} {T' T'' : Table} (h : Resize rest m T m' T') (h' : Resize rest m' T' m'' T'') :
    Resize rest m T m'' T'' := ⟨h.toStep.trans h'.toStep, fun v hv => (h'.high v hv).trans (h.high v hv)⟩

theorem Table.High.of_same {tf tramp : Nat} (h : T.High tf tramp)
    (hsame : ∀ v, userTop ≤ v → T'.leaf v = T.leaf v) : T'.High tf tramp where
  trapframe := (hsame _ le_rfl).trans h.trapframe
  trampoline := (hsame _ (le_succ _)).trans h.trampoline
  void v hv := (hsame v (by omega)).trans (h.void v hv)

theorem UserPte.leaf {v : Nat} (h : UserPte guard v e) : e.Leaf := by
  refine ⟨h.valid, fun hflags => ?_⟩
  have hread := h.read
  rw [Pte.has, hflags] at hread
  exact absurd hread (by decide)

theorem npages_mul (k : Nat) : npages (pgsize * k) = k := by
  simp only [npages, pgsize]
  omega

theorem pgroundup_eq {sz n : Nat} (hsz : npages sz ≤ n) (hn : n ≤ userTop) : pgroundup sz = pgsize * npages sz := by
  rw [userTop_eq] at hn
  simp only [npages, pgroundup, uint64, pgsize] at *
  omega

theorem Owns.user_le (h : Owns m T rest) (hT : T.User n guard) : n ≤ phystop / pgsize := by
  have hsub : range n ⊆ range userTop := range_subset_range.mpr hT.le
  have hcard : (range n).card ≤ ((range (phystop / pgsize)).image (pgsize * ·)).card := by
    refine card_le_of_holders (h := T.leafPage) ?_ ?_
    · intro v hv
      have hvalid := (hT.mapped v (Finset.mem_range.mp hv)).valid
      have hleaf : T.leafPage v = some (T.leaf v).pa := if_pos hvalid
      obtain ⟨halign, -, hlt⟩ := h.leaf_mem_range (Finset.mem_range.mp (hsub hv)) hvalid
      refine ⟨_, Finset.mem_image.mpr ⟨(T.leaf v).pa / pgsize, Finset.mem_range.mpr ?_, ?_⟩, hleaf⟩
      · exact div_lt_div_of_lt_of_dvd (by decide) hlt
      · exact Nat.mul_div_cancel' (Nat.dvd_of_mod_eq_zero halign)
    · intro x _
      have h1 := holders_mono hsub T.leafPage x
      have h2 := h.add_le_one x
      have h3 := T.nodes_nonneg x
      have h4 := h.nonneg x
      simp only [pages, Pi.add_apply] at h2
      omega
  calc n = (range n).card := (card_range n).symm
    _ ≤ _ := hcard
    _ ≤ (range (phystop / pgsize)).card := card_image_le
    _ = phystop / pgsize := card_range _

theorem Owns.user_lt (h : Owns m T rest) (hT : T.User n guard) : n < userTop :=
  (h.user_le hT).trans_lt (by decide)

theorem Table.User.clear {n lo : Nat} (hT : T.User n guard) (hlo : lo ≤ n) : (T.clear lo (n - lo)).User lo guard where
  le := hlo.trans hT.le
  mapped v hv := by
    show UserPte guard v (if _ then _ else _)
    rw [if_neg (by omega)]
    exact hT.mapped v (by omega)
  void v hv hvt := by
    show (if _ then _ else _) = _
    split
    · rfl
    · exact hT.void v (by omega) hvt

theorem Table.User.put (hT : T.User n guard) (hn : n < userTop) (he : UserPte guard n e)
    (hleaf : T'.leaf = put T.leaf n e) : T'.User (n + 1) guard where
  le := hn
  mapped v hv := by
    rw [hleaf]
    by_cases hvn : v = n
    · subst hvn
      rwa [put_same]
    · rw [put_ne _ _ _ hvn]
      exact hT.mapped v (by omega)
  void v hv hvt := by
    rw [hleaf, put_ne _ _ _ (by omega)]
    exact hT.void v (by omega) hvt

theorem Table.User.congr (hT : T.User n guard) (hleaf : T'.leaf = T.leaf) : T'.User n guard :=
  ⟨hT.le, hleaf ▸ hT.mapped, hleaf ▸ hT.void⟩

theorem uvmunmap_tail (lo : Nat) (h : Owns m T rest) (hT : T.User n guard) (hlo : lo ≤ n) :
    wp (uvmunmap T.root (pgsize * lo) (n - lo) true)
      (fun _ m' => Resize rest m T m' (T.clear lo (n - lo)) ∧ (T.clear lo (n - lo)).User lo guard) noFault m := by
  have hdiv : pgsize * lo / pgsize = lo := Nat.mul_div_cancel_left lo (by decide)
  have hle := hT.le
  have hunmap := uvmunmap_user (k := n - lo) (a := pgsize * lo) (Nat.mul_mod_right _ _) h (by omega)
    fun v _ hv => (hT.mapped v (by omega)).leaf
  rw [hdiv] at hunmap
  refine hunmap.mono (fun _ m' hm' => ⟨⟨hm', fun v hv => ?_⟩, hT.clear hlo⟩) fun _ => id
  exact if_neg (by omega)

theorem uvmdealloc_user {oldsz : Nat} (newsz : Nat) (h : Owns m T rest) (hT : T.User (npages oldsz) guard) :
    wp (uvmdealloc T.root oldsz newsz) (fun r m' => r = min oldsz newsz ∧
      ∃ T', Resize rest m T m' T' ∧ T'.User (npages r) guard) noFault m := by
  unfold uvmdealloc
  by_cases hsz : newsz ≥ oldsz
  · rw [if_pos hsz, wp_pure, min_eq_left hsz]
    exact ⟨rfl, T, .refl h, hT⟩
  · have hle : npages newsz ≤ npages oldsz := by
      simp only [npages, pgsize]
      omega
    have hmin : newsz = min oldsz newsz := (min_eq_right (by omega)).symm
    simp only [if_neg hsz, pgroundup_eq le_rfl hT.le, pgroundup_eq hle hT.le]
    by_cases hlt : pgsize * npages newsz < pgsize * npages oldsz
    · have hdiff : (pgsize * npages oldsz - pgsize * npages newsz) / pgsize = npages oldsz - npages newsz := by
        rw [← Nat.mul_sub, Nat.mul_div_cancel_left _ (by decide)]
      rw [if_pos hlt, hdiff]
      refine (uvmunmap_tail _ h hT hle).bind ?_
      rintro _ m' ⟨hresize, huser⟩
      rw [wp_pure]
      exact ⟨hmin, _, hresize, huser⟩
    · have hsame : npages newsz = npages oldsz := by
        simp only [pgsize] at hlt
        omega
      rw [if_neg hlt, wp_pure]
      exact ⟨hmin, T, .refl h, hsame ▸ hT⟩

theorem userPte_alloc (v pa : Nat) (xperm : BitVec 10) : UserPte guard v (pa2pte pa (pteR ||| pteU ||| xperm ||| pteV)) where
  valid := by
    rw [BitVec.or_comm]
    exact Pte.has_or_left (n := 0) (by decide) _
  read := Pte.has_or_left (Pte.has_or_left (n := 0) (f := pteR ||| pteU) (by decide) 0) _
  user _ := Pte.has_or_left (Pte.has_or_left (n := 0) (f := pteR ||| pteU) (by decide) 0) _

theorem Owns.kfree {pa : Nat} (h : Owns m T (rest + one pa)) (hnn : ∀ x, 0 ≤ rest x) :
    wp (kfree pa) (fun _ m' => Owns m' T rest ∧ Frame rest m m') noFault m := by
  refine (kfree_ledger h.ledger_add fun x => add_nonneg (T.pages_nonneg x) (hnn x)).mono ?_ fun _ => id
  rintro _ m' ⟨rfl, hledger⟩
  exact ⟨⟨h.repr, hledger, hnn⟩, rfl, fun _ _ => rfl⟩

theorem one_nonneg (x y : Nat) : 0 ≤ one x y := by
  rw [one_apply]
  split <;> decide

theorem Frame.of_add {m' : Mem} {c : Nat} (h : Frame (rest + one c) m m') : Frame rest m m' :=
  h.weaken fun x => le_add_of_nonneg_right (one_nonneg c x)

theorem uvmdealloc_undo {k lo : Nat} (h : Owns m T rest) (hT : T.User k guard) (hlo : lo ≤ k) :
    wp (uvmdealloc T.root (pgsize * k) (pgsize * lo)) (fun _ m' => ∃ T', Resize rest m T m' T' ∧ T'.User lo guard)
      noFault m := by
  refine (uvmdealloc_user (pgsize * lo) h (by rwa [npages_mul])).mono ?_ fun _ => id
  rintro r m' ⟨rfl, T', hresize, huser⟩
  rw [min_eq_right (mul_le_mul_left _ hlo), npages_mul] at huser
  exact ⟨T', hresize, huser⟩

theorem npages_eq {newsz k : Nat} (hk : k ≤ npages newsz) (hsz : newsz ≤ pgsize * k) : npages newsz = k := by
  simp only [npages, pgsize] at *
  omega

/-- The loop of `uvmalloc` or `uvmcopy` returns `ok`, with `hi` pages, or with `lo` if it has failed. -/
def Sized (rest : Nat → ℤ) (guard : Option Nat) (lo hi : Nat) (m : Mem) (T : Table) (ok : Bool) (m' : Mem) : Prop :=
  ∃ T', Resize rest m T m' T' ∧ T'.User (if ok then hi else lo) guard

theorem Resize.sized {m1 : Mem} {T1 : Table} {lo hi : Nat} {loop : M Bool} (h : Resize rest m T m1 T1)
    (hloop : wp loop (Sized rest guard lo hi m1 T1) noFault m1) : wp loop (Sized rest guard lo hi m T) noFault m1 := by
  refine hloop.mono ?_ fun _ => id
  rintro ok m2 ⟨T2, hresize, huser⟩
  exact ⟨T2, h.trans hresize, huser⟩

/-- A page from `kalloc` is mapped behind the `k` pages and the loop goes on; without a page, or if it cannot be mapped,
the loop undoes its work. -/
theorem addPage_user {k lo hi : Nat} {perm : BitVec 10} {loop undo : M Bool} {round : Option Nat → M Bool}
    (h : Owns m T rest) (hT : T.User k guard) (hpte : ∀ page, UserPte guard k (pa2pte page (perm ||| pteV)))
    (hno : round none = undo)
    (hpage : ∀ page, round (some page) = mappages T.root (pgsize * k) pgsize page perm >>= fun ok =>
      if ok = true then loop else kfree page >>= fun _ => undo)
    (hloop : ∀ m2 T2, Resize rest m T m2 T2 → T2.User (k + 1) guard → wp loop (Sized rest guard lo hi m2 T2) noFault m2)
    (hundo : ∀ m2 T2, Resize rest m T m2 T2 → T2.User k guard → wp undo (Sized rest guard lo hi m2 T2) noFault m2) :
    wp (kalloc >>= round) (Sized rest guard lo hi m T) noFault m := by
  have hdiv : pgsize * k / pgsize = k := Nat.mul_div_cancel_left k (by decide)
  have htop : k < userTop := h.user_lt hT
  have hfree : (T.leaf k).has pteV = false := by
    rw [hT.void k le_rfl htop, zero_not_valid]
  refine h.kalloc.bind ?_
  rintro r m1 ⟨-, hframe, hnone, hsome⟩
  cases r with
  | none =>
    have hresize : Resize rest m T m1 T := ⟨⟨hnone rfl, hframe, rfl⟩, fun _ _ => rfl⟩
    rw [hno]
    exact hresize.sized (hundo m1 T hresize hT)
  | some page =>
    have hmap := mappages_user _ _ perm (hsome page rfl) h.nonneg (mul_mod_right pgsize k) (hdiv.symm ▸ htop)
      (hdiv.symm ▸ hfree)
    rw [hdiv] at hmap
    rw [hpage]
    refine hmap.bind ?_
    rintro ok m2 ⟨T2, hroot, hframe2, hok, hfail⟩
    have hframe' : Frame rest m m2 := hframe.trans hframe2.of_add
    cases ok with
    | true =>
      obtain ⟨howns2, hleaf⟩ := hok rfl
      have hresize : Resize rest m T m2 T2 :=
        ⟨⟨howns2, hframe', hroot⟩, fun v hv => by rw [hleaf, put_ne _ _ _ (by omega)]⟩
      rw [if_pos rfl]
      exact hresize.sized (hloop m2 T2 hresize (hT.put htop (hpte page) hleaf))
    | false =>
      obtain ⟨howns2, hleaf⟩ := hfail rfl
      rw [if_neg (by decide)]
      refine (howns2.kfree h.nonneg).bind ?_
      rintro _ m3 ⟨howns3, hframe3⟩
      have hresize : Resize rest m T m3 T2 := ⟨⟨howns3, hframe'.trans hframe3, hroot⟩, fun v _ => congrFun hleaf v⟩
      exact hresize.sized (hundo m3 T2 hresize (hT.congr hleaf))

theorem allocLoop_user {newsz lo : Nat} {xperm : BitVec 10} (fuel k : Nat) (h : Owns m T rest) (hT : T.User k guard)
    (hlo : lo ≤ k) (hk : k ≤ npages newsz) (hfuel : newsz ≤ pgsize * (k + fuel)) :
    wp (allocLoop T.root (pgsize * lo) newsz xperm fuel (pgsize * k)) (Sized rest guard lo (npages newsz) m T) noFault m := by
  induction fuel generalizing k m T with
  | zero =>
    rw [allocLoop, wp_pure, npages_eq hk hfuel]
    exact ⟨T, .refl h, hT⟩
  | succ fuel ih =>
    rw [allocLoop]
    by_cases hlt : pgsize * k < newsz
    · rw [if_pos hlt]
      refine addPage_user h hT (fun page => userPte_alloc k page xperm) rfl (fun _ => rfl)
        (fun m2 T2 hresize huser => ?_) fun m2 T2 hresize huser => ?_ <;> rw [← hresize.root]
      · refine ih (k + 1) hresize.owns huser (by omega) ?_ ?_
        · simp only [npages, pgsize] at *
          omega
        · rwa [add_right_comm, add_assoc]
      · exact (uvmdealloc_undo hresize.owns huser hlo).bind fun _ m3 h3 => wp_pure.mpr h3
    · rw [if_neg hlt, wp_pure, npages_eq hk (Nat.le_of_not_lt hlt)]
      exact ⟨T, .refl h, hT⟩

/-- `uvmalloc`: the size it returns is the size of the process, unless it fails and returns 0. -/
theorem uvmalloc_user {oldsz : Nat} (newsz : Nat) (xperm : BitVec 10) (h : Owns m T rest) (hT : T.User (npages oldsz) guard) :
    wp (uvmalloc T.root oldsz newsz xperm) (fun r m' => ∃ T', Resize rest m T m' T' ∧
      (r = max oldsz newsz ∧ T'.User (npages r) guard ∨ r = 0 ∧ T'.User (npages oldsz) guard)) noFault m := by
  unfold uvmalloc
  by_cases hsz : newsz < oldsz
  · rw [if_pos hsz, wp_pure]
    exact ⟨T, .refl h, .inl ⟨(max_eq_left hsz.le).symm, hT⟩⟩
  · have hle : npages oldsz ≤ npages newsz := by
      simp only [npages, pgsize]
      omega
    have hfuel : newsz ≤ pgsize * (npages oldsz + (newsz / pgsize + 1)) := by
      simp only [npages, pgsize]
      omega
    simp only [if_neg hsz, pgroundup_eq le_rfl hT.le]
    refine (allocLoop_user _ _ h hT le_rfl hle hfuel).bind ?_
    rintro ok m' ⟨T', hresize, huser⟩
    cases ok with
    | true =>
      rw [if_pos rfl, wp_pure]
      exact ⟨T', hresize, .inl ⟨(max_eq_right (by omega)).symm, huser⟩⟩
    | false =>
      rw [if_neg (by decide), wp_pure]
      exact ⟨T', hresize, .inr ⟨rfl, huser⟩⟩

theorem uvmfree_user (guard : Option Nat) (h : Owns m T rest) (hT : T.User (npages sz) guard)
    (hhigh : ∀ v, userTop ≤ v → T.leaf v = .zero) :
    wp (uvmfree T.root sz) (fun _ m' => Ledger m' rest ∧ Frame rest m m') noFault m := by
  unfold uvmfree
  by_cases hsz : sz > 0
  · have hcount : pgroundup sz / pgsize = npages sz - 0 := by
      rw [pgroundup_eq le_rfl hT.le, Nat.mul_div_cancel_left _ (by decide), Nat.sub_zero]
    rw [if_pos hsz, hcount]
    refine (uvmunmap_tail 0 h hT (Nat.zero_le _)).bind ?_
    rintro _ m1 ⟨hresize, huser⟩
    refine (freewalk_root hresize.owns fun v => ?_).mono ?_ fun _ => id
    · rcases lt_or_ge v userTop with hv | hv
      · exact huser.void v (zero_le v) hv
      · rw [hresize.high v hv, hhigh v hv]
    · rintro _ m2 ⟨hledger, hframe⟩
      exact ⟨hledger, hresize.frame.trans hframe⟩
  · have hnone : npages sz = 0 := by
      simp only [npages, pgsize]
      omega
    rw [if_neg hsz]
    refine freewalk_root h fun v => ?_
    rcases lt_or_ge v userTop with hv | hv
    · exact hT.void v (by omega) hv
    · exact hhigh v hv

def Table.empty (root : Nat) : Table := ⟨root, fun _ => none, fun _ => none, fun _ => .zero⟩

theorem Table.empty_pages (root : Nat) : (Table.empty root).pages = one root := by
  have hleaf : holders (range userTop) (empty root).leafPage = 0 := holders_none fun _ _ => by
    simp [leafPage, empty, zero_not_valid]
  rw [pages, nodes, hleaf, holders_none (h := (empty root).mid) fun _ _ => rfl,
    holders_none (h := (empty root).low) fun _ _ => rfl, mark_some]
  simp only [add_zero]
  rfl

theorem Table.empty_user (root : Nat) : (Table.empty root).User (npages 0) guard where
  le := zero_le _
  mapped _ hv := absurd hv (not_lt_zero _)
  void _ _ _ := rfl

theorem uvmcreate_empty {use : Nat → ℤ} (h : Ledger m use) :
    wp uvmcreate (fun r m' => Frame use m m' ∧ (r = none → Ledger m' use) ∧
      ∀ root, r = some root → Owns m' (.empty root) use) noFault m := by
  unfold uvmcreate
  refine (kalloc_ledger h).bind ?_
  rintro r m1 ⟨hnone, hframe, hheap, hsome⟩
  cases r with
  | none =>
    rw [wp_pure]
    exact ⟨hframe, fun _ => hnone rfl ▸ h, by simp⟩
  | some root =>
    have hledger := hsome root rfl
    rw [wp_bind, wp_clearPage, wp_pure]
    refine ⟨hframe.trans ⟨rfl, fun x hx => put_ne _ _ _ ?_⟩, by simp, ?_⟩
    · rintro rfl
      have := hledger.fresh h.nonneg
      omega
    · rintro _ ⟨rfl⟩
      refine ⟨?_, ?_, h.nonneg⟩
      · constructor
        · intro i _
          show put m1.heap root _ root i = _
          rw [put_same]
          rfl
        · rintro _ _ _ ⟨⟩
        · rintro _ _ _ ⟨⟩
        · exact fun _ _ => rfl
        · exact fun _ _ => rfl
        · rintro _ _ ⟨⟩
        · rintro _ _ ⟨⟩
      · rw [empty_pages, add_comm]
        exact ⟨hledger.total, hledger.nonneg, hledger.bounds⟩

theorem leaf_trapframe (tf : Nat) : (pa2pte tf (pteR ||| pteW ||| pteV)).Leaf :=
  ⟨show decide ((pteR ||| pteW ||| pteV) &&& pteV ≠ 0) = true by decide,
    show pteR ||| pteW ||| pteV ≠ pteV by decide⟩

theorem leaf_trampoline (tramp : Nat) : (pa2pte tramp (pteR ||| pteX ||| pteV)).Leaf :=
  ⟨show decide ((pteR ||| pteX ||| pteV) &&& pteV ≠ 0) = true by decide,
    show pteR ||| pteX ||| pteV ≠ pteV by decide⟩

theorem trapframe_div : trapframe / pgsize = userTop := rfl

theorem trampoline_div : trampoline / pgsize = userTop + 1 := by decide

theorem procPagetable_new {use : Nat → ℤ} {tf : Nat} (guard : Option Nat) (h : Ledger m use) :
    wp (procPagetable tf) (fun r m' => Frame use m m' ∧ (r = none → Ledger m' use) ∧
      ∀ root, r = some root → ∃ T : Table, T.root = root ∧ Owns m' T use ∧ T.User (npages 0) guard ∧
        T.High tf m'.tramp) noFault m := by
  unfold procPagetable
  refine (uvmcreate_empty h).bind ?_
  rintro r m1 ⟨hframe1, hnone, hsome⟩
  cases r with
  | none =>
    rw [wp_pure]
    exact ⟨hframe1, fun _ => hnone rfl, by simp⟩
  | some root =>
    rw [wp_bind, wp_get]
    have hmap := mappages_high trampoline m1.tramp (pteR ||| pteX) (hsome root rfl) (by decide)
      (by decide) (by rw [trampoline_div]; omega) zero_not_valid
    rw [trampoline_div] at hmap
    refine hmap.bind ?_
    rintro ok m2 ⟨T2, hroot2, hframe2, hok2, hfail2⟩
    have hroot2' : T2.root = root := hroot2
    have hframe12 := hframe1.trans hframe2
    cases ok with
    | false =>
      obtain ⟨howns, hleaf⟩ := hfail2 rfl
      rw [if_neg (by decide), ← hroot2']
      refine (uvmfree_user guard howns ((empty_user root).congr hleaf) fun v _ => ?_).bind ?_
      · rw [hleaf]
        rfl
      · rintro _ m3 ⟨hledger, hframe3⟩
        rw [wp_pure]
        exact ⟨hframe12.trans hframe3, fun _ => hledger, by simp⟩
    | true =>
      obtain ⟨howns, hleaf⟩ := hok2 rfl
      have hlow : ∀ v, v ≠ userTop + 1 → T2.leaf v = .zero := by
        intro v hv
        rw [hleaf, put_ne _ _ _ hv]
        rfl
      have hmap := mappages_high trapframe tf (pteR ||| pteW) howns (by decide)
        (by decide) (by rw [trapframe_div]) (by rw [trapframe_div, hlow _ (by omega), zero_not_valid])
      rw [trapframe_div] at hmap
      rw [if_pos rfl, ← hroot2']
      refine hmap.bind ?_
      rintro ok m3 ⟨T3, hroot3, hframe3, hok3, hfail3⟩
      have hframe13 := hframe12.trans hframe3
      cases ok with
      | true =>
        obtain ⟨howns3, hleaf3⟩ := hok3 rfl
        have htramp : m3.tramp = m1.tramp := congrArg Layout.tramp (hframe3.layout.trans hframe2.layout)
        rw [if_pos rfl, wp_pure]
        refine ⟨hframe13, by simp, ?_⟩
        rintro _ ⟨rfl⟩
        refine ⟨T3, hroot3, howns3, ⟨zero_le _, ?_, ?_⟩, ?_, ?_, ?_⟩
        · exact fun v hv => absurd hv (not_lt_zero v)
        · intro v _ hv
          rw [hleaf3, put_ne _ _ _ (by omega), hlow v (by omega)]
        · rw [hleaf3, put_same]
        · rw [hleaf3, put_ne _ _ _ (by omega), hleaf, put_same, htramp]
        · intro v hv
          rw [hleaf3, put_ne _ _ _ (by omega), hlow v (by omega)]
      | false =>
        obtain ⟨howns3, hleaf3⟩ := hfail3 rfl
        have hleaf' : (T3.leaf (trampoline / pgsize)).Leaf := by
          rw [trampoline_div, hleaf3, hleaf, put_same]
          exact leaf_trampoline _
        have hunmap := uvmunmap_high (a := trampoline) (by decide) howns3 (by decide) (by rw [trampoline_div]; omega) hleaf'
        rw [trampoline_div] at hunmap
        rw [if_neg (by decide), ← hroot3]
        refine hunmap.bind ?_
        intro _ m4 hstep
        have hzero : ∀ v, (T3.setLeaf (userTop + 1) .zero).leaf v = .zero := by
          intro v
          show put T3.leaf (userTop + 1) .zero v = .zero
          by_cases hv : v = userTop + 1
          · rw [hv, put_same]
          · rw [put_ne _ _ _ hv, hleaf3, hlow v hv]
        rw [show T3.root = (T3.setLeaf (userTop + 1) .zero).root from rfl]
        refine (uvmfree_user guard hstep.owns ⟨zero_le _, ?_, fun v _ _ => hzero v⟩
          fun v _ => hzero v).bind ?_
        · exact fun v hv => absurd hv (not_lt_zero v)
        · rintro _ m5 ⟨hledger, hframe5⟩
          rw [wp_pure]
          exact ⟨(hframe13.trans hstep.frame).trans hframe5, fun _ => hledger, by simp⟩

theorem procFreepagetable_user {sz tf tramp : Nat} (h : Owns m T rest) (hT : T.User (npages sz) guard)
    (hhigh : T.High tf tramp) :
    wp (procFreepagetable T.root sz) (fun _ m' => Ledger m' rest ∧ Frame rest m m') noFault m := by
  unfold procFreepagetable
  have hunmap := uvmunmap_high (a := trampoline) (by decide) h (by decide) (by rw [trampoline_div]; omega)
    (by rw [trampoline_div, hhigh.trampoline]; exact leaf_trampoline _)
  rw [trampoline_div] at hunmap
  refine hunmap.bind ?_
  intro _ m1 hstep1
  have hunmap := uvmunmap_high (a := trapframe) (by decide) hstep1.owns (by decide) (by rw [trapframe_div]) (by
    rw [trapframe_div]
    show (put T.leaf _ _ _).Leaf
    rw [put_ne _ _ _ (by omega), hhigh.trapframe]
    exact leaf_trapframe _)
  rw [trapframe_div] at hunmap
  refine hunmap.bind ?_
  intro _ m2 hstep2
  refine (uvmfree_user (T := (T.setLeaf (userTop + 1) .zero).setLeaf userTop .zero) guard hstep2.owns
    ⟨hT.le, ?_, ?_⟩ ?_).mono ?_ fun _ => id
  · intro v hv
    have := hT.le
    show UserPte guard v (put (put T.leaf (userTop + 1) .zero) userTop .zero v)
    rw [put_ne _ _ _ (by omega), put_ne _ _ _ (by omega)]
    exact hT.mapped v hv
  · intro v hv hvt
    show put (put T.leaf (userTop + 1) .zero) userTop .zero v = _
    rw [put_ne _ _ _ (by omega), put_ne _ _ _ (by omega)]
    exact hT.void v hv hvt
  · intro v hv
    show put (put T.leaf (userTop + 1) .zero) userTop .zero v = _
    by_cases h0 : v = userTop
    · rw [h0, put_same]
    · by_cases h1 : v = userTop + 1
      · rw [put_ne _ _ _ h0, h1, put_same]
      · rw [put_ne _ _ _ h0, put_ne _ _ _ h1, hhigh.void v (by omega)]
  · rintro _ m3 ⟨hledger, hframe⟩
    exact ⟨hledger, (hstep1.frame.trans hstep2.frame).trans hframe⟩

theorem user_lt_maxva {v : Nat} (hv : v < userTop) : pgsize * v < maxva := by
  rw [userTop_eq] at hv
  simp only [pgsize, maxva]
  omega

theorem Table.User.entry {heap : Nat → Nat → Pte} {n v : Nat} (hT : T.User n guard) (hR : Repr heap T) (hv : v < n) :
    ∃ c, T.low (v / 512) = some c ∧ heap c (v % 512) = T.leaf v := by
  obtain ⟨c, hc⟩ := hR.low_of_leaf (hT.mapped v hv).leaf
  have hlt : v < 2 ^ 26 - 2 := userTop_eq ▸ hv.trans_le hT.le
  exact ⟨c, hc, hR.low v (by omega) c hc⟩

theorem UserPte.copy {v pa : Nat} (h : UserPte guard v e) : UserPte guard v (pa2pte pa (e.flags ||| pteV)) :=
  ⟨Pte.has_or_left h.valid _, Pte.has_or_left h.read _, fun hg => Pte.has_or_left (h.user hg) _⟩

theorem copyLoop_user {old : Table} (fuel k : Nat) (h : Owns m T rest) (hT : T.User k guard)
    (hR : Repr m.heap old) (hrest : ∀ x, old.nodes x ≤ rest x) (hold : old.User (npages sz) guard)
    (hk : k ≤ npages sz) (hfuel : sz ≤ pgsize * (k + fuel)) :
    wp (copyLoop old.root T.root sz fuel (pgsize * k)) (Sized rest guard 0 (npages sz) m T) noFault m := by
  induction fuel generalizing k m T with
  | zero =>
    rw [copyLoop, wp_pure, npages_eq hk hfuel]
    exact ⟨T, .refl h, hT⟩
  | succ fuel ih =>
    rw [copyLoop]
    by_cases hlt : pgsize * k < sz
    · have hk' : k + 1 ≤ npages sz := by
        simp only [npages, pgsize] at *
        omega
      have hdiv : pgsize * k / pgsize = k := Nat.mul_div_cancel_left k (by decide)
      obtain ⟨c, hc, hentry⟩ := hold.entry hR hk'
      have he := hold.mapped k hk'
      rw [if_pos hlt, wp_bind, wp_walk_false hR (user_lt_maxva (h.user_lt hT)), hdiv, hc]
      simp only [Option.map_some, wp_bind, wp_pte, hentry, he.valid, Bool.not_true, Bool.false_eq_true, if_false]
      refine wp_bind.mp (addPage_user h hT (fun _ => he.copy) rfl (fun _ => rfl) (fun m2 T2 hresize huser => ?_)
        fun m2 T2 hresize huser => ?_) <;> rw [← hresize.root]
      · refine ih (k + 1) hresize.owns huser (hR.frame fun x hx => hresize.frame.heap x (hx.trans (hrest x))) hk' ?_
        rwa [add_right_comm, add_assoc]
      · exact (uvmunmap_tail 0 hresize.owns huser (zero_le k)).bind fun _ m3 h3 => wp_pure.mpr ⟨_, h3⟩
    · rw [if_neg hlt, wp_pure, npages_eq hk (Nat.le_of_not_lt hlt)]
      exact ⟨T, .refl h, hT⟩

theorem uvmcopy_user {old : Table} (h : Owns m T rest) (hT : T.User 0 guard) (hR : Repr m.heap old)
    (hrest : ∀ x, old.nodes x ≤ rest x) (hold : old.User (npages sz) guard) :
    wp (uvmcopy old.root T.root sz) (fun ok m' => ∃ T', Resize rest m T m' T' ∧
      T'.User (if ok then npages sz else 0) guard) noFault m := by
  refine copyLoop_user _ 0 h hT hR hrest hold (zero_le _) ?_
  simp only [pgsize]
  omega

theorem Pte.has_clear_user {f flag : BitVec 10} (n : Nat) (hflag : ~~~ pteU &&& flag = flag) :
    (Pte.mk n (f &&& ~~~ pteU)).has flag = (Pte.mk n f).has flag := by
  simp only [Pte.has, BitVec.and_assoc, hflag]

theorem uvmclear_user {n v : Nat} (h : Owns m T rest) (hT : T.User n none) (hv : v < n) :
    wp (uvmclear T.root (pgsize * v)) (fun _ m' => ∃ T', Resize rest m T m' T' ∧ T'.User n (some v)) noFault m := by
  have hdiv : pgsize * v / pgsize = v := Nat.mul_div_cancel_left v (by decide)
  have htop : v < userTop := hv.trans_le hT.le
  have hn : v < 512 * 512 * 512 := by
    rw [userTop_eq] at htop
    omega
  obtain ⟨c, hc, hentry⟩ := hT.entry h.repr hv
  have hvalid : (⟨(T.leaf v).ppn, (T.leaf v).flags &&& ~~~ pteU⟩ : Pte).has pteV = true :=
    (Pte.has_clear_user _ (by decide)).trans (hT.mapped v hv).valid
  have hread : (⟨(T.leaf v).ppn, (T.leaf v).flags &&& ~~~ pteU⟩ : Pte).has pteR = true :=
    (Pte.has_clear_user _ (by decide)).trans (hT.mapped v hv).read
  unfold uvmclear
  rw [wp_bind, wp_walk_false h.repr (user_lt_maxva htop), hdiv, hc]
  simp only [Option.map_some, wp_bind, wp_pte, hentry, wp_setPte]
  obtain ⟨howns, hframe⟩ := h.setLeaf (e := ⟨(T.leaf v).ppn, (T.leaf v).flags &&& ~~~ pteU⟩) hn hc (by
    rw [T.pages_setLeaf htop, leafPage, if_pos (hT.mapped v hv).valid, Pte.page, if_pos hvalid]
    simp only [Pte.pa]
    abel) h.nonneg
  refine ⟨_, ⟨⟨howns, hframe, rfl⟩, fun u hu => put_ne _ _ _ (by omega)⟩, hT.le, fun u hu => ?_, fun u hu hut => ?_⟩
  · show UserPte (some v) u (put T.leaf v _ u)
    by_cases huv : u = v
    · subst huv
      rw [put_same]
      exact ⟨hvalid, hread, fun hne => absurd rfl hne⟩
    · rw [put_ne _ _ _ huv]
      exact ⟨(hT.mapped u hu).valid, (hT.mapped u hu).read, fun _ => (hT.mapped u hu).user nofun⟩
  · exact (put_ne _ _ _ (by omega)).trans (hT.void u hu hut)

theorem walkaddr_user {n va : Nat} (h : Owns m T rest) (hT : T.User n none) :
    wp (walkaddr T.root va) (fun r m' => m' = m ∧ (va / pgsize < n → r ≠ 0)) noFault m := by
  unfold walkaddr
  by_cases hva : va ≥ maxva
  · rw [if_pos hva, wp_pure]
    refine ⟨rfl, fun hlt => ?_⟩
    have hle := hT.le
    rw [userTop_eq] at hle
    simp only [maxva, pgsize] at *
    omega
  · have hn := vpn_lt (Nat.lt_of_not_le hva)
    rw [if_neg hva, wp_bind, wp_walk_false h.repr (Nat.lt_of_not_le hva)]
    cases hc : T.low (va / pgsize / 512) with
    | none =>
      simp only [Option.map_none, wp_pure]
      refine ⟨trivial, fun hlt => ?_⟩
      obtain ⟨c, hc', -⟩ := hT.entry h.repr hlt
      rw [hc] at hc'
      exact absurd hc'.symm (Option.some_ne_none c)
    | some c =>
      have hentry := h.repr.low _ (hn.trans (by decide)) c hc
      simp only [Option.map_some, wp_bind, wp_pte, hentry]
      by_cases hlt : va / pgsize < n
      · have he := hT.mapped _ hlt
        simp only [he.valid, he.user (by rintro ⟨⟩), Bool.not_true, Bool.false_eq_true, if_false, wp_pure]
        refine ⟨trivial, fun _ hzero => ?_⟩
        have hbound := (h.leaf_mem_range (hlt.trans_le hT.le) he.valid).2.1
        have := h.ledger.bounds
        rw [hzero] at hbound
        simp only [kernbase] at this
        omega
      · cases (T.leaf (va / pgsize)).has pteV <;> cases (T.leaf (va / pgsize)).has pteU <;> simp [hlt]

theorem copyoutLoop_keeps (hR : Repr m.heap T) (fuel dstva len : Nat) :
    wp (copyoutLoop T.root fuel dstva len) (fun _ m' => m' = m) noFault m := by
  have hwalkaddr : ∀ va, wp (walkaddr T.root va) (fun _ m' => m' = m) noFault m := by
    intro va
    unfold walkaddr
    split
    next => exact wp_pure.mpr rfl
    next hva =>
      rw [wp_bind, wp_walk_false hR (Nat.lt_of_not_le hva)]
      cases T.low (va / pgsize / 512) with
      | none => exact wp_pure.mpr rfl
      | some c =>
        simp only [Option.map_some, wp_bind, wp_pte]
        repeat' split
        all_goals exact wp_pure.mpr rfl
  induction fuel generalizing dstva len with
  | zero => exact wp_pure.mpr rfl
  | succ fuel ih =>
    rw [copyoutLoop]
    split
    next =>
      dsimp only
      split
      next => exact wp_pure.mpr rfl
      next hva =>
        rw [wp_bind, wp_walk_false hR (Nat.lt_of_not_le hva)]
        cases T.low (pgrounddown dstva / pgsize / 512) with
        | none => exact wp_pure.mpr rfl
        | some c =>
          simp only [Option.map_some, wp_bind, wp_pte]
          split
          next => exact wp_pure.mpr rfl
          next =>
            refine (hwalkaddr _).bind ?_
            rintro pa0 _ rfl
            split
            next => exact wp_pure.mpr rfl
            next => exact ih _ _
    next => exact wp_pure.mpr rfl

theorem copyout_keeps (hR : Repr m.heap T) (dstva len : Nat) :
    wp (copyout T.root dstva len) (fun _ m' => m' = m) noFault m := copyoutLoop_keeps hR len dstva len

end Xv6.Vm
