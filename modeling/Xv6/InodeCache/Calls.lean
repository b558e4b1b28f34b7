import Xv6.InodeCache.Discipline

namespace Xv6.InodeCache

open Multiset Function

section Directories

variable {L : Local} {ip dp : Slot} {v : Dinode} {k : Code}

theorem iunlockput_ok (hip : L.locks ip = some (.has v false)) (hi : ip ∈ L.refs) (hk : Ok ((L.unlock ip).put ip) k) :
    Ok L (iunlockput ip k) :=
  ⟨.inl ⟨v, hip⟩, iput_ok hi (fun h => absurd (Function.update_self _ _ _) h) hk⟩

section
variable (hip : L.locks dp = some (.has v false))
include hip

theorem dirlookupLoop_ok {k : Option (Slot × Nat) → Code} {n off : Nat} (hgood : Good v)
    (hnone : Ok L (k none)) (hsome : ∀ ip off, Ok (L.get ip) (k (some (ip, off)))) :
    Ok L (dirlookupLoop dp k n off) := by
  induction n generalizing off with
  | zero => exact hnone
  | succ n ih =>
    refine readi_ok hip hgood.solid fun r => ite_ok (fun _ => trivial) fun _ inum => ite_ok (fun _ => ih) fun _ ip => ?_
    exact hsome ip off

theorem dirlookup_ok {k : Option (Slot × Nat) → Code} (hgood : Good v)
    (hnone : Ok L (k none)) (hsome : ∀ ip off, Ok (L.get ip) (k (some (ip, off)))) : Ok L (dirlookup dp k) :=
  ⟨v, false, hip, ite_ok (fun _ => trivial) fun _ => dirlookupLoop_ok hip hgood hnone hsome⟩

theorem scanLoop_ok {k : Bool → Nat → Code} {n off : Nat} (hgood : Good v)
    (hk : ∀ hit off, Ok L (k hit off)) : Ok L (scanLoop dp k n off) := by
  induction n generalizing off with
  | zero => exact hk false off
  | succ n ih =>
    exact readi_ok hip hgood.solid fun r => ite_ok (fun _ => trivial) fun _ hit => ite_ok (fun _ => ih) fun _ => hk true off

end

def Local.Backed (L : Local) : Prop := ∀ ip, L.locks ip ≠ none → ip ∈ L.refs

theorem dirlink_ok {k : Bool → Code} (hip : L.locks dp = some (.has v false)) (hgood : Good v) (hback : L.Backed)
    (hk : ∀ ok w, Good w → Ok (L.lock dp (.has w false)) (k ok)) : Ok L (dirlink dp k) := by
  have hsame : ∀ ok, Ok L (k ok) := fun ok => by
    have hok := hk ok v hgood
    rwa [lock_eq hip] at hok
  refine dirlookup_ok hip hgood ⟨v, false, hip, scanLoop_ok hip hgood fun _ off => ?_⟩ fun ip _ => ?_
  · exact writei_ok hip hgood fun w r hw => hk _ w hw
  · -- the entry found may be the directory itself
    refine iput_ok (mem_cons_self ip _) (fun hl => ?_) (get_put.symm ▸ hsame false)
    show ip ∈ (ip ::ₘ L.refs).erase ip
    rw [erase_cons_head]
    exact hback ip hl

end Directories

def plain (r : Multiset Slot) : Local := ⟨r, none, fun _ => none⟩

section Walk

variable {r : Multiset Slot} {ip dp cwd : Slot} {v w : Dinode} {h : Held} {k : Code}

theorem plain_unlock : ((plain r).lock ip h).unlock ip = plain r := by
  rw [lock_unlock, unlock_eq rfl]

theorem leave_ok (hk : Ok (plain r) k) : Ok ((plain (ip ::ₘ r)).lock ip (.has v false)) (iunlockput ip k) := by
  refine iunlockput_ok lock_self (mem_cons_self ip r) ?_
  rw [plain_unlock]
  exact (get_put (L := plain r)).symm ▸ hk

theorem leave_second_ok {next : Slot} (hk : Ok (plain (next ::ₘ r)) k) :
    Ok (((plain (ip ::ₘ r)).lock ip (.has v false)).get next) (iunlockput ip k) := by
  show Ok ((plain (next ::ₘ ip ::ₘ r)).lock ip (.has v false)) _
  rw [cons_swap]
  exact leave_ok hk

theorem plain_ilock (hk : ∀ v, Good v → Ok ((plain (ip ::ₘ r)).lock ip (.has v false)) k) :
    Ok (plain (ip ::ₘ r)) (ilock ip k) :=
  ilock_ok (.inl (mem_cons_self ip r)) fun _ => hk

theorem namexLoop_ok {parent : Bool} {k : Option Slot → Code} {n : Nat} (hnone : Ok (plain r) (k none))
    (hsome : ∀ ip, Ok (plain (ip ::ₘ r)) (k (some ip))) : Ok (plain (ip ::ₘ r)) (namexLoop parent k n ip) := by
  induction n generalizing ip with
  | zero =>
    refine ite_ok (fun _ => iput_ok (mem_cons_self ip r) (fun hl => absurd rfl hl) ?_) fun _ => hsome ip
    exact (get_put (L := plain r)).symm ▸ hnone
  | succ n ih =>
    refine plain_ilock fun v hgood => ⟨v, false, lock_self, ite_ok (fun _ => leave_ok hnone) fun _ =>
      ite_ok (fun _ => ?_) fun _ => ?_⟩
    · refine ⟨.inl ⟨v, lock_self⟩, ?_⟩
      rw [plain_unlock]
      exact hsome ip
    · exact dirlookup_ok lock_self hgood (leave_ok hnone) fun next _ => leave_second_ok ih

theorem namex_ok {parent : Bool} {path : Path} {k : Option Slot → Code} (hcwd : cwd ∈ r) (hnone : Ok (plain r) (k none))
    (hsome : ∀ ip, Ok (plain (ip ::ₘ r)) (k (some ip))) : Ok (plain r) (namex parent cwd path k) :=
  ite_ok (fun _ _ => namexLoop_ok hnone hsome) fun _ => ⟨hcwd, namexLoop_ok hnone hsome⟩

theorem done_ok : Ok (plain {cwd}) (.done cwd) := ⟨rfl, fun _ => rfl⟩

def both (r : Multiset Slot) (dp : Slot) (v : Dinode) (ip : Slot) (w : Dinode) : Local :=
  ((plain (ip ::ₘ dp ::ₘ r)).lock dp (.has v false)).lock ip (.has w false)

theorem both_update {f : Dinode → Dinode} (hf : Good (f w)) (hk : Ok (both r dp v ip (f w)) k) :
    Ok (both r dp v ip w) (.set ip f (.iupdate ip k)) := by
  refine ⟨w, false, lock_self, _, true, lock_self, .inr ⟨hf, ?_⟩⟩
  simp only [both, lock_lock]
  exact hk

theorem both_backed : (both r dp v ip w).Backed := by
  intro j hj
  show j ∈ ip ::ₘ dp ::ₘ r
  by_cases hji : j = ip
  · exact hji ▸ mem_cons_self ip _
  · by_cases hjd : j = dp
    · rw [hjd]
      exact mem_cons_of_mem (mem_cons_self dp r)
    · exact absurd (((lock_of_ne hji).trans (lock_of_ne hjd)).trans rfl) hj

theorem both_dirlink {k : Bool → Code} (hw : Good w) (hk : ∀ ok u, Good u → Ok (both r dp v ip u) (k ok)) :
    Ok (both r dp v ip w) (dirlink ip k) := by
  refine dirlink_ok lock_self hw both_backed fun ok u hu => ?_
  rw [both, lock_lock]
  exact hk ok u hu

theorem dir_ne (hfree : (((plain (dp ::ₘ r)).lock dp (.has v false)).get ip).locks ip = none) : dp ≠ ip := by
  rintro rfl
  have hlocked : (((plain (dp ::ₘ r)).lock dp (.has v false)).get dp).locks dp = some (.has v false) := lock_self
  rw [hlocked] at hfree
  cases hfree

variable (hne : dp ≠ ip)

include hne

theorem both_dir : (both r dp v ip w).locks dp = some (.has v false) := (lock_of_ne hne).trans lock_self

theorem both_lock_dir {u : Held} : (both r dp v ip w).lock dp u = ((plain (ip ::ₘ dp ::ₘ r)).lock dp u).lock ip
    (.has w false) := by
  simp only [both, Local.lock, Function.update_comm hne, Function.update_idem]

theorem both_leave (hk : Ok ((plain (dp ::ₘ r)).lock dp (.has v false)) k) :
    Ok (both r dp v ip w) (iunlockput ip k) := by
  refine iunlockput_ok lock_self (mem_cons_self ip _) ?_
  rw [both, lock_unlock, unlock_eq ((lock_of_ne (Ne.symm hne)).trans rfl)]
  have hput : ((plain (ip ::ₘ dp ::ₘ r)).lock dp (.has v false)).put ip = (plain (dp ::ₘ r)).lock dp (.has v false) :=
    get_put (L := (plain (dp ::ₘ r)).lock dp (.has v false))
  exact hput ▸ hk

theorem both_leave_dir (hk : Ok ((plain (ip ::ₘ r)).lock ip (.has w false)) k) :
    Ok (both r dp v ip w) (iunlockput dp k) := by
  refine iunlockput_ok (both_dir hne) (mem_cons_of_mem (mem_cons_self dp r)) ?_
  rw [both, unlock_lock hne, plain_unlock]
  show Ok ((plain ((ip ::ₘ dp ::ₘ r).erase dp)).lock ip (.has w false)) k
  rw [erase_cons_tail _ (Ne.symm hne), erase_cons_head]
  exact hk

theorem both_update_dir {f : Dinode → Dinode} (hf : Good (f v)) (hk : Ok (both r dp (f v) ip w) k) :
    Ok (both r dp v ip w) (.set dp f (.iupdate dp k)) := by
  refine ⟨v, false, both_dir hne, _, true, lock_self, .inr ⟨hf, ?_⟩⟩
  rw [lock_lock, both_lock_dir hne]
  exact hk

theorem both_dirlink_dir {k : Bool → Code} (hv : Good v) (hk : ∀ ok u, Good u → Ok (both r dp u ip w) (k ok)) :
    Ok (both r dp v ip w) (dirlink dp k) := by
  refine dirlink_ok (both_dir hne) hv both_backed fun ok u hu => ?_
  rw [both_lock_dir hne]
  exact hk ok u hu

end Walk

section Calls

variable {r : Multiset Slot} {ip cwd : Slot} {v : Dinode} {k : Code}

theorem Good.link {n : Int} (h : Good v) : Good (addLink n v) := ⟨h.type, h.solid⟩

theorem create_ok {path : Path} {type major minor : Int} {k : Option Slot → Code} (hcwd : cwd ∈ r) (htype : type ≠ 0)
    (hnone : Ok (plain r) (k none))
    (hsome : ∀ ip v, Good v → Ok ((plain (ip ::ₘ r)).lock ip (.has v false)) (k (some ip))) :
    Ok (plain r) (create cwd path type major minor k) := by
  refine namex_ok hcwd hnone fun dp => plain_ilock fun v hv => dirlookup_ok lock_self hv ⟨htype, fun found => ?_⟩
    fun ip _ => ?_
  · cases found with
    | none => exact leave_ok hnone
    | some inum =>
      refine fun ip => ilock_ok (.inl (mem_cons_self ip _)) fun hfree w hw => ?_
      have hne : dp ≠ ip := dir_ne hfree
      have hfail : ∀ v w, Good w → Ok (both r dp v ip w) (.set ip (setLink 0) <| .iupdate ip <| iunlockput ip <|
        iunlockput dp <| k none) :=
        fun v w hw => both_update ⟨hw.type, hw.solid⟩ (both_leave hne (leave_ok hnone))
      have hfinish : ∀ v w, Good v → Good w → Ok (both r dp v ip w) (dirlink dp fun ok =>
          if ok then
            if type = tdir then .set dp (addLink 1) <| .iupdate dp <| iunlockput dp <| k (some ip)
            else iunlockput dp <| k (some ip)
          else .set ip (setLink 0) <| .iupdate ip <| iunlockput ip <| iunlockput dp <| k none) := fun v w hv hw => by
        refine both_dirlink_dir hne hv fun ok u hu => ite_ok (fun _ => ite_ok (fun _ => ?_) fun _ => ?_) fun _ =>
          hfail u w hw
        · exact both_update_dir hne hu.link (both_leave_dir hne (hsome ip w hw))
        · exact both_leave_dir hne (hsome ip w hw)
      have hnew : Good (setNew major minor w) := ⟨hw.type, hw.solid⟩
      refine both_update hnew (ite_ok (fun _ => ?_) fun _ => hfinish v _ hv hnew)
      refine both_dirlink hnew fun ok u hu => ite_ok (fun _ => ?_) fun _ => hfail v u hu
      exact both_dirlink hu fun ok u' hu' => ite_ok (fun _ => hfinish v u' hv hu') fun _ => hfail v u' hu'
  · refine leave_second_ok (plain_ilock fun w hw => ⟨w, false, lock_self, ite_ok (fun _ => hsome ip w hw) fun _ =>
      leave_ok hnone⟩)

theorem sysMknod_ok {path : Path} {type major minor : Int} (htype : type ≠ 0) :
    Ok (plain {cwd}) (sysMknod cwd path type major minor) :=
  create_ok (mem_singleton_self cwd) htype done_ok fun _ _ _ => leave_ok done_ok

theorem update_ok {f : Dinode → Dinode} (hf : Good (f v)) (hk : Ok ((plain r).lock ip (.has (f v) false)) k) :
    Ok ((plain r).lock ip (.has v false)) (.set ip f (.iupdate ip k)) := by
  refine ⟨v, false, lock_self, _, true, lock_self, .inr ⟨hf, ?_⟩⟩
  simp only [lock_lock]
  exact hk

theorem openInode_ok {trunc : Bool} (hv : Good v) :
    Ok ((plain (ip ::ₘ {cwd})).lock ip (.has v false)) (openInode cwd ip trunc) := by
  refine ⟨v, false, lock_self, ite_ok (fun _ => leave_ok done_ok) fun _ file => ite_ok (fun _ => leave_ok done_ok)
    fun _ => ?_⟩
  refine ⟨mem_cons_self ip {cwd}, rfl, ?_⟩
  have hrefs : (ip ::ₘ {cwd} : Multiset Slot).erase ip = {cwd} := erase_cons_head _ _
  have hdone : ∀ w, Good w → Ok (Local.lock ⟨(ip ::ₘ {cwd}).erase ip, some ip, fun _ => none⟩ ip (.has w false))
    (.release ip (.done cwd)) := fun w _ => by
    refine ⟨.inl ⟨w, lock_self⟩, hrefs, fun j => ?_⟩
    rw [lock_unlock, unlock_eq rfl]
  refine ite_ok (fun _ => itrunc_ok lock_self hv.type fun w hw => ?_) fun _ => hdone v hv
  have hlock : Local.lock { ((plain (ip ::ₘ {cwd})).lock ip (.has v false)).put ip with pin := some ip } ip
    (.has w false) =
      Local.lock ⟨(ip ::ₘ {cwd}).erase ip, some ip, fun _ => none⟩ ip (.has w false) := by
    simp only [Local.lock, Local.put, plain, Function.update_idem]
  rw [hlock]
  exact hdone w hw

theorem sysOpen_ok {path : Path} {creating rdonly trunc : Bool} :
    Ok (plain {cwd}) (sysOpen cwd path creating rdonly trunc) := by
  refine ite_ok (fun _ => create_ok (mem_singleton_self cwd) (by decide) done_ok fun ip v hv => openInode_ok hv)
    fun _ => ?_
  refine namex_ok (mem_singleton_self cwd) done_ok fun ip => plain_ilock fun v hv => ⟨v, false, lock_self, ?_⟩
  exact ite_ok (fun _ => leave_ok done_ok) fun _ => openInode_ok hv

theorem sysChdir_ok {path : Path} : Ok (plain {cwd}) (sysChdir cwd path) := by
  refine namex_ok (mem_singleton_self cwd) done_ok fun ip => plain_ilock fun v hv => ⟨v, false, lock_self, ?_⟩
  refine ite_ok (fun _ => leave_ok done_ok) fun _ => ⟨.inl ⟨v, lock_self⟩, ?_⟩
  rw [plain_unlock]
  refine iput_ok (mem_cons_of_mem (mem_singleton_self cwd)) (fun hl => absurd rfl hl) ⟨?_, fun _ => rfl⟩
  show (ip ::ₘ {cwd}).erase cwd = {ip}
  rw [← cons_zero cwd, cons_swap, erase_cons_head, cons_zero]

theorem sysLink_ok {old new : Path} : Ok (plain {cwd}) (sysLink cwd old new) := by
  have hcwd : cwd ∈ ({cwd} : Multiset Slot) := mem_singleton_self cwd
  refine namex_ok hcwd done_ok fun ip => plain_ilock fun v hv =>
    ⟨v, false, lock_self, ite_ok (fun _ => leave_ok done_ok) fun _ => ?_⟩
  have hbad : Ok (plain (ip ::ₘ {cwd})) (ilock ip <| .set ip (addLink (-1)) <| .iupdate ip <|
    iunlockput ip (.done cwd)) :=
    plain_ilock fun w hw => update_ok hw.link (leave_ok done_ok)
  refine update_ok hv.link ⟨.inl ⟨_, lock_self⟩, ?_⟩
  rw [plain_unlock]
  refine namex_ok (mem_cons_of_mem hcwd) hbad fun dp => plain_ilock fun u hu => dirlink_ok lock_self hu
    (fun j hj => ?_) fun ok w _ => ?_
  · show j ∈ dp ::ₘ ip ::ₘ {cwd}
    by_cases hjd : j = dp
    · exact hjd ▸ mem_cons_self dp _
    · exact absurd ((lock_of_ne hjd).trans rfl) hj
  · rw [lock_lock]
    refine ite_ok (fun _ => leave_ok ?_) fun _ => leave_ok hbad
    exact iput_ok (mem_cons_self ip {cwd}) (fun hl => absurd rfl hl) ((get_put (L := plain {cwd})).symm ▸ done_ok)

theorem sysUnlink_ok {path : Path} : Ok (plain {cwd}) (sysUnlink cwd path) := by
  refine namex_ok (mem_singleton_self cwd) done_ok fun dp => plain_ilock fun v hv dots => ite_ok
    (fun _ => leave_ok done_ok) fun _ => ?_
  refine dirlookup_ok lock_self hv (leave_ok done_ok) fun ip off => ilock_ok (.inl (mem_cons_self ip (dp ::ₘ {cwd})))
    fun hfree w hw => ?_
  have hne : dp ≠ ip := dir_ne hfree
  refine ⟨w, false, lock_self, ite_ok (fun _ => trivial) fun _ => ?_⟩
  have hfinish : ∀ u, Ok (both {cwd} dp u ip w) (iunlockput dp <| .set ip (addLink (-1)) <| .iupdate ip <|
    iunlockput ip (.done cwd)) := fun u =>
    both_leave_dir hne (update_ok hw.link (leave_ok done_ok))
  have hremove : Ok (both {cwd} dp v ip w) (writei dp off desize fun r =>
      if r ≠ desize then .panic
      else if w.type = tdir then .set dp (addLink (-1)) <| .iupdate dp <| iunlockput dp <| .set ip (addLink (-1)) <|
        .iupdate ip <| iunlockput ip (.done cwd)
      else iunlockput dp <| .set ip (addLink (-1)) <| .iupdate ip <| iunlockput ip (.done cwd)) := by
    refine writei_ok (both_dir hne) hv fun u r hu => ?_
    rw [both_lock_dir hne]
    refine ite_ok (fun _ => trivial) fun _ => ite_ok (fun _ => both_update_dir hne hu.link (hfinish _)) fun _ =>
      hfinish u
  refine ite_ok (fun _ => scanLoop_ok (L := both {cwd} dp v ip w) lock_self hw fun used _ => ite_ok (fun _ => ?_)
    fun _ => hremove) fun _ => hremove
  exact both_leave hne (leave_ok done_ok)

theorem exec_ok {path : Path} {reads : List (Nat × Nat)} : Ok (plain {cwd}) (exec cwd path reads) := by
  refine namex_ok (mem_singleton_self cwd) done_ok fun ip => plain_ilock fun v hv => ?_
  induction reads with
  | nil => exact leave_ok done_ok
  | cons x reads ih => exact readi_ok lock_self hv.solid fun r => ite_ok (fun _ => ih) fun _ => leave_ok done_ok

def pinned (cwd ip : Slot) : Local := ⟨{cwd}, some ip, fun _ => none⟩

theorem pinned_release : ∀ {w : Dinode} {k : Code}, Ok (pinned cwd ip) k → Ok ((pinned cwd ip).lock ip (.has w false))
    (.release ip k) := by
  intro w k hk
  refine ⟨.inl ⟨w, lock_self⟩, ?_⟩
  rw [lock_unlock, unlock_eq rfl]
  exact hk

theorem pinned_done : Ok (pinned cwd ip) (.done cwd) := ⟨rfl, fun _ => rfl⟩

theorem fileread_ok {n : Nat} : Ok (pinned cwd ip) (fileread cwd ip n) :=
  ilock_ok (.inr rfl) fun _ _ hv _ => readi_ok lock_self hv.solid fun _ => pinned_release pinned_done

theorem filewrite_ok {n : Nat} : Ok (pinned cwd ip) (filewrite cwd ip n) := by
  induction n using Nat.strong_induction_on with
  | _ n ih =>
    rw [filewrite]
    split
    next => exact pinned_done
    next hn =>
      refine ilock_ok (.inr rfl) fun _ v hv off => writei_ok lock_self hv fun w r _ => ?_
      rw [lock_lock]
      refine pinned_release (ite_ok (fun _ => pinned_done) fun _ => ih _ ?_)
      have : 0 < maxwrite := by decide
      omega

theorem filestat_ok : Ok (pinned cwd ip) (filestat cwd ip) :=
  ilock_ok (.inr rfl) fun _ v _ => ⟨v, false, lock_self, pinned_release pinned_done⟩

theorem fileclose_ok : Ok (plain (ip ::ₘ {cwd})) (fileclose cwd ip) :=
  iput_ok (mem_cons_self ip {cwd}) (fun hl => absurd rfl hl) ((get_put (L := plain {cwd})).symm ▸ done_ok)

theorem exit_ok : Ok (plain {cwd}) (exit cwd) := by
  refine iput_ok (mem_singleton_self cwd) (fun hl => absurd rfl hl) ⟨?_, fun _ => rfl⟩
  exact erase_singleton cwd

end Calls

end Xv6.InodeCache
