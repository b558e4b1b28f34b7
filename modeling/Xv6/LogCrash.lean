import Xv6.Log

namespace Xv6.Log

open Function

variable {β : Type} {g : Geom} {lh : List Nat} {t : Nat}

structure Write (β : Type) where
  proc : Nat
  block : Nat
  data : β

/-- What a trace says about its transactions: the groups whose header write reached the disk,
and the `log_write`s since then that a crash would undo. -/
structure History (β : Type) where
  groups : List (List (Write β))
  pending : List (Write β)

def History.next (h : History β) : Ev β → History β
  | .logWrite p b v => { h with pending := h.pending ++ [⟨p, b, v⟩] }
  | .writeHead => ⟨h.groups ++ [h.pending], []⟩
  | .crash => { h with pending := [] }
  | _ => h

def history (evs : List (Ev β)) : History β := evs.foldl History.next ⟨[], []⟩

def openNext (ops : List Nat) : Ev β → List Nat
  | .beginOp p => p :: ops
  | .endOp p => ops.erase p
  | .crash => []
  | _ => ops

def openOps (evs : List (Ev β)) : List Nat := evs.foldl openNext []

def contents (base : Nat → β) (ws : List (Write β)) : Nat → β :=
  ws.foldl (fun c w => update c w.block w.data) base

def durable (base : Nat → β) (evs : List (Ev β)) : Nat → β :=
  contents base (history evs).groups.flatten

theorem contents_append (base : Nat → β) (ws vs : List (Write β)) :
    contents base (ws ++ vs) = contents (contents base ws) vs := by
  simp [contents]

theorem contents_other {base : Nat → β} {ws : List (Write β)} {b : Nat}
    (h : ∀ w ∈ ws, w.block ≠ b) : contents base ws b = base b := by
  induction ws generalizing base with
  | nil => rfl
  | cons w ws ih =>
    have hw := h w (by simp)
    calc contents (update base w.block w.data) ws b
        = update base w.block w.data b := ih fun x hx => h x (by simp [hx])
      _ = base b := update_of_ne hw.symm _ _

theorem contents_snoc_same (base : Nat → β) (ws : List (Write β)) (w : Write β) :
    contents base (ws ++ [w]) w.block = w.data := by
  simp [contents]

theorem contents_snoc_other (base : Nat → β) (ws : List (Write β)) (w : Write β) {b : Nat}
    (h : b ≠ w.block) : contents base (ws ++ [w]) b = contents base ws b := by
  simp [contents, update_of_ne h]

/-- The header names the blocks `lh`, the log holds their contents, and every home block
except those from position `t` on already has its contents `D`. -/
structure Installed (g : Geom) (D : Nat → β) (d : Disk β) (lh : List Nat) (t : Nat) : Prop where
  bound : t ≤ lh.length
  head : d.head = lh
  copies : ∀ i b, lh[i]? = some b → d.block (g.start + i + 1) = D b
  home : ∀ b, ¬ g.Area b → b ∉ lh.drop t → d.block b = D b

structure Fits (g : Geom) (lh : List Nat) : Prop where
  nodup : lh.Nodup
  outside : ∀ b ∈ lh, ¬ g.Area b
  room : ∀ t, t < lh.length → t + 1 < g.size

theorem Fits.nil : Fits g [] := ⟨by simp, by simp, by simp⟩

theorem Fits.copy_in_area (h : Fits g lh) (ht : t < lh.length) :
    g.Area (g.start + t + 1) := by
  have := h.room t ht
  exact ⟨by omega, by omega⟩

theorem Fits.copy_ne_home (h : Fits g lh) {t b : Nat} (ht : t < lh.length)
    (hb : b ∈ lh) : g.start + t + 1 ≠ b := by
  intro he
  exact h.outside b hb (he ▸ h.copy_in_area ht)

section
variable {D : Nat → β} {d : Disk β}

theorem Installed.nil (hd : d.head = []) (home : ∀ b, ¬ g.Area b → d.block b = D b) : Installed g D d [] 0 :=
  ⟨by simp, hd, by simp, fun b hb _ => home b hb⟩

theorem Installed.restart (h : Installed g D d lh t) : Installed g D d lh 0 := by
  refine ⟨by omega, h.head, h.copies, ?_⟩
  intro b hb hm
  exact h.home b hb (fun hd => hm (by simpa using List.mem_of_mem_drop hd))

theorem Installed.advance {t b : Nat} {v : β}
    (h : Installed g D d lh t) (fits : Fits g lh) (hb : lh[t]? = some b) (hv : v = D b) :
    Installed g D (d.write b v) lh (t + 1) := by
  obtain ⟨ht, he⟩ := List.getElem?_eq_some_iff.mp hb
  have hm : b ∈ lh := List.mem_of_getElem? hb
  refine ⟨by omega, h.head, ?_, ?_⟩
  · intro i c hc
    obtain ⟨hi, _⟩ := List.getElem?_eq_some_iff.mp hc
    have hne := fits.copy_ne_home hi hm
    simpa [Disk.write, update_of_ne hne] using h.copies i c hc
  · intro c hc hd
    by_cases hcb : c = b
    · subst c; simp [Disk.write, hv]
    · have hdrop : c ∉ lh.drop t := by
        rw [List.drop_eq_getElem_cons ht]
        simp [he, hcb, hd]
      simpa [Disk.write, update_of_ne hcb] using h.home c hc hdrop

theorem Installed.finish (h : Installed g D d lh lh.length) : Installed g D { d with head := [] } [] 0 :=
  Installed.nil rfl (fun b hb => h.home b hb (by simp))

end

theorem installTrans_home {D : Nat → β} (fits : Fits g lh) {rest : List Nat}
    {d : Disk β} (h : Installed g D d lh t) (hr : lh.drop t = rest) :
    ∀ b, ¬ g.Area b → (installTrans g d t rest).block b = D b := by
  induction rest generalizing d t with
  | nil =>
    intro b hb
    exact h.home b hb (by simp [hr])
  | cons c rest ih =>
    have hc : lh[t]? = some c := by
      have := congrArg List.head? hr
      simpa [List.head?_drop] using this
    have hrest : lh.drop (t + 1) = rest := by
      have := congrArg List.tail hr
      simpa using this
    exact ih (h.advance fits hc (h.copies t c hc)) hrest

theorem recoverFromLog_home {D : Nat → β} {d : Disk β}
    (fits : Fits g lh) (h : Installed g D d lh t) :
    ∀ b, ¬ g.Area b → (recoverFromLog g d).block b = D b := by
  have hs := h.restart
  rw [← h.head] at hs fits
  exact installTrans_home fits hs (by simp)

end Xv6.Log
