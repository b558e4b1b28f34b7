import Mathlib
import Xv6.Sh.Printer

/-!
What `runcmd` does with the REDIR nodes around a command.
-/

namespace Xv6.Sh

open List Function

inductive OpenFile
  | inherited (fd : Nat)
  | file (r : Redir)
  deriving DecidableEq

/-- The descriptors of a child of the shell, and the files that it has opened. The shell has seen to it that the standard
descriptors are open. -/
structure Child where
  fd : Nat → Option OpenFile
  opened : List Redir
  std : ∀ i < 2, fd i ≠ none

def nofile : Nat := 16

/-- The lowest descriptor that is not in use. -/
def fdalloc (fd : Nat → Option OpenFile) : Option Nat := (range nofile).find? fun i => fd i = none

/-- `close(rcmd->fd)` and `open(rcmd->file, rcmd->mode)`; `none` is `exit(1)`. Whether a file can be opened is up to `ok`. -/
def redirect (ok : List Redir → Redir → Bool) (c : Child) (r : Redir) : Option Child :=
  let fd := Function.update c.fd r.fd none
  if ok c.opened r then
    match fdalloc fd with
    | none => none
    | some i =>
      let fd := Function.update fd i (some (.file r))
      -- a standard descriptor that has been closed is the one that is opened
      if h : ∀ i < 2, fd i ≠ none then some ⟨fd, c.opened ++ [r], h⟩ else none
  else none

/-- `runcmd` up to the node that is no REDIR: that command is executed with the descriptors of the child. -/
def runcmd (ok : List Redir → Redir → Bool) : Cmd → Child → Option (Cmd × Child)
  | .redir cmd r, c => (redirect ok c r).bind (runcmd ok cmd)
  | cmd, c => some (cmd, c)

/-- The redirections of a simple or parenthesised command, in the order of the source. -/
inductive Source : List Token → Cmd → List Redir → Prop
  | simple {ts us rs ws qs} : Redirs ts rs → Args us ws qs → Source (ts ++ us) (.exec ws) (rs ++ qs)
  | block {ts us c rs} : Derives .line ts c → Redirs us rs → Source (.lpar :: (ts ++ .rpar :: us)) c rs

def redirects (ok : List Redir → Redir → Bool) : List Redir → Child → Option Child
  | [], c => some c
  | r :: rs, c => (redirect ok c r).bind (redirects ok rs)

variable {ok : List Redir → Redir → Bool} {c c' : Child} {cmd : Cmd} {rs : List Redir} {r : Redir} {ts : List Token} {ws : List Text}

theorem fdalloc_closed (hr : r.fd < 2) : fdalloc (update c.fd r.fd none) = some r.fd := by
  have hzero := c.std 0 (by decide)
  obtain hfd | hfd : r.fd = 0 ∨ r.fd = 1 := by omega
  · rw [hfd]
    rfl
  · rw [hfd]
    show (find? _ (0 :: 1 :: range' 2 14)) = _
    rw [find?_cons_of_neg (by simpa using hzero), find?_cons_of_pos (by simp)]

theorem redirect_fd (hr : r.fd < 2) (h : redirect ok c r = some c') :
    c'.opened = c.opened ++ [r] ∧ c'.fd = update c.fd r.fd (some (.file r)) := by
  unfold redirect at h
  simp only [fdalloc_closed hr, update_idem] at h
  split at h
  next =>
    split at h
    next =>
      cases h
      exact ⟨rfl, rfl⟩
    next => cases h
  next => cases h

theorem redirect_some (hr : r.fd < 2) (hok : ok c.opened r = true) : ∃ c', redirect ok c r = some c' := by
  have hstd : ∀ i < 2, update c.fd r.fd (some (.file r)) i ≠ none := by
    intro i hi
    by_cases he : i = r.fd
    · simp [he]
    · rw [update_of_ne he]
      exact c.std i hi
  unfold redirect
  simp only [fdalloc_closed hr, update_idem]
  rw [if_pos hok, dif_pos hstd]
  exact ⟨_, rfl⟩

theorem redirects_fd (hrs : ∀ r ∈ rs, r.fd < 2) (h : redirects ok rs c = some c') :
    c'.opened = c.opened ++ rs ∧ ∀ fd, c'.fd fd = (rs.filter (·.fd = fd)).getLast?.elim (c.fd fd) fun r => some (.file r) := by
  induction rs generalizing c with
  | nil =>
    cases Option.some.inj h
    exact ⟨(append_nil _).symm, fun _ => rfl⟩
  | cons r rs ih =>
    obtain ⟨hr, hrs⟩ := forall_mem_cons.mp hrs
    obtain ⟨d, hd, hrest⟩ := Option.bind_eq_some_iff.mp h
    obtain ⟨hopened, hfd⟩ := redirect_fd hr hd
    obtain ⟨hopened', hfd'⟩ := ih hrs hrest
    refine ⟨by rw [hopened', hopened, append_assoc]; rfl, fun fd => ?_⟩
    rw [hfd', hfd, filter_cons]
    by_cases heq : r.fd = fd
    · rw [if_pos (decide_eq_true heq), getLast?_cons, heq, update_self]
      cases (rs.filter (·.fd = fd)).getLast? <;> rfl
    · rw [if_neg (by simpa using heq), update_of_ne (Ne.symm heq)]

theorem redirects_some (hrs : ∀ r ∈ rs, r.fd < 2) (hok : ∀ o r, ok o r = true) : ∃ c', redirects ok rs c = some c' := by
  induction rs generalizing c with
  | nil => exact ⟨c, rfl⟩
  | cons r rs ih =>
    obtain ⟨hr, hrs⟩ := forall_mem_cons.mp hrs
    obtain ⟨d, hd⟩ := redirect_some (c := c) hr (hok c.opened r)
    obtain ⟨c', hc'⟩ := ih (c := d) hrs
    exact ⟨c', Option.bind_eq_some_iff.mpr ⟨d, hd, hc'⟩⟩

theorem runcmd_wrap (cmd : Cmd) (rs : List Redir) (c : Child) :
    runcmd ok (wrap cmd rs) c = (redirects ok rs.reverse c).bind (runcmd ok cmd) := by
  have happend : ∀ (l : List Redir) r c, redirects ok (r :: l) c = (redirect ok c r).bind (redirects ok l) := fun _ _ _ => rfl
  induction rs using reverseRecOn generalizing c with
  | nil => rfl
  | append_singleton rs r ih =>
    rw [wrap, foldl_append, reverse_append, reverse_singleton, singleton_append, happend, Option.bind_assoc]
    exact congrArg (redirect ok c r).bind (funext ih)

theorem redircmd_fd {tok : Token} {file : Text} (h : redircmd tok file = [r]) : r.fd < 2 := by
  unfold redircmd at h
  split at h <;> simp_all <;> simp [← h]

theorem Redirs.fd (h : Redirs ts rs) : ∀ r ∈ rs, r.fd < 2 := by
  induction h with
  | nil => simp
  | cons hr _ ih => exact forall_mem_cons.mpr ⟨redircmd_fd hr, ih⟩

theorem Args.fd (h : Args ts ws rs) : ∀ r ∈ rs, r.fd < 2 := by
  induction h with
  | nil => simp
  | cons hredirs _ ih => exact forall_mem_append.mpr ⟨hredirs.fd, ih⟩

theorem Source.fd (h : Source ts cmd rs) : ∀ r ∈ rs, r.fd < 2 := by
  cases h with
  | simple hredirs hargs => exact forall_mem_append.mpr ⟨hredirs.fd, hargs.fd⟩
  | block _ hredirs => exact hredirs.fd

theorem Derives.source {c : Cmd} (h : Derives .exec ts c) : ∃ cmd rs, Source ts cmd rs ∧ c = wrap cmd rs := by
  cases h with
  | block hline hredirs => exact ⟨_, _, .block hline hredirs, rfl⟩
  | simple hredirs hargs _ => exact ⟨_, _, .simple hredirs hargs, rfl⟩

theorem elim_eq_elim_iff {o o' : Option Redir} {x : Option OpenFile} (h : o = none ↔ o' = none) :
    (o.elim x fun r => some (.file r)) = (o'.elim x fun r => some (.file r)) ↔ o = o' := by
  cases o with
  | none => simp [h.mp rfl]
  | some r =>
    cases o' with
    | none => exact absurd (h.mpr rfl) (by simp)
    | some r' => simp

/-- `runcmd` opens the files from the last one to the first, which is the order of the source iff that is a palindrome. A
descriptor is left with the first of its files. -/
theorem redirections_run (ok : List Redir → Redir → Bool) (s : Text) (p : Parsed Cmd s) (c : Child) (hp : parseexec s = .ok p) :
    ∃ ts cmd rs, tokens s = ts ++ tokens p.rest ∧ Source ts cmd rs ∧ p.val = wrap cmd rs ∧
      runcmd ok p.val c = (redirects ok rs.reverse c).bind (runcmd ok cmd) ∧
      ((∀ o r, ok o r = true) → ∃ c', redirects ok rs.reverse c = some c') ∧
      ∀ c', redirects ok rs.reverse c = some c' → c'.opened = c.opened ++ rs.reverse ∧
        (∀ fd, c'.fd fd = (rs.filter (·.fd = fd)).head?.elim (c.fd fd) fun r => some (.file r)) ∧
        (c'.opened = c.opened ++ rs ↔ rs.reverse = rs) ∧
        ∀ fd, c'.fd fd = ((rs.filter (·.fd = fd)).getLast?.elim (c.fd fd) fun r => some (.file r)) ↔
          (rs.filter (·.fd = fd)).head? = (rs.filter (·.fd = fd)).getLast? := by
  obtain ⟨ts, hts, htokens⟩ := (parseexec_reads fun u _ => (parse_reads u).2).derives p hp
  obtain ⟨cmd, rs, hsource, hval⟩ := hts.source
  have hfds : ∀ r ∈ rs.reverse, r.fd < 2 := fun r hr => hsource.fd r (mem_reverse.mp hr)
  refine ⟨ts, cmd, rs, htokens, hsource, hval, hval ▸ runcmd_wrap cmd rs c, redirects_some hfds, fun c' hc' => ?_⟩
  obtain ⟨hopened, hfd⟩ := redirects_fd hfds hc'
  simp only [filter_reverse, getLast?_reverse] at hfd
  refine ⟨hopened, hfd, by rw [hopened, append_cancel_left_eq], fun fd => ?_⟩
  rw [hfd]
  exact elim_eq_elim_iff (head?_eq_none_iff.trans getLast?_eq_none_iff.symm)

def standard : Child where
  fd i := if i < 3 then some (.inherited i) else none
  opened := []
  std i hi := by simp [show i < 3 by omega]

def twoOutputs : List Token := [.word [108, 115], .gt, .word [97], .gt, .word [98]]

def toFile (file : Text) : Redir := ⟨file, wronly ||| creat ||| trunc, 1⟩

theorem twoOutputs_parsed : Yields (parseexec (render twoOutputs)) (wrap (.exec [[108, 115]]) [toFile [97], toFile [98]]) [] := by
  have hredirs : Redirs [.gt, .word [97], .gt, .word [98]] [toFile [97], toFile [98]] := .cons rfl (.cons rfl .nil)
  have htokens : tokens (render twoOutputs) = twoOutputs ++ [] := by
    rw [append_nil]
    refine tokens_render fun t ht => ?_
    simp only [twoOutputs, mem_cons, not_mem_nil, or_false] at ht
    rcases ht with rfl | rfl | rfl | rfl | rfl <;> simp [Token.Ok, Word] <;> decide
  exact parse_complete (k := .exec) (words_derive [[108, 115]] hredirs (by decide)) htokens fun t ht => by cases ht

theorem redirections_run_two : ∃ p cmd rs, parseexec (render twoOutputs) = .ok p ∧ p.val = wrap cmd rs ∧
    runcmd (fun _ _ => true) p.val standard = (redirects (fun _ _ => true) rs.reverse standard).bind (runcmd (fun _ _ => true) cmd) := by
  obtain ⟨p, hp, -⟩ := twoOutputs_parsed
  obtain ⟨_, cmd, rs, -, -, hval, hrun, -⟩ := redirections_run (fun _ _ => true) (render twoOutputs) p standard hp
  exact ⟨p, cmd, rs, hp, hval, hrun⟩

/-- Descriptor 1 of `ls > a > b` is the file `a`. -/
theorem twoOutputs_first : ∃ p, parseexec (render twoOutputs) = .ok p ∧
    ∃ c', runcmd (fun _ _ => true) p.val standard = some (.exec [[108, 115]], c') ∧
    c'.opened = [toFile [98], toFile [97]] ∧ c'.fd 1 = some (.file (toFile [97])) := by
  obtain ⟨p, hp, hval, -⟩ := twoOutputs_parsed
  refine ⟨p, hp, ?_⟩
  rw [hval]
  refine ⟨_, rfl, rfl, ?_⟩
  decide +kernel

end Xv6.Sh
