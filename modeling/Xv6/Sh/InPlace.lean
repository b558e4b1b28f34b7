import Mathlib
import Xv6.Lib.Prog
import Xv6.Sh.Parser

/-!
The parser with its pointers: the words of a command are pairs of pointers into the input buffer, and
`nulterminate` writes a NUL at the second of each pair.
-/

namespace Xv6.Sh.InPlace

open Prog List

section Code

/-- The input buffer, by the offset from its start. -/
abbrev Buf := Nat → Byte

/-- `q` and `eq`. -/
structure Span where
  start : Nat
  stop : Nat

structure Redir where
  file : Span
  mode : BitVec 32
  fd : Nat

inductive Cmd
  | exec (argv : List Span)
  | redir (cmd : Cmd) (r : Redir)
  | pipe (left right : Cmd)
  | list (left right : Cmd)
  | back (cmd : Cmd)

inductive Tok
  | nul
  | bar
  | lpar
  | rpar
  | semi
  | amp
  | lt
  | gt
  | append
  | word
  deriving DecidableEq

/-- A panic, or the end of the fuel of the model. -/
inductive Stop
  | panic (f : Fault)
  | outOfFuel

/-- The state is `*ps`. -/
abbrev P := StateT Nat (Except Stop)

/-- A loop `while(s < es && p(*s)) s++`. -/
def skipWhile (p : Byte → Bool) (buf : Buf) (es : Nat) : (fuel s : Nat) → Nat
  | 0, s => s
  | fuel + 1, s => if s < es ∧ p (buf s) = true then skipWhile p buf es fuel (s + 1) else s

def skip (buf : Buf) (es s : Nat) : Nat := skipWhile isSpace buf es (es - s) s

/-- The switch of `gettoken`, with the end of the token. -/
def scan (buf : Buf) (es s : Nat) : Tok × Nat :=
  if buf s = 0 then (.nul, s)
  else if buf s = 124 then (.bar, s + 1)
  else if buf s = 40 then (.lpar, s + 1)
  else if buf s = 41 then (.rpar, s + 1)
  else if buf s = 59 then (.semi, s + 1)
  else if buf s = 38 then (.amp, s + 1)
  else if buf s = 60 then (.lt, s + 1)
  else if buf s = 62 then if buf (s + 1) = 62 then (.append, s + 2) else (.gt, s + 1)
  else (.word, skipWhile isWord buf es (es - s) s)

variable (buf : Buf) (es : Nat)

def gettoken : P (Tok × Span) := do
  let s := skip buf es (← get)
  let r := scan buf es s
  set (skip buf es r.2)
  return (r.1, ⟨s, r.2⟩)

def peek (toks : List Byte) : P Bool := do
  let s := skip buf es (← get)
  set s
  return buf s ≠ 0 && toks.contains (buf s)

/-- The REDIR node of a token; its command is put in later. -/
def redircmd (tok : Tok) (file : Span) : List Redir :=
  match tok with
  | .lt => [⟨file, rdonly, 0⟩]
  | .gt => [⟨file, wronly ||| creat ||| trunc, 1⟩]
  | .append => [⟨file, wronly ||| creat, 1⟩]
  | _ => []

/-- The nodes that `parseredirs` puts around its command, the innermost first. -/
def parseredirs : (fuel : Nat) → P (List Redir)
  | 0 => throw .outOfFuel
  | fuel + 1 => do
    if !(← peek buf es [60, 62]) then return []
    let tok ← gettoken buf es
    let file ← gettoken buf es
    if file.1 ≠ .word then throw (.panic .missingFile)
    let rs ← parseredirs fuel
    return redircmd tok.1 file.2 ++ rs

/-- The loop of `parseexec`: the arguments stored so far and the nodes around the command. -/
def parseargs : (fuel : Nat) → List Span → List Redir → P (List Span × List Redir)
  | 0, _, _ => throw .outOfFuel
  | fuel + 1, argv, rs => do
    if ← peek buf es [124, 41, 38, 59] then return (argv, rs)
    let tok ← gettoken buf es
    if tok.1 = .nul then return (argv, rs)
    if tok.1 ≠ .word then throw (.panic .badToken)
    if argv.length + 1 ≥ maxargs then throw (.panic .tooManyArgs)
    let more ← parseredirs buf es fuel
    parseargs fuel (argv ++ [tok.2]) (rs ++ more)

def wrap (cmd : Cmd) (rs : List Redir) : Cmd := rs.foldl .redir cmd

def parsebacks : (fuel : Nat) → Cmd → P Cmd
  | 0, _ => throw .outOfFuel
  | fuel + 1, cmd => do
    if !(← peek buf es [38]) then return cmd
    let _ ← gettoken buf es
    parsebacks fuel (.back cmd)

mutual

def parseblock : (fuel : Nat) → P Cmd
  | 0 => throw .outOfFuel
  | fuel + 1 => do
    if !(← peek buf es [40]) then throw (.panic .parseblock)
    let _ ← gettoken buf es
    let cmd ← parseline fuel
    if !(← peek buf es [41]) then throw (.panic .missingParen)
    let _ ← gettoken buf es
    let rs ← parseredirs buf es fuel
    return wrap cmd rs

def parseexec : (fuel : Nat) → P Cmd
  | 0 => throw .outOfFuel
  | fuel + 1 => do
    if ← peek buf es [40] then parseblock fuel
    else
      let rs ← parseredirs buf es fuel
      let r ← parseargs buf es fuel [] rs
      return wrap (.exec r.1) r.2

def parsepipe : (fuel : Nat) → P Cmd
  | 0 => throw .outOfFuel
  | fuel + 1 => do
    let cmd ← parseexec fuel
    if ← peek buf es [124] then
      let _ ← gettoken buf es
      let right ← parsepipe fuel
      return .pipe cmd right
    else return cmd

def parseline : (fuel : Nat) → P Cmd
  | 0 => throw .outOfFuel
  | fuel + 1 => do
    let cmd ← parsepipe fuel
    let cmd ← parsebacks buf es fuel cmd
    if ← peek buf es [59] then
      let _ ← gettoken buf es
      let right ← parseline fuel
      return .list cmd right
    else return cmd

end

/-- `parsecmd` up to `nulterminate`, from the start of the buffer. -/
def parse (fuel : Nat) : P Cmd := do
  let cmd ← parseline buf es fuel
  let _ ← peek buf es []
  if (← get) ≠ es then throw (.panic .leftovers)
  return cmd

/-- `*p = 0`. -/
def zero (buf : Buf) (p : Nat) : Buf := fun x => if x = p then 0 else buf x

end Code

section Words

variable {buf : Buf} {es s n : Nat} {p : Byte → Bool} {E : Stop → Prop}

def Cmd.words : Cmd → List Span
  | .exec argv => argv
  | .redir cmd r => cmd.words ++ [r.file]
  | .pipe left right => left.words ++ right.words
  | .list left right => left.words ++ right.words
  | .back cmd => cmd.words

/-- `es` is `s + strlen(s)`. -/
structure Ends (buf : Buf) (es : Nat) : Prop where
  nul : buf es = 0
  nonzero : ∀ i < es, buf i ≠ 0

/-- A token of the text: word bytes up to the end of the text or to a byte that is none. -/
structure WordAt (buf : Buf) (es : Nat) (w : Span) : Prop where
  start : w.start < w.stop
  stop : w.stop ≤ es
  bytes : ∀ i, w.start ≤ i → i < w.stop → isWord (buf i) = true
  ends : w.stop = es ∨ isWord (buf w.stop) = false

theorem Ends.lt (h : Ends buf es) (hs : s ≤ es) (hne : buf s ≠ 0) : s < es := by
  refine Nat.lt_of_le_of_ne hs ?_
  rintro rfl
  exact hne h.nul

theorem skipWhile_spec (hs : s ≤ es) (hf : es - s ≤ n) : s ≤ skipWhile p buf es n s ∧
    skipWhile p buf es n s ≤ es ∧ (∀ i, s ≤ i → i < skipWhile p buf es n s → p (buf i) = true) ∧
    (skipWhile p buf es n s = es ∨ p (buf (skipWhile p buf es n s)) = false) := by
  induction n generalizing s with
  | zero => exact ⟨Nat.le_refl s, hs, fun i h h' => absurd h' (Nat.not_lt.mpr h), .inl (by simp only [skipWhile]; omega)⟩
  | succ n ih =>
    rw [skipWhile]
    split
    next h =>
      obtain ⟨hle, hes, hall, hend⟩ := ih (s := s + 1) h.1 (by omega)
      refine ⟨by omega, hes, fun i hi hlt => ?_, hend⟩
      rcases Nat.eq_or_lt_of_le hi with rfl | hi
      · exact h.2
      · exact hall i hi hlt
    next h =>
      refine ⟨Nat.le_refl s, hs, fun i h h' => absurd h' (Nat.not_lt.mpr h), ?_⟩
      rcases Nat.eq_or_lt_of_le hs with rfl | hlt
      · exact .inl rfl
      · exact .inr (by simpa [hlt] using h)

theorem skipWhile_stop (h : s = es ∨ p (buf s) = false) : skipWhile p buf es n s = s := by
  cases n with
  | zero => rfl
  | succ n => rcases h with h | h <;> simp [skipWhile, h]

theorem skip_spec (hs : s ≤ es) : s ≤ skip buf es s ∧ skip buf es s ≤ es ∧
    (skip buf es s = es ∨ isSpace (buf (skip buf es s)) = false) := by
  obtain ⟨hle, hes, -, hend⟩ := @skipWhile_spec buf es s _ isSpace hs (Nat.le_refl _)
  exact ⟨hle, hes, hend⟩

theorem scan_spec (h : Ends buf es) (hs : s ≤ es) (hspace : s = es ∨ isSpace (buf s) = false) :
    s ≤ (scan buf es s).2 ∧ (scan buf es s).2 ≤ es ∧ (buf s ≠ 0 → s < (scan buf es s).2) ∧
      ((scan buf es s).1 = .word → WordAt buf es ⟨s, (scan buf es s).2⟩) := by
  unfold scan
  split_ifs with h0 h1 h2 h3 h4 h5 h6 h7 h8
  · exact ⟨Nat.le_refl s, hs, fun hne => absurd h0 hne, by rintro ⟨⟩⟩
  all_goals have hlt := h.lt hs h0
  all_goals try exact ⟨Nat.le_succ s, hlt, fun _ => Nat.lt_succ_self s, by rintro ⟨⟩⟩
  · have hnext := h.lt hlt (by rw [h8]; decide)
    exact ⟨Nat.le_add_right s 2, hnext, fun _ => Nat.lt_add_of_pos_right Nat.two_pos, by rintro ⟨⟩⟩
  · obtain ⟨hle, hes, hall, hend⟩ := @skipWhile_spec buf es s _ isWord hs (Nat.le_refl _)
    suffices hpos : s < _ from ⟨hle, hes, fun _ => hpos, fun _ => ⟨hpos, hes, hall, hend⟩⟩
    have hword : isWord (buf s) = true := by
      have hsp : isSpace (buf s) = false := hspace.resolve_left (Nat.ne_of_lt hlt)
      have hsym : buf s ∉ symbols := by
        simp only [symbols, mem_cons, not_mem_nil, or_false]
        rintro (h | h | h | h | h | h | h) <;> contradiction
      simp only [isWord, isSpace] at hsp ⊢
      rw [hsp]
      simpa using hsym
    refine Nat.lt_of_le_of_ne hle fun heq => ?_
    simp only at heq
    rw [← heq] at hend
    rcases hend with hend | hend
    · omega
    · rw [hword] at hend
      cases hend

theorem wp_gettoken (h : Ends buf es) (hs : s ≤ es) : wp (gettoken buf es)
    (fun r t => (s ≤ t ∧ t ≤ es) ∧ (buf (skip buf es s) ≠ 0 → s < t) ∧ (r.1 = .word → WordAt buf es r.2 ∧ s < t)) E s := by
  obtain ⟨hle, hles, hspace⟩ := @skip_spec buf es s hs
  obtain ⟨hlo, hes, hpos, hword⟩ := scan_spec h hles hspace
  obtain ⟨hend, hendes, -⟩ := @skip_spec buf es _ hes
  simp only [gettoken, wp_bind, wp_get, wp_set, wp_pure]
  refine ⟨⟨by omega, hendes⟩, fun hne => ?_, fun hw => ⟨hword hw, ?_⟩⟩
  · have := hpos hne
    omega
  · have : skip buf es s < (scan buf es (skip buf es s)).2 := (hword hw).start
    omega

/-- If `peek` finds its byte, the next token is not the end of the text. -/
theorem wp_peek {toks : List Byte} (hs : s ≤ es) :
    wp (peek buf es toks) (fun b t => (s ≤ t ∧ t ≤ es) ∧ (b = true → buf (skip buf es t) ≠ 0)) E s := by
  obtain ⟨hle, hes, hspace⟩ := @skip_spec buf es s hs
  simp only [peek, wp_bind, wp_get, wp_set, wp_pure]
  refine ⟨⟨hle, hes⟩, fun hb => ?_⟩
  rw [skip, skipWhile_stop hspace]
  exact of_decide_eq_true (Bool.and_eq_true_iff.mp hb).1

def Good (buf : Buf) (es : Nat) (ws : List Span) : Prop := ∀ w ∈ ws, WordAt buf es w

theorem Good.append {ws vs : List Span} (h : Good buf es ws) (h' : Good buf es vs) : Good buf es (ws ++ vs) := by
  intro w hw
  rcases mem_append.mp hw with hw | hw
  · exact h w hw
  · exact h' w hw

theorem good_redircmd {tok : Tok} {file : Span} (h : WordAt buf es file) :
    Good buf es ((redircmd tok file).map Redir.file) := by
  intro w hw
  cases tok <;> simp only [redircmd, map_nil, map_cons, not_mem_nil, mem_singleton] at hw <;>
    exact hw ▸ h

theorem words_wrap (cmd : Cmd) (rs : List Redir) : (wrap cmd rs).words = cmd.words ++ rs.map Redir.file := by
  induction rs generalizing cmd with
  | nil => simp [wrap]
  | cons r rs ih =>
    have hstep : wrap cmd (r :: rs) = wrap (.redir cmd r) rs := rfl
    rw [hstep, ih, Cmd.words, append_assoc, map_cons, singleton_append]

theorem Good.wrap {cmd : Cmd} {rs : List Redir} (h : Good buf es cmd.words) (hr : Good buf es (rs.map Redir.file)) :
    Good buf es (wrap cmd rs).words := by
  rw [words_wrap]
  exact h.append hr

/-- The fuel `n` can run out only if it is not more than four steps for each byte from `s` on and `c` more. -/
def Lacks (es n c s : Nat) (e : Stop) : Prop := e = .outOfFuel → n ≤ 4 * (es - s) + c

@[simp]
theorem lacks_panic {c : Nat} {f : Fault} : Lacks es n c s (.panic f) := by rintro ⟨⟩

theorem Lacks.mono {c m c' t : Nat} (h : n ≤ 4 * (es - s) + c → m ≤ 4 * (es - t) + c') (e : Stop)
    (he : Lacks es n c s e) : Lacks es m c' t e := fun hf => h (he hf)

section
variable (h : Ends buf es) (hs : s ≤ es)
include h hs

theorem wp_parseredirs : wp (parseredirs buf es n)
    (fun rs t => (s ≤ t ∧ t ≤ es) ∧ Good buf es (rs.map Redir.file)) (Lacks es n 0 s) s := by
  induction n generalizing s with
  | zero => simp [parseredirs, Lacks]
  | succ n ih =>
    simp only [parseredirs]
    refine (wp_peek hs).bind ?_
    rintro b t ⟨ht, hb⟩
    rw [wp_ite]
    refine ⟨fun _ => wp_pure.mpr ⟨ht, by simp [Good]⟩, fun hmore => ?_⟩
    refine (wp_gettoken h ht.2).bind ?_
    rintro tok t₁ ⟨ht₁, hlt, -⟩
    replace hlt := hlt (hb (by simpa using hmore))
    refine (wp_gettoken h ht₁.2).bind ?_
    rintro file t₂ ⟨ht₂, -, hfile⟩
    simp only [wp_bind, wp_ite, wp_throw, wp_pure, lacks_panic, implies_true, true_and]
    intro hword
    refine (ih ht₂.2).mono ?_ (Lacks.mono (by omega))
    rintro rs t₃ ⟨ht₃, hrs⟩
    refine ⟨by omega, ?_⟩
    rw [map_append]
    exact (good_redircmd (hfile (by simpa using hword)).1).append hrs

theorem wp_parseargs {argv : List Span} {rs : List Redir} (ha : Good buf es argv)
    (hr : Good buf es (rs.map Redir.file)) : wp (parseargs buf es n argv rs)
    (fun r t => (s ≤ t ∧ t ≤ es) ∧ Good buf es r.1 ∧ Good buf es (r.2.map Redir.file)) (Lacks es n 0 s) s := by
  induction n generalizing s argv rs with
  | zero => simp [parseargs, Lacks]
  | succ n ih =>
    simp only [parseargs]
    refine (wp_peek hs).bind ?_
    rintro b t ⟨ht, -⟩
    rw [wp_ite]
    refine ⟨fun _ => wp_pure.mpr ⟨ht, ha, hr⟩, fun _ => (wp_gettoken h ht.2).bind ?_⟩
    rintro tok t₁ ⟨ht₁, -, htok⟩
    simp only [wp_ite, wp_bind, wp_throw, wp_pure, lacks_panic, implies_true, true_and]
    refine ⟨fun _ => ⟨by omega, ha, hr⟩, fun _ hword _ => ?_⟩
    obtain ⟨hw, hlt⟩ := htok (by simpa using hword)
    refine (wp_parseredirs h ht₁.2).mono ?_ (Lacks.mono (by omega))
    rintro more t₂ ⟨ht₂, hmore⟩
    refine (ih ht₂.2 (ha.append fun w hw' => mem_singleton.mp hw' ▸ hw) ?_).mono ?_ (Lacks.mono (by omega))
    · rw [map_append]
      exact hr.append hmore
    · exact fun r t₃ hr => ⟨by omega, hr.2⟩

theorem wp_parsebacks {cmd : Cmd} (hc : Good buf es cmd.words) :
    wp (parsebacks buf es n cmd) (fun c t => (s ≤ t ∧ t ≤ es) ∧ Good buf es c.words) (Lacks es n 0 s) s := by
  induction n generalizing s cmd with
  | zero => simp [parsebacks, Lacks]
  | succ n ih =>
    simp only [parsebacks]
    refine (wp_peek hs).bind ?_
    rintro b t ⟨ht, hb⟩
    rw [wp_ite]
    refine ⟨fun _ => wp_pure.mpr ⟨ht, hc⟩, fun hmore => (wp_gettoken h ht.2).bind ?_⟩
    rintro tok t₁ ⟨ht₁, hlt, -⟩
    replace hlt := hlt (hb (by simpa using hmore))
    have hback : Good buf es (Cmd.back cmd).words := hc
    exact (ih ht₁.2 hback).mono (fun c t₂ hc => ⟨by omega, hc.2⟩) (Lacks.mono (by omega))

end

/-- Every command that a parsing function returns has words of the text, and four steps for each byte are enough. -/
def ParsesWords (buf : Buf) (es n c : Nat) (m : P Cmd) : Prop :=
  ∀ s ≤ es, wp m (fun cmd t => (s ≤ t ∧ t ≤ es) ∧ Good buf es cmd.words) (Lacks es n c s) s

theorem parses_words (h : Ends buf es) (n : Nat) : ParsesWords buf es n 1 (parseblock buf es n) ∧
    ParsesWords buf es n 2 (parseexec buf es n) ∧ ParsesWords buf es n 3 (parsepipe buf es n) ∧
    ParsesWords buf es n 4 (parseline buf es n) := by
  induction n with
  | zero =>
    refine ⟨fun s _ => ?_, fun s _ => ?_, fun s _ => ?_, fun s _ => ?_⟩ <;>
      simp [parseblock, parseexec, parsepipe, parseline, Lacks]
  | succ n ih =>
    obtain ⟨hblock, hexec, hpipe, hline⟩ := ih
    refine ⟨fun s hs => ?_, fun s hs => ?_, fun s hs => ?_, fun s hs => ?_⟩
    · simp only [parseblock]
      refine (wp_peek hs).bind ?_
      rintro b t ⟨ht, hb⟩
      simp only [wp_ite, wp_bind, wp_throw, wp_pure, lacks_panic, implies_true, true_and]
      intro hopen
      refine (wp_gettoken h ht.2).mono ?_ fun _ => id
      rintro tok t₁ ⟨ht₁, hlt, -⟩
      replace hlt := hlt (hb (by simpa using hopen))
      refine (hline t₁ ht₁.2).mono ?_ (Lacks.mono (by omega))
      rintro c t₂ ⟨ht₂, hc⟩
      refine (wp_peek ht₂.2).mono ?_ fun _ => id
      rintro b' t₃ ⟨ht₃, -⟩ -
      refine (wp_gettoken h ht₃.2).mono ?_ fun _ => id
      rintro tok' t₄ ⟨ht₄, -⟩
      refine (wp_parseredirs h ht₄.2).mono ?_ (Lacks.mono (by omega))
      rintro rs t₅ ⟨ht₅, hrs⟩
      exact ⟨by omega, hc.wrap hrs⟩
    · simp only [parseexec]
      refine (wp_peek hs).bind ?_
      rintro b t ⟨ht, -⟩
      rw [wp_ite]
      refine ⟨fun _ => (hblock t ht.2).mono (fun c t₁ hc => ⟨by omega, hc.2⟩) (Lacks.mono (by omega)), fun _ => ?_⟩
      refine wp_bind.mpr ((wp_parseredirs h ht.2).mono ?_ (Lacks.mono (by omega)))
      rintro rs t₁ ⟨ht₁, hrs⟩
      refine wp_bind.mpr ((wp_parseargs h ht₁.2 (by simp [Good]) hrs).mono ?_ (Lacks.mono (by omega)))
      rintro r t₂ ⟨ht₂, hargs, hr⟩
      exact wp_pure.mpr ⟨by omega, Good.wrap hargs hr⟩
    · simp only [parsepipe]
      refine wp_bind.mpr ((hexec s hs).mono ?_ (Lacks.mono (by omega)))
      rintro c t ⟨ht, hc⟩
      refine (wp_peek ht.2).bind ?_
      rintro b t₁ ⟨ht₁, hb⟩
      rw [wp_ite]
      refine ⟨fun hbar => (wp_gettoken h ht₁.2).bind ?_, fun _ => wp_pure.mpr ⟨by omega, hc⟩⟩
      rintro tok t₂ ⟨ht₂, hlt, -⟩
      replace hlt := hlt (hb hbar)
      refine wp_bind.mpr ((hpipe t₂ ht₂.2).mono ?_ (Lacks.mono (by omega)))
      rintro d t₃ ⟨ht₃, hd⟩
      exact wp_pure.mpr ⟨by omega, hc.append hd⟩
    · simp only [parseline]
      refine wp_bind.mpr ((hpipe s hs).mono ?_ (Lacks.mono (by omega)))
      rintro c t ⟨ht, hc⟩
      refine wp_bind.mpr ((wp_parsebacks h ht.2 hc).mono ?_ (Lacks.mono (by omega)))
      rintro c' t₁ ⟨ht₁, hc'⟩
      refine (wp_peek ht₁.2).bind ?_
      rintro b t₂ ⟨ht₂, hb⟩
      rw [wp_ite]
      refine ⟨fun hsemi => (wp_gettoken h ht₂.2).bind ?_, fun _ => wp_pure.mpr ⟨by omega, hc'⟩⟩
      rintro tok t₃ ⟨ht₃, hlt, -⟩
      replace hlt := hlt (hb hsemi)
      refine wp_bind.mpr ((hline t₃ ht₃.2).mono ?_ (Lacks.mono (by omega)))
      rintro d t₄ ⟨ht₄, hd⟩
      exact wp_pure.mpr ⟨by omega, hc'.append hd⟩

theorem wp_parse (h : Ends buf es) (n : Nat) : wp (parse buf es n) (fun c _ => Good buf es c.words) (Lacks es n 4 0) 0 := by
  simp only [parse]
  refine ((parses_words h n).2.2.2 0 (Nat.zero_le es)).bind ?_
  rintro c t ⟨ht, hc⟩
  refine (wp_peek ht.2).bind fun _ t _ => ?_
  simp only [wp_bind, wp_get, wp_ite, wp_throw, wp_pure, lacks_panic, implies_true, true_and]
  exact fun _ => hc

/-- The fuel that `parse` needs: with more than this the model ends as the code does. -/
theorem parse_fuel (h : Ends buf es) (hn : 4 * es + 4 < n) : parse buf es n 0 ≠ .error .outOfFuel := by
  intro hout
  have := (wp_parse h n).of_error hout rfl
  omega

end Words

section Nulterminate

variable {buf : Buf} {es : Nat}

def Span.text (buf : Buf) (w : Span) : Text := (List.range (w.stop - w.start)).map fun i => buf (w.start + i)

/-- At `p` stands `text` as a string with its NUL. -/
structure StringAt (buf : Buf) (p : Nat) (text : Text) : Prop where
  bytes : ∀ i (h : i < text.length), buf (p + i) = text[i]
  nonzero : 0 ∉ text
  nul : buf (p + text.length) = 0

end Nulterminate

end Xv6.Sh.InPlace
