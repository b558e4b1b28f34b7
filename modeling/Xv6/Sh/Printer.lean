import Xv6.Sh.Complete

/-!
A tree printed as a command line, and read back.
-/

namespace Xv6.Sh

open List

def Token.text : Token → Text
  | .bar => [124]
  | .lpar => [40]
  | .rpar => [41]
  | .semi => [59]
  | .amp => [38]
  | .lt => [60]
  | .gt => [62]
  | .append => [62, 62]
  | .word w => w

/-- Each token is followed by a space. -/
def render (ts : List Token) : Text := ts.flatMap fun t => t.text ++ [32]

def Redir.token (r : Redir) : Token := if r.fd = 0 then .lt else if r.mode = wronly ||| creat ||| trunc then .gt else .append

section Render

variable {t : Token} {r w : Text} {ts : List Token}

theorem word_not_symbol {b : Byte} (h : isWord b = true) : b ∉ symbols ∧ isSpace b = false := by
  simp only [isWord, isSpace, Bool.and_eq_true, Bool.not_eq_true'] at h ⊢
  exact ⟨by simpa using h.2, h.1⟩

theorem scan_word (hw : Word w) : scan (w ++ 32 :: r) = some (.word w, 32 :: r) := by
  have htake : (w ++ 32 :: r).takeWhile isWord = w := by
    rw [takeWhile_append_of_pos hw.2, takeWhile_cons_of_neg (by decide), append_nil]
  have hdrop : (w ++ 32 :: r).dropWhile isWord = 32 :: r := by
    rw [dropWhile_append_of_pos hw.2, dropWhile_cons_of_neg (by decide)]
  cases w with
  | nil => exact absurd rfl hw.1
  | cons b w =>
    have hsym := (word_not_symbol (hw.2 b mem_cons_self)).1
    simp only [symbols, mem_cons, not_mem_nil, or_false, not_or] at hsym
    obtain ⟨h60, h124, h62, h38, h59, h40, h41⟩ := hsym
    rw [cons_append] at htake hdrop
    simp only [cons_append, scan]
    rw [if_neg h124, if_neg h40, if_neg h41, if_neg h59, if_neg h38, if_neg h60, if_neg h62, htake, hdrop]

theorem gettoken_text (h : t.Ok) : gettoken (t.text ++ 32 :: r) = some (t, skip r) := by
  have hsymbol : ∀ u : Text, ∀ b, isSpace b = false → scan (b :: u) = some (t, 32 :: r) → gettoken (b :: u) = some (t, skip r) := by
    intro u b hspace hscan
    have hskip : skip (b :: u) = b :: u := dropWhile_cons_of_neg (by rw [hspace]; decide)
    rw [gettoken, hskip, hscan]
    rfl
  cases t with
  | word w =>
    cases w with
    | nil => exact absurd rfl h.1
    | cons b w => exact hsymbol _ b (word_not_symbol (h.2 b mem_cons_self)).2 (scan_word h)
  | _ => exact hsymbol _ _ (by decide) rfl

theorem tokens_render (h : ∀ t ∈ ts, t.Ok) : tokens (render ts) = ts := by
  induction ts with
  | nil => exact tokens_none rfl
  | cons t ts ih =>
    have hsplit : render (t :: ts) = t.text ++ 32 :: render ts := by
      simp [render]
    rw [hsplit, tokens_some (gettoken_text (h t mem_cons_self)), tokens_skip, ih fun u hu => h u (mem_cons_of_mem t hu)]

end Render

def Plain (w : Text) : Prop := Word w ∧ 0 ∉ w

def Token.Plain : Token → Prop
  | .word w => Sh.Plain w
  | _ => True

def Cmd.Ok : Cmd → Prop
  | .exec ws => (∀ w ∈ ws, Plain w) ∧ ws.length ≤ maxargs - 1
  | .redir c r => c.Ok ∧ Plain r.file ∧ redircmd r.token r.file = [r]
  | .pipe l r => l.Ok ∧ r.Ok
  | .list l r => l.Ok ∧ r.Ok
  | .back c => c.Ok

section Trees

variable {ts us : List Token} {ws : List Text} {rs qs : List Redir} {c : Cmd} {k : Nonterminal}

theorem Redirs.plain (h : Redirs ts rs) (hts : ∀ t ∈ ts, t.Plain) : ∀ r ∈ rs, Plain r.file ∧ redircmd r.token r.file = [r] := by
  induction h with
  | nil => exact nofun
  | @cons tok file r ts rs hr _ ih =>
    intro q hq
    rcases mem_cons.mp hq with rfl | hq
    · have hfile : Plain file := hts (.word file) (by simp)
      cases tok <;> cases hr <;> exact ⟨hfile, rfl⟩
    · exact ih (fun t ht => hts t (mem_cons_of_mem _ (mem_cons_of_mem _ ht))) q hq

theorem Args.plain (h : Args ts ws rs) (hts : ∀ t ∈ ts, t.Plain) :
    (∀ w ∈ ws, Plain w) ∧ ∀ r ∈ rs, Plain r.file ∧ redircmd r.token r.file = [r] := by
  induction h with
  | nil => exact ⟨nofun, nofun⟩
  | @cons w ts rs us ws qs hredirs _ ih =>
    have hw : Plain w := hts (.word w) mem_cons_self
    obtain ⟨hws, hqs⟩ := ih fun t ht => hts t (mem_cons_of_mem _ (mem_append_right _ ht))
    have hrs := hredirs.plain fun t ht => hts t (mem_cons_of_mem _ (mem_append_left _ ht))
    refine ⟨fun v hv => ?_, fun r hr => ?_⟩
    · rcases mem_cons.mp hv with rfl | hv
      · exact hw
      · exact hws v hv
    · rcases mem_append.mp hr with hr | hr
      · exact hrs r hr
      · exact hqs r hr

theorem wrap_ok (h : c.Ok) (hrs : ∀ r ∈ rs, Plain r.file ∧ redircmd r.token r.file = [r]) : (wrap c rs).Ok := by
  induction rs generalizing c with
  | nil => exact h
  | cons r rs ih => exact ih (c := .redir c r) ⟨h, hrs r mem_cons_self⟩ fun q hq => hrs q (mem_cons_of_mem _ hq)

theorem backs_ok {n : Nat} (h : c.Ok) : (backs n c).Ok := by
  induction n generalizing c with
  | zero => exact h
  | succ n ih => exact ih (c := .back c) h

theorem Derives.ok (h : Derives k ts c) (hts : ∀ t ∈ ts, t.Plain) : c.Ok := by
  induction h with
  | block _ hus ih =>
    refine wrap_ok (ih fun t ht => hts t ?_) (hus.plain fun t ht => hts t ?_)
    · simp [ht]
    · simp [ht]
  | simple hredirs hargs hlen =>
    have hrs := hredirs.plain fun t ht => hts t (mem_append_left _ ht)
    obtain ⟨hws, hqs⟩ := hargs.plain fun t ht => hts t (mem_append_right _ ht)
    refine wrap_ok (c := .exec _) ⟨hws, hlen⟩ fun r hr => ?_
    rcases mem_append.mp hr with hr | hr
    · exact hrs r hr
    · exact hqs r hr
  | one _ ih => exact ih hts
  | bar _ _ ihc ihd => exact ⟨ihc fun t ht => hts t (by simp [ht]), ihd fun t ht => hts t (by simp [ht])⟩
  | last n _ ih => exact backs_ok (ih fun t ht => hts t (by simp [ht]))
  | semi n _ _ ihc ihd => exact ⟨backs_ok (ihc fun t ht => hts t (by simp [ht])), ihd fun t ht => hts t (by simp [ht])⟩

theorem words_args (h : Redirs ts rs) (w : Text) (ws : List Text) : Args (.word w :: (ws.map .word ++ ts)) (w :: ws) rs := by
  induction ws generalizing w with
  | nil =>
    have hone := Args.cons (w := w) h Args.nil
    simpa using hone
  | cons v ws ih => exact Args.cons (w := w) Redirs.nil (ih v)

theorem words_derive (ws : List Text) (h : Redirs ts rs) (hlen : ws.length ≤ maxargs - 1) :
    Derives .exec (ws.map .word ++ ts) (wrap (.exec ws) rs) := by
  cases ws with
  | nil =>
    have hone := Derives.simple h Args.nil hlen
    simpa using hone
  | cons w ws => exact Derives.simple Redirs.nil (words_args h w ws) hlen

end Trees

theorem plain_ok {t : Token} (h : t.Plain) : t.Ok := by
  cases t with
  | word w => exact h.1
  | _ => trivial

end Xv6.Sh
