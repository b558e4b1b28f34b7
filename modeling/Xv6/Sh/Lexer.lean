import Mathlib.Data.List.TakeDrop
import Mathlib.Data.List.DropRight

namespace Xv6.Sh

open List

abbrev Byte := BitVec 8

/-- What is left of the command line, from `*ps` up to `es`. -/
abbrev Text := List Byte

def whitespace : List Byte := [32, 9, 13, 10, 11]

/-- The bytes `<|>&;()`. -/
def symbols : List Byte := [60, 124, 62, 38, 59, 40, 41]

def isSpace (b : Byte) : Bool := whitespace.contains b

def isWord (b : Byte) : Bool := !whitespace.contains b && !symbols.contains b

def skip (s : Text) : Text := s.dropWhile isSpace

/-- What `gettoken` returns, with the text from `q` to `eq` of a word. -/
inductive Token
  | bar
  | lpar
  | rpar
  | semi
  | amp
  | lt
  | gt
  | append
  | word (w : Text)
  deriving DecidableEq

/-- The switch of `gettoken`, at the first byte that is no space; `none` at the end of the line. -/
def scan : Text → Option (Token × Text)
  | [] => none
  | b :: s =>
    if b = 124 then some (.bar, s)
    else if b = 40 then some (.lpar, s)
    else if b = 41 then some (.rpar, s)
    else if b = 59 then some (.semi, s)
    else if b = 38 then some (.amp, s)
    else if b = 60 then some (.lt, s)
    else if b = 62 then
      match s with
      | c :: s' => if c = 62 then some (.append, s') else some (.gt, c :: s')
      | [] => some (.gt, [])
    else some (.word ((b :: s).takeWhile isWord), (b :: s).dropWhile isWord)

def gettoken (s : Text) : Option (Token × Text) := (scan (skip s)).map fun x => (x.1, skip x.2)

/-- Whether the first byte that is no space is one of `toks`; the pointer moves to it. -/
def peek (toks : List Byte) (s : Text) : Bool :=
  match skip s with
  | [] => false
  | b :: _ => toks.contains b

section Scan

variable {s r : Text} {t : Token} {b : Byte}

theorem skip_length (s : Text) : (skip s).length ≤ s.length := length_dropWhile_le _ _

theorem skip_skip (s : Text) : skip (skip s) = skip s := dropWhile_idempotent _ _

theorem skip_head (h : skip s = b :: r) : isSpace b = false := by
  have hhead := head?_dropWhile_not isSpace s
  unfold skip at h
  rw [h] at hhead
  simpa using hhead

def Token.among (toks : List Byte) : Token → Bool
  | .bar => toks.contains 124
  | .lpar => toks.contains 40
  | .rpar => toks.contains 41
  | .semi => toks.contains 59
  | .amp => toks.contains 38
  | .lt => toks.contains 60
  | .gt => toks.contains 62
  | .append => toks.contains 62
  | .word _ => false

def Word (w : Text) : Prop := w ≠ [] ∧ ∀ b ∈ w, isWord b = true

def Token.Ok : Token → Prop
  | .word w => Word w
  | _ => True

structure Scanned (b : Byte) (s : Text) (t : Token) (r : Text) : Prop where
  rest : r.length ≤ s.length
  tail : r ⊆ b :: s
  text : ∀ w, t = .word w → w ⊆ b :: s
  seen : ∀ toks : List Byte, (∀ c ∈ toks, c ∈ symbols) → toks.contains b = t.among toks
  ok : t.Ok

theorem scanned_word (hspace : isSpace b = false) (hsym : b ∉ symbols) :
    Scanned b s (.word ((b :: s).takeWhile isWord)) ((b :: s).dropWhile isWord) := by
  have hb : isWord b = true := by
    simp only [isWord, isSpace] at hspace ⊢
    rw [hspace]
    simpa using hsym
  refine ⟨?_, dropWhile_subset _, fun w hw => ?_, fun toks htoks => ?_, ?_, fun c hc => mem_takeWhile_imp hc⟩
  · rw [dropWhile_cons_of_pos hb]
    exact length_dropWhile_le _ _
  · cases hw
    exact takeWhile_subset _
  · have hout : b ∉ toks := fun hmem => hsym (htoks b hmem)
    simpa [Token.among] using hout
  · rw [takeWhile_cons_of_pos hb]
    exact cons_ne_nil _ _

theorem scan_spec (hspace : isSpace b = false) : ∃ t r, scan (b :: s) = some (t, r) ∧ Scanned b s t r := by
  simp only [scan]
  split_ifs with h1 h2 h3 h4 h5 h6 h7
  iterate 6
    · exact ⟨_, _, rfl, le_rfl, subset_cons_self b s, nofun, fun _ _ => ‹b = _› ▸ rfl, trivial⟩
  · cases s with
    | nil => exact ⟨_, _, rfl, le_rfl, nil_subset _, nofun, fun _ _ => h7 ▸ rfl, trivial⟩
    | cons c s =>
      by_cases hc : c = 62
      · have hsub : s ⊆ b :: c :: s := fun x hx => mem_cons_of_mem _ (mem_cons_of_mem _ hx)
        exact ⟨_, _, if_pos hc, Nat.le_succ _, hsub, nofun, fun _ _ => h7 ▸ rfl, trivial⟩
      · exact ⟨_, _, if_neg hc, le_rfl, subset_cons_self b _, nofun, fun _ _ => h7 ▸ rfl, trivial⟩
  · refine ⟨_, _, rfl, scanned_word hspace fun hmem => ?_⟩
    simp only [symbols, mem_cons, not_mem_nil, or_false] at hmem
    rcases hmem with h | h | h | h | h | h | h <;> contradiction

theorem gettoken_nil (h : skip s = []) : gettoken s = none := by rw [gettoken, h]; rfl

theorem gettoken_cons (h : skip s = b :: r) :
    ∃ t r', gettoken s = some (t, r') ∧ r'.length < s.length ∧ t.Ok ∧ ∀ toks : List Byte,
      (∀ c ∈ toks, c ∈ symbols) → toks.contains b = t.among toks := by
  obtain ⟨t, r', hscan, hspec⟩ := scan_spec (s := r) (skip_head h)
  refine ⟨t, skip r', by rw [gettoken, h, hscan]; rfl, ?_, hspec.ok, hspec.seen⟩
  have hlen := skip_length s
  rw [h, length_cons] at hlen
  have := skip_length r'
  have := hspec.rest
  omega

theorem gettoken_length (h : gettoken s = some (t, r)) : r.length < s.length := by
  cases hskip : skip s with
  | nil => rw [gettoken_nil hskip] at h; cases h
  | cons b r' =>
    obtain ⟨t', r'', hget, hlt, -⟩ := gettoken_cons hskip
    rw [hget] at h
    cases h
    exact hlt

theorem gettoken_skip (s : Text) : gettoken (skip s) = gettoken s := by rw [gettoken, skip_skip, gettoken]

end Scan

/-- The tokens that `gettoken` produces, up to the end of the line. -/
def tokens (s : Text) : List Token :=
  match h : gettoken s with
  | none => []
  | some (t, r) => t :: tokens r
termination_by s.length
decreasing_by exact gettoken_length h

section Tokens

variable {s r : Text} {t : Token} {toks : List Byte}

theorem tokens_none (h : gettoken s = none) : tokens s = [] := by
  rw [tokens]
  split
  next => rfl
  next h' => rw [h] at h'; cases h'

theorem tokens_some (h : gettoken s = some (t, r)) : tokens s = t :: tokens r := by
  rw [tokens]
  split
  next h' => rw [h] at h'; cases h'
  next h' =>
    rw [h] at h'
    cases h'
    rfl

theorem tokens_skip (s : Text) : tokens (skip s) = tokens s := by
  cases h : gettoken s with
  | none => rw [tokens_none h, tokens_none ((gettoken_skip s).trans h)]
  | some x => rw [tokens_some h, tokens_some ((gettoken_skip s).trans h)]

theorem gettoken_of_tokens {ts : List Token} (h : tokens s = t :: ts) : ∃ r, gettoken s = some (t, r) ∧ tokens r = ts := by
  cases hget : gettoken s with
  | none =>
    rw [tokens_none hget] at h
    cases h
  | some x =>
    rw [tokens_some hget] at h
    cases h
    exact ⟨x.2, rfl, rfl⟩

theorem peek_tokens (htoks : ∀ c ∈ toks, c ∈ symbols) : peek toks s = (tokens s).head?.any fun t => t.among toks := by
  unfold peek
  split
  next h => rw [tokens_none (gettoken_nil h)]; rfl
  next b r h =>
    obtain ⟨t, r', hget, -, -, hseen⟩ := gettoken_cons h
    rw [tokens_some hget, hseen toks htoks]
    rfl

end Tokens

end Xv6.Sh
