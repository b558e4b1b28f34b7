import Mathlib

/-!
`grep`: the matcher for regular expressions, and the loop that hands it the lines of a file. A C string is the list of its
bytes before the NUL.
-/

namespace Xv6.Grep

open List

abbrev Byte := BitVec 8

def star : Byte := 42
def dot : Byte := 46
def dollar : Byte := 36
def caret : Byte := 94
def newline : Byte := 10

section Matcher

/-- `matchstar(c, re, text)`, where `here` is `matchhere(re, ·)`. -/
def matchstar (c : Byte) (here : List Byte → Bool) : (text : List Byte) → Bool
  | [] => here []
  | t :: text => here (t :: text) || ((t = c || c = dot) && matchstar c here text)

/-- The last test of `matchhere`: one character, and then `here` is `matchhere(re+1, ·)`. -/
def matchone (c : Byte) (here : List Byte → Bool) : (text : List Byte) → Bool
  | [] => false
  | t :: text => (c = dot || c = t) && here text

def matchhere : (re text : List Byte) → Bool
  | [], _ => true
  | [c], text => if c = dollar then text.isEmpty else matchone c (matchhere []) text
  | c :: s :: re, text => if s = star then matchstar c (matchhere re) text else matchone c (matchhere (s :: re)) text

def matchfrom (re : List Byte) : (text : List Byte) → Bool
  | [] => matchhere re []
  | t :: text => matchhere re (t :: text) || matchfrom re text

/-- `match` -/
def match' (re text : List Byte) : Bool :=
  if re.head? = some caret then matchhere re.tail text else matchfrom re text

end Matcher

section Language

inductive Item
  | star (c : Byte)
  | final
  | any
  | literal (c : Byte)
  deriving DecidableEq

def item (c : Byte) : Item := if c = dot then .any else .literal c

def items : List Byte → List Item
  | [] => []
  | [c] => [if c = dollar then .final else item c]
  | c :: s :: re => if s = star then .star c :: items re else item c :: items (s :: re)

def Item.Accepts : Item → List Byte → Prop
  | .star c, w => ∀ b ∈ w, b = c ∨ c = dot
  | .final, w => w = []
  | .any, w => ∃ b, w = [b]
  | .literal c, w => w = [c]

/-- A prefix of the text, all of it if the last item is `$`, is a concatenation of strings that match the items. -/
def Matches (xs : List Item) (text : List Byte) : Prop :=
  ∃ ws rest, text = ws.flatten ++ rest ∧ List.Forall₂ Item.Accepts xs ws ∧ (xs.getLast? = some .final → rest = [])

variable {c : Byte} {here : List Byte → Bool} {text : List Byte}

theorem matches_nil : Matches [] text := ⟨[], text, rfl, .nil, by simp⟩

theorem matches_final : Matches [.final] text ↔ text = [] := by
  constructor
  · rintro ⟨ws, rest, rfl, hws, hrest⟩
    cases hws with
    | cons hw hnil =>
      cases hnil
      rw [hrest rfl, show _ = [] from hw]
      rfl
  · rintro rfl
    exact ⟨[[]], [], rfl, .cons rfl .nil, fun _ => rfl⟩

theorem matches_cons {x : Item} {xs : List Item} (hx : x ≠ .final) :
    Matches (x :: xs) text ↔ ∃ w rest, text = w ++ rest ∧ x.Accepts w ∧ Matches xs rest := by
  have hlast : (x :: xs).getLast? = some .final ↔ xs.getLast? = some .final := by
    cases xs with
    | nil => simp [hx]
    | cons y ys => rw [getLast?_cons_cons]
  constructor
  · rintro ⟨ws, rest, rfl, hws, hrest⟩
    cases hws with
    | @cons _ w _ ws hw hws =>
      refine ⟨w, ws.flatten ++ rest, ?_, hw, ws, rest, rfl, hws, fun h => hrest (hlast.mpr h)⟩
      rw [flatten_cons, append_assoc]
  · rintro ⟨w, _, rfl, hw, ws, rest, rfl, hws, hrest⟩
    refine ⟨w :: ws, rest, ?_, .cons hw hws, fun h => hrest (hlast.mp h)⟩
    rw [flatten_cons, append_assoc]

theorem item_ne_final (c : Byte) : item c ≠ .final := by
  unfold item
  split <;> simp

theorem matchone_iff : matchone c here text = true ↔ ∃ w rest, text = w ++ rest ∧ (item c).Accepts w ∧ here rest = true := by
  have haccepts : ∀ w, (item c).Accepts w ↔ ∃ t, w = [t] ∧ (c = dot ∨ c = t) := by
    intro w
    unfold item
    split
    next hdot => simp [Item.Accepts, hdot]
    next hdot => simp [Item.Accepts, hdot]
  simp only [haccepts]
  cases text with
  | nil => simp [matchone]
  | cons t text =>
    simp only [matchone, Bool.and_eq_true, Bool.or_eq_true, decide_eq_true_eq]
    constructor
    · rintro ⟨hc, hhere⟩
      exact ⟨[t], text, rfl, ⟨t, rfl, hc⟩, hhere⟩
    · rintro ⟨_, rest, htext, ⟨t, rfl, hc⟩, hhere⟩
      obtain ⟨rfl, rfl⟩ := cons.inj htext
      exact ⟨hc, hhere⟩

theorem matchstar_iff : matchstar c here text = true ↔ ∃ w rest, text = w ++ rest ∧ (Item.star c).Accepts w ∧ here rest = true := by
  have hnone : (Item.star c).Accepts [] := by simp [Item.Accepts]
  induction text with
  | nil =>
    rw [matchstar]
    constructor
    · exact fun h => ⟨[], [], rfl, hnone, h⟩
    · rintro ⟨w, rest, htext, -, h⟩
      rwa [(append_eq_nil_iff.mp htext.symm).2] at h
  | cons t text ih =>
    simp only [matchstar, Bool.or_eq_true, Bool.and_eq_true, decide_eq_true_eq, ih]
    constructor
    · rintro (h | ⟨ht, w, rest, rfl, hw, h⟩)
      · exact ⟨[], t :: text, rfl, hnone, h⟩
      · exact ⟨t :: w, rest, rfl, forall_mem_cons.mpr ⟨ht, hw⟩, h⟩
    · rintro ⟨w, rest, htext, hw, h⟩
      cases w with
      | nil => exact .inl (by rwa [htext])
      | cons b w =>
        obtain ⟨rfl, rfl⟩ := cons.inj htext
        obtain ⟨ht, hw⟩ := forall_mem_cons.mp hw
        exact .inr ⟨ht, w, rest, rfl, hw, h⟩

theorem matchhere_iff (re text : List Byte) : matchhere re text = true ↔ Matches (items re) text := by
  induction re using items.induct generalizing text with
  | case1 => simp [matchhere, items, matches_nil]
  | case2 c =>
    rw [matchhere, items]
    split
    next => rw [matches_final, List.isEmpty_iff]
    next =>
      rw [matchone_iff, matches_cons (item_ne_final c)]
      simp only [matchhere, matches_nil]
  | case3 c re ih =>
    rw [matchhere, items, if_pos rfl, if_pos rfl, matchstar_iff, matches_cons (by simp)]
    simp only [ih]
  | case4 c s re hs ih =>
    rw [matchhere, items, if_neg hs, if_neg hs, matchone_iff, matches_cons (item_ne_final c)]
    simp only [ih]

theorem matchfrom_iff (re text : List Byte) : matchfrom re text = true ↔ ∃ t, t <:+ text ∧ matchhere re t = true := by
  induction text with
  | nil => simp [matchfrom]
  | cons b text ih =>
    rw [matchfrom, Bool.or_eq_true, ih]
    constructor
    · rintro (h | ⟨t, ht, h⟩)
      · exact ⟨_, suffix_rfl, h⟩
      · exact ⟨t, ht.trans (suffix_cons b text), h⟩
    · rintro ⟨t, ht, h⟩
      rcases suffix_cons_iff.mp ht with rfl | ht
      · exact .inl h
      · exact .inr ⟨t, ht, h⟩

/-- The matcher accepts the language of its pattern. -/
theorem matcher_exact (re text : List Byte) : (matchhere re text = true ↔ Matches (items re) text) ∧
    (match' re text = true ↔ if re.head? = some caret then Matches (items re.tail) text else ∃ t, t <:+ text ∧ Matches (items re) t) := by
  refine ⟨matchhere_iff re text, ?_⟩
  unfold match'
  split
  next => exact matchhere_iff re.tail text
  next => simp only [matchfrom_iff, matchhere_iff]

end Language

section Loop

/-- `char buf[1024]` -/
def bufsize : Nat := 1024

/-- `strchr(p, '\n')`: what stands before the newline and after it. -/
def strchr : (p : List Byte) → Option (List Byte × List Byte)
  | [] => none
  | b :: p => if b = 0 then none else if b = newline then some ([], p) else (strchr p).map fun x => (b :: x.1, x.2)

/-- The inner loop: what it writes, and the bytes from `p` on at its end. -/
def scan (pattern : List Byte) : (fuel : Nat) → (p : List Byte) → List (List Byte) × List Byte
  | 0, p => ([], p)
  | fuel + 1, p =>
    match strchr p with
    | none => ([], p)
    | some (line, rest) =>
      let r := scan pattern fuel rest
      (if match' pattern line then (line ++ [newline]) :: r.1 else r.1, r.2)

/-- The outer loop: the writes, and what is left of the stream when a `read` returns 0. The buffer is its first `m` bytes.
A call of `read` with room for a byte gets one if there is one, and no more than it asks for; `cuts` says how many more
bytes each call would get. -/
def grepLoop (pattern : List Byte) : (fuel : Nat) → (cuts : Nat → Nat) → (buf stream : List Byte) →
    Option (List (List Byte) × List Byte)
  | 0, _, _, _ => none
  | fuel + 1, cuts, buf, stream =>
    let n := min (bufsize - buf.length - 1) (cuts 0 + 1)
    if stream.take n = [] then some ([], stream)
    else
      let r := scan pattern (buf ++ stream.take n).length (buf ++ stream.take n)
      (grepLoop pattern fuel (fun k => cuts (k + 1)) r.2 (stream.drop n)).map fun x => (r.1 ++ x.1, x.2)

def grep (pattern : List Byte) (cuts : Nat → Nat) (stream : List Byte) : Option (List (List Byte) × List Byte) :=
  grepLoop pattern (stream.length + 1) cuts [] stream

end Loop

section Lines

/-- The lines of a stream that end in a newline, without it. -/
def terminated (s : List Byte) : List (List Byte) := (s.splitOnP (· = newline)).dropLast

def unfinished (s : List Byte) : List Byte := (s.splitOnP (· = newline)).getLastD []

def selected (pattern : List Byte) (ls : List (List Byte)) : List (List Byte) := (ls.filter (match' pattern)).map (· ++ [newline])

def Fits (s : List Byte) : Prop := (∀ l ∈ terminated s, l.length + 2 ≤ bufsize) ∧ (unfinished s).length + 1 ≤ bufsize

def join (ls : List (List Byte)) : List Byte := ls.flatMap (· ++ [newline])

variable {pattern s t u : List Byte} {ls : List (List Byte)}

theorem splitOnP_line (hs : newline ∉ s) : (s ++ newline :: t).splitOnP (· = newline) = s :: t.splitOnP (· = newline) :=
  splitOnP_append_cons_of_forall_mem (fun b hb => decide_eq_false fun heq : b = newline => hs (heq ▸ hb)) newline (decide_eq_true rfl) t

theorem splitOnP_rest (hs : newline ∉ s) : s.splitOnP (· = newline) = [s] :=
  splitOnP_eq_singleton fun b hb => decide_eq_false fun heq : b = newline => hs (heq ▸ hb)

section
variable (hls : ∀ l ∈ ls, newline ∉ l)
include hls

theorem splitOnP_join : (join ls ++ t).splitOnP (· = newline) = ls ++ t.splitOnP (· = newline) := by
  induction ls with
  | nil => rfl
  | cons l ls ih =>
    obtain ⟨hl, hls⟩ := forall_mem_cons.mp hls
    rw [join, flatMap_cons, append_assoc, append_assoc, singleton_append, splitOnP_line hl]
    exact congrArg (l :: ·) (ih hls)

theorem terminated_join : terminated (join ls ++ t) = ls ++ terminated t := by
  rw [terminated, splitOnP_join hls, dropLast_append_of_ne_nil (splitOnP_ne_nil _ _)]
  rfl

theorem unfinished_join : unfinished (join ls ++ t) = unfinished t := by
  have hne := splitOnP_ne_nil (· = newline) t
  rw [unfinished, splitOnP_join hls, getLastD_eq_getLast?, getLast?_append_of_ne_nil _ hne, ← getLastD_eq_getLast?]
  rfl

theorem fits_join : Fits (join ls ++ t) ↔ (∀ l ∈ ls, l.length + 2 ≤ bufsize) ∧ Fits t := by
  rw [Fits, Fits, terminated_join hls, unfinished_join hls, forall_mem_append, and_assoc]

end

theorem Fits.room (h : Fits (s ++ t)) (hs : newline ∉ s) (ht : t ≠ []) : s.length + 1 < bufsize := by
  by_cases hmem : newline ∈ t
  · obtain ⟨l, r, rfl, hl⟩ := eq_append_cons_of_mem hmem
    have hfirst := h.1 (s ++ l)
    rw [terminated, ← append_assoc, splitOnP_line (by simp [hs, hl]),
      dropLast_cons_of_ne_nil (splitOnP_ne_nil _ _)] at hfirst
    have hlen := hfirst mem_cons_self
    rw [length_append] at hlen
    omega
  · have hone : newline ∉ s ++ t := by simp [hs, hmem]
    have hrest := h.2
    rw [unfinished, splitOnP_rest hone] at hrest
    have hpos := length_pos_iff.mpr ht
    simp only [getLastD_cons, getLastD_nil, length_append] at hrest
    omega

theorem strchr_none (h0 : 0 ∉ s) (h : strchr s = none) : newline ∉ s := by
  induction s with
  | nil => simp
  | cons b s ih =>
    simp only [mem_cons, not_or] at h0 ⊢
    rw [strchr, if_neg (Ne.symm h0.1)] at h
    split at h
    next => simp at h
    next hne => exact ⟨Ne.symm hne, ih h0.2 (Option.map_eq_none_iff.mp h)⟩

theorem strchr_some {line rest : List Byte} (h : strchr s = some (line, rest)) : s = line ++ newline :: rest ∧ newline ∉ line := by
  induction s generalizing line with
  | nil => simp [strchr] at h
  | cons b s ih =>
    rw [strchr] at h
    split at h
    next => simp at h
    next =>
    split at h
    next hb =>
      cases h
      exact ⟨by rw [hb]; rfl, by simp⟩
    next hne =>
      obtain ⟨⟨l, r⟩, hx, heq⟩ := Option.map_eq_some_iff.mp h
      cases heq
      obtain ⟨hs, hl⟩ := ih hx
      exact ⟨by rw [hs]; rfl, by simpa using ⟨Ne.symm hne, hl⟩⟩

theorem scan_lines (pattern : List Byte) {fuel : Nat} {p : List Byte} (h0 : 0 ∉ p) (hfuel : p.length ≤ fuel) :
    ∃ ls u, p = join ls ++ u ∧ (∀ l ∈ ls, newline ∉ l) ∧ newline ∉ u ∧ scan pattern fuel p = (selected pattern ls, u) := by
  induction fuel generalizing p with
  | zero =>
    obtain rfl := length_eq_zero_iff.mp (Nat.le_zero.mp hfuel)
    exact ⟨[], [], rfl, by simp, by simp, rfl⟩
  | succ fuel ih =>
    rw [scan]
    cases hchr : strchr p with
    | none => exact ⟨[], p, rfl, by simp, strchr_none h0 hchr, rfl⟩
    | some x =>
      obtain ⟨line, rest⟩ := x
      obtain ⟨rfl, hline⟩ := strchr_some hchr
      simp only [length_append, length_cons] at hfuel
      obtain ⟨ls, u, rfl, hls, hu, hscan⟩ := ih (p := rest) (by simp_all) (by omega)
      refine ⟨line :: ls, u, by simp [join], forall_mem_cons.mpr ⟨hline, hls⟩, hu, ?_⟩
      simp only [hscan, selected, filter_cons]
      split <;> rfl

theorem length_of_join {n : Nat} (h : (join ls ++ t).length < n) : ∀ l ∈ ls, l.length + 2 ≤ n := by
  intro l hl
  obtain ⟨xs, ys, rfl⟩ := append_of_mem hl
  simp only [join, flatMap_append, flatMap_cons, length_append, length_singleton] at h
  omega

/-- The loop reads the stream to its end exactly if all that is left of it fits. -/
theorem grepLoop_lines (pattern : List Byte) {fuel : Nat} {cuts : Nat → Nat} {buf stream : List Byte} (h0 : 0 ∉ buf ++ stream)
    (hbuf : newline ∉ buf) (hlen : buf.length < bufsize) (hfuel : stream.length < fuel) :
    grepLoop pattern fuel cuts buf stream = some (selected pattern (terminated (buf ++ stream)), []) ↔ Fits (buf ++ stream) := by
  induction fuel generalizing cuts buf stream with
  | zero => omega
  | succ fuel ih =>
    rw [grepLoop]
    dsimp only
    split
    next hstop =>
      by_cases hend : stream = []
      · subst hend
        rw [append_nil, Fits, terminated, unfinished, splitOnP_rest hbuf]
        exact iff_of_true rfl ⟨by simp, hlen⟩
      · -- a call for no bytes, since the buffer is full
        refine iff_of_false (fun heq => hend (Prod.mk.inj (Option.some.inj heq)).2) fun hfits => ?_
        have hroom := hfits.room hbuf hend
        have hzero := (take_eq_nil_iff.mp hstop).resolve_right hend
        omega
    next hmore =>
      have hn : min (bufsize - buf.length - 1) (cuts 0 + 1) ≤ bufsize - buf.length - 1 := min_le_left _ _
      generalize min (bufsize - buf.length - 1) (cuts 0 + 1) = n at *
      have hsplit : buf ++ stream = (buf ++ stream.take n) ++ stream.drop n := by rw [append_assoc, take_append_drop]
      rw [hsplit] at h0 ⊢
      obtain ⟨ls, u, hp, hls, hu, hscan⟩ := scan_lines pattern (p := buf ++ stream.take n) (fun h => h0 (mem_append_left _ h)) le_rfl
      have hpos : 0 < (stream.take n).length := length_pos_iff.mpr hmore
      have hrest := congrArg length (take_append_drop n stream)
      have hshort : (buf ++ stream.take n).length < bufsize := by
        rw [length_append, length_take]
        omega
      rw [length_append] at hrest
      rw [hp] at hshort
      have hu' : u.length < bufsize := lt_of_le_of_lt (by simp) hshort
      rw [hscan, hp, append_assoc, terminated_join hls, fits_join hls, and_iff_right (length_of_join hshort)]
      rw [hp, append_assoc] at h0
      rw [← @ih (fun k => cuts (k + 1)) u (stream.drop n) (fun h => h0 (mem_append_right _ h)) hu hu' (by omega)]
      simp [selected]

/-- `grep` writes the lines that match and reads the whole stream exactly if the lines fit into the buffer, however `read`
cuts the stream. -/
theorem grep_exact (pattern stream : List Byte) (cuts : Nat → Nat) (h0 : 0 ∉ stream) :
    grep pattern cuts stream = some (selected pattern (terminated stream), []) ↔ Fits stream :=
  grepLoop_lines pattern h0 (by simp) (by decide) (Nat.lt_succ_self _)

/-- Two lines, read byte by byte; the first has an `a`. -/
theorem grep_exact_two : grep [97] (fun _ => 0) [98, 97, 10, 98, 10] = some ([[98, 97, 10]], []) :=
  (grep_exact [97] [98, 97, 10, 98, 10] (fun _ => 0) (by decide)).mpr ⟨by decide, by decide⟩

def longLine : List Byte := replicate 1023 97 ++ [newline]

/-- The line fills the buffer, the next `read` is for no bytes, and `grep` takes its 0 for the end of the file. -/
theorem longLine_lost : 0 ∉ longLine ∧ grep [] (fun _ => 1022) longLine = some ([], [newline]) ∧
    selected [] (terminated longLine) = [longLine] := by
  decide +kernel

end Lines

end Xv6.Grep
