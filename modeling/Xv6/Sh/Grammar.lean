import Xv6.Sh.Parser

/-!
The grammar of command lines, with the tree of each derivation:

    line  ::= pipe '&'* [';' line]
    pipe  ::= exec ['|' pipe]
    exec  ::= '(' line ')' redir* | redir* (WORD redir*)*     with less than MAXARGS words
    redir ::= ('<' | '>' | '>>') WORD
-/

namespace Xv6.Sh

/-- `redir*` -/
inductive Redirs : List Token → List Redir → Prop
  | nil : Redirs [] []
  | cons {tok file r ts rs} : redircmd tok file = [r] → Redirs ts rs → Redirs (tok :: .word file :: ts) (r :: rs)

/-- `(WORD redir*)*` -/
inductive Args : List Token → List Text → List Redir → Prop
  | nil : Args [] [] []
  | cons {w ts rs us ws qs} : Redirs ts rs → Args us ws qs → Args (.word w :: (ts ++ us)) (w :: ws) (rs ++ qs)

inductive Nonterminal
  | exec
  | pipe
  | line
  deriving DecidableEq

def backs : Nat → Cmd → Cmd
  | 0, c => c
  | n + 1, c => backs n (.back c)

inductive Derives : Nonterminal → List Token → Cmd → Prop
  | block {ts us c rs} : Derives .line ts c → Redirs us rs → Derives .exec (.lpar :: (ts ++ .rpar :: us)) (wrap c rs)
  | simple {ts us rs ws qs} : Redirs ts rs → Args us ws qs → ws.length ≤ maxargs - 1 → Derives .exec (ts ++ us) (wrap (.exec ws) (rs ++ qs))
  | one {ts c} : Derives .exec ts c → Derives .pipe ts c
  | bar {ts us c d} : Derives .exec ts c → Derives .pipe us d → Derives .pipe (ts ++ .bar :: us) (.pipe c d)
  | last {ts c} (n : Nat) : Derives .pipe ts c → Derives .line (ts ++ List.replicate n .amp) (backs n c)
  | semi {ts us c d} (n : Nat) : Derives .pipe ts c → Derives .line us d →
      Derives .line (ts ++ List.replicate n .amp ++ .semi :: us) (.list (backs n c) d)

section Lookahead

variable {s r : Text} {t : Token} {ts : List Token}

theorem peek_iff {toks : List Byte} (htoks : ∀ c ∈ toks, c ∈ symbols) :
    peek toks s = true ↔ ∃ t, (tokens s).head? = some t ∧ t.among toks = true := by
  rw [peek_tokens htoks]
  exact Option.any_eq_true _ _

theorem peek_redir : peek [60, 62] s = true ↔ ∃ t, (tokens s).head? = some t ∧ (t = .lt ∨ t = .gt ∨ t = .append) := by
  rw [peek_iff (by decide)]
  refine exists_congr fun t => and_congr_right fun _ => ?_
  cases t <;> simp [Token.among]

theorem peek_one {b : Byte} {a : Token} (hb : b ∈ symbols) (ha : ∀ t, t.among [b] = true ↔ t = a) :
    peek [b] s = true ↔ (tokens s).head? = some a := by
  rw [peek_iff (by simpa using hb)]
  constructor
  · rintro ⟨t, ht, hamong⟩
    exact (ha t).mp hamong ▸ ht
  · exact fun h => ⟨a, h, (ha a).mpr rfl⟩

theorem peek_lpar : peek [40] s = true ↔ (tokens s).head? = some .lpar := peek_one (by decide) fun t => by cases t <;> simp [Token.among]

theorem peek_rpar : peek [41] s = true ↔ (tokens s).head? = some .rpar := peek_one (by decide) fun t => by cases t <;> simp [Token.among]

theorem peek_bar : peek [124] s = true ↔ (tokens s).head? = some .bar := peek_one (by decide) fun t => by cases t <;> simp [Token.among]

theorem peek_amp : peek [38] s = true ↔ (tokens s).head? = some .amp := peek_one (by decide) fun t => by cases t <;> simp [Token.among]

theorem peek_semi : peek [59] s = true ↔ (tokens s).head? = some .semi := peek_one (by decide) fun t => by cases t <;> simp [Token.among]

theorem peek_stop : peek [124, 41, 38, 59] s = true ↔
    ∃ t, (tokens s).head? = some t ∧ (t = .bar ∨ t = .rpar ∨ t = .amp ∨ t = .semi) := by
  rw [peek_iff (by decide)]
  refine exists_congr fun t => and_congr_right fun _ => ?_
  cases t <;> simp [Token.among]

theorem token_of_head {a : Token} (hhead : (tokens s).head? = some a) (h : gettoken s = some (t, r)) : t = a := by
  rw [tokens_some h] at hhead
  exact Option.some.inj hhead

end Lookahead

section Sound

variable {α : Type} {R : List Token → α → Prop} {s : Text}

/-- The result of a function is that of a derivation of the tokens it has read; and no store was outside `argv`. -/
structure Reads (R : List Token → α → Prop) (s : Text) (r : Except Fault (Parsed α s)) : Prop where
  derives : ∀ p, r = .ok p → ∃ ts, R ts p.val ∧ tokens s = ts ++ tokens p.rest
  inside : r ≠ .error .stray

theorem Reads.ok {p : Parsed α s} (ts : List Token) (h : R ts p.val) (hs : tokens s = ts ++ tokens p.rest) : Reads R s (.ok p) :=
  ⟨fun _ heq => Except.ok.inj heq ▸ ⟨ts, h, hs⟩, nofun⟩

theorem Reads.error {e : Fault} (h : e ≠ .stray) : Reads R s (.error e) := ⟨nofun, fun heq => h (Except.error.inj heq)⟩

theorem Reads.at {β : Type} {Q : List Token → β → Prop} {u : Text} {r : Except Fault (Parsed β u)} {e : Fault}
    (h : Reads Q u r) (he : r = .error e) :
    Reads R s (.error e) :=
  Reads.error fun heq => h.inside (heq ▸ he)

theorem parseredirs_reads (s : Text) : Reads Redirs s (parseredirs s) := by
  induction hn : s.length using Nat.strong_induction_on generalizing s with
  | _ n ih =>
    rw [parseredirs]
    split
    next hpeek =>
      obtain ⟨a, hhead, ha⟩ := peek_redir.mp hpeek
      split
      next => exact .error (by rintro ⟨⟩)
      next tok s₁ h =>
        have htok := token_of_head hhead h
        subst htok
        split
        next file s₂ h₁ =>
          have hlt : s₂.length < s.length := (gettoken_length h₁).trans (gettoken_length h)
          have hrest := ih _ (hn ▸ hlt) s₂ rfl
          split
          next e he => exact hrest.at he
          next p hp =>
            obtain ⟨ts, hts, heq⟩ := hrest.derives p hp
            obtain ⟨r, hr⟩ : ∃ r, redircmd tok file = [r] := by
              rcases ha with rfl | rfl | rfl <;> exact ⟨_, rfl⟩
            refine .ok (tok :: .word file :: ts) ?_ ?_
            · rw [hr]
              exact .cons hr hts
            · rw [tokens_some h, tokens_some h₁, heq]
              rfl
        next => exact .error (by rintro ⟨⟩)
    next => exact .ok _ Redirs.nil (tokens_skip s).symm

theorem parseargs_reads (s : Text) (argv : List Text) (rs : List Redir) (hargc : argv.length < maxargs) :
    Reads (fun ts x => ∃ ws qs, Args ts ws qs ∧ x = (argv ++ ws, rs ++ qs) ∧ x.1.length < maxargs) s (parseargs s argv rs) := by
  induction hn : s.length using Nat.strong_induction_on generalizing s argv rs with
  | _ n ih =>
    have hstop : ∃ ws qs, Args [] ws qs ∧ (argv, rs) = (argv ++ ws, rs ++ qs) ∧ argv.length < maxargs :=
      ⟨[], [], Args.nil, by simp, hargc⟩
    rw [parseargs]
    split
    next => exact .ok _ hstop (tokens_skip s).symm
    next =>
      split
      next => exact .ok _ hstop (tokens_skip s).symm
      next w s₁ h =>
        split
        next => exact .error (by rintro ⟨⟩)
        next hmore =>
          have hredirs := parseredirs_reads s₁
          split
          next e he => exact hredirs.at he
          next p hp =>
            have hlt : p.rest.length < s.length := p.le.trans_lt (gettoken_length h)
            have hlen : (argv ++ [w]).length < maxargs := by
              rw [List.length_append, List.length_singleton]
              omega
            have hrest := ih _ (hn ▸ hlt) p.rest (argv ++ [w]) (rs ++ p.val) hlen rfl
            obtain ⟨ts, hts, heq⟩ := hredirs.derives p hp
            split
            next e he => exact hrest.at he
            next q hq =>
              obtain ⟨us, ⟨ws, qs, hargs, hval, hlen'⟩, heq'⟩ := hrest.derives q hq
              refine .ok (.word w :: (ts ++ us)) ⟨w :: ws, p.val ++ qs, Args.cons hts hargs, ?_, hlen'⟩ ?_
              · rw [hval]
                simp
              · rw [tokens_some h, heq, heq']
                simp
      next => exact .error (by rintro ⟨⟩)

theorem parsebacks_reads (cmd : Cmd) (s : Text) :
    ∃ n, (parsebacks cmd s).val = backs n cmd ∧ tokens s = List.replicate n .amp ++ tokens (parsebacks cmd s).rest := by
  induction hn : s.length using Nat.strong_induction_on generalizing s cmd with
  | _ n ih =>
    have hstop : ∃ n, cmd = backs n cmd ∧ tokens s = List.replicate n .amp ++ tokens (skip s) := ⟨0, rfl, (tokens_skip s).symm⟩
    rw [parsebacks]
    split
    next hpeek =>
      split
      next => exact hstop
      next tok s₁ h =>
        have htok := token_of_head (peek_amp.mp hpeek) h
        subst htok
        obtain ⟨m, hval, heq⟩ := ih _ (hn ▸ gettoken_length h) (.back cmd) s₁ rfl
        refine ⟨m + 1, hval, ?_⟩
        rw [tokens_some h, heq]
        rfl
    next => exact hstop

section
variable (ih : ∀ u : Text, u.length < s.length → Reads (Derives .line) u (parseline u))
include ih

theorem parseblock_reads : Reads (Derives .exec) s (parseblock s) := by
  rw [parseblock]
  split
  next hpeek =>
    split
    next => exact .error (by rintro ⟨⟩)
    next tok s₁ h =>
      have htok := token_of_head (peek_lpar.mp hpeek) h
      subst htok
      have hline := ih s₁ (gettoken_length h)
      split
      next e he => exact hline.at he
      next p hp =>
        obtain ⟨ts, hts, heq⟩ := hline.derives p hp
        split
        next hpeek₂ =>
          split
          next => exact .error (by rintro ⟨⟩)
          next tok s₂ h₂ =>
            have htok := token_of_head (peek_rpar.mp hpeek₂) h₂
            subst htok
            have hredirs := parseredirs_reads s₂
            split
            next e he => exact hredirs.at he
            next q hq =>
              obtain ⟨us, hus, heq'⟩ := hredirs.derives q hq
              refine .ok _ (Derives.block hts hus) ?_
              rw [tokens_some h, heq, tokens_some h₂, heq']
              simp
        next => exact .error (by rintro ⟨⟩)
  next => exact .error (by rintro ⟨⟩)

theorem parseexec_reads : Reads (Derives .exec) s (parseexec s) := by
  rw [parseexec]
  split
  next => exact parseblock_reads ih
  next =>
    have hredirs := parseredirs_reads s
    split
    next e he => exact hredirs.at he
    next p hp =>
      obtain ⟨ts, hts, heq⟩ := hredirs.derives p hp
      have hargs := parseargs_reads p.rest [] p.val (by decide)
      split
      next e he => exact hargs.at he
      next q hq =>
        obtain ⟨us, ⟨ws, qs, hus, hval, hlen⟩, heq'⟩ := hargs.derives q hq
        rw [if_pos hlen]
        refine .ok (ts ++ us) ?_ ?_
        · have hwords : ws.length ≤ maxargs - 1 := by
            rw [hval, List.nil_append] at hlen
            exact Nat.le_sub_one_of_lt hlen
          rw [hval]
          exact .simple hts hus hwords
        · rw [heq, heq', List.append_assoc]

end

theorem parsepipe_reads (hexec : Reads (Derives .exec) s (parseexec s))
    (ih : ∀ u : Text, u.length < s.length → Reads (Derives .pipe) u (parsepipe u)) : Reads (Derives .pipe) s (parsepipe s) := by
  rw [parsepipe]
  split
  next e he => exact hexec.at he
  next p hp =>
    obtain ⟨ts, hts, heq⟩ := hexec.derives p hp
    have hone : Reads (Derives .pipe) s (.ok ⟨p.val, skip p.rest, (skip_length _).trans p.le⟩) :=
      Reads.ok _ (Derives.one hts) (by rw [heq, tokens_skip])
    split
    next hpeek =>
      split
      next => exact hone
      next tok s₁ h =>
        have htok := token_of_head (peek_bar.mp hpeek) h
        subst htok
        have hrest := ih s₁ ((gettoken_length h).trans_le p.le)
        split
        next e he => exact hrest.at he
        next q hq =>
          obtain ⟨us, hus, heq'⟩ := hrest.derives q hq
          refine .ok _ (Derives.bar hts hus) ?_
          rw [heq, tokens_some h, heq']
          simp
    next => exact hone

theorem parseline_reads (hpipe : Reads (Derives .pipe) s (parsepipe s))
    (ih : ∀ u : Text, u.length < s.length → Reads (Derives .line) u (parseline u)) : Reads (Derives .line) s (parseline s) := by
  rw [parseline]
  split
  next e he => exact hpipe.at he
  next p hp =>
    obtain ⟨ts, hts, heq⟩ := hpipe.derives p hp
    obtain ⟨n, hval, heq'⟩ := parsebacks_reads p.val p.rest
    have hle := (parsebacks p.val p.rest).le.trans p.le
    have hlast : Reads (Derives .line) s
        (.ok ⟨(parsebacks p.val p.rest).val, skip (parsebacks p.val p.rest).rest, (skip_length _).trans hle⟩) := by
      refine .ok (ts ++ List.replicate n .amp) (hval ▸ Derives.last n hts) ?_
      rw [heq, heq', tokens_skip, List.append_assoc]
    dsimp only
    split
    next hpeek =>
      split
      next => exact hlast
      next tok s₁ h =>
        have htok := token_of_head (peek_semi.mp hpeek) h
        subst htok
        have hrest := ih s₁ ((gettoken_length h).trans_le hle)
        split
        next e he => exact hrest.at he
        next q hq =>
          obtain ⟨us, hus, heq''⟩ := hrest.derives q hq
          refine .ok (ts ++ List.replicate n .amp ++ .semi :: us) (hval ▸ Derives.semi n hts hus) ?_
          rw [heq, heq', tokens_some h, heq'']
          simp
    next => exact hlast

theorem parse_reads (s : Text) : Reads (Derives .pipe) s (parsepipe s) ∧ Reads (Derives .line) s (parseline s) := by
  induction hn : s.length using Nat.strong_induction_on generalizing s with
  | _ n ih =>
    have hexec := parseexec_reads fun u hu => (ih _ (hn ▸ hu) u rfl).2
    have hpipe := parsepipe_reads hexec fun u hu => (ih _ (hn ▸ hu) u rfl).1
    exact ⟨hpipe, parseline_reads hpipe fun u hu => (ih _ (hn ▸ hu) u rfl).2⟩

end Sound

end Xv6.Sh
