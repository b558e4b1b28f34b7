import Xv6.Sh.Grammar

namespace Xv6.Sh

open List

def Yields {α : Type} {s : Text} (r : Except Fault (Parsed α s)) (a : α) (rest : List Token) : Prop :=
  ∃ p, r = .ok p ∧ p.val = a ∧ tokens p.rest = rest

/-- The tokens that can come after a part of the line. -/
def follow : Nonterminal → List Token
  | .exec => [.bar, .rpar, .amp, .semi]
  | .pipe => [.rpar, .amp, .semi]
  | .line => [.rpar]

def Follows (k : Nonterminal) (rest : List Token) : Prop := ∀ t, rest.head? = some t → t ∈ follow k

def NoRedir (rest : List Token) : Prop := ∀ t, rest.head? = some t → t ≠ .lt ∧ t ≠ .gt ∧ t ≠ .append

section Parts

variable {s : Text} {ts rest : List Token} {rs qs : List Redir} {ws argv : List Text} {cmd : Cmd}

theorem Follows.pipe (h : Follows .pipe rest) : Follows .exec rest := fun t ht => mem_cons_of_mem _ (h t ht)

theorem Follows.line (h : Follows .line rest) : Follows .pipe rest := fun t ht => by
  have hmem := h t ht
  simp only [follow, mem_singleton] at hmem
  rw [hmem]
  decide

theorem Follows.noRedir (h : Follows .exec rest) : NoRedir rest := fun t ht => by
  have hmem := h t ht
  simp only [follow, mem_cons, not_mem_nil, or_false] at hmem
  rcases hmem with rfl | rfl | rfl | rfl <;> decide

theorem redir_token {tok : Token} {file : Text} {r : Redir} (h : redircmd tok file = [r]) : tok = .lt ∨ tok = .gt ∨ tok = .append := by
  cases tok <;> simp [redircmd] at h ⊢

theorem parseredirs_complete (h : Redirs ts rs) (hs : tokens s = ts ++ rest) (hrest : NoRedir rest) : Yields (parseredirs s) rs rest := by
  induction h generalizing s with
  | nil =>
    have hpeek : ¬ peek [60, 62] s = true := fun hpeek => by
      obtain ⟨t, ht, hor⟩ := peek_redir.mp hpeek
      rw [hs] at ht
      have := hrest t ht
      rcases hor with rfl | rfl | rfl <;> simp at this
    rw [parseredirs, if_neg hpeek]
    exact ⟨_, rfl, rfl, (tokens_skip s).trans hs⟩
  | @cons tok file r ts rs hr _ ih =>
    obtain ⟨s₁, hget, hs₁⟩ := gettoken_of_tokens hs
    obtain ⟨s₂, hget₁, hs₂⟩ := gettoken_of_tokens hs₁
    have hpeek : peek [60, 62] s = true := peek_redir.mpr ⟨tok, by rw [hs]; rfl, redir_token hr⟩
    obtain ⟨p, hp, hval, htoks⟩ := ih hs₂
    rw [parseredirs, if_pos hpeek]
    split <;> rename_i h <;> rw [hget] at h <;> cases h
    split
    next h =>
      rw [hget₁] at h
      cases h
      rw [hp]
      dsimp only
      exact ⟨_, rfl, by rw [hr, hval]; rfl, htoks⟩
    next h => exact absurd hget₁ (h file s₂)

theorem Args.noRedir (h : Args ts ws qs) (hrest : Follows .exec rest) : NoRedir (ts ++ rest) := by
  cases h with
  | nil => exact hrest.noRedir
  | cons _ _ =>
    intro t ht
    cases Option.some.inj ht
    simp

theorem parseargs_complete (argv : List Text) (rs : List Redir) (h : Args ts ws qs) (hs : tokens s = ts ++ rest)
    (hrest : Follows .exec rest) (hargc : argv.length + ws.length < maxargs) :
    Yields (parseargs s argv rs) (argv ++ ws, rs ++ qs) rest := by
  induction h generalizing s argv rs with
  | nil =>
    have hend : Yields (.ok ⟨(argv, rs), skip s, skip_length s⟩ : Except Fault (Parsed _ s)) (argv ++ [], rs ++ []) rest :=
      ⟨_, rfl, by simp, (tokens_skip s).trans hs⟩
    -- another token is one at which the loop stops
    have hstop : ∀ {t r}, gettoken s = some (t, r) → peek [124, 41, 38, 59] s = true := by
      intro t r h
      have hhead : rest.head? = some t := by
        rw [tokens_some h, nil_append] at hs
        rw [← hs]
        rfl
      have hmem := hrest t hhead
      refine peek_stop.mpr ⟨t, by rw [tokens_some h]; rfl, ?_⟩
      simpa only [follow, mem_cons, not_mem_nil, or_false] using hmem
    rw [parseargs]
    split
    next => exact hend
    next hpeek =>
      split
      next => exact hend
      next w s₁ h => exact absurd (hstop h) hpeek
      next x _ h => exact absurd (hstop (t := x.1) h) hpeek
  | @cons w ts rs' us ws qs hredirs hargs ih =>
    rw [cons_append] at hs
    obtain ⟨s₁, hget, hs₁⟩ := gettoken_of_tokens hs
    rw [append_assoc] at hs₁
    rw [length_cons] at hargc
    obtain ⟨p, hp, hval, htoks⟩ := parseredirs_complete hredirs hs₁ (hargs.noRedir hrest)
    have hlen : (argv ++ [w]).length + ws.length < maxargs := by
      rw [length_append, length_singleton]
      omega
    obtain ⟨q, hq, hval', htoks'⟩ := ih (argv ++ [w]) (rs ++ p.val) htoks hlen
    have hpeek : ¬ peek [124, 41, 38, 59] s = true := fun hpeek => by
      obtain ⟨t, ht, hor⟩ := peek_stop.mp hpeek
      rw [hs] at ht
      cases Option.some.inj ht
      simp at hor
    rw [parseargs, if_neg hpeek]
    split
    next h => rw [hget] at h; cases h
    next h =>
      rw [hget] at h
      cases h
      rw [if_pos (by omega), if_neg (by omega)]
      rw [hp]
      dsimp only
      rw [hq]
      dsimp only
      exact ⟨_, rfl, by rw [hval', hval]; simp, htoks'⟩
    next x hne h => rw [hget] at h; exact absurd (Option.some.inj h).symm (hne w s₁)

theorem parsebacks_complete {n : Nat} (cmd : Cmd) (hs : tokens s = replicate n .amp ++ rest) (hrest : rest.head? ≠ some .amp) :
    (parsebacks cmd s).val = backs n cmd ∧ tokens (parsebacks cmd s).rest = rest := by
  induction n generalizing s cmd with
  | zero =>
    have hpeek : ¬ peek [38] s = true := fun hpeek => by
      have hhead := peek_amp.mp hpeek
      rw [hs] at hhead
      exact hrest hhead
    rw [parsebacks, if_neg hpeek]
    exact ⟨rfl, (tokens_skip s).trans hs⟩
  | succ n ih =>
    obtain ⟨s₁, hget, hs₁⟩ := gettoken_of_tokens hs
    have hpeek : peek [38] s = true := peek_amp.mpr (by rw [hs]; rfl)
    rw [parsebacks, if_pos hpeek]
    split <;> rename_i h <;> rw [hget] at h <;> cases h
    exact ih _ hs₁

end Parts

section Productions

variable {s : Text} {ts us rest : List Token} {rs qs : List Redir} {ws : List Text} {c d : Cmd}

theorem parseexec_block (ts : List Token) (hs : tokens s = .lpar :: ts)
    (hline : ∀ u, tokens u = ts → Yields (parseline u) c (.rpar :: (us ++ rest)))
    (hus : Redirs us rs) (hrest : Follows .exec rest) : Yields (parseexec s) (wrap c rs) rest := by
  obtain ⟨s₁, hget, hs₁⟩ := gettoken_of_tokens hs
  obtain ⟨p, hp, hval, hrp⟩ := hline s₁ hs₁
  obtain ⟨s₂, hget₂, hs₂⟩ := gettoken_of_tokens hrp
  obtain ⟨q, hq, hval', htoks⟩ := parseredirs_complete hus hs₂ hrest.noRedir
  have hpeek : peek [40] s = true := peek_lpar.mpr (by rw [hs]; rfl)
  have hpeek₂ : peek [41] p.rest = true := peek_rpar.mpr (by rw [hrp]; rfl)
  rw [parseexec, if_pos hpeek, parseblock, if_pos hpeek]
  split <;> rename_i h <;> rw [hget] at h <;> cases h
  dsimp only
  rw [hp]
  dsimp only
  rw [if_pos hpeek₂]
  split <;> rename_i h <;> rw [hget₂] at h <;> cases h
  rw [hq]
  dsimp only
  exact ⟨_, rfl, by rw [hval, hval'], htoks⟩

theorem parseexec_simple (hs : tokens s = ts ++ (us ++ rest)) (hts : Redirs ts rs) (hus : Args us ws qs) (hlen : ws.length ≤ maxargs - 1)
    (hrest : Follows .exec rest) : Yields (parseexec s) (wrap (.exec ws) (rs ++ qs)) rest := by
  have hlen : ws.length < maxargs := Nat.lt_of_le_pred (by decide) hlen
  obtain ⟨p, hp, hval, htoks⟩ := parseredirs_complete hts hs (hus.noRedir hrest)
  obtain ⟨q, hq, hval', htoks'⟩ := parseargs_complete [] p.val hus htoks hrest (by simpa using hlen)
  have hpeek : ¬ peek [40] s = true := fun hpeek => by
    have hhead := peek_lpar.mp hpeek
    rw [hs] at hhead
    cases hts with
    | nil =>
      cases hus with
      | nil =>
        have hmem := hrest _ hhead
        simp [follow] at hmem
      | cons _ _ => cases Option.some.inj hhead
    | cons hr _ =>
      cases Option.some.inj hhead
      cases hr
  rw [parseexec, if_neg hpeek, hp]
  dsimp only
  rw [hq]
  dsimp only
  have hargc : q.val.1.length < maxargs := by rw [hval']; exact hlen
  rw [if_pos hargc]
  exact ⟨_, rfl, by rw [hval', hval]; rfl, htoks'⟩

theorem parsepipe_one (hexec : Yields (parseexec s) c rest) (hrest : rest.head? ≠ some .bar) : Yields (parsepipe s) c rest := by
  obtain ⟨p, hp, hval, htoks⟩ := hexec
  have hpeek : ¬ peek [124] p.rest = true := fun hpeek => hrest (htoks ▸ peek_bar.mp hpeek)
  rw [parsepipe, hp]
  dsimp only
  rw [if_neg hpeek]
  exact ⟨_, rfl, hval, (tokens_skip _).trans htoks⟩

theorem parsepipe_bar (us : List Token) (hexec : Yields (parseexec s) c (.bar :: us))
    (hpipe : ∀ u, tokens u = us → Yields (parsepipe u) d rest) :
    Yields (parsepipe s) (.pipe c d) rest := by
  obtain ⟨p, hp, hval, hbar⟩ := hexec
  obtain ⟨s₁, hget, hs₁⟩ := gettoken_of_tokens hbar
  obtain ⟨q, hq, hval', htoks⟩ := hpipe s₁ hs₁
  have hpeek : peek [124] p.rest = true := peek_bar.mpr (by rw [hbar]; rfl)
  rw [parsepipe, hp]
  dsimp only
  rw [if_pos hpeek]
  split <;> rename_i h <;> rw [hget] at h <;> cases h
  rw [hq]
  dsimp only
  exact ⟨_, rfl, by rw [hval, hval'], htoks⟩

theorem parseline_last {n : Nat} (hpipe : Yields (parsepipe s) c (replicate n .amp ++ rest)) (hamp : rest.head? ≠ some .amp)
    (hsemi : rest.head? ≠ some .semi) : Yields (parseline s) (backs n c) rest := by
  obtain ⟨p, hp, hval, htoks⟩ := hpipe
  obtain ⟨hback, htoks'⟩ := parsebacks_complete p.val htoks hamp
  have hpeek : ¬ peek [59] (parsebacks p.val p.rest).rest = true := fun hpeek => hsemi (htoks' ▸ peek_semi.mp hpeek)
  rw [parseline, hp]
  dsimp only
  rw [if_neg hpeek]
  exact ⟨_, rfl, by rw [hback, hval], (tokens_skip _).trans htoks'⟩

theorem parseline_semi {n : Nat} (us : List Token) (hpipe : Yields (parsepipe s) c (replicate n .amp ++ .semi :: us))
    (hline : ∀ u, tokens u = us → Yields (parseline u) d rest) : Yields (parseline s) (.list (backs n c) d) rest := by
  obtain ⟨p, hp, hval, htoks⟩ := hpipe
  obtain ⟨hback, hsemi⟩ := parsebacks_complete p.val htoks (by simp)
  obtain ⟨s₁, hget, hs₁⟩ := gettoken_of_tokens hsemi
  obtain ⟨q, hq, hval', htoks'⟩ := hline s₁ hs₁
  have hpeek : peek [59] (parsebacks p.val p.rest).rest = true := peek_semi.mpr (by rw [hsemi]; rfl)
  rw [parseline, hp]
  dsimp only
  rw [if_pos hpeek]
  split <;> rename_i h <;> rw [hget] at h <;> cases h
  rw [hq]
  dsimp only
  exact ⟨_, rfl, by dsimp only; rw [hback, hval, hval'], htoks'⟩

end Productions

def parse : Nonterminal → (s : Text) → Except Fault (Parsed Cmd s)
  | .exec, s => parseexec s
  | .pipe, s => parsepipe s
  | .line, s => parseline s

theorem parse_complete {k : Nonterminal} {ts rest : List Token} {c : Cmd} {s : Text} (h : Derives k ts c) (hs : tokens s = ts ++ rest)
    (hrest : Follows k rest) : Yields (parse k s) c rest := by
  have hone : ∀ {k t us}, t ∈ follow k → Follows k (t :: us) := fun hmem t ht => Option.some.inj ht ▸ hmem
  have hne : ∀ {k t rest}, Follows k rest → t ∉ follow k → rest.head? ≠ some t := fun hf hout ht => hout (hf _ ht)
  -- after a pipe come ampersands or what follows the line
  have hamps : ∀ {rest}, Follows .pipe rest → ∀ n, Follows .pipe (replicate n .amp ++ rest) := fun hf n => by
    cases n with
    | zero => exact hf
    | succ n => exact hone (by decide)
  induction h generalizing s rest with
  | @block ts us c rs _ hus ih =>
    refine parseexec_block (ts ++ .rpar :: (us ++ rest)) (by rw [hs]; simp) (fun u hu => ih hu (hone (by decide))) hus hrest
  | simple hts hus hlen => exact parseexec_simple (by rw [hs, append_assoc]) hts hus hlen hrest
  | one _ ih => exact parsepipe_one (ih hs hrest.pipe) (hne hrest (by decide))
  | @bar ts us c d _ _ ihc ihd =>
    refine parsepipe_bar (us ++ rest) (ihc (by rw [hs]; simp) (hone (by decide))) fun u hu => ihd hu hrest
  | @last ts c n _ ih =>
    exact parseline_last (ih (by rw [hs, append_assoc]) (hamps hrest.line n)) (hne hrest (by decide)) (hne hrest (by decide))
  | @semi ts us c d n _ _ ihc ihd =>
    refine parseline_semi (us ++ rest) (ihc (by rw [hs]; simp) (hamps (hone (by decide)) n)) fun u hu => ihd hu hrest

end Xv6.Sh
