import Xv6.Sh.Lexer

namespace Xv6.Sh

def maxargs : Nat := 10

def rdonly : BitVec 32 := 0x000
def wronly : BitVec 32 := 0x001
def creat : BitVec 32 := 0x200
def trunc : BitVec 32 := 0x400

structure Redir where
  file : Text
  mode : BitVec 32
  fd : Nat
  deriving DecidableEq

inductive Cmd
  | exec (argv : List Text)
  | redir (cmd : Cmd) (r : Redir)
  | pipe (left right : Cmd)
  | list (left right : Cmd)
  | back (cmd : Cmd)
  deriving DecidableEq

/-- The panics, and a store outside `argv`, which C would not notice. -/
inductive Fault
  /-- `missing file for redirection` -/
  | missingFile
  | parseblock
  /-- `syntax - missing )` -/
  | missingParen
  /-- `syntax` -/
  | badToken
  /-- `too many args` -/
  | tooManyArgs
  /-- `syntax`, after the text that is left over -/
  | leftovers
  | stray
  deriving DecidableEq

/-- A result of a function that reads from `s`, and the text that it leaves. -/
structure Parsed (α : Type) (s : Text) where
  val : α
  rest : Text
  le : rest.length ≤ s.length

def redircmd (tok : Token) (file : Text) : List Redir :=
  match tok with
  | .lt => [⟨file, rdonly, 0⟩]
  | .gt => [⟨file, wronly ||| creat ||| trunc, 1⟩]
  | .append => [⟨file, wronly ||| creat, 1⟩]
  | _ => []

/-- `parseredirs`: the nodes that it puts around its command, the innermost first. -/
def parseredirs (s : Text) : Except Fault (Parsed (List Redir) s) :=
  if peek [60, 62] s then
    match h : gettoken s with
    | none => .error .missingFile
    | some (tok, s₁) =>
      match h₁ : gettoken s₁ with
      | some (.word file, s₂) =>
        have hlt : s₂.length < s.length := (gettoken_length h₁).trans (gettoken_length h)
        match parseredirs s₂ with
        | .error e => .error e
        | .ok p => .ok ⟨redircmd tok file ++ p.val, p.rest, p.le.trans hlt.le⟩
      | _ => .error .missingFile
  else .ok ⟨[], skip s, skip_length s⟩
termination_by s.length

/-- The loop of `parseexec`: the arguments stored so far and the nodes around the command. -/
def parseargs (s : Text) (argv : List Text) (rs : List Redir) : Except Fault (Parsed (List Text × List Redir) s) :=
  if peek [124, 41, 38, 59] s then .ok ⟨(argv, rs), skip s, skip_length s⟩
  else
    match h : gettoken s with
    | none => .ok ⟨(argv, rs), skip s, skip_length s⟩
    | some (.word w, s₁) =>
      if argv.length < maxargs then
        if argv.length + 1 ≥ maxargs then .error .tooManyArgs
        else
          match parseredirs s₁ with
          | .error e => .error e
          | .ok p =>
            have hlt : p.rest.length < s.length := p.le.trans_lt (gettoken_length h)
            match parseargs p.rest (argv ++ [w]) (rs ++ p.val) with
            | .error e => .error e
            | .ok q => .ok ⟨q.val, q.rest, q.le.trans hlt.le⟩
      else .error .stray
    | some _ => .error .badToken
termination_by s.length

def wrap (cmd : Cmd) (rs : List Redir) : Cmd := rs.foldl .redir cmd

def parsebacks (cmd : Cmd) (s : Text) : Parsed Cmd s :=
  if peek [38] s then
    match h : gettoken s with
    | none => ⟨cmd, skip s, skip_length s⟩
    | some (_, s₁) =>
      let p := parsebacks (.back cmd) s₁
      ⟨p.val, p.rest, p.le.trans (gettoken_length h).le⟩
  else ⟨cmd, skip s, skip_length s⟩
termination_by s.length
decreasing_by exact gettoken_length h

mutual

def parseblock (s : Text) : Except Fault (Parsed Cmd s) :=
  if peek [40] s then
    match h : gettoken s with
    | none => .error .parseblock
    | some (_, s₁) =>
      have hlt : s₁.length < s.length := gettoken_length h
      match parseline s₁ with
      | .error e => .error e
      | .ok p =>
        if peek [41] p.rest then
          match h₂ : gettoken p.rest with
          | none => .error .missingParen
          | some (_, s₂) =>
            match parseredirs s₂ with
            | .error e => .error e
            | .ok q => .ok ⟨wrap p.val q.val, q.rest, q.le.trans ((gettoken_length h₂).le.trans (p.le.trans hlt.le))⟩
        else .error .missingParen
  else .error .parseblock
termination_by (s.length, 0)

def parseexec (s : Text) : Except Fault (Parsed Cmd s) :=
  if peek [40] s then parseblock s
  else
    match parseredirs s with
    | .error e => .error e
    | .ok p =>
      match parseargs p.rest [] p.val with
      | .error e => .error e
      | .ok q =>
        -- `argv[argc] = 0` and `eargv[argc] = 0`
        if q.val.1.length < maxargs then .ok ⟨wrap (.exec q.val.1) q.val.2, q.rest, q.le.trans p.le⟩
        else .error .stray
termination_by (s.length, 1)

def parsepipe (s : Text) : Except Fault (Parsed Cmd s) :=
  match parseexec s with
  | .error e => .error e
  | .ok p =>
    if peek [124] p.rest then
      match h : gettoken p.rest with
      | none => .ok ⟨p.val, skip p.rest, (skip_length _).trans p.le⟩
      | some (_, s₁) =>
        have hlt : s₁.length < s.length := (gettoken_length h).trans_le p.le
        match parsepipe s₁ with
        | .error e => .error e
        | .ok q => .ok ⟨.pipe p.val q.val, q.rest, q.le.trans hlt.le⟩
    else .ok ⟨p.val, skip p.rest, (skip_length _).trans p.le⟩
termination_by (s.length, 2)

def parseline (s : Text) : Except Fault (Parsed Cmd s) :=
  match parsepipe s with
  | .error e => .error e
  | .ok p =>
    let b := parsebacks p.val p.rest
    if peek [59] b.rest then
      match h : gettoken b.rest with
      | none => .ok ⟨b.val, skip b.rest, (skip_length _).trans (b.le.trans p.le)⟩
      | some (_, s₁) =>
        have hlt : s₁.length < s.length := (gettoken_length h).trans_le (b.le.trans p.le)
        match parseline s₁ with
        | .error e => .error e
        | .ok q => .ok ⟨.list b.val q.val, q.rest, q.le.trans hlt.le⟩
    else .ok ⟨b.val, skip b.rest, (skip_length _).trans (b.le.trans p.le)⟩
termination_by (s.length, 3)

end

def cstring (s : Text) : Text := s.takeWhile fun b => b ≠ 0

end Xv6.Sh
