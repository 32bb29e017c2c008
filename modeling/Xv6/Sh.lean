import Xv6.Fs

/-!
# The shell's parser

`parsecmd` of `user/sh.c`: the scanners `gettoken` and `peek`, the recursive descent
`parseline`, `parsepipe`, `parseexec`, `parseblock` and `parseredirs`, and `nulterminate`. The
command line is the buffer `buf`, the characters before its `NUL`. A pointer into it is an
offset, `es` is `buf.length`, and `*s` is `buf.getD s '\x00'`. A command holds the offsets
`q` and `eq` of each word, as `argv` and `eargv` do, and `nulterminate` writes a `NUL` at every
`eq` of the buffer.

`panic(s)` prints `s` and exits; here it is `.error s`. The parse functions take a `fuel` that
bounds how deep they call one another: each call takes a token or goes one of four levels down,
so `parsecmd` gives them four for each character and four more.
-/

namespace Xv6.Sh

/-- `MAXARGS`. -/
def MAXARGS : Nat := 10

/-- `whitespace`. -/
def whitespace : List Char := [' ', '\t', '\r', '\n', '\x0b']

/-- `symbols`. -/
def symbols : List Char := ['<', '|', '>', '&', ';', '(', ')']

/-- `strchr(str, c) != 0` of `user/ulib.c` for a `str` without `NUL`: `c` is one of its
characters. The loop stops at the `NUL` that ends `str` before comparing it, so `c = NUL` is
never found. -/
def strchr (str : List Char) (c : Char) : Bool := str.contains c

/-- The result of running out of `fuel`, which `parsecmd` gives enough never to happen. -/
def outOfFuel : String := "out of fuel"

/-- The parsed command: `struct execcmd` with the offsets of its words, `struct redircmd`,
`struct pipecmd`, `struct listcmd` and `struct backcmd`. -/
inductive Cmd where
  | exec (argv : List (Nat × Nat))
  | redir (cmd : Cmd) (file efile : Nat) (mode fd : Nat)
  | pipe (left right : Cmd)
  | list (left right : Cmd)
  | back (cmd : Cmd)
  deriving DecidableEq, Repr

/-- `cmd->argv[i] = q; cmd->eargv[i] = eq` on the `execcmd` that `parseexec` wrapped in the
redirections it has read so far. -/
def Cmd.setArgv : Cmd → List (Nat × Nat) → Cmd
  | .exec _, argv => .exec argv
  | .redir cmd file efile mode fd, argv => .redir (cmd.setArgv argv) file efile mode fd
  | cmd, _ => cmd

/-- `while(s < es && p(*s)) s++`. -/
def skip (buf : List Char) (p : Char → Bool) (s : Nat) : Nat :=
  s + ((buf.drop s).takeWhile p).length

/-- `gettoken(ps, es, &q, &eq)`: the token's kind (`'a'` for a word, `'+'` for `>>`, `0` at the
end), `q`, `eq` and the new `*ps`. -/
def gettoken (buf : List Char) (ps : Nat) : Char × Nat × Nat × Nat :=
  let s := skip buf (strchr whitespace) ps
  let c := buf.getD s '\x00'
  let (ret, eq) : Char × Nat :=
    match c with
    | '\x00' => (c, s)
    | '|' | '(' | ')' | ';' | '&' | '<' => (c, s + 1)
    | '>' => if buf.getD (s + 1) '\x00' = '>' then ('+', s + 2) else (c, s + 1)
    | _ => ('a', skip buf (fun c => !strchr whitespace c && !strchr symbols c) s)
  (ret, s, eq, skip buf (strchr whitespace) eq)

/-- `peek(ps, es, toks)`: whether the next character is one of `toks`, and the new `*ps`. -/
def peek (buf : List Char) (ps : Nat) (toks : List Char) : Bool × Nat :=
  let s := skip buf (strchr whitespace) ps
  (buf.getD s '\x00' != '\x00' && strchr toks (buf.getD s '\x00'), s)

/-- `parseredirs(cmd, ps, es)`: each redirection wraps the command read so far. -/
def parseredirs (buf : List Char) : Nat → Cmd → Nat → Except String (Cmd × Nat)
  | 0, _, _ => .error outOfFuel
  | fuel + 1, cmd, ps =>
    let (more, ps) := peek buf ps ['<', '>']
    if !more then .ok (cmd, ps) else
    let (tok, _, _, ps) := gettoken buf ps
    let (t, q, eq, ps) := gettoken buf ps
    if t ≠ 'a' then .error "missing file for redirection" else
    let cmd := match tok with
      | '<' => .redir cmd q eq O_RDONLY 0
      | '>' => .redir cmd q eq (O_WRONLY ||| O_CREATE ||| O_TRUNC) 1
      | '+' => .redir cmd q eq (O_WRONLY ||| O_CREATE) 1
      | _ => cmd
    parseredirs buf fuel cmd ps

/-- The `while` of `parseline` over `&`: each makes the command a `backcmd`. -/
def backs (buf : List Char) : Nat → Cmd → Nat → Except String (Cmd × Nat)
  | 0, _, _ => .error outOfFuel
  | fuel + 1, cmd, ps =>
    let (amp, ps) := peek buf ps ['&']
    if amp then
      let (_, _, _, ps) := gettoken buf ps
      backs buf fuel (.back cmd) ps
    else .ok (cmd, ps)

/-- The `while` of `parseexec` over the words: `argv` so far, and `ret`, the `execcmd` in the
redirections read so far. -/
def execLoop (buf : List Char) : Nat → List (Nat × Nat) → Cmd → Nat → Except String (Cmd × Nat)
  | 0, _, _, _ => .error outOfFuel
  | fuel + 1, argv, ret, ps =>
    let (stop, ps) := peek buf ps ['|', ')', '&', ';']
    if stop then .ok (ret.setArgv argv, ps) else
    let (tok, q, eq, ps) := gettoken buf ps
    if tok = '\x00' then .ok (ret.setArgv argv, ps)
    else if tok ≠ 'a' then .error "syntax"
    else
      let argv := argv ++ [(q, eq)]
      if MAXARGS ≤ argv.length then .error "too many args" else
      match parseredirs buf fuel ret ps with
      | .error e => .error e
      | .ok (ret, ps) => execLoop buf fuel argv ret ps

mutual

/-- `parseline(ps, es)`. -/
def parseline (buf : List Char) : Nat → Nat → Except String (Cmd × Nat)
  | 0, _ => .error outOfFuel
  | fuel + 1, ps => do
    let (cmd, ps) ← parsepipe buf fuel ps
    let (cmd, ps) ← backs buf fuel cmd ps
    let (semi, ps) := peek buf ps [';']
    if semi then
      let (_, _, _, ps) := gettoken buf ps
      let (right, ps) ← parseline buf fuel ps
      return (.list cmd right, ps)
    return (cmd, ps)
termination_by structural fuel => fuel

/-- `parsepipe(ps, es)`. -/
def parsepipe (buf : List Char) : Nat → Nat → Except String (Cmd × Nat)
  | 0, _ => .error outOfFuel
  | fuel + 1, ps => do
    let (cmd, ps) ← parseexec buf fuel ps
    let (bar, ps) := peek buf ps ['|']
    if bar then
      let (_, _, _, ps) := gettoken buf ps
      let (right, ps) ← parsepipe buf fuel ps
      return (.pipe cmd right, ps)
    return (cmd, ps)
termination_by structural fuel => fuel

/-- `parseblock(ps, es)`. -/
def parseblock (buf : List Char) : Nat → Nat → Except String (Cmd × Nat)
  | 0, _ => .error outOfFuel
  | fuel + 1, ps => do
    let (lp, ps) := peek buf ps ['(']
    if !lp then throw "parseblock"
    let (_, _, _, ps) := gettoken buf ps
    let (cmd, ps) ← parseline buf fuel ps
    let (rp, ps) := peek buf ps [')']
    if !rp then throw "syntax - missing )"
    let (_, _, _, ps) := gettoken buf ps
    parseredirs buf fuel cmd ps
termination_by structural fuel => fuel

/-- `parseexec(ps, es)`. -/
def parseexec (buf : List Char) : Nat → Nat → Except String (Cmd × Nat)
  | 0, _ => .error outOfFuel
  | fuel + 1, ps => do
    let (lp, ps) := peek buf ps ['(']
    if lp then parseblock buf fuel ps else
    let (ret, ps) ← parseredirs buf fuel (.exec []) ps
    execLoop buf fuel [] ret ps
termination_by structural fuel => fuel

end

/-- `nulterminate(cmd)`: a `NUL` at the end of every word, in the buffer. -/
def nulterminate : List Char → Cmd → List Char
  | buf, .exec argv => argv.foldl (fun buf a => buf.set a.2 '\x00') buf
  | buf, .redir cmd _ efile _ _ => (nulterminate buf cmd).set efile '\x00'
  | buf, .pipe left right => nulterminate (nulterminate buf left) right
  | buf, .list left right => nulterminate (nulterminate buf left) right
  | buf, .back cmd => nulterminate buf cmd

/-- `parsecmd(s)`: the command, and the buffer after `nulterminate`; anything after the line
is the `leftovers` panic. -/
def parsecmd (s : List Char) : Except String (Cmd × List Char) := do
  let (cmd, ps) ← parseline s (4 * s.length + 4) 0
  let (_, ps) := peek s ps []
  if ps ≠ s.length then throw "syntax"
  return (cmd, nulterminate s cmd)


end Xv6.Sh
