import Xv6.String

/-!
# `grep` (`user/grep.c`)

`match`, `matchhere` and `matchstar` of `user/grep.c`, the matcher of Kernighan and Pike, and
`grep` itself. A C string is the list of its characters before the terminating `NUL`, so
`re[0] == '\0'` is `re = []` and `text + 1` is the tail.

`matchstar` and `matchhere` call each other; here `matchstar` takes `matchhere(re, ·)` as the
function `here`, so that both recurse structurally: `matchhere` on the pattern, `matchstar` on
the text.

`grep` reads `fd` into `buf` after the `m` bytes it keeps, and each `read` may return fewer
bytes than it asks for: `sz k` is the size the stream offers at the `k`-th `read`, which returns
at least one byte and at most what it asks for and what is left, and `0` only when it asks for
none or none is left. The bytes of `buf` are a list, whose end stands for the `NUL` that
`buf[m] = '\0'` puts after them.
-/

namespace Xv6.Grep

/-- `matchstar(c, re, text)`: `c*` and then `re` at the start of `text`, with `here` for
`matchhere(re, ·)`. The `do`-`while` tries `re` first, and steps over one more character while
it is `c` (any character, for `.`). -/
def matchstar (here : List Char → Bool) (c : Char) : List Char → Bool
  | [] => here []
  | x :: text => here (x :: text) || ((x == c || c == '.') && matchstar here c text)

/-- `matchhere(re, text)`: `re` at the start of `text`. A `*` after the first character is
looked at before a `$` that ends the pattern. -/
def matchhere : List Char → List Char → Bool
  | [], _ => true
  | c :: '*' :: re, text => matchstar (matchhere re) c text
  | ['$'], text => text.isEmpty
  | _ :: _, [] => false
  | c :: re, x :: text => (c == '.' || c == x) && matchhere re text

/-- The `do`-`while` of `match`: `re` at each position of `text`, the end included. -/
def matchLoop (re : List Char) : List Char → Bool
  | [] => matchhere re []
  | x :: text => matchhere re (x :: text) || matchLoop re text

/-- `match(re, text)`: after a leading `^` only the start of `text` is tried. -/
def «match» : List Char → List Char → Bool
  | '^' :: re, text => matchhere re text
  | re, text => matchLoop re text

/-- `sizeof(buf)`: `char buf[1024]`. -/
def BUFSIZE : Nat := 1024

set_option linter.unusedVariables false in
/-- The inner loop of `grep` on the bytes from `p`: `*q = 0` makes each line that
`strchr(p, '\n')` finds the string `match` reads, and a match writes the line with its newline
(`write(1, p, q+1 - p)`). Returns what it writes and the bytes from the last `p` on, which
`memmove` moves to the front of `buf`. -/
def scanLines (pattern : List Char) (s : List Char) : List Char × List Char :=
  match h : Ulib.strchr s '\n' with
  | none => ([], s)
  | some q =>
    let r := scanLines pattern (s.drop (q + 1))
    ((if «match» pattern (s.take q) then s.take q ++ ['\n'] else []) ++ r.1, r.2)
termination_by s.length
decreasing_by
  have := Ulib.strchr_lt h
  simp only [List.length_drop]
  omega

/-- What the `k`-th `read(fd, buf+m, sizeof(buf)-m-1)` returns with `left` bytes still to come:
at least one byte and at most what it asks for and what is left. -/
def readCount (sz : Nat → Nat) (k m left : Nat) : Nat :=
  min (max 1 (sz k)) (min (BUFSIZE - m - 1) left)

/-- The outer loop of `grep` at its `k`-th `read`, with `buf` holding its `m` bytes and `input`
what `fd` has still to give: `read(fd, buf+m, sizeof(buf)-m-1)` returns `n` bytes, and the loop
ends when `n` is `0`. -/
def grepLoop (pattern : List Char) (sz : Nat → Nat) (k : Nat) (buf input : List Char) :
    List Char :=
  let n := readCount sz k buf.length input.length
  if n = 0 then []
  else
    let r := scanLines pattern (buf ++ input.take n)
    r.1 ++ grepLoop pattern sz (k + 1) r.2 (input.drop n)
termination_by input.length
decreasing_by
  have : readCount sz k buf.length input.length ≤ input.length := by
    simp only [readCount]
    omega
  simp only [List.length_drop]
  omega

/-- `grep(pattern, fd)`, with `input` all that `fd` gives: what it writes. -/
def grep (pattern : List Char) (sz : Nat → Nat) (input : List Char) : List Char :=
  grepLoop pattern sz 0 [] input

end Xv6.Grep
