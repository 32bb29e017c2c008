import Mathlib
import Xv6.Sh

/-!
# The shell's grammar

The command line is read as tokens (`lex`): blanks separate them, each of `<`, `|`, `>`, `&`,
`;`, `(` and `)` is one, `>>` is one, and a word is a maximal run of the other characters. The
grammar

    line   ::= pipe {'&'} [';' line]
    pipe   ::= exec ['|' pipe]
    exec   ::= '(' line ')' redirs | redirs {word redirs}
    redirs ::= {('<' | '>' | '>>') word}

derives trees (`Tree`) whose redirections carry the mode and descriptor `runcmd` opens them
with, wrapped around the command in the order they come (`wrap`). `Derives nt ts T rest` says
that the nonterminal `nt` derives `T` from the tokens `ts` and leaves `rest`; a command line
parses to `T` when `line` derives it from all of its tokens (`Parse`).

Only the token level names the shell's sets of characters; the grammar is what the parser is
meant to implement. `Derives.determ` shows that it is unambiguous: a nonterminal derives at most
one tree from a list of tokens, up to a token that may follow it (`NT.follows`).
-/

namespace Xv6.Sh

/-! ## Tokens -/

/-- A blank. -/
def isWs (c : Char) : Bool := whitespace.contains c

/-- A character of a word: neither a blank nor a symbol. -/
def isWord (c : Char) : Bool := !whitespace.contains c && !symbols.contains c

/-- A token: a word, a symbol, or `>>`. -/
inductive Tok where
  | word (w : List Char)
  | sym (c : Char)
  | gtgt
  deriving DecidableEq, Repr

/-- The tokens of a command line. -/
def lex : List Char → List Tok
  | [] => []
  | c :: cs =>
    if isWs c then lex cs
    else if c = '>' ∧ cs.head? = some '>' then .gtgt :: lex cs.tail
    else if symbols.contains c then .sym c :: lex cs
    else .word (c :: cs.takeWhile isWord) :: lex (cs.dropWhile isWord)
termination_by cs => cs.length
decreasing_by
  all_goals simp only [List.length_cons]
  · omega
  · have := List.length_tail (l := cs); omega
  · omega
  · have := List.length_dropWhile_le isWord cs; omega

/-- What `gettoken` returns for a token. -/
def Tok.code : Tok → Char
  | .word _ => 'a'
  | .sym c => c
  | .gtgt => '+'

/-- Whether `peek` with the symbols `S` sees the token. -/
def Tok.leads (S : List Char) : Tok → Bool
  | .word _ => false
  | .sym c => S.contains c
  | .gtgt => S.contains '>'

/-- Whether `peek` with `S` sees the first of the tokens. -/
def nextIn (S : List Char) : List Tok → Bool
  | t :: _ => t.leads S
  | [] => false

/-- The mode and descriptor of a redirection token. -/
def Tok.redir? : Tok → Option (Nat × Nat)
  | .sym '<' => some (O_RDONLY, 0)
  | .sym '>' => some (O_WRONLY ||| O_CREATE ||| O_TRUNC, 1)
  | .gtgt => some (O_WRONLY ||| O_CREATE, 1)
  | _ => none

/-! ## The grammar -/

/-- A parsed command: words, and redirections with their file, mode and descriptor. -/
inductive Tree where
  | exec (argv : List (List Char))
  | redir (cmd : Tree) (file : List Char) (mode fd : Nat)
  | pipe (left right : Tree)
  | list (left right : Tree)
  | back (cmd : Tree)
  deriving DecidableEq, Repr

/-- The redirections `rs`, in order, around `t`: the last one outermost. -/
def wrap (t : Tree) (rs : List (List Char × Nat × Nat)) : Tree :=
  rs.foldl (fun t r => .redir t r.1 r.2.1 r.2.2) t

/-- `t` with `n` `&` after it. -/
def backN : Nat → Tree → Tree
  | 0, t => t
  | n + 1, t => .back (backN n t)

/-- `redirs`: each redirection is its token and a word. -/
inductive Redirs : List Tok → List (List Char × Nat × Nat) → List Tok → Prop where
  | nil (ts : List Tok) : Redirs ts [] ts
  | cons {op : Tok} {w : List Char} {mode fd : Nat} {ts rest : List Tok}
      {rs : List (List Char × Nat × Nat)} :
      op.redir? = some (mode, fd) → Redirs ts rs rest →
      Redirs (op :: .word w :: ts) ((w, mode, fd) :: rs) rest

/-- `{word redirs}`: the words, and the redirections after each. -/
inductive Words : List Tok → List (List Char) → List (List Char × Nat × Nat) → List Tok → Prop where
  | nil (ts : List Tok) : Words ts [] [] ts
  | cons {w : List Char} {ts ts' rest : List Tok} {ws : List (List Char)}
      {rs rs' : List (List Char × Nat × Nat)} :
      Redirs ts rs ts' → Words ts' ws rs' rest → Words (.word w :: ts) (w :: ws) (rs ++ rs') rest

/-- The nonterminals that derive commands. -/
inductive NT where
  | line
  | pipe
  | exec
  deriving DecidableEq, Repr

/-- `Derives nt ts T rest`: `nt` derives `T` from the tokens `ts`, leaving `rest`. -/
inductive Derives : NT → List Tok → Tree → List Tok → Prop where
  | lineLast {ts rest : List Tok} {t : Tree} {n : Nat} :
      Derives .pipe ts t (List.replicate n (.sym '&') ++ rest) → Derives .line ts (backN n t) rest
  | lineSemi {ts ts' rest : List Tok} {t t' : Tree} {n : Nat} :
      Derives .pipe ts t (List.replicate n (.sym '&') ++ .sym ';' :: ts') →
      Derives .line ts' t' rest → Derives .line ts (.list (backN n t) t') rest
  | pipeOne {ts rest : List Tok} {t : Tree} : Derives .exec ts t rest → Derives .pipe ts t rest
  | pipeCons {ts ts' rest : List Tok} {t t' : Tree} :
      Derives .exec ts t (.sym '|' :: ts') → Derives .pipe ts' t' rest →
      Derives .pipe ts (.pipe t t') rest
  | block {ts ts' rest : List Tok} {t : Tree} {rs : List (List Char × Nat × Nat)} :
      Derives .line ts t (.sym ')' :: ts') → Redirs ts' rs rest →
      Derives .exec (.sym '(' :: ts) (wrap t rs) rest
  | simple {ts ts' rest : List Tok} {rs rs' : List (List Char × Nat × Nat)}
      {ws : List (List Char)} :
      Redirs ts rs ts' → Words ts' ws rs' rest →
      Derives .exec ts (wrap (.exec ws) (rs ++ rs')) rest

/-- The tokens that may follow what `nt` derives within a whole line: the end or `)`, and after
a pipe also `&` or `;`, and after a command also `|`. -/
def NT.follows (nt : NT) (ts : List Tok) : Prop :=
  ts = [] ∨ ts.head? = some (.sym ')') ∨
    (nt ≠ .line ∧ (ts.head? = some (.sym '&') ∨ ts.head? = some (.sym ';'))) ∨
    (nt = .exec ∧ ts.head? = some (.sym '|'))

/-- The command line `s` parses to `T`. -/
def Parse (s : List Char) (T : Tree) : Prop := Derives .line (lex s) T []

/-- Every command of the tree has fewer than `MAXARGS` words. -/
def Tree.ArgsOk : Tree → Prop
  | .exec argv => argv.length < MAXARGS
  | .redir cmd _ _ _ => cmd.ArgsOk
  | .pipe left right => left.ArgsOk ∧ right.ArgsOk
  | .list left right => left.ArgsOk ∧ right.ArgsOk
  | .back cmd => cmd.ArgsOk

/-- The messages `parsecmd` panics with. -/
def panics : List String :=
  ["syntax", "missing file for redirection", "syntax - missing )", "too many args"]

/-! ## The tokens of a line -/

section Lex

variable {c : Char} {cs : List Char}

theorem lex_ws (h : isWs c = true) : lex (c :: cs) = lex cs := by
  rw [lex, if_pos h]

/-- Blanks in front change nothing. -/
theorem lex_dropWhile_ws (cs : List Char) : lex (cs.dropWhile isWs) = lex cs := by
  induction cs with
  | nil => rfl
  | cons c cs ih =>
    rw [List.dropWhile_cons]
    split
    · next h => rw [ih, lex_ws h]
    · rfl

theorem lex_gtgt (cs : List Char) : lex ('>' :: '>' :: cs) = .gtgt :: lex cs := by
  rw [lex, if_neg (by decide), if_pos ⟨rfl, rfl⟩]
  rfl

theorem lex_sym (hws : isWs c = false) (hgt : ¬(c = '>' ∧ cs.head? = some '>'))
    (hsym : symbols.contains c = true) : lex (c :: cs) = .sym c :: lex cs := by
  rw [lex, if_neg (by simp [hws]), if_neg hgt, if_pos hsym]

theorem lex_word (hc : isWord c = true) :
    lex (c :: cs) = .word (c :: cs.takeWhile isWord) :: lex (cs.dropWhile isWord) := by
  simp only [isWord, Bool.and_eq_true, Bool.not_eq_true'] at hc
  have hws : isWs c = false := hc.1
  rw [lex, if_neg (by simp [hws]), if_neg (fun h => by simp [h.1, symbols] at hc),
    if_neg (by rw [hc.2]; decide)]

/-- Every token takes at least one character. -/
theorem length_lex_le (cs : List Char) : (lex cs).length ≤ cs.length := by
  induction h : cs.length using Nat.strongRecOn generalizing cs with
  | ind n ih =>
    match cs with
    | [] => simp [lex]
    | c :: cs =>
      simp only [List.length_cons] at h
      rw [lex]
      split
      · have := ih cs.length (by omega) cs rfl; omega
      split
      · have := ih cs.tail.length (by simp; omega) cs.tail rfl
        simp only [List.length_cons, List.length_tail] at this ⊢; omega
      split
      · have := ih cs.length (by omega) cs rfl
        simp only [List.length_cons]; omega
      · have hd := List.length_dropWhile_le isWord cs
        have := ih (cs.dropWhile isWord).length (by omega) _ rfl
        simp only [List.length_cons]; omega

/-- The first token of a line that starts with a character other than a blank. -/
theorem lex_nonws (cs : List Char) (hc : isWs c = false) :
    (c = '>' ∧ cs.head? = some '>' ∧ lex (c :: cs) = .gtgt :: lex cs.tail) ∨
    (¬(c = '>' ∧ cs.head? = some '>') ∧ symbols.contains c = true ∧
      lex (c :: cs) = .sym c :: lex cs) ∨
    (isWord c = true ∧ lex (c :: cs) = .word (c :: cs.takeWhile isWord) :: lex (cs.dropWhile isWord)) := by
  by_cases hgt : c = '>' ∧ cs.head? = some '>'
  · refine .inl ⟨hgt.1, hgt.2, ?_⟩
    rw [lex, if_neg (by simp [hc]), if_pos hgt]
  by_cases hsym : symbols.contains c = true
  · exact .inr (.inl ⟨hgt, hsym, lex_sym hc hgt hsym⟩)
  · have hw : isWord c = true := by
      simp only [isWord, Bool.and_eq_true, Bool.not_eq_true']
      exact ⟨hc, by simpa using hsym⟩
    exact .inr (.inr ⟨hw, lex_word hw⟩)

/-- A line with a token has a character other than a blank. -/
theorem lex_eq_nil_iff : lex cs = [] ↔ cs.dropWhile isWs = [] := by
  rw [← lex_dropWhile_ws cs]
  constructor
  · intro h
    cases hd : cs.dropWhile isWs with
    | nil => rfl
    | cons c r =>
      have hc : isWs c = false := by
        have := List.head_dropWhile_not isWs (l := cs) (by simp [hd])
        simpa [hd] using this
      rw [hd] at h
      rcases lex_nonws r hc with ⟨-, -, h'⟩ | ⟨-, -, h'⟩ | ⟨-, h'⟩ <;> simp [h'] at h
  · intro h
    rw [h, lex]

end Lex

/-! ## Tokens and what `peek` and `gettoken` make of them -/

theorem sym_mem_symbols {c : Char} (cs : List Char) (h : Tok.sym c ∈ lex cs) : c ∈ symbols := by
  fun_induction lex cs with
  | case1 => cases h
  | case2 c cs hws ih => exact ih h
  | case3 c cs _ _ ih =>
    rcases List.mem_cons.mp h with h | h
    · cases h
    · exact ih h
  | case4 d cs _ _ hsym ih =>
    rcases List.mem_cons.mp h with h | h
    · cases h
      exact List.contains_iff_mem.mp hsym
    · exact ih h
  | case5 d cs _ _ _ ih =>
    rcases List.mem_cons.mp h with h | h
    · cases h
    · exact ih h

/-- Among the tokens of a line, the words are those `gettoken` calls `'a'`. -/
theorem code_eq_a_iff {t : Tok} (cs : List Char) (ht : t ∈ lex cs) : t.code = 'a' ↔ ∃ w, t = .word w := by
  cases t with
  | word w => exact iff_of_true rfl ⟨w, rfl⟩
  | sym c =>
    have hc := sym_mem_symbols cs ht
    simp only [Tok.code, reduceCtorEq, exists_false, iff_false]
    rintro rfl
    simp [symbols] at hc
  | gtgt => simp [Tok.code]

theorem Tok.redir?_eq_some {t : Tok} {m : Nat × Nat} (h : t.redir? = some m) :
    t = .sym '<' ∧ m = (O_RDONLY, 0) ∨ t = .sym '>' ∧ m = (O_WRONLY ||| O_CREATE ||| O_TRUNC, 1) ∨
      t = .gtgt ∧ m = (O_WRONLY ||| O_CREATE, 1) := by
  unfold Tok.redir? at h
  split at h <;> cases h <;> simp

/-- `peek` with `<` and `>` sees a redirection. -/
theorem leads_redir_iff (t : Tok) : t.leads ['<', '>'] = true ↔ t.redir?.isSome := by
  cases t with
  | word w => simp [Tok.leads, Tok.redir?]
  | sym c =>
    by_cases h1 : c = '<'
    · subst h1; simp [Tok.leads, Tok.redir?]
    by_cases h2 : c = '>'
    · subst h2; simp [Tok.leads, Tok.redir?]
    simp [Tok.leads, Tok.redir?, h1, h2]
  | gtgt => simp [Tok.leads, Tok.redir?]

theorem Tok.leads_redir {t : Tok} {m : Nat × Nat} (h : t.redir? = some m) :
    t.leads ['<', '>'] = true :=
  (leads_redir_iff t).mpr (by rw [h]; rfl)

/-- `peek` with one symbol other than `>` sees exactly that symbol. -/
theorem nextIn_singleton_iff {c : Char} (hc : c ≠ '>') (ts : List Tok) :
    nextIn [c] ts = true ↔ ∃ ts', ts = .sym c :: ts' := by
  cases ts with
  | nil => simp [nextIn]
  | cons t ts =>
    cases t <;> simp [nextIn, Tok.leads, Ne.symm hc, eq_comm]

/-! ## The grammar's facts -/

/-- `n` times `&`. -/
theorem amps_cancel {n m : Nat} {x y : List Tok} (h : List.replicate n (Tok.sym '&') ++ x = List.replicate m (.sym '&') ++ y)
    (hx : nextIn ['&'] x = false) (hy : nextIn ['&'] y = false) : n = m ∧ x = y := by
  induction n generalizing m with
  | zero =>
    cases m with
    | zero => exact ⟨rfl, h⟩
    | succ m => subst h; simp [List.replicate_succ, nextIn, Tok.leads] at hx
  | succ n ih =>
    cases m with
    | zero => subst h; simp [List.replicate_succ, nextIn, Tok.leads] at hy
    | succ m =>
      obtain ⟨hnm, hxy⟩ := ih (List.cons.inj h).2
      exact ⟨by rw [hnm], hxy⟩

theorem Redirs.suffix {ts rest : List Tok} {rs : List (List Char × Nat × Nat)} (h : Redirs ts rs rest) :
    rest <:+ ts := by
  induction h with
  | nil => exact List.suffix_refl _
  | cons _ _ ih => exact ih.trans ((List.suffix_cons _ _).trans (List.suffix_cons _ _))

theorem Words.suffix {ts rest : List Tok} {ws : List (List Char)} {rs : List (List Char × Nat × Nat)}
    (h : Words ts ws rs rest) : rest <:+ ts := by
  induction h with
  | nil => exact List.suffix_refl _
  | cons hr _ ih => exact ih.trans (hr.suffix.trans (List.suffix_cons _ _))

theorem Derives.suffix {nt : NT} {ts rest : List Tok} {T : Tree} (h : Derives nt ts T rest) : rest <:+ ts := by
  induction h with
  | lineLast _ ih => exact (List.suffix_append _ _).trans ih
  | lineSemi _ _ ih ih' => exact ih'.trans (((List.suffix_cons _ _).trans (List.suffix_append _ _)).trans ih)
  | pipeOne _ ih => exact ih
  | pipeCons _ _ ih ih' => exact ih'.trans ((List.suffix_cons _ _).trans ih)
  | block _ hr ih => exact hr.suffix.trans ((List.suffix_cons _ _).trans (ih.trans (List.suffix_cons _ _)))
  | simple hr hw => exact hw.suffix.trans hr.suffix

theorem Tree.argsOk_wrap {T : Tree} {trs : List (List Char × Nat × Nat)} :
    (wrap T trs).ArgsOk ↔ T.ArgsOk := by
  induction trs generalizing T with
  | nil => rfl
  | cons r trs ih => exact ih

theorem Tree.argsOk_backN {T : Tree} (n : Nat) : (backN n T).ArgsOk ↔ T.ArgsOk := by
  induction n with
  | zero => rfl
  | succ n ih => exact ih


/-! ## What may follow a command -/

section Follows

variable {nt : NT} {rest : List Tok}

/-- What may follow a command starts with `)`, `&`, `;` or `|`, if anything. -/
theorem NT.follows.head (h : nt.follows rest) : ∀ t ∈ rest.head?, ∃ c, t = .sym c ∧ c ∈ [')', '&', ';', '|'] := by
  intro t ht
  rw [Option.mem_def] at ht
  rcases h with rfl | h | ⟨-, h | h⟩ | ⟨-, h⟩
  · cases ht
  all_goals
    obtain rfl := Option.some.inj (ht.symm.trans h)
    simp

theorem NT.follows.nextIn_eq_false (h : nt.follows rest) {S : List Char}
    (hS : ∀ c ∈ S, c ∉ [')', '&', ';', '|']) : nextIn S rest = false := by
  cases rest with
  | nil => rfl
  | cons t ts =>
    obtain ⟨c, rfl, hc⟩ := h.head t rfl
    simpa [nextIn, Tok.leads] using fun hcS => hS c hcS hc

theorem NT.follows.ne_word (h : nt.follows rest) (w : List Char) (ts : List Tok) : rest ≠ .word w :: ts := by
  rintro rfl
  obtain ⟨c, hc, -⟩ := h.head _ rfl
  cases hc

theorem NT.follows.exec (h : nt.follows rest) : NT.exec.follows rest := by
  rcases h with h | h | ⟨-, h⟩ | ⟨-, h⟩
  · exact .inl h
  · exact .inr (.inl h)
  · exact .inr (.inr (.inl ⟨by decide, h⟩))
  · exact .inr (.inr (.inr ⟨rfl, h⟩))

theorem NT.follows.stop (h : nt.follows rest) :
    rest = [] ∨ nextIn ['|', ')', '&', ';'] rest = true := by
  cases rest with
  | nil => exact .inl rfl
  | cons t ts =>
    obtain ⟨c, rfl, hc⟩ := h.head t rfl
    right
    simp only [List.mem_cons, List.not_mem_nil, or_false] at hc
    rcases hc with rfl | rfl | rfl | rfl <;> rfl

/-- Words start with a word, or are empty and the rest starts them. -/
theorem Words.nextIn_redir {ts rest : List Tok} {ws : List (List Char)}
    {trs : List (List Char × Nat × Nat)} (h : Words ts ws trs rest)
    (hrest : nextIn ['<', '>'] rest = false) : nextIn ['<', '>'] ts = false := by
  cases h with
  | nil => exact hrest
  | cons => rfl

/-- After a pipeline, what follows is not a `|`. -/
theorem NT.follows.nextIn_bar (h : nt.follows rest) (hnt : nt ≠ .exec) : nextIn ['|'] rest = false := by
  rcases h with rfl | h | ⟨-, h | h⟩ | ⟨rfl, -⟩
  · rfl
  all_goals first | exact absurd rfl hnt | (cases rest with
    | nil => cases h
    | cons t ts => cases h; rfl)

/-- After a line, what follows is neither `&` nor `;`. -/
theorem NT.follows.nextIn_amp_semi (h : NT.line.follows rest) :
    nextIn ['&'] rest = false ∧ nextIn [';'] rest = false := by
  rcases h with rfl | h | ⟨hne, -⟩ | ⟨hne, -⟩
  · exact ⟨rfl, rfl⟩
  · cases rest with
    | nil => cases h
    | cons t ts => cases h; exact ⟨rfl, rfl⟩
  · exact absurd rfl hne
  · cases hne

/-- A pipeline may be followed by `&`s and what may follow the line. -/
theorem NT.follows.amps_pipe (h : NT.line.follows rest) (n : Nat) {ts : List Tok}
    (hts : ts = rest ∨ ∃ ts', ts = .sym ';' :: ts') :
    NT.pipe.follows (List.replicate n (.sym '&') ++ ts) := by
  cases n with
  | succ n => exact .inr (.inr (.inl ⟨by decide, .inl rfl⟩))
  | zero =>
    rcases hts with rfl | ⟨ts', rfl⟩
    · rcases h with h | h | ⟨hne, -⟩ | ⟨hne, -⟩
      · exact .inl h
      · exact .inr (.inl h)
      · exact absurd rfl hne
      · cases hne
    · exact .inr (.inr (.inl ⟨by decide, .inr rfl⟩))

/-- A simple command starts with a redirection, a word or what follows it: not with `(`. -/
theorem Redirs.nextIn_lp {ts ts' rest : List Tok} {rs rs' : List (List Char × Nat × Nat)}
    {ws : List (List Char)} (hr : Redirs ts rs ts') (hw : Words ts' ws rs' rest)
    (hrest : NT.exec.follows rest) : nextIn ['('] ts = false := by
  cases hr with
  | nil =>
    cases hw with
    | nil => exact hrest.nextIn_eq_false (by simp)
    | cons => rfl
  | cons hop =>
    rcases Tok.redir?_eq_some hop with ⟨rfl, -⟩ | ⟨rfl, -⟩ | ⟨rfl, -⟩ <;> rfl

end Follows

/-! ## The grammar is unambiguous -/

section Determ

theorem Redirs.determ {ts r₁ r₂ : List Tok} {rs₁ rs₂ : List (List Char × Nat × Nat)}
    (h₁ : Redirs ts rs₁ r₁) (h₂ : Redirs ts rs₂ r₂) (hr₁ : nextIn ['<', '>'] r₁ = false)
    (hr₂ : nextIn ['<', '>'] r₂ = false) : rs₁ = rs₂ ∧ r₁ = r₂ := by
  induction h₁ generalizing rs₂ with
  | nil ts =>
    cases h₂ with
    | nil => exact ⟨rfl, rfl⟩
    | cons hop _ => rw [nextIn, Tok.leads_redir hop] at hr₁; cases hr₁
  | cons hop _ ih =>
    cases h₂ with
    | nil => rw [nextIn, Tok.leads_redir hop] at hr₂; cases hr₂
    | cons hop' h' =>
      obtain ⟨rfl, rfl⟩ := Prod.mk.inj (Option.some.inj (hop.symm.trans hop'))
      obtain ⟨rfl, rfl⟩ := ih h' hr₁
      exact ⟨rfl, rfl⟩

theorem Words.determ {ts r₁ r₂ : List Tok} {ws₁ ws₂ : List (List Char)}
    {rs₁ rs₂ : List (List Char × Nat × Nat)} (h₁ : Words ts ws₁ rs₁ r₁) (h₂ : Words ts ws₂ rs₂ r₂)
    (hr₁ : NT.exec.follows r₁) (hr₂ : NT.exec.follows r₂) : ws₁ = ws₂ ∧ rs₁ = rs₂ ∧ r₁ = r₂ := by
  induction h₁ generalizing ws₂ rs₂ with
  | nil ts =>
    cases h₂ with
    | nil => exact ⟨rfl, rfl, rfl⟩
    | cons => exact absurd rfl (hr₁.ne_word _ _)
  | cons hr h ih =>
    cases h₂ with
    | nil => exact absurd rfl (hr₂.ne_word _ _)
    | cons hr' h' =>
      -- the redirections after the word end where the next word or the end starts
      obtain ⟨rfl, rfl⟩ := hr.determ hr' (h.nextIn_redir (hr₁.nextIn_eq_false (by simp)))
        (h'.nextIn_redir (hr₂.nextIn_eq_false (by simp)))
      obtain ⟨rfl, rfl, rfl⟩ := ih h' hr₁
      exact ⟨rfl, rfl, rfl⟩

/-- A block is not a simple command. -/
theorem not_simple_lp {ts ts' rest : List Tok} {rs rs' : List (List Char × Nat × Nat)}
    {ws : List (List Char)} (hr : Redirs (.sym '(' :: ts) rs ts') (hw : Words ts' ws rs' rest)
    (hrest : NT.exec.follows rest) : False := by
  have := hr.nextIn_lp hw hrest
  simp [nextIn, Tok.leads] at this

/-- A nonterminal derives at most one tree from a list of tokens, up to a token that may
follow it. -/
theorem Derives.determ {nt : NT} {ts r₁ r₂ : List Tok} {T₁ T₂ : Tree} (h₁ : Derives nt ts T₁ r₁)
    (h₂ : Derives nt ts T₂ r₂) (hr₁ : nt.follows r₁) (hr₂ : nt.follows r₂) : T₁ = T₂ ∧ r₁ = r₂ := by
  induction h₁ generalizing T₂ r₂ with
  | @lineLast ts rest t n hd ih =>
    cases h₂ with
    | @lineLast _ _ _ m hd' =>
      obtain ⟨rfl, heq⟩ := ih hd' (hr₁.amps_pipe n (.inl rfl)) (hr₂.amps_pipe m (.inl rfl))
      obtain ⟨rfl, rfl⟩ := amps_cancel heq hr₁.nextIn_amp_semi.1 hr₂.nextIn_amp_semi.1
      exact ⟨rfl, rfl⟩
    | @lineSemi _ ts' _ _ _ m hd' _ =>
      -- the `&`s end at a `;`, which may not follow a line
      obtain ⟨-, heq⟩ := ih hd' (hr₁.amps_pipe n (.inl rfl)) (NT.follows.amps_pipe (.inl rfl) m (.inr ⟨ts', rfl⟩))
      obtain ⟨-, rfl⟩ := amps_cancel heq hr₁.nextIn_amp_semi.1 rfl
      cases hr₁.nextIn_amp_semi.2
  | @lineSemi ts ts' rest t t' n hd hd' ih ih' =>
    cases h₂ with
    | @lineLast _ _ _ m hd₂ =>
      obtain ⟨-, heq⟩ := ih hd₂ (NT.follows.amps_pipe (.inl rfl) n (.inr ⟨ts', rfl⟩)) (hr₂.amps_pipe m (.inl rfl))
      obtain ⟨-, rfl⟩ := amps_cancel heq rfl hr₂.nextIn_amp_semi.1
      cases hr₂.nextIn_amp_semi.2
    | @lineSemi _ ts'' _ _ _ m hd₂ hd₂' =>
      obtain ⟨rfl, heq⟩ := ih hd₂ (NT.follows.amps_pipe (.inl rfl) n (.inr ⟨ts', rfl⟩))
        (NT.follows.amps_pipe (.inl rfl) m (.inr ⟨ts'', rfl⟩))
      obtain ⟨rfl, heq'⟩ := amps_cancel heq rfl rfl
      obtain ⟨-, rfl⟩ := List.cons.inj heq'
      obtain ⟨rfl, rfl⟩ := ih' hd₂' hr₁ hr₂
      exact ⟨rfl, rfl⟩
  | pipeOne hd ih =>
    cases h₂ with
    | pipeOne hd' => exact ih hd' hr₁.exec hr₂.exec
    | pipeCons hd' _ =>
      obtain ⟨-, rfl⟩ := ih hd' hr₁.exec (.inr (.inr (.inr ⟨rfl, rfl⟩)))
      cases hr₁.nextIn_bar (by decide)
  | pipeCons hd hd' ih ih' =>
    cases h₂ with
    | pipeOne hd₂ =>
      obtain ⟨-, rfl⟩ := ih hd₂ (.inr (.inr (.inr ⟨rfl, rfl⟩))) hr₂.exec
      cases hr₂.nextIn_bar (by decide)
    | pipeCons hd₂ hd₂' =>
      obtain ⟨rfl, heq⟩ := ih hd₂ (.inr (.inr (.inr ⟨rfl, rfl⟩))) (.inr (.inr (.inr ⟨rfl, rfl⟩)))
      obtain ⟨-, rfl⟩ := List.cons.inj heq
      obtain ⟨rfl, rfl⟩ := ih' hd₂' hr₁ hr₂
      exact ⟨rfl, rfl⟩
  | block hd hr ih =>
    cases h₂ with
    | block hd' hr' =>
      obtain ⟨rfl, heq⟩ := ih hd' (.inr (.inl rfl)) (.inr (.inl rfl))
      obtain ⟨-, rfl⟩ := List.cons.inj heq
      obtain ⟨rfl, rfl⟩ := hr.determ hr' (hr₁.nextIn_eq_false (by simp)) (hr₂.nextIn_eq_false (by simp))
      exact ⟨rfl, rfl⟩
    | simple hr' hw' => exact (not_simple_lp hr' hw' hr₂).elim
  | simple hr hw =>
    cases h₂ with
    | block hd' hr' => exact (not_simple_lp hr hw hr₁).elim
    | simple hr' hw' =>
      obtain ⟨rfl, rfl⟩ := hr.determ hr' (hw.nextIn_redir (hr₁.nextIn_eq_false (by simp)))
        (hw'.nextIn_redir (hr₂.nextIn_eq_false (by simp)))
      obtain ⟨rfl, rfl, rfl⟩ := hw.determ hw' hr₁ hr₂
      exact ⟨rfl, rfl⟩

end Determ

end Xv6.Sh
