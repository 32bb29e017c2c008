import Mathlib
import Xv6.Proofs.ShGrammar

/-!
# The shell's scanners and its commands

`gettoken` and `peek` against `lex`: on a line with no `NUL`, the tokens from the position
`gettoken` returns are those after the one it returns (`gettoken_cons`, `gettoken_nil`), and
`peek` sees whether the next token is one it looks for (`peek_eq`). A word is returned as its
offsets in the buffer (`WordAt`).

A command `Cmd` stands for a tree when it has its shape and each word and file name is at its
offsets (`Rep`); after `nulterminate` it then reads as that tree (`Rep.view_nulterminate`),
since `nulterminate` writes its `NUL`s at the ends of words, none of which is inside a word.
-/

namespace Xv6.Sh

/-! ## The scanners -/

/-- The offsets `q` and `eq` of the word `w` in `buf`: its characters are those from `q` to
`eq`, and the character at `eq`, if there is one, is not a word character. -/
def WordAt (buf : List Char) (q eq : Nat) (w : List Char) : Prop :=
  buf.drop q = w ++ buf.drop eq ∧ eq = q + w.length ∧ (∀ c ∈ w, isWord c = true) ∧
    ∀ c ∈ buf[eq]?, isWord c = false

/-- A word of a command, at its offsets `q` and `eq`, stands for the word `w`. -/
def ArgAt (buf : List Char) (a : Nat × Nat) (w : List Char) : Prop := WordAt buf a.1 a.2 w

/-- The tokens from the offset `p` on. -/
def tokensAt (buf : List Char) (p : Nat) : List Tok := lex (buf.drop p)

section Scan

theorem drop_takeWhile_length {α : Type} (p : α → Bool) (l : List α) :
    l.drop (l.takeWhile p).length = l.dropWhile p := by
  induction l with
  | nil => rfl
  | cons a l ih => cases h : p a <;> simp [h, ih]

theorem drop_skip (buf : List Char) (p : Char → Bool) (s : Nat) :
    buf.drop (skip buf p s) = (buf.drop s).dropWhile p := by
  rw [skip, ← List.drop_drop, drop_takeWhile_length]

theorem getD_eq_headD (buf : List Char) (s : Nat) :
    buf.getD s '\x00' = (buf.drop s).headD '\x00' := by
  rw [List.getD_eq_getElem?_getD, List.headD_eq_head?_getD, List.head?_drop]

theorem skip_le {buf : List Char} {p : Char → Bool} {s : Nat} (h : s ≤ buf.length) :
    skip buf p s ≤ buf.length := by
  have := (List.takeWhile_prefix (p := p) (l := buf.drop s)).length_le
  simp only [skip, List.length_drop] at this ⊢
  omega

theorem dropWhile_congr {p p' : Char → Bool} {l : List Char} (h : ∀ c ∈ l, p c = p' c) :
    l.dropWhile p = l.dropWhile p' := by
  induction l with
  | nil => rfl
  | cons c l ih =>
    simp only [List.dropWhile_cons, h c List.mem_cons_self,
      ih fun d hd => h d (List.mem_cons_of_mem c hd)]

theorem takeWhile_congr {p p' : Char → Bool} {l : List Char} (h : ∀ c ∈ l, p c = p' c) :
    l.takeWhile p = l.takeWhile p' := by
  induction l with
  | nil => rfl
  | cons c l ih =>
    simp only [List.takeWhile_cons, h c List.mem_cons_self,
      ih fun d hd => h d (List.mem_cons_of_mem c hd)]

/-- `strchr(whitespace, c)` is a blank. -/
theorem strchr_whitespace (c : Char) : strchr whitespace c = isWs c := rfl

/-- The loop of a word in `gettoken` takes word characters. -/
theorem strchr_word (c : Char) : (!strchr whitespace c && !strchr symbols c) = isWord c := rfl

variable {buf : List Char} {ps : Nat}

/-- The blanks `gettoken` and `peek` skip. -/
theorem drop_skip_ws (s : Nat) :
    buf.drop (skip buf (strchr whitespace) s) = (buf.drop s).dropWhile isWs := by
  rw [drop_skip]
  exact dropWhile_congr fun c _ => strchr_whitespace c

theorem lex_skip_ws (s : Nat) :
    lex (buf.drop (skip buf (strchr whitespace) s)) = lex (buf.drop s) := by
  rw [drop_skip_ws, lex_dropWhile_ws]

theorem gettoken_nil (h : tokensAt buf ps = []) :
    (gettoken buf ps).1 = '\x00' ∧ tokensAt buf (gettoken buf ps).2.2.2 = [] ∧
      (ps ≤ buf.length → (gettoken buf ps).2.2.2 ≤ buf.length) := by
  set s := skip buf (strchr whitespace) ps with hs
  have hd : buf.drop s = [] := by
    rw [hs, drop_skip_ws]; exact lex_eq_nil_iff.mp h
  have hc : buf.getD s '\x00' = '\x00' := by
    rw [getD_eq_headD, hd]; rfl
  have hg : gettoken buf ps = ('\x00', s, s, skip buf (strchr whitespace) s) := by
    simp only [gettoken, ← hs, hc]
  rw [hg]
  refine ⟨rfl, ?_, fun hp => skip_le (skip_le hp)⟩
  rw [tokensAt, drop_skip_ws, hd]
  simp [lex]

/-- The first characters at an offset, and what they say of the offset. -/
theorem drop_eq_cons {s : Nat} {c : Char} {r : List Char} (h : buf.drop s = c :: r) :
    buf.getD s '\x00' = c ∧ buf.drop (s + 1) = r ∧ s < buf.length := by
  refine ⟨by rw [getD_eq_headD, h]; rfl, by rw [← List.tail_drop, h]; rfl, ?_⟩
  have := congrArg List.length h
  simp only [List.length_drop, List.length_cons] at this
  omega

theorem gettoken_cons (hnul : '\x00' ∉ buf) (h : tokensAt buf ps = t :: ts) :
    ∃ q eq ps', gettoken buf ps = (t.code, q, eq, ps') ∧ tokensAt buf ps' = ts ∧
      ps' ≤ buf.length ∧ ∀ w, t = .word w → WordAt buf q eq w := by
  set s := skip buf (strchr whitespace) ps with hs
  have hd : buf.drop s = (buf.drop ps).dropWhile isWs := drop_skip_ws ps
  have hlex : lex (buf.drop s) = t :: ts := by rw [hd, lex_dropWhile_ws]; exact h
  obtain ⟨c, r, hcr⟩ : ∃ c r, buf.drop s = c :: r := by
    cases hb : buf.drop s with
    | nil => rw [hb] at hlex; simp [lex] at hlex
    | cons c r => exact ⟨c, r, rfl⟩
  have hcws : isWs c = false := by
    have := List.head?_dropWhile_not isWs (buf.drop ps)
    rwa [← hd, hcr] at this
  have hnul' : '\x00' ∉ c :: r := fun h0 => hnul (List.mem_of_mem_drop (hcr ▸ h0))
  obtain ⟨hgetc, hdrop1, hslt⟩ := drop_eq_cons hcr
  rw [hcr] at hlex
  rcases lex_nonws r hcws with ⟨rfl, hr, hl⟩ | ⟨hgt, hsym, hl⟩ | ⟨hw, hl⟩
  · -- `>>`
    obtain ⟨r', rfl⟩ : ∃ r', r = '>' :: r' := by
      cases r with
      | nil => cases hr
      | cons d r' => cases hr; exact ⟨r', rfl⟩
    obtain ⟨hget1, hdrop2, hslt1⟩ := drop_eq_cons hdrop1
    rw [hl] at hlex
    obtain ⟨rfl, rfl⟩ := List.cons.inj hlex
    refine ⟨s, s + 1 + 1, skip buf (strchr whitespace) (s + 1 + 1), ?_, ?_, skip_le (by omega), ?_⟩
    · simp only [gettoken, ← hs, hgetc, hget1]
      rfl
    · rw [tokensAt, lex_skip_ws, hdrop2]; rfl
    · intro w hw; cases hw
  · -- a symbol
    rw [hl] at hlex
    obtain ⟨rfl, rfl⟩ := List.cons.inj hlex
    have hget1 : buf.getD (s + 1) '\x00' = r.headD '\x00' := by rw [getD_eq_headD, hdrop1]
    refine ⟨s, s + 1, skip buf (strchr whitespace) (s + 1), ?_, ?_, skip_le (by omega), ?_⟩
    · have hc7 : c = '<' ∨ c = '|' ∨ c = '>' ∨ c = '&' ∨ c = ';' ∨ c = '(' ∨ c = ')' := by
        simpa [symbols] using hsym
      rcases hc7 with rfl | rfl | rfl | rfl | rfl | rfl | rfl <;>
        simp only [gettoken, ← hs, hgetc, Tok.code]
      -- `>` with no `>` after it
      rw [if_neg]
      rw [hget1]
      intro h1
      apply hgt ⟨rfl, ?_⟩
      cases r with
      | nil => cases h1
      | cons d r => cases h1; rfl
    · rw [tokensAt, lex_skip_ws, hdrop1]
    · intro w hw; cases hw
  · -- a word
    rw [hl] at hlex
    obtain ⟨rfl, rfl⟩ := List.cons.inj hlex
    have hwc : ∀ d ∈ c :: r, (!strchr whitespace d && !strchr symbols d) = isWord d :=
      fun d _ => strchr_word d
    have htake : (c :: r).takeWhile (fun d => !strchr whitespace d && !strchr symbols d) =
        c :: r.takeWhile isWord := by
      rw [takeWhile_congr hwc, List.takeWhile_cons_of_pos hw]
    have hdropw : (c :: r).dropWhile (fun d => !strchr whitespace d && !strchr symbols d) =
        r.dropWhile isWord := by
      rw [dropWhile_congr hwc, List.dropWhile_cons_of_pos hw]
    set eq := skip buf (fun d => !strchr whitespace d && !strchr symbols d) s with heq
    have hdeq : buf.drop eq = r.dropWhile isWord := by rw [heq, drop_skip, hcr, hdropw]
    refine ⟨s, eq, skip buf (strchr whitespace) eq, ?_, ?_, skip_le (skip_le hslt.le), ?_⟩
    · -- only the last arm of the switch takes a word character
      simp only [gettoken, ← hs, hgetc]
      split <;> first
        | exact absurd List.mem_cons_self hnul'
        | exact absurd hw (by decide)
        | rfl
    · rw [tokensAt, lex_skip_ws, hdeq]
    · rintro w ⟨⟩
      refine ⟨?_, by rw [heq, skip, hcr, htake], ?_, ?_⟩
      · rw [hcr, hdeq, List.cons_append, List.takeWhile_append_dropWhile]
      · intro d hd
        rcases List.mem_cons.mp hd with rfl | hd
        · exact hw
        · exact List.mem_takeWhile_imp hd
      · intro d hd
        have := List.head?_dropWhile_not isWord r
        rw [← hdeq, List.head?_drop, Option.mem_def.mp hd] at this
        exact this

theorem peek_snd (S : List Char) :
    tokensAt buf (peek buf ps S).2 = tokensAt buf ps :=
  lex_skip_ws ps

theorem peek_le (S : List Char) (h : ps ≤ buf.length) : (peek buf ps S).2 ≤ buf.length :=
  skip_le h

/-- `peek` with symbols `S` sees whether the next token is one of them (or `>>`, for `>`). -/
theorem peek_fst (hnul : '\x00' ∉ buf) {S : List Char} (hS : ∀ c ∈ S, c ∈ symbols) :
    (peek buf ps S).1 = nextIn S (tokensAt buf ps) := by
  set s := skip buf (strchr whitespace) ps with hs
  have hd : buf.drop s = (buf.drop ps).dropWhile isWs := drop_skip_ws ps
  have htoks : tokensAt buf ps = lex (buf.drop s) := by rw [hd, lex_dropWhile_ws]; rfl
  simp only [peek, ← hs, htoks]
  cases hcr : buf.drop s with
  | nil =>
    rw [getD_eq_headD, hcr]
    simp [lex, nextIn]
  | cons c r =>
    have hcws : isWs c = false := by
      have := List.head?_dropWhile_not isWs (buf.drop ps)
      rwa [← hd, hcr] at this
    have hc0 : c ≠ '\x00' := by
      rintro rfl
      exact hnul (List.mem_of_mem_drop (by rw [hcr]; exact List.mem_cons_self))
    rw [(drop_eq_cons hcr).1]
    rcases lex_nonws r hcws with ⟨rfl, -, hl⟩ | ⟨-, -, hl⟩ | ⟨hw, hl⟩
    · simp [hl, nextIn, Tok.leads, strchr]
    · simp [hl, nextIn, Tok.leads, strchr, hc0]
    · -- a word character is in none of the symbols
      have hcS : c ∉ S := fun h => by
        have hsym : symbols.contains c = true := List.contains_iff_mem.mpr (hS c h)
        rw [isWord, hsym, Bool.not_true, Bool.and_false] at hw
        cases hw
      simp [hl, nextIn, Tok.leads, strchr, hcS]

/-- `parsecmd`'s last `peek` reaches the end exactly when no token is left. -/
theorem peek_nil_eq_length_iff (h : ps ≤ buf.length) :
    (peek buf ps []).2 = buf.length ↔ tokensAt buf ps = [] := by
  have hd : buf.drop (skip buf (strchr whitespace) ps) = (buf.drop ps).dropWhile isWs :=
    drop_skip_ws ps
  have hle := skip_le (p := strchr whitespace) h
  rw [tokensAt, lex_eq_nil_iff, ← hd, List.drop_eq_nil_iff]
  simp only [peek]
  omega


theorem tokensAt_skip (ps : Nat) :
    tokensAt buf (skip buf (strchr whitespace) ps) = tokensAt buf ps :=
  lex_skip_ws ps

theorem peek_eq (hnul : '\x00' ∉ buf) {S : List Char} (hS : ∀ c ∈ S, c ∈ symbols) :
    peek buf ps S = (nextIn S (tokensAt buf ps), skip buf (strchr whitespace) ps) :=
  Prod.ext (peek_fst hnul hS) rfl

/-- The position after the token that a `peek` saw. -/
theorem gettoken_skip (hnul : '\x00' ∉ buf) {t : Tok} {ts : List Tok} (h : tokensAt buf ps = t :: ts) :
    tokensAt buf (gettoken buf (skip buf (strchr whitespace) ps)).2.2.2 = ts ∧
      (gettoken buf (skip buf (strchr whitespace) ps)).2.2.2 ≤ buf.length := by
  have h' : tokensAt buf (skip buf (strchr whitespace) ps) = t :: ts := by
    rw [tokensAt, lex_skip_ws]; exact h
  obtain ⟨q, eq, ps', hg, hts, hle, -⟩ := gettoken_cons hnul h'
  rw [hg]
  exact ⟨hts, hle⟩

end Scan

/-! ## Commands and the trees they stand for -/

/-- `buf` read as a C string from `q`: the characters before the first `NUL`. -/
def cstr (buf : List Char) (q : Nat) : List Char := (buf.drop q).takeWhile (· != '\x00')

/-- The tree a command stands for, its words and file names read as C strings from `buf`, as
`runcmd` reads them. -/
def Cmd.view (buf : List Char) : Cmd → Tree
  | .exec argv => .exec (argv.map fun a => cstr buf a.1)
  | .redir cmd file _ mode fd => .redir (cmd.view buf) (cstr buf file) mode fd
  | .pipe left right => .pipe (left.view buf) (right.view buf)
  | .list left right => .list (left.view buf) (right.view buf)
  | .back cmd => .back (cmd.view buf)

/-- The offsets where `nulterminate` writes a `NUL`, in the order it writes them. -/
def Cmd.ends : Cmd → List Nat
  | .exec argv => argv.map (·.2)
  | .redir cmd _ efile _ _ => cmd.ends ++ [efile]
  | .pipe left right => left.ends ++ right.ends
  | .list left right => left.ends ++ right.ends
  | .back cmd => cmd.ends

/-- `Rep buf c T`: `c` has the shape of `T`, and each of its words and file names is at its
offsets in `buf`. -/
inductive Rep (buf : List Char) : Cmd → Tree → Prop where
  | exec {argv : List (Nat × Nat)} {ws : List (List Char)} :
      List.Forall₂ (ArgAt buf) argv ws → Rep buf (.exec argv) (.exec ws)
  | redir {c : Cmd} {T : Tree} {q eq mode fd : Nat} {w : List Char} :
      Rep buf c T → WordAt buf q eq w → Rep buf (.redir c q eq mode fd) (.redir T w mode fd)
  | pipe {c c' : Cmd} {T T' : Tree} : Rep buf c T → Rep buf c' T' → Rep buf (.pipe c c') (.pipe T T')
  | list {c c' : Cmd} {T T' : Tree} : Rep buf c T → Rep buf c' T' → Rep buf (.list c c') (.list T T')
  | back {c : Cmd} {T : Tree} : Rep buf c T → Rep buf (.back c) (.back T)

/-- No word goes on at the offset `e`. -/
def WordEnd (buf : List Char) (e : Nat) : Prop := ∀ c ∈ buf[e]?, isWord c = false

section Nul

/-- `nulterminate` writes a `NUL` at each end, in order. -/
theorem nulterminate_eq_foldl (c : Cmd) (buf : List Char) :
    nulterminate buf c = c.ends.foldl (fun b e => b.set e '\x00') buf := by
  induction c generalizing buf with
  | exec argv => rw [nulterminate, Cmd.ends, List.foldl_map]
  | redir cmd file efile mode fd ih => rw [nulterminate, Cmd.ends, List.foldl_append, ih]; rfl
  | pipe left right ihl ihr => rw [nulterminate, Cmd.ends, List.foldl_append, ihr, ihl]
  | list left right ihl ihr => rw [nulterminate, Cmd.ends, List.foldl_append, ihr, ihl]
  | back cmd ih => rw [nulterminate, Cmd.ends, ih]

theorem length_foldl_set (E : List Nat) (buf : List Char) :
    (E.foldl (fun b e => b.set e '\x00') buf).length = buf.length := by
  induction E generalizing buf with
  | nil => rfl
  | cons e E ih => rw [List.foldl_cons, ih, List.length_set]

theorem getElem?_foldl_set (E : List Nat) (buf : List Char) (i : Nat) :
    (E.foldl (fun b e => b.set e '\x00') buf)[i]? =
      if i ∈ E ∧ i < buf.length then some '\x00' else buf[i]? := by
  induction E generalizing buf with
  | nil => simp
  | cons e E ih =>
    rw [List.foldl_cons, ih, List.length_set, List.getElem?_set]
    by_cases hi : e = i
    · subst hi
      by_cases hl : e < buf.length <;> simp [hl]
    · simp [hi, Ne.symm hi]

variable {buf : List Char} {E : List Nat}

/-- A word still reads as itself after `NUL`s at word ends, one of them its own. -/
theorem cstr_foldl_set (hnul : '\x00' ∉ buf) (hE : ∀ e ∈ E, WordEnd buf e) {q eq : Nat}
    {w : List Char} (hw : WordAt buf q eq w) (heq : eq ∈ E) :
    cstr (E.foldl (fun b e => b.set e '\x00') buf) q = w := by
  obtain ⟨hdrop, rfl, hword, -⟩ := hw
  have hget : ∀ i < w.length, buf[q + i]? = w[i]? := fun i hi => by
    rw [← List.getElem?_drop, hdrop, List.getElem?_append_left hi]
  -- the word's own offsets are not ends: their characters are word characters
  have hmid : ∀ i < w.length, (E.foldl (fun b e => b.set e '\x00') buf)[q + i]? = w[i]? := by
    intro i hi
    rw [getElem?_foldl_set, if_neg, hget i hi]
    rintro ⟨he, -⟩
    have hc := hE _ he w[i] (by rw [hget i hi]; exact List.getElem?_eq_getElem hi)
    rw [hword _ (List.getElem_mem hi)] at hc
    cases hc
  have hsplit : (E.foldl (fun b e => b.set e '\x00') buf).drop q =
      w ++ (E.foldl (fun b e => b.set e '\x00') buf).drop (q + w.length) := by
    apply List.ext_getElem?
    intro i
    rw [List.getElem?_drop]
    by_cases hi : i < w.length
    · rw [hmid i hi, List.getElem?_append_left hi]
    · rw [List.getElem?_append_right (by omega), List.getElem?_drop]
      congr 1
      omega
  have hnulw : ∀ c ∈ w, (c != '\x00') = true := fun c hc => by
    have : c ∈ buf := List.mem_of_mem_drop (by rw [hdrop]; exact List.mem_append_left _ hc)
    simpa using fun h : c = '\x00' => hnul (h ▸ this)
  rw [cstr, hsplit, List.takeWhile_append_of_pos hnulw]
  -- the word's end holds a `NUL`, or is the end of the buffer
  cases hend : (E.foldl (fun b e => b.set e '\x00') buf).drop (q + w.length) with
  | nil => simp
  | cons c r =>
    have hc : (E.foldl (fun b e => b.set e '\x00') buf)[q + w.length]? = some c := by
      rw [← List.head?_drop, hend]; rfl
    rw [getElem?_foldl_set, if_pos] at hc
    · cases hc
      simp
    · refine ⟨heq, ?_⟩
      have := congrArg List.length hend
      simp only [List.length_drop, length_foldl_set, List.length_cons] at this
      omega

theorem Rep.ends_wordEnd {c : Cmd} {T : Tree} (h : Rep buf c T) : ∀ e ∈ c.ends, WordEnd buf e := by
  induction h with
  | exec hws =>
    intro e he
    obtain ⟨a, ha, rfl⟩ := List.mem_map.mp he
    clear he
    induction hws with
    | nil => cases ha
    | cons hw _ ih =>
      rcases List.mem_cons.mp ha with rfl | ha
      · exact hw.2.2.2
      · exact ih ha
  | redir _ hw ih =>
    intro e he
    rcases List.mem_append.mp he with he | he
    · exact ih e he
    · rw [List.mem_singleton.mp he]
      exact hw.2.2.2
  | pipe _ _ ihl ihr | list _ _ ihl ihr =>
    intro e he
    rcases List.mem_append.mp he with he | he
    · exact ihl e he
    · exact ihr e he
  | back _ ih => exact ih

theorem Rep.view_foldl_set (hnul : '\x00' ∉ buf) (hE : ∀ e ∈ E, WordEnd buf e) {c : Cmd} {T : Tree}
    (h : Rep buf c T) (hends : ∀ e ∈ c.ends, e ∈ E) :
    c.view (E.foldl (fun b e => b.set e '\x00') buf) = T := by
  induction h with
  | exec hws =>
    rw [Cmd.view]
    congr 1
    induction hws with
    | nil => rfl
    | cons hw _ ih =>
      rw [List.map_cons, cstr_foldl_set hnul hE hw (hends _ (List.mem_cons_self ..)),
        ih fun e he => hends e (List.mem_cons_of_mem _ he)]
  | redir _ hw ih =>
    rw [Cmd.view, ih fun e he => hends e (List.mem_append_left _ he),
      cstr_foldl_set hnul hE hw (hends _ (List.mem_append_right _ (List.mem_singleton_self _)))]
  | pipe _ _ ihl ihr =>
    rw [Cmd.view, ihl fun e he => hends e (List.mem_append_left _ he),
      ihr fun e he => hends e (List.mem_append_right _ he)]
  | list _ _ ihl ihr =>
    rw [Cmd.view, ihl fun e he => hends e (List.mem_append_left _ he),
      ihr fun e he => hends e (List.mem_append_right _ he)]
  | back _ ih => rw [Cmd.view, ih hends]

/-- After `nulterminate`, a command reads as the tree it stands for. -/
theorem Rep.view_nulterminate (hnul : '\x00' ∉ buf) {c : Cmd} {T : Tree} (h : Rep buf c T) :
    c.view (nulterminate buf c) = T := by
  rw [nulterminate_eq_foldl]
  exact h.view_foldl_set hnul h.ends_wordEnd fun _ he => he

end Nul

/-! ## Redirections and `&` -/

/-- The redirections `rs` (file offsets, mode, descriptor), in order, around `c`: the last one
outermost, as `parseredirs` wraps them. -/
def wrapC (c : Cmd) (rs : List (Nat × Nat × Nat × Nat)) : Cmd :=
  rs.foldl (fun c r => .redir c r.1 r.2.1 r.2.2.1 r.2.2.2) c

/-- A redirection of a command stands for one of a tree: its file is the word, with the same
mode and descriptor. -/
def RedirAt (buf : List Char) (r : Nat × Nat × Nat × Nat) (t : List Char × Nat × Nat) : Prop :=
  WordAt buf r.1 r.2.1 t.1 ∧ r.2.2 = t.2

theorem wrapC_cons (c : Cmd) (r : Nat × Nat × Nat × Nat) (rs : List (Nat × Nat × Nat × Nat)) :
    wrapC c (r :: rs) = wrapC (.redir c r.1 r.2.1 r.2.2.1 r.2.2.2) rs := rfl

theorem wrapC_append (c : Cmd) (rs rs' : List (Nat × Nat × Nat × Nat)) :
    wrapC c (rs ++ rs') = wrapC (wrapC c rs) rs' := List.foldl_append

/-- `parseexec` sets the words of the `execcmd` inside the redirections. -/
theorem setArgv_wrapC (c : Cmd) (rs : List (Nat × Nat × Nat × Nat)) (argv : List (Nat × Nat)) :
    (wrapC c rs).setArgv argv = wrapC (c.setArgv argv) rs := by
  induction rs generalizing c with
  | nil => rfl
  | cons r rs ih => rw [wrapC_cons, ih]; rfl

theorem Rep.wrapC {c : Cmd} {T : Tree} (h : Rep buf c T) {rs : List (Nat × Nat × Nat × Nat)}
    {trs : List (List Char × Nat × Nat)} (hrs : List.Forall₂ (RedirAt buf) rs trs) :
    Rep buf (wrapC c rs) (wrap T trs) := by
  induction hrs generalizing c T with
  | nil => exact h
  | cons hr _ ih =>
    obtain ⟨hw, hm⟩ := hr
    rw [wrapC_cons, wrap, List.foldl_cons]
    rw [← hm]
    exact ih (.redir h hw)

theorem Rep.iterate_back {c : Cmd} {T : Tree} (h : Rep buf c T) (n : Nat) :
    Rep buf (Cmd.back^[n] c) (backN n T) := by
  induction n with
  | zero => exact h
  | succ n ih => rw [Function.iterate_succ_apply']; exact .back ih

end Xv6.Sh
