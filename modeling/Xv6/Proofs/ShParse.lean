import Xv6.Lib.Loop
import Xv6.Proofs.ShScan

/-!
# The shell's parser against its grammar

Each parse function is described one call at a time, in terms of the tokens at its position
(`parseredirs_redir`, `execLoop_word`, ...). From these, by induction on the fuel, each returns a
command for a tree its nonterminal derives or panics with one of the parser's messages
(`parse_sound`), and by induction on a derivation it finds every tree with fewer than `MAXARGS`
words in each command, up to a token that may follow it (`parse_complete`).

`parsecmd_spec` puts these together with `Derives.determ`: on a line with no `NUL`, `parsecmd`
returns the one tree the grammar derives, read back through `nulterminate`; otherwise it panics,
with one of the parser's messages, and the line has no tree with fewer than `MAXARGS` words in
each command. The fuel `parsecmd` gives is enough, so `outOfFuel` never comes out.
-/

namespace Xv6.Sh

variable {buf : List Char} {ps : Nat}

/-- The result of a parse function: on success `ok` of the command and the position it
stopped at, and otherwise a panic with one of the parser's messages. -/
def Outcome (ok : Cmd → Nat → Prop) : Except String (Cmd × Nat) → Prop
  | .ok (c, p) => ok c p
  | .error msg => msg ∈ panics

@[simp] theorem outcome_ok {ok : Cmd → Nat → Prop} {c : Cmd} {p : Nat} :
    Outcome ok (.ok (c, p)) ↔ ok c p := Iff.rfl

@[simp] theorem outcome_error {ok : Cmd → Nat → Prop} {msg : String} :
    Outcome ok (.error msg) ↔ msg ∈ panics := Iff.rfl

/-- A call followed by more of the parser: a panic of the call is the result, and otherwise what
follows runs on what the call returned. -/
theorem Outcome.bind {P Q : Cmd → Nat → Prop} {x : Except String (Cmd × Nat)}
    {f : Cmd × Nat → Except String (Cmd × Nat)} (hx : Outcome P x)
    (hf : ∀ c p, P c p → Outcome Q (f (c, p))) : Outcome Q (x >>= f) := by
  cases x with
  | error e => exact hx
  | ok r =>
    obtain ⟨c, p⟩ := r
    exact hf c p hx

theorem Outcome.mono {P Q : Cmd → Nat → Prop} {x : Except String (Cmd × Nat)}
    (hx : Outcome P x) (h : ∀ c p, P c p → Q c p) : Outcome Q x := by
  cases x with
  | error e => exact hx
  | ok r =>
    obtain ⟨c, p⟩ := r
    exact h c p hx
section Redirs

variable (hnul : '\x00' ∉ buf) (fuel : Nat) (cmd : Cmd)
include hnul

theorem parseredirs_stop (h : nextIn ['<', '>'] (tokensAt buf ps) = false) :
    parseredirs buf (fuel + 1) cmd ps = .ok (cmd, skip buf (strchr whitespace) ps) := by
  rw [parseredirs, peek_eq hnul (by simp [symbols]), h]
  rfl

theorem parseredirs_redir {op : Tok} {w : List Char} {ts : List Tok} {mode fd : Nat}
    (h : tokensAt buf ps = op :: .word w :: ts) (hop : op.redir? = some (mode, fd)) :
    ∃ q eq p', WordAt buf q eq w ∧ tokensAt buf p' = ts ∧ p' ≤ buf.length ∧
      parseredirs buf (fuel + 1) cmd ps = parseredirs buf fuel (.redir cmd q eq mode fd) p' := by
  have h' : tokensAt buf (skip buf (strchr whitespace) ps) = op :: .word w :: ts := by
    rw [tokensAt, lex_skip_ws]; exact h
  obtain ⟨q₀, eq₀, p₁, hg₁, hts₁, -, -⟩ := gettoken_cons hnul h'
  obtain ⟨q, eq, p₂, hg₂, hts₂, hle₂, hw⟩ := gettoken_cons hnul hts₁
  refine ⟨q, eq, p₂, hw w rfl, hts₂, hle₂, ?_⟩
  have hmore : nextIn ['<', '>'] (tokensAt buf ps) = true := by
    rw [h, nextIn, leads_redir_iff, hop]; rfl
  rw [parseredirs, peek_eq hnul (by simp [symbols]), hmore]
  simp only [Bool.not_true, Bool.false_eq_true, if_false, hg₁, hg₂, Tok.code, ne_eq,
    not_true_eq_false, if_false]
  rcases Tok.redir?_eq_some hop with ⟨rfl, hm⟩ | ⟨rfl, hm⟩ | ⟨rfl, hm⟩ <;>
    obtain ⟨rfl, rfl⟩ := Prod.mk.inj hm <;> rfl

theorem parseredirs_missing {op : Tok} {ts : List Tok} (h : tokensAt buf ps = op :: ts)
    (hop : op.redir?.isSome) (hts : ∀ w ts', ts ≠ .word w :: ts') :
    parseredirs buf (fuel + 1) cmd ps = .error "missing file for redirection" := by
  have h' : tokensAt buf (skip buf (strchr whitespace) ps) = op :: ts := by
    rw [tokensAt, lex_skip_ws]; exact h
  obtain ⟨q₀, eq₀, p₁, hg₁, hts₁, -, -⟩ := gettoken_cons hnul h'
  have hmore : nextIn ['<', '>'] (tokensAt buf ps) = true := by
    rw [h, nextIn, leads_redir_iff]; exact hop
  rw [parseredirs, peek_eq hnul (by simp [symbols]), hmore]
  simp only [Bool.not_true, Bool.false_eq_true, if_false, hg₁]
  -- the file token is not a word, or there is none
  cases ts with
  | nil =>
    rw [(gettoken_nil hts₁).1]
    rfl
  | cons t ts =>
    obtain ⟨q, eq, p₂, hg₂, -, -, -⟩ := gettoken_cons hnul hts₁
    have ht : t.code ≠ 'a' := fun ha => by
      obtain ⟨w, rfl⟩ := (code_eq_a_iff (buf.drop p₁) (by rw [← tokensAt, hts₁]; exact List.mem_cons_self)).mp ha
      exact hts w ts rfl
    rw [hg₂]
    simp [ht]

end Redirs

section Backs

variable (hnul : '\x00' ∉ buf)
include hnul

/-- `parseline`'s loop over `&` takes every `&` there is. -/
theorem backs_spec (fuel : Nat) (cmd : Cmd) (ps : Nat) (hps : ps ≤ buf.length)
    (hf : (tokensAt buf ps).length < fuel) :
    ∃ n p', backs buf fuel cmd ps = .ok (Cmd.back^[n] cmd, p') ∧
      tokensAt buf ps = List.replicate n (.sym '&') ++ tokensAt buf p' ∧
      nextIn ['&'] (tokensAt buf p') = false ∧ p' ≤ buf.length := by
  induction fuel generalizing cmd ps with
  | zero => omega
  | succ f ih =>
    cases hamp : nextIn ['&'] (tokensAt buf ps) with
    | false =>
      refine ⟨0, skip buf (strchr whitespace) ps, ?_, ?_, ?_, skip_le hps⟩
      · rw [backs, peek_eq hnul (by simp [symbols]), hamp]; rfl
      · rw [tokensAt_skip]; rfl
      · rw [tokensAt_skip]; exact hamp
    | true =>
      -- one more `&`
      obtain ⟨ts, hts⟩ := (nextIn_singleton_iff (by decide) _).mp hamp
      obtain ⟨hT₁, hp₁⟩ := gettoken_skip hnul hts
      obtain ⟨n, p', hb, hT', hnext, hp'⟩ :=
        ih (.back cmd) _ hp₁ (by rw [hT₁]; rw [hts] at hf; simp at hf; omega)
      refine ⟨n + 1, p', ?_, ?_, hnext, hp'⟩
      · rw [backs, peek_eq hnul (by simp [symbols]), hamp]
        simp only [if_true]
        rw [hb, Function.iterate_succ_apply]
      · rw [hts, ← hT₁, hT', List.replicate_succ, List.cons_append]

end Backs

section RedirsSpec

variable (hnul : '\x00' ∉ buf)
include hnul

/-- What `parseredirs` returns of `cmd` on success: `cmd` in the redirections `ts` starts
with. -/
def RedirsOk (buf : List Char) (cmd : Cmd) (ts : List Tok) (c : Cmd) (p' : Nat) : Prop :=
  ∃ rs trs, c = wrapC cmd rs ∧ List.Forall₂ (RedirAt buf) rs trs ∧
    Redirs ts trs (tokensAt buf p') ∧ p' ≤ buf.length

/-- `parseredirs` reads the redirections the tokens start with, or panics on one with no file. -/
theorem parseredirs_sound (fuel : Nat) (cmd : Cmd) (ps : Nat) (hps : ps ≤ buf.length)
    (hf : (tokensAt buf ps).length < fuel) :
    Outcome (RedirsOk buf cmd (tokensAt buf ps)) (parseredirs buf fuel cmd ps) := by
  induction fuel generalizing cmd ps with
  | zero => omega
  | succ f ih =>
    cases hmore : nextIn ['<', '>'] (tokensAt buf ps) with
    | false =>
      rw [parseredirs_stop hnul f cmd hmore]
      exact ⟨[], [], rfl, .nil, by rw [tokensAt_skip]; exact .nil _, skip_le hps⟩
    | true =>
      obtain ⟨op, ts, hts, hop⟩ : ∃ op ts, tokensAt buf ps = op :: ts ∧ op.redir?.isSome := by
        cases h : tokensAt buf ps with
        | nil => rw [h] at hmore; cases hmore
        | cons op ts => rw [h, nextIn, leads_redir_iff] at hmore; exact ⟨op, ts, rfl, hmore⟩
      obtain ⟨⟨mode, fd⟩, hm⟩ := Option.isSome_iff_exists.mp hop
      by_cases hw : ∃ w ts', ts = .word w :: ts'
      · -- a redirection, and the rest from its file on
        obtain ⟨w, ts', rfl⟩ := hw
        obtain ⟨q, eq, p', hwa, hT', hp', heq⟩ := parseredirs_redir hnul f cmd hts hm
        rw [heq]
        refine (ih (.redir cmd q eq mode fd) p' hp' (by rw [hT']; rw [hts] at hf; simp at hf; omega)).mono ?_
        rintro _ p₂ ⟨rs, trs, rfl, hrs, hred, hp₂⟩
        refine ⟨(q, eq, mode, fd) :: rs, (w, mode, fd) :: trs, rfl, .cons ⟨hwa, rfl⟩ hrs, ?_, hp₂⟩
        rw [hts]
        exact .cons hm (hT' ▸ hred)
      · rw [parseredirs_missing hnul f cmd hts hop (fun w ts' h => hw ⟨w, ts', h⟩)]
        simp [panics]

/-- `parseredirs` reads all the redirections the tokens start with. -/
theorem parseredirs_complete {ts rest : List Tok} {trs : List (List Char × Nat × Nat)}
    (hr : Redirs ts trs rest) (hrest : nextIn ['<', '>'] rest = false) :
    ∀ fuel cmd ps, ps ≤ buf.length → tokensAt buf ps = ts → ts.length < fuel →
      ∃ rs p', parseredirs buf fuel cmd ps = .ok (wrapC cmd rs, p') ∧
        List.Forall₂ (RedirAt buf) rs trs ∧ tokensAt buf p' = rest ∧ p' ≤ buf.length := by
  induction hr with
  | nil ts =>
    intro fuel cmd ps hps hts hf
    obtain ⟨f, rfl⟩ : ∃ f, fuel = f + 1 := ⟨fuel - 1, by omega⟩
    exact ⟨[], _, parseredirs_stop hnul f cmd (hts ▸ hrest), .nil,
      by rw [tokensAt_skip, hts], skip_le hps⟩
  | cons hop _ ih =>
    intro fuel cmd ps hps hts hf
    obtain ⟨f, rfl⟩ : ∃ f, fuel = f + 1 := ⟨fuel - 1, by omega⟩
    obtain ⟨q, eq, p', hwa, hT', hp', heq⟩ := parseredirs_redir hnul f cmd hts hop
    obtain ⟨rs, p'', hres, hrs, hT'', hp''⟩ := ih hrest f _ p' hp' hT' (by simp at hf; omega)
    exact ⟨(q, eq, _, _) :: rs, p'', heq.trans hres, .cons ⟨hwa, rfl⟩ hrs, hT'', hp''⟩

end RedirsSpec

/-! ## `parseexec`'s loop over the words -/

section ExecLoop

variable (hnul : '\x00' ∉ buf) (fuel : Nat) (argv : List (Nat × Nat)) (ret : Cmd)
include hnul

theorem execLoop_stop (h : nextIn ['|', ')', '&', ';'] (tokensAt buf ps) = true) :
    execLoop buf (fuel + 1) argv ret ps = .ok (ret.setArgv argv, skip buf (strchr whitespace) ps) := by
  rw [execLoop, peek_eq hnul (by simp [symbols]), h]
  rfl

theorem execLoop_end (h : tokensAt buf ps = []) :
    ∃ p', execLoop buf (fuel + 1) argv ret ps = .ok (ret.setArgv argv, p') ∧
      tokensAt buf p' = [] ∧ (ps ≤ buf.length → p' ≤ buf.length) := by
  have h' : tokensAt buf (skip buf (strchr whitespace) ps) = [] := by rw [tokensAt_skip]; exact h
  obtain ⟨htok, hT, hle⟩ := gettoken_nil h'
  refine ⟨_, ?_, hT, fun hps => hle (skip_le hps)⟩
  rw [execLoop, peek_eq hnul (by simp [symbols]), h]
  simp only [nextIn, Bool.false_eq_true, if_false]
  rw [if_pos htok]

theorem execLoop_word {w : List Char} {ts : List Tok} (h : tokensAt buf ps = .word w :: ts) :
    ∃ q eq p', WordAt buf q eq w ∧ tokensAt buf p' = ts ∧ p' ≤ buf.length ∧
      execLoop buf (fuel + 1) argv ret ps =
        if MAXARGS ≤ (argv ++ [(q, eq)]).length then .error "too many args" else
        parseredirs buf fuel ret p' >>= fun r => execLoop buf fuel (argv ++ [(q, eq)]) r.1 r.2 := by
  have h' : tokensAt buf (skip buf (strchr whitespace) ps) = .word w :: ts := by
    rw [tokensAt_skip]; exact h
  obtain ⟨q, eq, p', hg, hT, hle, hw⟩ := gettoken_cons hnul h'
  refine ⟨q, eq, p', hw w rfl, hT, hle, ?_⟩
  rw [execLoop, peek_eq hnul (by simp [symbols]), h]
  simp only [nextIn, Tok.leads, Bool.false_eq_true, if_false, hg, Tok.code]
  rw [if_neg (by decide), if_neg (by decide)]
  -- the source's `match` on `parseredirs` is a bind
  split
  · rfl
  · cases parseredirs buf fuel ret p' <;> rfl

theorem execLoop_not_word {t : Tok} {ts : List Tok} (h : tokensAt buf ps = t :: ts)
    (hstop : t.leads ['|', ')', '&', ';'] = false) (hw : ∀ w, t ≠ .word w) :
    execLoop buf (fuel + 1) argv ret ps = .error "syntax" := by
  have h' : tokensAt buf (skip buf (strchr whitespace) ps) = t :: ts := by
    rw [tokensAt_skip]; exact h
  obtain ⟨q, eq, p', hg, -, -, -⟩ := gettoken_cons hnul h'
  have ha : t.code ≠ 'a' := fun ha => by
    obtain ⟨w, rfl⟩ := (code_eq_a_iff (buf.drop ps) (by rw [← tokensAt, h]; exact List.mem_cons_self)).mp ha
    exact hw w rfl
  -- a symbol's code, or `+`, is not the end
  have h0 : t.code ≠ '\x00' := by
    cases t with
    | word w => exact absurd rfl (hw w)
    | sym c =>
      have := sym_mem_symbols (buf.drop ps) (by rw [← tokensAt, h]; exact List.mem_cons_self)
      rintro rfl
      simp [symbols] at this
    | gtgt => simp [Tok.code]
  rw [execLoop, peek_eq hnul (by simp [symbols]), h]
  simp only [nextIn, hstop, Bool.false_eq_true, if_false, hg, h0, ha, ne_eq, not_false_eq_true, if_true]

end ExecLoop

section ExecLoopSpec

variable (hnul : '\x00' ∉ buf)
include hnul

/-- What `parseexec`'s loop returns on success, from the words `argv` and the redirections `rs`
read so far: the words of `ts`, each with the redirections after it, added to them, with fewer
than `MAXARGS` words in all. -/
def LoopOk (buf : List Char) (argv : List (Nat × Nat)) (rs : List (Nat × Nat × Nat × Nat))
    (ts : List Tok) (c : Cmd) (p' : Nat) : Prop :=
  ∃ argv' ws rs' trs', c = wrapC (.exec (argv ++ argv')) (rs ++ rs') ∧
    List.Forall₂ (ArgAt buf) argv' ws ∧ List.Forall₂ (RedirAt buf) rs' trs' ∧
    Words ts ws trs' (tokensAt buf p') ∧ (argv ++ argv').length < MAXARGS ∧ p' ≤ buf.length

/-- `parseexec`'s loop reads words, each with the redirections after it, and panics on a token
that ends no command or on one word too many. -/
theorem execLoop_sound (fuel : Nat) (argv : List (Nat × Nat)) (rs : List (Nat × Nat × Nat × Nat))
    (ps : Nat) (hargv : argv.length < MAXARGS) (hps : ps ≤ buf.length)
    (hf : (tokensAt buf ps).length < fuel) :
    Outcome (LoopOk buf argv rs (tokensAt buf ps)) (execLoop buf fuel argv (wrapC (.exec []) rs) ps) := by
  induction fuel generalizing argv rs ps with
  | zero => omega
  | succ f ih =>
    -- the loop ends: no more words
    have hdone : ∀ p', tokensAt buf p' = tokensAt buf ps → p' ≤ buf.length →
        LoopOk buf argv rs (tokensAt buf ps) ((wrapC (.exec []) rs).setArgv argv) p' := fun p' hT hp' =>
      ⟨[], [], [], [], by rw [setArgv_wrapC]; simp [Cmd.setArgv], .nil, .nil, hT ▸ .nil _,
        by simpa using hargv, hp'⟩
    by_cases hnil : tokensAt buf ps = []
    · obtain ⟨p', hres, hT, hp'⟩ := execLoop_end hnul f argv _ hnil
      rw [hres]
      exact hdone p' (hT.trans hnil.symm) (hp' hps)
    · obtain ⟨t, ts, hts⟩ := List.exists_cons_of_ne_nil hnil
      cases hstop : t.leads ['|', ')', '&', ';'] with
      | true =>
        rw [execLoop_stop hnul f argv _ (by rw [hts]; exact hstop)]
        exact hdone _ (tokensAt_skip ps) (skip_le hps)
      | false =>
        cases t with
        | word w =>
          obtain ⟨q, eq, p', hwa, hT', hp', heq⟩ := execLoop_word hnul f argv _ hts
          rw [heq]
          split
          · simp [panics]
          · next hmax =>
            -- the redirections after the word, then the rest of the loop
            have hlen : ts.length < f := by rw [hts] at hf; simp at hf; omega
            refine (parseredirs_sound hnul f (wrapC (.exec []) rs) p' hp' (hT' ▸ hlen)).bind ?_
            rintro _ p₂ ⟨rs₁, trs₁, rfl, hrs₁, hRed, hp₂⟩
            have hle := hRed.suffix.length_le
            rw [hT'] at hRed hle
            rw [← wrapC_append]
            refine (ih (argv ++ [(q, eq)]) (rs ++ rs₁) p₂ (by simpa using hmax) hp₂ (by omega)).mono ?_
            rintro _ p₃ ⟨argv', ws, rs', trs', rfl, hargv', hrs', hwords, hmax', hp₃⟩
            exact ⟨(q, eq) :: argv', w :: ws, rs₁ ++ rs', trs₁ ++ trs', by simp, .cons hwa hargv',
              List.rel_append hrs₁ hrs', hts ▸ .cons hRed hwords, by simpa using hmax', hp₃⟩
        | sym c =>
          rw [execLoop_not_word hnul f argv _ hts hstop (fun w h => by cases h)]
          simp [panics]
        | gtgt =>
          rw [execLoop_not_word hnul f argv _ hts hstop (fun w h => by cases h)]
          simp [panics]

theorem execLoop_complete {ts rest : List Tok} {ws : List (List Char)}
    {trs : List (List Char × Nat × Nat)} (hw : Words ts ws trs rest) (hrest : NT.exec.follows rest) :
    ∀ fuel argv rs ps, ps ≤ buf.length → tokensAt buf ps = ts → ts.length < fuel →
      argv.length + ws.length < MAXARGS →
      ∃ argv' rs' p', execLoop buf fuel argv (wrapC (.exec []) rs) ps =
          .ok (wrapC (.exec (argv ++ argv')) (rs ++ rs'), p') ∧
        List.Forall₂ (ArgAt buf) argv' ws ∧ List.Forall₂ (RedirAt buf) rs' trs ∧
        tokensAt buf p' = rest ∧ p' ≤ buf.length := by
  induction hw with
  | nil ts =>
    intro fuel argv rs ps hps hts hf hmax
    obtain ⟨f, rfl⟩ : ∃ f, fuel = f + 1 := ⟨fuel - 1, by omega⟩
    have hdone : (wrapC (.exec []) rs).setArgv argv = wrapC (.exec (argv ++ [])) (rs ++ []) := by
      rw [setArgv_wrapC]; simp [Cmd.setArgv]
    -- the loop stops at the end, or at a token that ends the command
    rcases hrest.stop with hnil | hstop
    · obtain ⟨p', hres, hT, hp'⟩ := execLoop_end hnul f argv _ (hts.trans hnil)
      exact ⟨[], [], p', by rw [hres, hdone], .nil, .nil, hT.trans hnil.symm, hp' hps⟩
    · exact ⟨[], [], _, by rw [execLoop_stop hnul f argv _ (hts ▸ hstop), hdone], .nil, .nil,
        by rw [tokensAt_skip, hts], skip_le hps⟩
  | cons hr hw ih =>
    intro fuel argv rs ps hps hts hf hmax
    obtain ⟨f, rfl⟩ : ∃ f, fuel = f + 1 := ⟨fuel - 1, by omega⟩
    obtain ⟨q, eq, p', hwa, hT', hp', heq⟩ := execLoop_word hnul f argv _ hts
    simp only [List.length_cons] at hf hmax
    -- the redirections after the word
    obtain ⟨rs₁, p₂, hres, hrs₁, hT₂, hp₂⟩ :=
      parseredirs_complete hnul hr (hw.nextIn_redir (hrest.nextIn_eq_false (by simp)))
        f (wrapC (.exec []) rs) p' hp' hT' (by omega)
    have hle := hr.suffix.length_le
    obtain ⟨argv', rs', p₃, hres', hargv', hrs', hT₃, hp₃⟩ :=
      ih hrest f (argv ++ [(q, eq)]) (rs ++ rs₁) p₂ hp₂ hT₂ (by omega) (by simp; omega)
    refine ⟨(q, eq) :: argv', rs₁ ++ rs', p₃, ?_, .cons hwa hargv', List.rel_append hrs₁ hrs',
      hT₃, hp₃⟩
    rw [heq, if_neg (by simp; omega), hres, Loop.ok_bind]
    dsimp only
    rw [← wrapC_append, hres']
    simp

end ExecLoopSpec

/-! ## Soundness of the recursive descent -/

/-- What `parseline`, `parsepipe` and `parseexec` return on success: a command for a tree with
fewer than `MAXARGS` words in each command, which `nt` derives from `ts`, leaving the tokens at
`p'`. -/
def Sound (buf : List Char) (nt : NT) (ts : List Tok) (c : Cmd) (p' : Nat) : Prop :=
  ∃ T, Derives nt ts T (tokensAt buf p') ∧ Rep buf c T ∧ T.ArgsOk ∧ p' ≤ buf.length

/-- `parse` is sound for `nt` from every position whose tokens `fuel` covers, at four for each
token and `k` more. -/
def SoundAt (buf : List Char) (nt : NT) (k fuel : Nat) (parse : Nat → Except String (Cmd × Nat)) :
    Prop :=
  ∀ ps, ps ≤ buf.length → 4 * (tokensAt buf ps).length + k ≤ fuel →
    Outcome (Sound buf nt (tokensAt buf ps)) (parse ps)

/-- The same for `parseblock`, which is called at a `(`. -/
def BlockSoundAt (buf : List Char) (fuel : Nat) : Prop :=
  ∀ ps ts, ps ≤ buf.length → tokensAt buf ps = .sym '(' :: ts →
    4 * (tokensAt buf ps).length + 1 ≤ fuel → Outcome (Sound buf .exec (tokensAt buf ps)) (parseblock buf fuel ps)

section SoundStep

variable (hnul : '\x00' ∉ buf) {f : Nat}
include hnul

theorem parseexec_sound_succ (hblock : BlockSoundAt buf f) :
    SoundAt buf .exec 2 (f + 1) (parseexec buf (f + 1)) := by
  intro ps hps hf
  cases hlp : nextIn ['('] (tokensAt buf ps) with
  | true =>
    -- a block
    obtain ⟨ts, hts⟩ := (nextIn_singleton_iff (by decide) _).mp hlp
    rw [parseexec, peek_eq hnul (by simp [symbols]), hlp]
    have := hblock _ ts (skip_le hps) (by rw [tokensAt_skip, hts])
      (by rw [tokensAt_skip]; omega)
    rwa [tokensAt_skip] at this
  | false =>
    -- redirections, then words each with the redirections after it
    rw [parseexec, peek_eq hnul (by simp [symbols]), hlp]
    simp only [Bool.false_eq_true, if_false]
    have hred := parseredirs_sound hnul f (.exec []) _ (skip_le hps) (by rw [tokensAt_skip]; omega)
    rw [tokensAt_skip] at hred
    refine hred.bind ?_
    rintro _ p₁ ⟨rs, trs, rfl, hrs, hRed, hp₁⟩
    have hle := hRed.suffix.length_le
    refine (execLoop_sound hnul f [] rs p₁ (by decide) hp₁ (by omega)).mono ?_
    rintro _ p' ⟨argv', ws, rs', trs', rfl, hargv', hrs', hwords, hmax, hp'⟩
    refine ⟨wrap (.exec ws) (trs ++ trs'), .simple hRed hwords, ?_, ?_, hp'⟩
    · exact (Rep.exec hargv').wrapC (List.rel_append hrs hrs')
    · rw [Tree.argsOk_wrap, Tree.ArgsOk, ← hargv'.length_eq]
      simpa using hmax

theorem parseblock_sound_succ (hline : SoundAt buf .line 4 f (parseline buf f)) :
    BlockSoundAt buf (f + 1) := by
  intro ps ts hps hts hf
  rw [hts] at hf
  simp only [List.length_cons] at hf
  have hlp : nextIn ['('] (tokensAt buf ps) = true := by rw [hts]; rfl
  obtain ⟨hT₁, hp₁⟩ := gettoken_skip hnul hts
  rw [parseblock, peek_eq hnul (by simp [symbols]), hlp]
  simp only [Bool.not_true, Bool.false_eq_true, if_false]
  -- the line inside the parentheses
  have hl := hline _ hp₁ (by rw [hT₁]; omega)
  rw [hT₁] at hl
  refine hl.bind ?_
  rintro c p₂ ⟨t, hd, hrep, hargs, hp₂⟩
  simp only [peek_eq hnul (by simp [symbols] : ∀ c ∈ [')'], c ∈ symbols)]
  cases hrp : nextIn [')'] (tokensAt buf p₂) with
  | false =>
    -- no `)`: the block's own panic
    exact (show "syntax - missing )" ∈ panics by simp [panics])
  | true =>
    obtain ⟨ts', hts'⟩ := (nextIn_singleton_iff (by decide) _).mp hrp
    obtain ⟨hT₃, hp₃⟩ := gettoken_skip hnul hts'
    have hle := hd.suffix.length_le
    rw [hts'] at hle hd
    simp only [List.length_cons] at hle
    simp only [Bool.not_true, Bool.false_eq_true, if_false]
    -- the redirections after the block
    have hred := parseredirs_sound hnul f c _ hp₃ (by rw [hT₃]; omega)
    rw [hT₃] at hred
    refine hred.mono ?_
    rintro _ p' ⟨rs, trs, rfl, hrs, hRed, hp'⟩
    exact ⟨wrap t trs, hts ▸ .block hd hRed, hrep.wrapC hrs, Tree.argsOk_wrap.mpr hargs, hp'⟩

theorem parsepipe_sound_succ (hexec : SoundAt buf .exec 2 f (parseexec buf f))
    (hpipe : SoundAt buf .pipe 3 f (parsepipe buf f)) :
    SoundAt buf .pipe 3 (f + 1) (parsepipe buf (f + 1)) := by
  intro ps hps hf
  rw [parsepipe]
  refine (hexec ps hps (by omega)).bind ?_
  rintro c p₁ ⟨t, hd, hrep, hargs, hp₁⟩
  simp only [peek_eq hnul (by simp [symbols] : ∀ c ∈ ['|'], c ∈ symbols)]
  cases hbar : nextIn ['|'] (tokensAt buf p₁) with
  | false =>
    -- the last command of the pipeline
    refine ⟨t, ?_, hrep, hargs, skip_le hp₁⟩
    rw [tokensAt_skip]
    exact .pipeOne hd
  | true =>
    obtain ⟨ts', hts'⟩ := (nextIn_singleton_iff (by decide) _).mp hbar
    obtain ⟨hT₃, hp₃⟩ := gettoken_skip hnul hts'
    have hle := hd.suffix.length_le
    rw [hts'] at hle hd
    simp only [List.length_cons] at hle
    simp only [if_true]
    -- the pipeline after the `|`
    have hp := hpipe _ hp₃ (by rw [hT₃]; omega)
    rw [hT₃] at hp
    refine hp.bind ?_
    rintro c' p' ⟨t', hd', hrep', hargs', hp'⟩
    exact ⟨.pipe t t', .pipeCons hd hd', .pipe hrep hrep', ⟨hargs, hargs'⟩, hp'⟩

theorem parseline_sound_succ (hpipe : SoundAt buf .pipe 3 f (parsepipe buf f))
    (hline : SoundAt buf .line 4 f (parseline buf f)) :
    SoundAt buf .line 4 (f + 1) (parseline buf (f + 1)) := by
  intro ps hps hf
  rw [parseline]
  refine (hpipe ps hps (by omega)).bind ?_
  rintro c p₁ ⟨t, hd, hrep, hargs, hp₁⟩
  have hle₁ := hd.suffix.length_le
  -- the `&`s after the pipeline
  obtain ⟨n, p₂, hb, hT₂, hamp, hp₂⟩ := backs_spec hnul f c p₁ hp₁ (by omega)
  rw [hT₂] at hd hle₁
  simp only [hb, Loop.ok_bind, peek_eq hnul (by simp [symbols] : ∀ c ∈ [';'], c ∈ symbols)]
  cases hsemi : nextIn [';'] (tokensAt buf p₂) with
  | false =>
    refine ⟨backN n t, ?_, hrep.iterate_back n, (Tree.argsOk_backN n).mpr hargs, skip_le hp₂⟩
    rw [tokensAt_skip]
    exact .lineLast hd
  | true =>
    -- a list: the line after the `;`
    obtain ⟨ts', hts'⟩ := (nextIn_singleton_iff (by decide) _).mp hsemi
    obtain ⟨hT₃, hp₃⟩ := gettoken_skip hnul hts'
    rw [hts'] at hd hle₁
    simp only [List.length_append, List.length_cons] at hle₁
    simp only [if_true]
    have hl := hline _ hp₃ (by rw [hT₃]; omega)
    rw [hT₃] at hl
    refine hl.bind ?_
    rintro c' p' ⟨t', hd', hrep', hargs', hp'⟩
    exact ⟨.list (backN n t) t', .lineSemi hd hd', .list (hrep.iterate_back n) hrep',
      ⟨(Tree.argsOk_backN n).mpr hargs, hargs'⟩, hp'⟩

/-- Each parse function, with the fuel `parsecmd` gives it, returns a command for a tree its
nonterminal derives, or panics with one of the parser's messages. -/
theorem parse_sound (fuel : Nat) :
    SoundAt buf .line 4 fuel (parseline buf fuel) ∧ SoundAt buf .pipe 3 fuel (parsepipe buf fuel) ∧
      SoundAt buf .exec 2 fuel (parseexec buf fuel) ∧ BlockSoundAt buf fuel := by
  induction fuel with
  | zero =>
    refine ⟨fun _ _ hf => ?_, fun _ _ hf => ?_, fun _ _ hf => ?_, fun _ _ _ _ hf => ?_⟩ <;> omega
  | succ f ih =>
    obtain ⟨hline, hpipe, hexec, hblock⟩ := ih
    exact ⟨parseline_sound_succ hnul hpipe hline, parsepipe_sound_succ hnul hexec hpipe,
      parseexec_sound_succ hnul hblock, parseblock_sound_succ hnul hline⟩

end SoundStep

/-! ## Completeness of the recursive descent -/

/-- The parse function of a nonterminal. -/
def NT.parse (buf : List Char) : NT → Nat → Nat → Except String (Cmd × Nat)
  | .line => parseline buf
  | .pipe => parsepipe buf
  | .exec => parseexec buf

/-- The fuel a nonterminal's parse function needs beyond four for each token. -/
def NT.extra : NT → Nat
  | .line => 4
  | .pipe => 3
  | .exec => 2

section Complete

variable (hnul : '\x00' ∉ buf)
include hnul

/-- Each parse function finds every tree with fewer than `MAXARGS` words in each command that
its nonterminal derives, up to a token that may follow it. -/
theorem parse_complete {nt : NT} {ts rest : List Tok} {T : Tree} (hd : Derives nt ts T rest)
    (hargs : T.ArgsOk) (hrest : nt.follows rest) :
    ∀ fuel ps, ps ≤ buf.length → tokensAt buf ps = ts → 4 * ts.length + nt.extra ≤ fuel →
      ∃ c p', nt.parse buf fuel ps = .ok (c, p') ∧ Rep buf c T ∧ tokensAt buf p' = rest ∧
        p' ≤ buf.length := by
  induction hd with
  | @lineLast ts rest t n hd ih =>
    intro fuel ps hps hts hf
    obtain ⟨f, rfl⟩ : ∃ f, fuel = f + 1 := ⟨fuel - 1, by simp [NT.extra] at hf; omega⟩
    obtain ⟨c, p₁, hres, hrep, hT₁, hp₁⟩ :=
      ih ((Tree.argsOk_backN n).mp hargs) (hrest.amps_pipe n (.inl rfl)) f ps hps hts
        (by simp [NT.extra] at hf ⊢; omega)
    have hle := hd.suffix.length_le
    obtain ⟨m, p₂, hb, hT₂, hamp, hp₂⟩ := backs_spec hnul f c p₁ hp₁ (by rw [hT₁]; simp [NT.extra] at hf; omega)
    obtain ⟨hamp', hsemi⟩ := hrest.nextIn_amp_semi
    obtain ⟨rfl, hT₂'⟩ := amps_cancel (hT₁.symm.trans hT₂) hamp' hamp
    refine ⟨Cmd.back^[n] c, skip buf (strchr whitespace) p₂, ?_, hrep.iterate_back n,
      by rw [tokensAt_skip, hT₂'], skip_le hp₂⟩
    have hres : parsepipe buf f ps = .ok (c, p₁) := hres
    show parseline buf (f + 1) ps = _
    rw [parseline, hres]
    simp only [Loop.ok_bind, hb, peek_eq hnul (by simp [symbols] : ∀ c ∈ [';'], c ∈ symbols), ← hT₂', hsemi]
    rfl
  | @lineSemi ts ts' rest t t' n hd hd' ih ih' =>
    intro fuel ps hps hts hf
    obtain ⟨hargs, hargs'⟩ := hargs
    obtain ⟨f, rfl⟩ : ∃ f, fuel = f + 1 := ⟨fuel - 1, by simp [NT.extra] at hf; omega⟩
    obtain ⟨c, p₁, hres, hrep, hT₁, hp₁⟩ :=
      ih ((Tree.argsOk_backN n).mp hargs) (hrest.amps_pipe n (.inr ⟨ts', rfl⟩)) f ps hps hts
        (by simp [NT.extra] at hf ⊢; omega)
    have hle := hd.suffix.length_le
    simp only [List.length_append, List.length_cons, List.length_replicate] at hle
    obtain ⟨m, p₂, hb, hT₂, hamp, hp₂⟩ := backs_spec hnul f c p₁ hp₁ (by rw [hT₁]; simp [NT.extra] at hf ⊢; omega)
    obtain ⟨rfl, hT₂'⟩ := amps_cancel (hT₁.symm.trans hT₂) rfl hamp
    -- the line after the `;`
    obtain ⟨hT₃, hp₃⟩ := gettoken_skip hnul hT₂'.symm
    obtain ⟨c', p', hres', hrep', hT', hp'⟩ := ih' hargs' hrest f _ hp₃ hT₃ (by simp [NT.extra] at hf ⊢; omega)
    refine ⟨.list (Cmd.back^[n] c) c', p', ?_, .list (hrep.iterate_back n) hrep', hT', hp'⟩
    have hres : parsepipe buf f ps = .ok (c, p₁) := hres
    have hres' : parseline buf f _ = .ok (c', p') := hres'
    show parseline buf (f + 1) ps = _
    rw [parseline, hres]
    simp only [Loop.ok_bind, hb, peek_eq hnul (by simp [symbols] : ∀ c ∈ [';'], c ∈ symbols), ← hT₂']
    simp only [nextIn, Tok.leads, hres', Loop.ok_bind]
    rfl
  | pipeOne hd ih =>
    intro fuel ps hps hts hf
    obtain ⟨f, rfl⟩ : ∃ f, fuel = f + 1 := ⟨fuel - 1, by simp [NT.extra] at hf; omega⟩
    obtain ⟨c, p₁, hres, hrep, hT₁, hp₁⟩ := ih hargs hrest.exec f ps hps hts
      (by simp [NT.extra] at hf ⊢; omega)
    refine ⟨c, skip buf (strchr whitespace) p₁, ?_, hrep, by rw [tokensAt_skip, hT₁], skip_le hp₁⟩
    have hres : parseexec buf f ps = .ok (c, p₁) := hres
    show parsepipe buf (f + 1) ps = _
    rw [parsepipe, hres]
    simp only [Loop.ok_bind, peek_eq hnul (by simp [symbols] : ∀ c ∈ ['|'], c ∈ symbols), hT₁,
      hrest.nextIn_bar (by decide)]
    rfl
  | @pipeCons ts ts' rest t t' hd hd' ih ih' =>
    intro fuel ps hps hts hf
    obtain ⟨hargs, hargs'⟩ := hargs
    obtain ⟨f, rfl⟩ : ∃ f, fuel = f + 1 := ⟨fuel - 1, by simp [NT.extra] at hf; omega⟩
    obtain ⟨c, p₁, hres, hrep, hT₁, hp₁⟩ := ih hargs (.inr (.inr (.inr ⟨rfl, rfl⟩))) f ps hps hts
      (by simp [NT.extra] at hf ⊢; omega)
    have hle := hd.suffix.length_le
    simp only [List.length_cons] at hle
    -- the pipeline after the `|`
    obtain ⟨hT₃, hp₃⟩ := gettoken_skip hnul hT₁
    obtain ⟨c', p', hres', hrep', hT', hp'⟩ := ih' hargs' hrest f _ hp₃ hT₃ (by simp [NT.extra] at hf ⊢; omega)
    refine ⟨.pipe c c', p', ?_, .pipe hrep hrep', hT', hp'⟩
    have hres : parseexec buf f ps = .ok (c, p₁) := hres
    have hres' : parsepipe buf f _ = .ok (c', p') := hres'
    show parsepipe buf (f + 1) ps = _
    rw [parsepipe, hres]
    simp only [Loop.ok_bind, peek_eq hnul (by simp [symbols] : ∀ c ∈ ['|'], c ∈ symbols), hT₁]
    simp only [nextIn, Tok.leads, hres', Loop.ok_bind]
    rfl
  | @block ts ts' rest t rs hd hr ih =>
    intro fuel ps hps hts hf
    obtain ⟨g, rfl⟩ : ∃ g, fuel = g + 1 + 1 := ⟨fuel - 2, by simp [NT.extra] at hf; omega⟩
    simp only [List.length_cons, NT.extra] at hf
    have hts' : tokensAt buf (skip buf (strchr whitespace) ps) = .sym '(' :: ts := by
      rw [tokensAt_skip, hts]
    obtain ⟨hT₁, hp₁⟩ := gettoken_skip hnul hts'
    -- the line inside the parentheses
    obtain ⟨c, p₂, hres, hrep, hT₂, hp₂⟩ :=
      ih (Tree.argsOk_wrap.mp hargs) (.inr (.inl rfl)) g _ hp₁ hT₁ (by simp [NT.extra]; omega)
    have hle := hd.suffix.length_le
    simp only [List.length_cons] at hle
    obtain ⟨hT₃, hp₃⟩ := gettoken_skip hnul hT₂
    -- the redirections after it
    obtain ⟨rs', p', hres', hrs', hT', hp'⟩ :=
      parseredirs_complete hnul hr (hrest.nextIn_eq_false (by simp)) g c _ hp₃ hT₃ (by omega)
    refine ⟨wrapC c rs', p', ?_, hrep.wrapC hrs', hT', hp'⟩
    have hres : parseline buf g _ = .ok (c, p₂) := hres
    show parseexec buf (g + 1 + 1) ps = _
    rw [parseexec, peek_eq hnul (by simp [symbols]), hts]
    simp only [nextIn, Tok.leads]
    rw [parseblock, peek_eq hnul (by simp [symbols]), hts']
    simp only [nextIn, Tok.leads, hres, Loop.ok_bind,
      peek_eq hnul (by simp [symbols] : ∀ c ∈ [')'], c ∈ symbols), hT₂]
    exact hres'
  | @simple ts ts' rest rs rs' ws hr hw =>
    intro fuel ps hps hts hf
    obtain ⟨f, rfl⟩ : ∃ f, fuel = f + 1 := ⟨fuel - 1, by simp [NT.extra] at hf; omega⟩
    simp only [NT.extra] at hf
    have hmax : ws.length < MAXARGS := by
      have := Tree.argsOk_wrap.mp hargs
      exact this
    have hle := hr.suffix.length_le
    -- the redirections before the first word
    obtain ⟨rs₁, p₁, hres, hrs₁, hT₁, hp₁⟩ :=
      parseredirs_complete hnul hr (hw.nextIn_redir (hrest.nextIn_eq_false (by simp))) f (.exec []) _
        (skip_le hps) (by rw [tokensAt_skip, hts]) (by omega)
    -- the words, each with the redirections after it
    obtain ⟨argv', rs₂, p', hres', hargv', hrs₂, hT', hp'⟩ :=
      execLoop_complete hnul hw hrest f [] rs₁ p₁ hp₁ hT₁ (by omega) (by simpa using hmax)
    refine ⟨wrapC (.exec argv') (rs₁ ++ rs₂), p', ?_, (Rep.exec hargv').wrapC (List.rel_append hrs₁ hrs₂),
      hT', hp'⟩
    show parseexec buf (f + 1) ps = _
    rw [parseexec, peek_eq hnul (by simp [symbols]), hts, hr.nextIn_lp hw hrest]
    simp only [Bool.false_eq_true, if_false, hres, Loop.ok_bind, hres', List.nil_append]

end Complete

/-! ## `parsecmd` -/

/-- `parsecmd` on a command line with no `NUL` returns, read through `nulterminate`, the one
tree the grammar derives from the line, with fewer than `MAXARGS` words in each command; or it
panics, with one of the parser's messages, and the line has no such tree. -/
theorem parsecmd_spec (s : List Char) (hs : '\x00' ∉ s) :
    (∀ cmd buf, parsecmd s = .ok (cmd, buf) →
      Parse s (cmd.view buf) ∧ (cmd.view buf).ArgsOk ∧ ∀ T, Parse s T → T = cmd.view buf) ∧
    (∀ msg, parsecmd s = .error msg → msg ∈ panics ∧ ∀ T, Parse s T → ¬ T.ArgsOk) := by
  have htoks : tokensAt s 0 = lex s := by rw [tokensAt, List.drop_zero]
  have hfuel : 4 * (tokensAt s 0).length + 4 ≤ 4 * s.length + 4 := by
    have := length_lex_le s
    rw [htoks]; omega
  have hsound := (parse_sound hs (4 * s.length + 4)).1 0 (Nat.zero_le _) hfuel
  -- a parse with fewer than `MAXARGS` words in each command is what `parseline` returns
  have hcomplete : ∀ T, Parse s T → T.ArgsOk → ∃ c p', parseline s (4 * s.length + 4) 0 = .ok (c, p') ∧
      Rep s c T ∧ tokensAt s p' = [] ∧ p' ≤ s.length := fun T hT hargs =>
    parse_complete hs hT hargs (.inl rfl) _ 0 (Nat.zero_le _) htoks hfuel
  -- the check for leftovers passes exactly when no token is left
  have hleft : ∀ c p, parseline s (4 * s.length + 4) 0 = .ok (c, p) → p ≤ s.length →
      parsecmd s = if tokensAt s p = [] then .ok (c, nulterminate s c) else .error "syntax" := by
    intro c p hr hp
    have hpk : peek s p [] = (false, skip s (strchr whitespace) p) := by
      rw [peek_eq hs (by simp)]
      cases tokensAt s p with
      | nil => rfl
      | cons t ts => cases t <;> rfl
    rw [parsecmd, hr]
    simp only [Loop.ok_bind, hpk]
    by_cases hnil : tokensAt s p = []
    · have hend : skip s (strchr whitespace) p = s.length := (peek_nil_eq_length_iff hp).mpr hnil
      rw [if_pos hnil, if_neg (not_not.mpr hend)]
      rfl
    · have hend : skip s (strchr whitespace) p ≠ s.length := fun h => hnil ((peek_nil_eq_length_iff hp).mp h)
      rw [if_neg hnil, if_pos hend]
      rfl
  constructor
  · intro cmd buf h
    cases hr : parseline s (4 * s.length + 4) 0 with
    | error e => rw [parsecmd, hr] at h; cases h
    | ok r =>
      obtain ⟨c, p⟩ := r
      rw [hr] at hsound
      obtain ⟨T, hd, hrep, hargs, hp⟩ := hsound
      rw [hleft c p hr hp] at h
      split at h
      · next hnil =>
        obtain ⟨rfl, rfl⟩ := Prod.mk.inj (Except.ok.inj h)
        rw [hrep.view_nulterminate hs]
        have hparse : Parse s T := by rw [Parse, ← htoks, ← hnil]; exact hd
        exact ⟨hparse, hargs, fun T' hT' => (hT'.determ hparse (.inl rfl) (.inl rfl)).1⟩
      · cases h
  · intro msg h
    cases hr : parseline s (4 * s.length + 4) 0 with
    | error e =>
      rw [parsecmd, hr] at h
      obtain rfl := Except.error.inj h
      rw [hr] at hsound
      refine ⟨hsound, fun T hT hargs => ?_⟩
      obtain ⟨c, p', hok, -⟩ := hcomplete T hT hargs
      rw [hr] at hok
      cases hok
    | ok r =>
      -- tokens are left over
      obtain ⟨c, p⟩ := r
      rw [hr] at hsound
      obtain ⟨-, -, -, -, hp⟩ := hsound
      rw [hleft c p hr hp] at h
      split at h
      · cases h
      · next hleft' =>
        obtain rfl := Except.error.inj h
        refine ⟨by simp [panics], fun T hT hargs => ?_⟩
        obtain ⟨c', p', hok, -, hnil, -⟩ := hcomplete T hT hargs
        rw [hr] at hok
        obtain ⟨-, rfl⟩ := Prod.mk.inj (Except.ok.inj hok)
        exact hleft' hnil

theorem parsecmd_spec_pipe :
    '\x00' ∉ ['l', 's', '|', 'w', 'c'] ∧
    (∀ cmd buf, parsecmd ['l', 's', '|', 'w', 'c'] = .ok (cmd, buf) →
      Parse ['l', 's', '|', 'w', 'c'] (cmd.view buf) ∧ (cmd.view buf).ArgsOk ∧
        ∀ T, Parse ['l', 's', '|', 'w', 'c'] T → T = cmd.view buf) ∧
    (∀ msg, parsecmd ['l', 's', '|', 'w', 'c'] = .error msg →
      msg ∈ panics ∧ ∀ T, Parse ['l', 's', '|', 'w', 'c'] T → ¬ T.ArgsOk) :=
  ⟨by decide, parsecmd_spec _ (by decide)⟩

end Xv6.Sh
