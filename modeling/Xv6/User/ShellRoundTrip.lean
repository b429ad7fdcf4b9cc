import Xv6.User.ShellParser

/-!
# Parsing undoes printing

On a text that prints a tree, every function of the parser takes the tokens it is
for and leaves a text with the rest of them; the pointers it stores are around the
words of the tree.  The NULs are written where white space was, so no word loses a
character.
-/

namespace Xv6.ShellParser

open List

variable {text s rest : List Byte} {token : Token} {tokens : List Token}

/-! ## The lexer -/

theorem skip_blank {blank : List Byte} (hblank : ∀ c ∈ blank, isSpace c = true)
    (rest : List Byte) : skip (blank ++ rest) = skip rest := by
  induction blank with
  | nil => rfl
  | cons c blank ih =>
    have hc := hblank c mem_cons_self
    rw [skip, cons_append, dropWhile_cons_of_pos hc]
    exact ih fun d hd => hblank d (mem_cons_of_mem c hd)

theorem skip_suffix (s : List Byte) : skip s <:+ s := dropWhile_suffix _

theorem isSpace_word (word : Word) {c : Byte} (hc : c ∈ word.chars) : isSpace c = false := by
  have hplain := (word.plain c hc).2
  rw [isWordChar, Bool.and_eq_true, Bool.not_eq_true'] at hplain
  exact hplain.1

theorem Token.text_head (token : Token) : ∃ c more, token.text = c :: more ∧ isSpace c = false := by
  cases token with
  | word word =>
    cases hchars : word.chars with
    | nil => exact absurd hchars word.nonempty
    | cons c more =>
      refine ⟨c, more, hchars, isSpace_word word ?_⟩
      rw [hchars]
      exact mem_cons_self
  | symbol mark =>
    cases mark with
    | redir kind => cases kind <;> exact ⟨_, _, rfl, by decide⟩
    | _ => exact ⟨_, _, rfl, by decide⟩

theorem skip_token (token : Token) (rest : List Byte) :
    skip (token.text ++ rest) = token.text ++ rest := by
  obtain ⟨c, more, htext, hc⟩ := token.text_head
  rw [htext, cons_append, skip, dropWhile_cons_of_neg (by rw [hc]; exact Bool.false_ne_true)]

theorem Spaced.skip_eq (hspaced : Spaced (token :: tokens) s) :
    ∃ rest, skip s = token.text ++ rest ∧ Separated rest ∧ Spaced tokens rest := by
  cases hspaced with
  | token hblank hsep hrest => exact ⟨_, by rw [skip_blank hblank, skip_token], hsep, hrest⟩

theorem Spaced.skip (hspaced : Spaced tokens s) : Spaced tokens (ShellParser.skip s) := by
  cases hspaced with
  | done hblank =>
    refine .done fun c hc => hblank c ?_
    exact (skip_suffix _).subset hc
  | token hblank hsep hrest =>
    rw [skip_blank hblank, skip_token]
    exact @Spaced.token [] _ _ _ (by simp) hsep hrest

theorem Spaced.skip_done (hspaced : Spaced [] s) : ShellParser.skip s = [] := by
  cases hspaced with
  | done hblank => exact dropWhile_eq_nil_iff.mpr hblank

def Symbol.code : Symbol → Byte
  | .lparen => ch '('
  | .rparen => ch ')'
  | .bar => ch '|'
  | .semicolon => ch ';'
  | .ampersand => ch '&'
  | .redir .input => ch '<'
  | .redir .output => ch '>'
  | .redir .append => ch '+'

def Token.code : Token → Byte
  | .symbol mark => mark.code
  | .word _ => ch 'a'

theorem scan_symbol (mark : Symbol) (hsep : Separated rest) :
    scan (mark.text ++ rest) = (mark.code, rest) := by
  cases mark with
  | redir kind =>
    cases kind with
    | input => rfl
    | append => rfl
    | output =>
      have hnext : rest.head? ≠ some (ch '>') := by
        intro hhead
        exact absurd (hsep _ hhead) (by decide)
      change scan (ch '>' :: rest) = _
      rw [scan, if_neg (by decide), if_neg (by decide), if_pos rfl, if_neg hnext]
      rfl
  | _ => rfl

theorem dropWhile_separated (hsep : Separated rest) : rest.dropWhile isWordChar = rest := by
  cases rest with
  | nil => rfl
  | cons c rest =>
    have hspace : whitespace.contains c = true := hsep c rfl
    refine dropWhile_cons_of_neg ?_
    rw [isWordChar, hspace]
    exact Bool.false_ne_true

theorem scan_word (word : Word) (hsep : Separated rest) :
    scan (word.chars ++ rest) = (ch 'a', rest) := by
  have hdrop : (word.chars ++ rest).dropWhile isWordChar = rest := by
    rw [dropWhile_append_of_pos fun c hc => (word.plain c hc).2, dropWhile_separated hsep]
  cases hchars : word.chars with
  | nil => exact absurd hchars word.nonempty
  | cons c more =>
    obtain ⟨hzero, hplain⟩ := word.plain c (by rw [hchars]; exact mem_cons_self)
    have hsymbol : symbols.contains c = false := by
      rw [isWordChar, Bool.and_eq_true, Bool.not_eq_true', Bool.not_eq_true'] at hplain
      exact hplain.2
    have hnot : ∀ d ∈ symbols, c ≠ d := by
      rintro d hd rfl
      rw [contains_iff_mem.mpr hd] at hsymbol
      cases hsymbol
    have hsingle : c ∉ [ch '|', ch '(', ch ')', ch ';', ch '&', ch '<'] := by
      intro hmem
      refine hnot c ?_ rfl
      revert hmem
      simp only [symbols, mem_cons, not_mem_nil, or_false]
      tauto
    rw [hchars] at hdrop
    rw [cons_append, scan, if_neg hzero, if_neg hsingle,
      if_neg (hnot _ (by decide)), ← cons_append, hdrop]

theorem gettoken_spaced (hspaced : Spaced (token :: tokens) s) :
    ∃ rest, gettoken s = ⟨token.code, token.text ++ rest, rest, skip rest⟩ ∧
      Separated rest ∧ Spaced tokens (skip rest) ∧ token.text ++ rest <:+ s := by
  obtain ⟨rest, hskip, hsep, hrest⟩ := hspaced.skip_eq
  have hscan : scan (token.text ++ rest) = (token.code, rest) := by
    cases token with
    | symbol mark => exact scan_symbol mark hsep
    | word word => exact scan_word word hsep
  refine ⟨rest, ?_, hsep, hrest.skip, hskip ▸ skip_suffix s⟩
  rw [gettoken, hskip, hscan]

theorem gettoken_done (hspaced : Spaced [] s) : gettoken s = ⟨0, [], [], []⟩ := by
  rw [gettoken, hspaced.skip_done]
  rfl

def Starts (toks : List Byte) : List Token → Bool
  | .symbol mark :: _ => mark.text.head?.any toks.contains
  | _ => false

theorem peek_spaced {toks : List Byte} (htoks : ∀ c ∈ toks, c ∈ symbols)
    (hspaced : Spaced tokens s) : peek s toks = (Starts toks tokens, skip s) := by
  cases tokens with
  | nil =>
    rw [peek, hspaced.skip_done]
    rfl
  | cons token tokens =>
    obtain ⟨rest, hskip, -⟩ := hspaced.skip_eq
    rw [peek, hskip]
    refine congrArg (·, _) ?_
    cases token with
    | symbol mark =>
      cases mark with
      | redir kind => cases kind <;> simp [Token.text, Symbol.text, Starts, ch]
      | _ => simp [Token.text, Symbol.text, Starts, ch]
    | word word =>
      cases hchars : word.chars with
      | nil => exact absurd hchars word.nonempty
      | cons c more =>
        have hplain := (word.plain c (by rw [hchars]; exact mem_cons_self)).2
        have hnot : c ∉ toks := by
          intro hmem
          have hsymbol := contains_iff_mem.mpr (htoks c hmem)
          rw [isWordChar, hsymbol, Bool.and_comm] at hplain
          cases hplain
        simp [Token.text, hchars, Starts, hnot]

/-! ## The state of the parser -/

/-- The parser is at a place of the line from which on these tokens are left. -/
structure Ahead (text : List Byte) (tokens : List Token) (s : List Byte) : Prop where
  spaced : Spaced tokens s
  suffix : s <:+ text

theorem Ahead.skip (hahead : Ahead text tokens s) : Ahead text tokens (ShellParser.skip s) :=
  ⟨hahead.spaced.skip, (skip_suffix s).trans hahead.suffix⟩

/-- The pointers to the start and to the end of a word. -/
structure Points (text : List Byte) (arg : Ptr × Ptr) (word : Word) : Prop where
  chars : arg.1 = word.chars ++ arg.2
  suffix : arg.1 <:+ text
  separated : Separated arg.2

theorem Ahead.next (hahead : Ahead text (token :: tokens) s) :
    ∃ rest, gettoken s = ⟨token.code, token.text ++ rest, rest, ShellParser.skip rest⟩ ∧
      Separated rest ∧ Ahead text tokens (ShellParser.skip rest) ∧ token.text ++ rest <:+ text := by
  obtain ⟨rest, hget, hsep, hspaced, hsuffix⟩ := gettoken_spaced hahead.spaced
  have htext := hsuffix.trans hahead.suffix
  have hrest : rest <:+ text := (suffix_append _ _).trans htext
  exact ⟨rest, hget, hsep, ⟨hspaced, (skip_suffix rest).trans hrest⟩, htext⟩

theorem Ahead.symbol {mark : Symbol} (hahead : Ahead text (.symbol mark :: tokens) s) :
    (gettoken s).ret = mark.code ∧ Ahead text tokens (gettoken s).ps := by
  obtain ⟨rest, hget, -, hnext, -⟩ := hahead.next
  rw [hget]
  exact ⟨rfl, hnext⟩

theorem Ahead.word {word : Word} (hahead : Ahead text (.word word :: tokens) s) :
    (gettoken s).ret = ch 'a' ∧ Points text ((gettoken s).q, (gettoken s).eq) word ∧
      Ahead text tokens (gettoken s).ps := by
  obtain ⟨rest, hget, hsep, hnext, hsuffix⟩ := hahead.next
  rw [hget]
  exact ⟨rfl, ⟨rfl, hsuffix, hsep⟩, hnext⟩

theorem Ahead.peek (hahead : Ahead text tokens s) (toks : List Byte)
    (htoks : ∀ c ∈ toks, c ∈ symbols) :
    ShellParser.peek s toks = (Starts toks tokens, ShellParser.skip s) :=
  peek_spaced htoks hahead.spaced

theorem Ahead.peek_symbol {mark : Symbol}
    (hahead : Ahead text (.symbol mark :: tokens) s) (toks : List Byte)
    (htoks : ∀ c ∈ toks, c ∈ symbols) (hmark : mark.text.head?.any toks.contains = true) :
    ShellParser.peek s toks = (true, ShellParser.skip s) := by
  rw [hahead.peek toks htoks, Starts, hmark]

theorem Spaced.length_le (hspaced : Spaced tokens s) : tokens.length ≤ s.length := by
  induction hspaced with
  | done => exact Nat.zero_le _
  | @token blank rest token tokens hblank hsep hrest ih =>
    obtain ⟨c, more, htext, -⟩ := token.text_head
    simp only [length_cons, length_append, htext]
    omega

/-- What may follow a command inside parentheses or at the end of the line. -/
def Closing : List Token → Prop
  | [] => True
  | .symbol .rparen :: _ => True
  | _ => False

theorem Closing.starts (hclosing : Closing tokens) :
    Starts [ch '<', ch '>'] tokens = false ∧ Starts [ch '|'] tokens = false ∧
      Starts [ch '&'] tokens = false ∧ Starts [ch ';'] tokens = false ∧
      Starts [ch '('] tokens = false := by
  match tokens, hclosing with
  | [], _ => exact ⟨rfl, rfl, rfl, rfl, rfl⟩
  | .symbol .rparen :: _, _ => exact ⟨rfl, rfl, rfl, rfl, rfl⟩

/-! ## Redirections and arguments -/

theorem parseredirsLoop_none (rounds : ℕ) (hahead : Ahead text tokens s)
    (hnone : Starts [ch '<', ch '>'] tokens = false) :
    parseredirsLoop (rounds + 1) s = .ok ([], skip s) := by
  simp only [parseredirsLoop, hahead.peek [ch '<', ch '>'] (by decide), hnone]
  rfl

theorem parseredirs_none (hahead : Ahead text tokens s)
    (hnone : Starts [ch '<', ch '>'] tokens = false) : parseredirs s = .ok ([], skip s) :=
  parseredirsLoop_none s.length hahead hnone

theorem redirection_code (kind : Kind) (q eq : Ptr) :
    redirection (Symbol.redir kind).code q eq = [⟨q, eq, kind.mode, kind.fd⟩] := by
  cases kind <;> rfl

theorem parseredirs_one {kind : Kind} {file : Word}
    (hahead : Ahead text (.symbol (.redir kind) :: .word file :: tokens) s)
    (hnone : Starts [ch '<', ch '>'] tokens = false) :
    ∃ arg s', parseredirs s = .ok ([⟨arg.1, arg.2, kind.mode, kind.fd⟩], s') ∧
      Points text arg file ∧ Ahead text tokens s' := by
  obtain ⟨rounds, hrounds⟩ : ∃ rounds, s.length = rounds + 1 := by
    have hlen := hahead.spaced.length_le
    rw [length_cons] at hlen
    exact Nat.exists_eq_add_of_lt (by omega : 0 < s.length) |>.imp fun k hk => by omega
  have hstarts : Starts [ch '<', ch '>']
      (.symbol (.redir kind) :: .word file :: tokens) = true := by
    cases kind <;> rfl
  obtain ⟨hcode, hafter⟩ := hahead.skip.symbol
  obtain ⟨hword, hpoints, hrest⟩ := hafter.word
  refine ⟨_, _, ?_, hpoints, hrest.skip⟩
  rw [parseredirs, hrounds]
  rw [parseredirsLoop, hahead.peek [ch '<', ch '>'] (by decide)]
  simp only [hstarts, if_true, hword, ne_eq, not_true_eq_false, if_false,
    parseredirsLoop_none rounds hrest hnone, hcode, redirection_code]
  rfl

theorem parseargs_words (words : List Word) (rounds : ℕ) (argv : List (Ptr × Ptr))
    (hahead : Ahead text (words.map .word ++ tokens) s) (hclosing : Closing tokens)
    (hfew : argv.length + words.length < MAXARGS) (hrounds : words.length < rounds) :
    ∃ args s', parseargs rounds argv [] s = .ok (.exec (argv ++ args), s') ∧
      List.Forall₂ (Points text) args words ∧ Ahead text tokens s' := by
  induction words generalizing rounds argv s with
  | nil =>
    obtain ⟨rounds, rfl⟩ := Nat.exists_eq_add_of_lt hrounds
    rw [map_nil, nil_append] at hahead
    simp only [length_nil, Nat.zero_add]
    match tokens, hclosing with
    | [], _ =>
      refine ⟨[], [], ?_, .nil, ⟨.done (by simp), nil_suffix⟩⟩
      rw [parseargs, hahead.peek [ch '|', ch ')', ch '&', ch ';'] (by decide)]
      simp only [gettoken_done hahead.skip.spaced, append_nil]
      rfl
    | .symbol .rparen :: tokens, _ =>
      refine ⟨[], skip s, ?_, .nil, hahead.skip⟩
      rw [parseargs, hahead.peek [ch '|', ch ')', ch '&', ch ';'] (by decide), append_nil]
      rfl
  | cons word words ih =>
    obtain ⟨rounds, rfl⟩ : ∃ k, rounds = k + 1 := ⟨rounds - 1, by
      rw [length_cons] at hrounds
      omega⟩
    rw [length_cons] at hfew hrounds
    rw [map_cons, cons_append] at hahead
    obtain ⟨hcode, hpoints, hrest⟩ := hahead.skip.word
    have hnone : Starts [ch '<', ch '>'] (words.map .word ++ tokens) = false := by
      cases words with
      | nil => exact hclosing.starts.1
      | cons next words => rfl
    obtain ⟨args, s', hargs, hforall, hafter⟩ := ih rounds
      (argv ++ [((gettoken (skip s)).q, (gettoken (skip s)).eq)]) hrest.skip
      (by rw [length_append, length_singleton]; omega) (by omega)
    refine ⟨((gettoken (skip s)).q, (gettoken (skip s)).eq) :: args, s', ?_,
      .cons hpoints hforall, hafter⟩
    have hnotMany : ¬ MAXARGS ≤
        (argv ++ [((gettoken (skip s)).q, (gettoken (skip s)).eq)]).length := by
      rw [length_append, length_singleton]
      omega
    have hzero : ¬ ch 'a' = 0 := by decide
    rw [append_assoc] at hargs
    rw [parseargs, hahead.peek [ch '|', ch ')', ch '&', ch ';'] (by decide)]
    simp only [Starts, Bool.false_eq_true, if_false, hcode, hzero, ne_eq,
      not_true_eq_false, hnotMany, parseredirs_none hrest hnone, append_nil]
    exact hargs

/-! ## Commands -/

/-- The command is the tree, with pointers around its words. -/
inductive Reads (text : List Byte) : Cmd → Tree → Prop where
  | exec {args : List (Ptr × Ptr)} {words : List Word} {few : words.length < MAXARGS} :
      List.Forall₂ (Points text) args words → Reads text (.exec args) (.exec words few)
  | redir {cmd : Cmd} {tree : Tree} {arg : Ptr × Ptr} {kind : Kind} {file : Word} :
      Reads text cmd tree → Points text arg file →
      Reads text (.redir cmd arg.1 arg.2 kind.mode kind.fd) (.redir tree kind file)
  | pipe {left right : Cmd} {leftTree rightTree : Tree} :
      Reads text left leftTree → Reads text right rightTree →
      Reads text (.pipe left right) (.pipe leftTree rightTree)
  | list {left right : Cmd} {leftTree rightTree : Tree} :
      Reads text left leftTree → Reads text right rightTree →
      Reads text (.list left right) (.list leftTree rightTree)
  | back {cmd : Cmd} {tree : Tree} : Reads text cmd tree → Reads text (.back cmd) (.back tree)

/-- `parseline` reads a printed tree up to a closing token. -/
def LineReads (text : List Byte) (tree : Tree) : Prop :=
  ∀ frames s tokens, Ahead text (tree.tokens ++ tokens) s → Closing tokens →
    4 * tree.tokens.length + 4 ≤ frames →
    ∃ cmd s', parseline frames s = .ok (cmd, s') ∧ Reads text cmd tree ∧ Ahead text tokens s'

theorem parseexec_block {tree : Tree} (hline : LineReads text tree) {frames : ℕ}
    (hahead : Ahead text (parens tree.tokens ++ tokens) s)
    (hframes : 4 * tree.tokens.length + 6 ≤ frames) :
    ∃ cmd s', Reads text cmd tree ∧ Ahead text tokens s' ∧ parseexec frames s =
        (parseredirs s').map fun (redirs, s) => (wrap cmd redirs, s) := by
  obtain ⟨frames, rfl⟩ : ∃ k, frames = k + 2 := ⟨frames - 2, by omega⟩
  have hopen : Ahead text (.symbol .lparen :: (tree.tokens ++ (.symbol .rparen :: tokens))) s := by
    have htokens : parens tree.tokens ++ tokens =
        .symbol .lparen :: (tree.tokens ++ (.symbol .rparen :: tokens)) := by
      simp [parens]
    rwa [htokens] at hahead
  obtain ⟨cmd, s₁, hparse, hreads, hclose⟩ := hline frames _ _
    hopen.skip.skip.symbol.2 trivial (by omega)
  refine ⟨cmd, (gettoken (skip s₁)).ps, hreads, hclose.skip.symbol.2, ?_⟩
  rw [parseexec, hopen.peek_symbol [ch '('] (by decide) (by decide)]
  simp only [if_true]
  rw [parseblock, hopen.skip.peek_symbol [ch '('] (by decide) (by decide)]
  simp only [Bool.true_eq_false, if_false, hparse,
    hclose.peek_symbol [ch ')'] (by decide) (by decide)]

theorem parseexec_plain {tree : Tree} (hline : LineReads text tree) {frames : ℕ}
    (hahead : Ahead text (parens tree.tokens ++ tokens) s)
    (hnone : Starts [ch '<', ch '>'] tokens = false)
    (hframes : 4 * tree.tokens.length + 6 ≤ frames) :
    ∃ cmd s', parseexec frames s = .ok (cmd, s') ∧ Reads text cmd tree ∧ Ahead text tokens s' := by
  obtain ⟨cmd, s₁, hreads, hrest, hparse⟩ := parseexec_block hline hahead hframes
  refine ⟨cmd, skip s₁, ?_, hreads, hrest.skip⟩
  rw [hparse, parseredirs_none hrest hnone]
  rfl

theorem parsepipe_of_exec {frames : ℕ} {cmd : Cmd} {s' : List Byte}
    (hexec : parseexec frames s = .ok (cmd, s')) (hahead : Ahead text tokens s')
    (hnone : Starts [ch '|'] tokens = false) : parsepipe (frames + 1) s = .ok (cmd, skip s') := by
  simp only [parsepipe, hexec, hahead.peek [ch '|'] (by decide), hnone]
  rfl

theorem parseback_none (rounds : ℕ) {cmd : Cmd} (hahead : Ahead text tokens s)
    (hnone : Starts [ch '&'] tokens = false) : parseback (rounds + 1) cmd s = (cmd, skip s) := by
  simp only [parseback, hahead.peek [ch '&'] (by decide), hnone]
  rfl

theorem parseline_of_pipe {frames : ℕ} {cmd : Cmd} {s' : List Byte}
    (hpipe : parsepipe frames s = .ok (cmd, s')) (hahead : Ahead text tokens s')
    (hclosing : Closing tokens) : parseline (frames + 1) s = .ok (cmd, skip (skip s')) := by
  obtain ⟨-, -, hback, hlist, -⟩ := hclosing.starts
  simp only [parseline, hpipe, parseback_none _ hahead hback,
    hahead.skip.peek [ch ';'] (by decide), hlist]
  rfl

theorem parseline_of_exec {frames : ℕ} {cmd : Cmd} {s' : List Byte}
    (hexec : parseexec frames s = .ok (cmd, s')) (hahead : Ahead text tokens s')
    (hclosing : Closing tokens) :
    ∃ s'', parseline (frames + 2) s = .ok (cmd, s'') ∧ Ahead text tokens s'' :=
  ⟨_, parseline_of_pipe (parsepipe_of_exec hexec hahead hclosing.starts.2.1)
    hahead.skip hclosing, hahead.skip.skip.skip⟩

theorem lineReads_exec (words : List Word) (few : words.length < MAXARGS) :
    LineReads text (.exec words few) := by
  intro frames s tokens hahead hclosing hframes
  obtain ⟨frames, rfl⟩ : ∃ k, frames = k + 3 := ⟨frames - 3, by omega⟩
  simp only [Tree.tokens] at hahead
  have hopen : Starts [ch '('] (words.map .word ++ tokens) = false := by
    cases words with
    | nil => exact hclosing.starts.2.2.2.2
    | cons word words => rfl
  have hredirs : Starts [ch '<', ch '>'] (words.map .word ++ tokens) = false := by
    cases words with
    | nil => exact hclosing.starts.1
    | cons word words => rfl
  have hlen := hahead.skip.skip.spaced.length_le
  rw [length_append, length_map] at hlen
  obtain ⟨args, s', hargs, hforall, hrest⟩ := parseargs_words words
    ((skip (skip s)).length + 1) [] hahead.skip.skip hclosing
    (by rw [length_nil, Nat.zero_add]; exact few) (by omega)
  have hexec : parseexec (frames + 1) s = .ok (.exec args, s') := by
    simp only [parseexec, hahead.peek [ch '('] (by decide), hopen, Bool.false_eq_true, if_false,
      parseredirs_none hahead.skip hredirs]
    exact hargs
  obtain ⟨s'', hline, hafter⟩ := parseline_of_exec hexec hrest hclosing
  exact ⟨_, s'', hline, .exec hforall, hafter⟩

theorem lineReads_redir {tree : Tree} (hline : LineReads text tree) (kind : Kind)
    (file : Word) : LineReads text (.redir tree kind file) := by
  intro frames s tokens hahead hclosing hframes
  simp only [Tree.tokens, parens, length_append, length_cons, length_nil] at hframes
  obtain ⟨frames, rfl⟩ : ∃ k, frames = k + 2 := ⟨frames - 2, by omega⟩
  rw [Tree.tokens, append_assoc] at hahead
  obtain ⟨cmd, s₁, hreads, hredir, hparse⟩ := parseexec_block hline hahead (by omega : _ ≤ frames)
  obtain ⟨arg, s₂, hredirs, hpoints, hrest⟩ := parseredirs_one hredir hclosing.starts.1
  have hexec : parseexec frames s = .ok (.redir cmd arg.1 arg.2 kind.mode kind.fd, s₂) := by
    rw [hparse, hredirs]
    rfl
  obtain ⟨s'', hparsed, hafter⟩ := parseline_of_exec hexec hrest hclosing
  exact ⟨_, s'', hparsed, .redir hreads hpoints, hafter⟩

theorem lineReads_pipe {left right : Tree} (hleft : LineReads text left)
    (hright : LineReads text right) : LineReads text (.pipe left right) := by
  intro frames s tokens hahead hclosing hframes
  simp only [Tree.tokens, parens, length_append, length_cons, length_nil] at hframes
  obtain ⟨frames, rfl⟩ : ∃ k, frames = k + 3 := ⟨frames - 3, by omega⟩
  rw [Tree.tokens, append_assoc, cons_append] at hahead
  obtain ⟨cmd, s₁, hexec, hreads, hbar⟩ :=
    parseexec_plain hleft hahead rfl (by omega : _ ≤ frames + 1)
  obtain ⟨other, s₂, hexec', hreads', hrest⟩ :=
    parseexec_plain hright hbar.skip.symbol.2 hclosing.starts.1 (by omega : _ ≤ frames)
  have hpipe : parsepipe (frames + 2) s = .ok (.pipe cmd other, skip s₂) := by
    rw [parsepipe]
    simp only [hexec, hbar.peek_symbol [ch '|'] (by decide) (by decide), if_true,
      parsepipe_of_exec hexec' hrest hclosing.starts.2.1]
    rfl
  exact ⟨_, _, parseline_of_pipe hpipe hrest.skip hclosing, .pipe hreads hreads',
    hrest.skip.skip.skip⟩

theorem lineReads_list {left right : Tree} (hleft : LineReads text left)
    (hright : LineReads text right) : LineReads text (.list left right) := by
  intro frames s tokens hahead hclosing hframes
  simp only [Tree.tokens, parens, length_append, length_cons, length_nil] at hframes
  obtain ⟨frames, rfl⟩ : ∃ k, frames = k + 3 := ⟨frames - 3, by omega⟩
  rw [Tree.tokens, append_assoc, cons_append] at hahead
  obtain ⟨cmd, s₁, hexec, hreads, hsemicolon⟩ :=
    parseexec_plain hleft hahead rfl (by omega : _ ≤ frames + 1)
  have hpipe := parsepipe_of_exec hexec hsemicolon rfl
  obtain ⟨other, s₂, hexec', hreads', hrest⟩ :=
    parseexec_plain hright hsemicolon.skip.skip.skip.symbol.2 hclosing.starts.1
      (by omega : _ ≤ frames)
  obtain ⟨s₃, hline, hafter⟩ := parseline_of_exec hexec' hrest hclosing
  refine ⟨.list cmd other, s₃, ?_, .list hreads hreads', hafter⟩
  rw [parseline]
  simp only [hpipe, parseback_none _ hsemicolon.skip rfl,
    hsemicolon.skip.skip.peek_symbol [ch ';'] (by decide) (by decide), if_true, hline]
  rfl

theorem lineReads_back {tree : Tree} (hline : LineReads text tree) :
    LineReads text (.back tree) := by
  intro frames s tokens hahead hclosing hframes
  simp only [Tree.tokens, parens, length_append, length_cons, length_nil] at hframes
  obtain ⟨frames, rfl⟩ : ∃ k, frames = k + 2 := ⟨frames - 2, by omega⟩
  rw [Tree.tokens, append_assoc, singleton_append] at hahead
  obtain ⟨cmd, s₁, hexec, hreads, hampersand⟩ :=
    parseexec_plain hline hahead rfl (by omega : _ ≤ frames)
  have hpipe := parsepipe_of_exec hexec hampersand rfl
  have hnext := hampersand.skip.skip.symbol.2
  obtain ⟨rounds, hrounds⟩ : ∃ rounds, (skip s₁).length = rounds + 1 := by
    have hlen := hampersand.skip.spaced.length_le
    rw [length_cons] at hlen
    exact ⟨(skip s₁).length - 1, by omega⟩
  have hback : parseback ((skip s₁).length + 1) cmd (skip s₁) =
      (.back cmd, skip (gettoken (skip (skip s₁))).ps) := by
    rw [hrounds]
    rw [parseback]
    simp only [hampersand.skip.peek_symbol [ch '&'] (by decide) (by decide), if_true,
      parseback_none rounds hnext hclosing.starts.2.2.1]
  refine ⟨.back cmd, _, ?_, .back hreads, hnext.skip.skip⟩
  rw [parseline]
  simp only [hpipe, hback, hnext.skip.peek [ch ';'] (by decide), hclosing.starts.2.2.2.1]
  rfl

theorem lineReads (tree : Tree) : LineReads text tree := by
  induction tree with
  | exec words few => exact lineReads_exec words few
  | redir tree kind file ih => exact lineReads_redir ih kind file
  | pipe left right ihleft ihright => exact lineReads_pipe ihleft ihright
  | list left right ihleft ihright => exact lineReads_list ihleft ihright
  | back tree ih => exact lineReads_back ih

/-! ## The NULs -/

def Cmd.ends : Cmd → List Ptr
  | .exec argv => argv.map Prod.snd
  | .redir cmd _ efile _ _ => cmd.ends ++ [efile]
  | .pipe left right => left.ends ++ right.ends
  | .list left right => left.ends ++ right.ends
  | .back cmd => cmd.ends

theorem nulterminate_eq (cmd : Cmd) (line : List Byte) :
    nulterminate cmd line = cmd.ends.foldl putNul line := by
  induction cmd generalizing line with
  | exec argv => rw [nulterminate, Cmd.ends, foldl_map]
  | redir cmd file efile mode fd ih =>
    rw [nulterminate, Cmd.ends, foldl_append, ih]
    rfl
  | pipe left right ihleft ihright | list left right ihleft ihright =>
    rw [nulterminate, Cmd.ends, foldl_append, ihleft, ihright]
  | back cmd ih => rw [nulterminate, Cmd.ends, ih]

def nulled (places : List Ptr) : List Byte → List Byte
  | [] => []
  | c :: rest => (if c :: rest ∈ places then 0 else c) :: nulled places rest

@[simp]
theorem length_nulled (places : List Ptr) (line : List Byte) :
    (nulled places line).length = line.length := by
  induction line with
  | nil => rfl
  | cons c rest ih => rw [nulled, length_cons, length_cons, ih]

theorem nulled_congr {first second : List Ptr} {line : List Byte}
    (hsame : ∀ place, place <:+ line → (place ∈ first ↔ place ∈ second)) :
    nulled first line = nulled second line := by
  induction line with
  | nil => rfl
  | cons c rest ih =>
    rw [nulled, nulled, ih fun place hplace => hsame place (hplace.trans (suffix_cons c rest))]
    simp only [hsame _ suffix_rfl]

theorem nulled_append (places : List Ptr) (front rest : List Byte) :
    (nulled places (front ++ rest)).drop front.length = nulled places rest := by
  induction front with
  | nil => rfl
  | cons c front ih => rw [cons_append, nulled, length_cons, drop_succ_cons, ih]

theorem putNul_nulled {places : List Ptr} {line place : List Byte} (hplace : place <:+ line) :
    putNul (nulled places line) place = nulled (place :: places) line := by
  obtain ⟨front, rfl⟩ := hplace
  rw [putNul, length_nulled, length_append, Nat.add_sub_cancel]
  induction front with
  | nil =>
    cases place with
    | nil => rfl
    | cons c rest =>
      -- the places after this one are shorter
      have hrest : nulled ((c :: rest) :: places) rest = nulled places rest := by
        refine nulled_congr fun other ho => ?_
        have hne : other ≠ c :: rest := by
          rintro rfl
          have hlen := ho.length_le
          rw [length_cons] at hlen
          omega
        rw [mem_cons, or_iff_right hne]
      rw [nil_append, nulled, nulled, length_nil, set_cons_zero, if_pos mem_cons_self, hrest]
  | cons c front ih =>
    have hne : c :: (front ++ place) ≠ place := by
      intro heq
      have hlen := congrArg List.length heq
      rw [length_cons, length_append] at hlen
      omega
    rw [cons_append, nulled, nulled, length_cons, set_cons_succ, ih]
    simp only [mem_cons, or_iff_right hne]

theorem foldl_putNul {line : List Byte} (ends places : List Ptr)
    (hends : ∀ place ∈ ends, place <:+ line) :
    ∃ all, ends.foldl putNul (nulled places line) = nulled all line ∧
      ∀ place, place ∈ all ↔ place ∈ ends ∨ place ∈ places := by
  induction ends generalizing places with
  | nil => exact ⟨places, rfl, fun place => by simp⟩
  | cons first ends ih =>
    obtain ⟨all, hfold, hall⟩ := ih (first :: places) fun place hplace =>
      hends place (mem_cons_of_mem first hplace)
    refine ⟨all, ?_, fun place => ?_⟩
    · rw [foldl_cons, putNul_nulled (hends first mem_cons_self), hfold]
    · rw [hall, mem_cons, mem_cons]
      tauto

theorem nulled_nil (line : List Byte) : nulled [] line = line := by
  induction line with
  | nil => rfl
  | cons c rest ih => rw [nulled, if_neg not_mem_nil, ih]

/-- A word whose end is a place of a NUL, with NULs only where white space was. -/
theorem stringAt_nulled {places : List Ptr} {arg : Ptr × Ptr} {word : Word}
    (hpoints : Points text arg word) (hend : arg.2 ∈ places)
    (hplaces : ∀ place ∈ places, Separated place) :
    stringAt (nulled places text) arg.1 = word.chars := by
  obtain ⟨front, hfront⟩ := hpoints.suffix
  have hdrop : (nulled places text).drop
      ((nulled places text).length - arg.1.length) = nulled places arg.1 := by
    rw [length_nulled, ← hfront, length_append, Nat.add_sub_cancel, nulled_append]
  have hchars : ∀ chars : List Byte, (∀ c ∈ chars, c ≠ 0 ∧ isSpace c = false) →
      cstring (nulled places (chars ++ arg.2)) = chars := by
    intro chars hplain
    induction chars with
    | nil =>
      cases hrest : arg.2 with
      | nil => rfl
      | cons c rest =>
        rw [hrest] at hend
        rw [nil_append, nulled, if_pos hend]
        rfl
    | cons c chars ih =>
      obtain ⟨hzero, hspace⟩ := hplain c mem_cons_self
      have hnot : c :: (chars ++ arg.2) ∉ places := by
        intro hmem
        rw [hplaces _ hmem c rfl] at hspace
        cases hspace
      have hrest := ih fun d hd => hplain d (mem_cons_of_mem c hd)
      rw [cons_append, nulled, if_neg hnot, cstring, takeWhile_cons_of_pos (by simpa using hzero)]
      exact congrArg (c :: ·) hrest
  rw [stringAt, hdrop, hpoints.chars]
  exact hchars word.chars fun c hc => ⟨(word.plain c hc).1, isSpace_word word hc⟩

theorem Points.end_suffix {arg : Ptr × Ptr} {word : Word}
    (hpoints : Points text arg word) : arg.2 <:+ text := by
  have hsuffix : arg.2 <:+ arg.1 := by
    rw [hpoints.chars]
    exact suffix_append _ _
  exact hsuffix.trans hpoints.suffix

theorem points_ends {args : List (Ptr × Ptr)} {words : List Word}
    (hforall : List.Forall₂ (Points text) args words) :
    ∀ place ∈ args.map Prod.snd, place <:+ text ∧ Separated place := by
  induction hforall with
  | nil => simp
  | cons hpoints _ ih =>
    intro place hplace
    rw [map_cons, mem_cons] at hplace
    rcases hplace with rfl | hplace
    · exact ⟨hpoints.end_suffix, hpoints.separated⟩
    · exact ih place hplace

theorem points_strings {args : List (Ptr × Ptr)} {words : List Word}
    {places : List Ptr} (hforall : List.Forall₂ (Points text) args words)
    (hends : ∀ place ∈ args.map Prod.snd, place ∈ places)
    (hplaces : ∀ place ∈ places, Separated place) :
    args.map (fun arg => stringAt (nulled places text) arg.1) = words.map Word.chars := by
  induction hforall with
  | nil => rfl
  | cons hpoints _ ih =>
    rw [map_cons] at hends
    rw [map_cons, map_cons, stringAt_nulled hpoints (hends _ mem_cons_self) hplaces,
      ih fun place hplace => hends place (mem_cons_of_mem _ hplace)]

/-- The places of the NULs are in the line, where white space is or at its end. -/
theorem Reads.ends {cmd : Cmd} {tree : Tree} (hreads : Reads text cmd tree) :
    ∀ place ∈ cmd.ends, place <:+ text ∧ Separated place := by
  induction hreads with
  | exec hforall => exact points_ends hforall
  | redir _ hpoints ih =>
    intro place hplace
    rw [Cmd.ends, mem_append, mem_singleton] at hplace
    rcases hplace with hplace | rfl
    · exact ih place hplace
    · exact ⟨hpoints.end_suffix, hpoints.separated⟩
  | pipe _ _ ihleft ihright | list _ _ ihleft ihright =>
    intro place hplace
    rw [Cmd.ends, mem_append] at hplace
    exact hplace.elim (ihleft place) (ihright place)
  | back _ ih => exact ih

theorem Reads.ast_eq {cmd : Cmd} {tree : Tree} (hreads : Reads text cmd tree)
    {places : List Ptr} (hends : ∀ place ∈ cmd.ends, place ∈ places)
    (hplaces : ∀ place ∈ places, Separated place) : cmd.ast (nulled places text) = tree.ast := by
  induction hreads with
  | exec hforall => rw [Cmd.ast, Tree.ast, points_strings hforall hends hplaces]
  | redir _ hpoints ih =>
    rw [Cmd.ends] at hends
    rw [Cmd.ast, Tree.ast, ih fun place hplace => hends place (mem_append_left _ hplace),
      stringAt_nulled hpoints (hends _ (mem_append_right _ mem_cons_self)) hplaces]
  | pipe _ _ ihleft ihright | list _ _ ihleft ihright =>
    rw [Cmd.ends] at hends
    rw [Cmd.ast, Tree.ast, ihleft fun place hplace => hends place (mem_append_left _ hplace),
      ihright fun place hplace => hends place (mem_append_right _ hplace)]
  | back _ ih => rw [Cmd.ast, Tree.ast, ih hends]

theorem Spaced.cstring_eq (hspaced : Spaced tokens s) (tail : List Byte) :
    cstring (s ++ 0 :: tail) = s := by
  have hplain : ∀ c ∈ s, c ≠ 0 := by
    have hblank : ∀ c, isSpace c = true → c ≠ 0 := by
      rintro c hc rfl
      exact absurd hc (by decide)
    induction hspaced with
    | done hspaces => exact fun c hc => hblank c (hspaces c hc)
    | @token blank rest token tokens hspaces _ _ ih =>
      intro c hc
      rw [mem_append, mem_append] at hc
      rcases hc with hc | hc | hc
      · exact hblank c (hspaces c hc)
      · cases token with
        | word word => exact (word.plain c hc).1
        | symbol mark =>
          rintro rfl
          revert hc
          cases mark with
          | redir kind => cases kind <;> decide
          | _ => decide
      · exact ih c hc
  rw [cstring, takeWhile_append_of_pos (by simpa using hplain)]
  simp

/-- For every tree, however it is printed, `parsecmd` returns the tree: the strings
are those of the tree after `nulterminate`, and there is no panic. -/
theorem parsecmd_undoes_printing (tree : Tree) (text tail : List Byte)
    (hprints : Prints tree text) :
    ∃ cmd line, parsecmd (text ++ 0 :: tail) = .ok (cmd, line) ∧ cmd.ast line = tree.ast := by
  have hahead : Ahead text (tree.tokens ++ []) text := by
    rw [append_nil]
    exact ⟨hprints, suffix_rfl⟩
  have hlength : tree.tokens.length ≤ text.length := hprints.length_le
  obtain ⟨cmd, s', hline, hreads, hrest⟩ := lineReads tree (4 * text.length + 4) text []
    hahead trivial (by omega)
  have hends := hreads.ends
  obtain ⟨places, hfold, hplaces⟩ := foldl_putNul cmd.ends []
    fun place hplace => (hends place hplace).1
  refine ⟨cmd, nulled places text, ?_, ?_⟩
  · have hdone : (peek s' []).2 = [] := hrest.spaced.skip_done
    simp only [parsecmd, hprints.cstring_eq tail, hline, hdone, ne_eq, not_true_eq_false, if_false]
    rw [nulterminate_eq, ← hfold, nulled_nil]
  · refine hreads.ast_eq (fun place hplace => (hplaces place).mpr (.inl hplace)) ?_
    intro place hplace
    rcases (hplaces place).mp hplace with hend | hnil
    · exact (hends place hend).2
    · cases hnil

def lsWord : Word := ⟨[ch 'l', ch 's'], by simp, by decide⟩

theorem separated_blank (rest : List Byte) : Separated (ch ' ' :: rest) := by
  intro c hc
  cases hc
  decide

/-- `( ls ) > ls` -/
theorem parsecmd_undoes_printing_redir :
    ∃ cmd line, parsecmd ([ch '(', ch ' ', ch 'l', ch 's', ch ' ', ch ')', ch ' ',
        ch '>', ch ' ', ch 'l', ch 's'] ++ 0 :: []) = .ok (cmd, line) ∧
      cmd.ast line = (Tree.redir (.exec [lsWord] (by decide)) .output lsWord).ast := by
  refine parsecmd_undoes_printing _ _ [] ?_
  have hend : Spaced [] [] := .done (by simp)
  have hfile : Spaced [.word lsWord] [ch ' ', ch 'l', ch 's'] :=
    @Spaced.token [ch ' '] [] _ _ (by decide) (by simp [Separated]) hend
  have hmark := @Spaced.token [ch ' '] [ch ' ', ch 'l', ch 's']
    (.symbol (.redir .output)) _ (by decide) (separated_blank _) hfile
  have hclose := @Spaced.token [ch ' '] [ch ' ', ch '>', ch ' ', ch 'l', ch 's']
    (.symbol .rparen) _ (by decide) (separated_blank _) hmark
  have hword := @Spaced.token [ch ' ']
    [ch ' ', ch ')', ch ' ', ch '>', ch ' ', ch 'l', ch 's'] (.word lsWord) _
    (by decide) (separated_blank _) hclose
  exact @Spaced.token [] [ch ' ', ch 'l', ch 's', ch ' ', ch ')', ch ' ', ch '>',
    ch ' ', ch 'l', ch 's'] (.symbol .lparen) _ (by decide) (separated_blank _) hword

end Xv6.ShellParser
