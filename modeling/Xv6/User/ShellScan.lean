import Xv6.User.ShellRoundTrip

/-!
# The parser of the shell stays inside the line

Every line, well formed or not, makes `parsecmd` return a command or one of the failures of
the source.  A pointer only moves towards the end `es`: as a list of characters it is a
suffix of what it was.  The frames of the recursion suffice because four calls in a row take
a parenthesis, and a loop ends through its own test because every round takes a character.
-/

namespace Xv6.ShellScan

open ShellParser List

/-- `[q, eq)` is a nonempty part of the line without white space and symbols. -/
def Stored (line q eq : Ptr) : Prop :=
  q <:+ line ∧ ∃ word, q = word ++ eq ∧ word ≠ [] ∧ ∀ c ∈ word, isWordChar c = true

/-- The pointers in a command; the NULL after the arguments has an index below `MAXARGS`. -/
def Good (line : Ptr) : Cmd → Prop
  | .exec argv => argv.length < MAXARGS ∧ ∀ arg ∈ argv, Stored line arg.1 arg.2
  | .redir cmd file efile _ _ => Good line cmd ∧ Stored line file efile
  | .pipe left right => Good line left ∧ Good line right
  | .list left right => Good line left ∧ Good line right
  | .back cmd => Good line cmd

/-- A call at `s` fails as the source does, or returns with the pointer at or behind `s`. -/
def Within {α : Type} (s : Ptr) (good : α → Ptr → Prop) : Except Failure (α × Ptr) → Prop
  | .error failure => failure ≠ .stack
  | .ok (value, rest) => rest <:+ s ∧ good value rest

section
variable {α β : Type} {s first line : Ptr} {result : Except Failure (α × Ptr)}

theorem Within.mono {good good' : α → Ptr → Prop} (hwithin : Within first good result)
    (hfst : first <:+ s) (hgood : ∀ value rest, good value rest → good' value rest) :
    Within s good' result := by
  cases result with
  | error failure => exact hwithin
  | ok found => exact ⟨hwithin.1.trans hfst, hgood _ _ hwithin.2⟩

theorem Within.map {good : α → Ptr → Prop} {good' : β → Ptr → Prop}
    (hwithin : Within s good result) {f : α → β}
    (hgood : ∀ value rest, good value rest → good' (f value) rest) :
    Within s good' (result.map fun (value, rest) => (f value, rest)) := by
  cases result with
  | error failure => exact hwithin
  | ok found => exact ⟨hwithin.1, hgood _ _ hwithin.2⟩

theorem Within.next {good : α → Ptr → Prop} {good' : β → Ptr → Prop}
    {outcome : Except Failure (β × Ptr)} (hwithin : Within s good result)
    (herror : ∀ failure, result = .error failure → outcome = .error failure)
    (hnext : ∀ value rest, result = .ok (value, rest) → rest <:+ s → good value rest →
      Within rest good' outcome) : Within s good' outcome := by
  cases result with
  | error failure => exact herror failure rfl ▸ hwithin
  | ok found => exact (hnext _ _ rfl hwithin.1 hwithin.2).mono hwithin.1 fun _ _ h => h

/-! ## Tokens -/

theorem skip_skip (s : Ptr) : skip (skip s) = skip s := dropWhile_idempotent _ _

theorem scan_cons {c : Byte} (hc : c ≠ 0) (rest : Ptr) :
    ((scan (c :: rest)).1 ≠ 0 ∧ (scan (c :: rest)).1 ≠ ch 'a' ∧ (scan (c :: rest)).2 <:+ rest) ∨
      (c ∉ symbols ∧ scan (c :: rest) = (ch 'a', (c :: rest).dropWhile isWordChar)) := by
  rw [scan, if_neg hc]
  by_cases hsymbol : c ∈ [ch '|', ch '(', ch ')', ch ';', ch '&', ch '<']
  · rw [if_pos hsymbol]
    refine .inl ⟨hc, ?_, suffix_rfl⟩
    rintro rfl
    exact absurd hsymbol (by decide)
  rw [if_neg hsymbol]
  by_cases houtput : c = ch '>'
  · have hmarks : ch '+' ≠ 0 ∧ ch '+' ≠ ch 'a' ∧ ch '>' ≠ ch 'a' := by decide
    rw [if_pos houtput]
    by_cases hmore : rest.head? = some (ch '>')
    · rw [if_pos hmore]
      exact .inl ⟨hmarks.1, hmarks.2.1, tail_suffix _⟩
    · rw [if_neg hmore]
      exact .inl ⟨hc, houtput ▸ hmarks.2.2, suffix_rfl⟩
  · rw [if_neg houtput]
    simp only [mem_cons, not_mem_nil, or_false, not_or] at hsymbol
    exact .inr ⟨by simp [symbols, hsymbol, houtput], rfl⟩

theorem scan_spec {q : Ptr} (hspace : ∀ c, q.head? = some c → isSpace c = false) :
    (scan q).2 <:+ q ∧ ((scan q).1 ≠ 0 → (scan q).2.length < q.length) ∧
      ((scan q).1 = ch 'a' → Stored q q (scan q).2) ∧
      ∀ c, q.head? = some c → c ≠ 0 → (scan q).1 ≠ 0 := by
  have hnul : (0 : Byte) ≠ ch 'a' := by decide
  cases q with
  | nil =>
    exact ⟨suffix_rfl, fun h => absurd rfl h, fun h => absurd h hnul, fun _ hc => by cases hc⟩
  | cons c rest =>
    by_cases hc : c = 0
    · have hscan : scan (c :: rest) = (0, c :: rest) := by rw [scan, if_pos hc]
      rw [hscan]
      refine ⟨suffix_rfl, fun h => absurd rfl h, fun h => absurd h hnul, ?_⟩
      intro d hd hne
      exact absurd (by rw [← Option.some.inj hd, hc]) hne
    rcases scan_cons hc rest with ⟨hret, hword, hsuffix⟩ | ⟨hsymbol, hscan⟩
    · exact ⟨hsuffix.trans (suffix_cons _ _),
        fun _ => hsuffix.length_le.trans_lt (Nat.lt_succ_self _), fun h => absurd h hword,
        fun _ _ _ => hret⟩
    · have hchar : isWordChar c = true := by
        have hplain : c ∉ whitespace := by simpa [isSpace] using hspace c rfl
        simp [isWordChar, hplain, hsymbol]
      have hsuffix := dropWhile_suffix (l := rest) isWordChar
      rw [hscan, dropWhile_cons_of_pos hchar]
      refine ⟨hsuffix.trans (suffix_cons _ _),
        fun _ => hsuffix.length_le.trans_lt (Nat.lt_succ_self _), fun _ => ?_,
        fun _ _ _ => hnul.symm⟩
      refine ⟨suffix_rfl, c :: rest.takeWhile isWordChar, ?_, cons_ne_nil _ _, ?_⟩
      · rw [cons_append, takeWhile_append_dropWhile]
      · exact forall_mem_cons.mpr ⟨hchar, fun d hd => mem_takeWhile_imp hd⟩

theorem skip_head {c : Byte} (hc : (skip s).head? = some c) : isSpace c = false := by
  have hhead := List.head?_dropWhile_not isSpace s
  rw [skip] at hc
  rw [hc] at hhead
  simpa using hhead

theorem gettoken_spec (s : Ptr) :
    (gettoken s).ps <:+ s ∧ ((gettoken s).ret ≠ 0 → (gettoken s).ps.length < s.length) ∧
      ((gettoken s).ret = ch 'a' → Stored s (gettoken s).q (gettoken s).eq) := by
  obtain ⟨hsuffix, hless, hword, -⟩ :=
    scan_spec fun c (hc : (skip s).head? = some c) => skip_head hc
  have hskip := skip_suffix s
  refine ⟨(skip_suffix _).trans (hsuffix.trans hskip), fun hret => ?_, fun hret => ?_⟩
  · exact (skip_suffix _).length_le.trans_lt ((hless hret).trans_le hskip.length_le)
  · exact ⟨hskip, (hword hret).2⟩

theorem peek_spec {toks : List Byte} (hf : (peek s toks).1 = true) :
    (gettoken (skip s)).ps <:+ s ∧ (gettoken (skip s)).ps.length < s.length := by
  obtain ⟨hsuffix, hless, -⟩ := gettoken_spec (skip s)
  have hskip := skip_suffix s
  refine ⟨hsuffix.trans hskip, (hless ?_).trans_le hskip.length_le⟩
  obtain ⟨c, hhead, hc⟩ := (Option.any_eq_true _ _).mp hf
  simp only [Bool.and_eq_true, decide_eq_true_eq] at hc
  obtain ⟨-, -, -, hret⟩ := scan_spec fun c (hc : (skip s).head? = some c) => skip_head hc
  simpa only [gettoken, skip_skip] using hret c hhead hc.1

theorem within_operator {toks : List Byte} {cmd : Cmd} {good : Cmd → Ptr → Prop}
    {next : Ptr → Except Failure (Cmd × Ptr)} {f : Cmd → Cmd}
    (hnext : ∀ rest, rest <:+ s → rest.length < s.length → Within rest good (next rest))
    (hgood : good cmd (skip s)) (hmap : ∀ right rest, good right rest → good (f right) rest) :
    Within s good (if (peek s toks).1 = true then
      (next (gettoken (skip s)).ps).map fun (right, rest) => (f right, rest)
      else .ok (cmd, skip s)) := by
  by_cases hf : (peek s toks).1 = true
  · obtain ⟨htok, hless⟩ := peek_spec hf
    rw [if_pos hf]
    exact ((hnext _ htok hless).mono htok fun _ _ h => h).map hmap
  · rw [if_neg hf]
    exact ⟨skip_suffix s, hgood⟩

theorem peek_snd (s : Ptr) (toks : List Byte) : (peek s toks).2 = skip s := rfl

theorem peek_skip (s : Ptr) (toks : List Byte) : (peek (skip s) toks).1 = (peek s toks).1 := by
  rw [peek, peek, skip_skip]

/-! ## Loops -/

theorem mem_redirection {tok : Byte} {q eq : Ptr} {r : Redirection}
    (hr : r ∈ redirection tok q eq) : r.file = q ∧ r.efile = eq := by
  unfold redirection at hr
  split_ifs at hr <;> simp_all

/-- The files of redirections, after which no other follows. -/
def Redirected (line : Ptr) (redirs : List Redirection) (rest : Ptr) : Prop :=
  (peek rest [ch '<', ch '>']).1 = false ∧ ∀ r ∈ redirs, Stored line r.file r.efile

theorem parseredirsLoop_within (rounds : ℕ) : ∀ s : Ptr, s <:+ line → s.length < rounds →
    Within s (Redirected line) (parseredirsLoop rounds s) := by
  induction rounds with
  | zero =>
    intro s _ hrounds
    exact absurd hrounds (Nat.not_lt_zero _)
  | succ rounds ih =>
    intro s hs hrounds
    rw [parseredirsLoop]
    change Within s _ (if (peek s [ch '<', ch '>']).1 = true then
      if (gettoken (gettoken (skip s)).ps).ret ≠ ch 'a' then _ else _ else _)
    by_cases hf : (peek s [ch '<', ch '>']).1 = true
    · obtain ⟨htok, hless⟩ := peek_spec hf
      obtain ⟨hfile, -, hword⟩ := gettoken_spec (gettoken (skip s)).ps
      rw [if_pos hf]
      by_cases hret : (gettoken (gettoken (skip s)).ps).ret = ch 'a'
      · rw [if_neg (not_not.mpr hret)]
        have hloop := ih _ (hfile.trans (htok.trans hs)) (hfile.length_le.trans_lt (by omega))
        refine (hloop.mono (hfile.trans htok) fun _ _ h => h).map fun redirs rest hgood => ?_
        refine ⟨hgood.1, fun r hr => ?_⟩
        rcases mem_append.mp hr with hr | hr
        · obtain ⟨hq, heq⟩ := mem_redirection hr
          obtain ⟨hsuffix, hplain⟩ := hword hret
          rw [hq, heq]
          exact ⟨hsuffix.trans (htok.trans hs), hplain⟩
        · exact hgood.2 r hr
      · rw [if_pos hret]
        exact fun h => by cases h
    · rw [if_neg hf]
      exact ⟨skip_suffix s, (peek_skip s _).trans (Bool.eq_false_iff.mpr hf),
        fun _ hr => by cases hr⟩

theorem parseredirs_within (hs : s <:+ line) : Within s (Redirected line) (parseredirs s) :=
  parseredirsLoop_within _ s hs (Nat.lt_succ_self _)

theorem good_wrap {redirs : List Redirection} (hredirs : ∀ r ∈ redirs, Stored line r.file r.efile) :
    ∀ cmd : Cmd, Good line cmd → Good line (wrap cmd redirs) := by
  induction redirs with
  | nil => exact fun cmd hcmd => hcmd
  | cons r redirs ih =>
    intro cmd hcmd
    obtain ⟨hr, hredirs⟩ := forall_mem_cons.mp hredirs
    exact ih hredirs _ ⟨hcmd, hr⟩

/-- The loop of `parseexec` ends at a symbol or at the end. -/
def Ended (line : Ptr) (cmd : Cmd) (rest : Ptr) : Prop :=
  ((peek rest [ch '|', ch ')', ch '&', ch ';']).1 = true ∨
    ∃ p, (gettoken p).ret = 0 ∧ rest = (gettoken p).ps) ∧ Good line cmd

theorem parseargs_within (rounds : ℕ) : ∀ (argv : List (Ptr × Ptr)) (redirs : List Redirection)
    (s : Ptr), s <:+ line → s.length < rounds → Good line (.exec argv) →
      (∀ r ∈ redirs, Stored line r.file r.efile) →
      Within s (Ended line) (parseargs rounds argv redirs s) := by
  induction rounds with
  | zero =>
    intro argv redirs s _ hrounds
    exact absurd hrounds (Nat.not_lt_zero _)
  | succ rounds ih =>
    intro argv redirs s hs hrounds hargv hredirs
    have hskip := skip_suffix s
    obtain ⟨htok, hless, hword⟩ := gettoken_spec (skip s)
    rw [parseargs]
    change Within s _ (if (peek s [ch '|', ch ')', ch '&', ch ';']).1 = true then _ else
      if (gettoken (skip s)).ret = 0 then _ else if (gettoken (skip s)).ret ≠ ch 'a' then _ else
      if MAXARGS ≤ (argv ++ [((gettoken (skip s)).q, (gettoken (skip s)).eq)]).length then _ else _)
    by_cases hf : (peek s [ch '|', ch ')', ch '&', ch ';']).1 = true
    · rw [if_pos hf]
      exact ⟨hskip, .inl ((peek_skip s _).trans hf), good_wrap hredirs _ hargv⟩
    rw [if_neg hf]
    by_cases hend : (gettoken (skip s)).ret = 0
    · rw [if_pos hend]
      exact ⟨htok.trans hskip, .inr ⟨_, hend, rfl⟩, good_wrap hredirs _ hargv⟩
    rw [if_neg hend]
    by_cases hret : (gettoken (skip s)).ret = ch 'a'
    · rw [if_neg (not_not.mpr hret)]
      by_cases hmany : MAXARGS ≤ (argv ++ [((gettoken (skip s)).q, (gettoken (skip s)).eq)]).length
      · rw [if_pos hmany]
        exact fun h => by cases h
      rw [if_neg hmany]
      have hstored : Stored line (gettoken (skip s)).q (gettoken (skip s)).eq :=
        ⟨(hword hret).1.trans (hskip.trans hs), (hword hret).2⟩
      have hsuffix := htok.trans hskip
      refine ((parseredirs_within (hsuffix.trans hs)).next (fun failure h => by rw [h])
        fun more rest hmore hrest hfiles => ?_).mono hsuffix fun _ _ h => h
      rw [hmore]
      refine ih _ _ rest (hrest.trans (hsuffix.trans hs)) ?_ ⟨not_le.mp hmany, ?_⟩ ?_
      · have hshort := hless hend
        have hle := hrest.length_le
        have hle' := hskip.length_le
        omega
      · intro arg harg
        rcases mem_append.mp harg with harg | harg
        · exact hargv.2 arg harg
        · rw [mem_singleton.mp harg]
          exact hstored
      · intro r hr
        exact (mem_append.mp hr).elim (hredirs r) (hfiles.2 r)
    · rw [if_pos hret]
      exact fun h => by cases h

theorem parseback_within (rounds : ℕ) : ∀ (cmd : Cmd) (s : Ptr), s.length < rounds →
    Good line cmd → (parseback rounds cmd s).2 <:+ s ∧
      (peek (parseback rounds cmd s).2 [ch '&']).1 = false ∧
      Good line (parseback rounds cmd s).1 := by
  induction rounds with
  | zero =>
    intro cmd s hrounds
    exact absurd hrounds (Nat.not_lt_zero _)
  | succ rounds ih =>
    intro cmd s hrounds hgood
    rw [parseback]
    by_cases hf : (peek s [ch '&']).1 = true
    · obtain ⟨htok, hless⟩ := peek_spec hf
      obtain ⟨hrest, hend, hcmd⟩ := ih (.back cmd) (gettoken (skip s)).ps (by omega) hgood
      dsimp only
      rw [if_pos hf]
      exact ⟨hrest.trans htok, hend, hcmd⟩
    · dsimp only
      rw [if_neg hf]
      exact ⟨skip_suffix s, (peek_skip s _).trans (Bool.eq_false_iff.mpr hf), hgood⟩

/-! ## The recursive descent -/

/-- The functions do not run out of frames; four of them are used for a parenthesis. -/
def Parses (line : Ptr) (frames : ℕ) (s : Ptr) : Prop :=
  (4 * s.length + 4 ≤ frames → Within s (fun cmd _ => Good line cmd) (parseline frames s)) ∧
  (4 * s.length + 3 ≤ frames → Within s (fun cmd _ => Good line cmd) (parsepipe frames s)) ∧
  (4 * s.length + 2 ≤ frames → Within s (fun cmd _ => Good line cmd) (parseexec frames s)) ∧
  (4 * s.length + 1 ≤ frames → Within s (fun cmd _ => Good line cmd) (parseblock frames s))

theorem parses (frames : ℕ) : ∀ s : Ptr, s <:+ line → Parses line frames s := by
  induction frames with
  | zero =>
    intro s _
    refine ⟨?_, ?_, ?_, ?_⟩ <;> intro hframes <;> omega
  | succ frames ih =>
    intro s hs
    obtain ⟨-, hpipe, hexec, hb⟩ := ih s hs
    have hskip := skip_suffix s
    refine ⟨fun hframes => ?_, fun hframes => ?_, fun hframes => ?_, fun hframes => ?_⟩
    · rw [parseline]
      refine (hpipe (by omega)).next (fun failure h => by rw [h]) fun cmd s' h hs' hcmd => ?_
      rw [h]
      obtain ⟨hback, -, hgood⟩ := parseback_within (s'.length + 1) cmd s' (Nat.lt_succ_self _) hcmd
      dsimp only
      generalize parseback (s'.length + 1) cmd s' = found at hback hgood
      refine (within_operator (fun rest hrest hless => ?_) hgood fun right rest hright =>
        ⟨hgood, hright⟩).mono hback fun _ _ h => h
      have hle := (hback.trans hs').length_le
      exact (ih rest (hrest.trans (hback.trans (hs'.trans hs)))).1 (by omega)
    · rw [parsepipe]
      refine (hexec (by omega)).next (fun failure h => by rw [h]) fun cmd s' h hs' hcmd => ?_
      rw [h]
      refine within_operator (fun rest hrest hless => ?_) hcmd fun right rest hright =>
        ⟨hcmd, hright⟩
      have hle := hs'.length_le
      exact (ih rest (hrest.trans (hs'.trans hs))).2.1 (by omega)
    · rw [parseexec]
      dsimp only [peek_snd]
      by_cases hf : (peek s [ch '(']).1 = true
      · have hle := hskip.length_le
        rw [if_pos hf]
        exact ((ih _ (hskip.trans hs)).2.2.2 (by omega)).mono hskip fun _ _ h => h
      · rw [if_neg hf]
        refine ((parseredirs_within (hskip.trans hs)).next (fun failure h => by rw [h])
          fun redirs s' h hs' hfiles => ?_).mono hskip fun _ _ h => h
        rw [h]
        exact (parseargs_within _ [] redirs s' (hs'.trans (hskip.trans hs)) (Nat.lt_succ_self _)
          ⟨by decide, fun _ harg => by cases harg⟩ hfiles.2).mono suffix_rfl fun _ _ h => h.2
    · rw [parseblock]
      dsimp only [peek_snd]
      by_cases hf : (peek s [ch '(']).1 = true
      · obtain ⟨htok, hless⟩ := peek_spec hf
        rw [if_neg (by simp [hf])]
        refine (((ih _ (htok.trans hs)).1 (by omega)).next (fun failure h => by rw [h])
          fun cmd s' h hs' hcmd => ?_).mono htok fun _ _ h => h
        rw [h]
        dsimp only
        by_cases hclosed : (peek s' [ch ')']).1 = true
        · obtain ⟨hclose, -⟩ := peek_spec hclosed
          rw [if_neg (by simp [hclosed])]
          exact ((parseredirs_within (hclose.trans (hs'.trans (htok.trans hs)))).mono hclose
            fun _ _ h => h).map fun redirs _ hredirs => good_wrap hredirs.2 cmd hcmd
        · rw [if_pos (Bool.eq_false_iff.mpr hclosed)]
          exact fun h => by cases h
      · rw [if_pos (Bool.eq_false_iff.mpr hf)]
        exact fun h => by cases h

/-- Whatever the line is, `parsecmd` returns a command or fails as the source does.  At every
position of the line, `peek` and `gettoken` move towards its end, and a word is a nonempty part
without white space and symbols.  The loops end through their tests, the calls of the descent
end at or behind the position where they began, and the word that would fill the last place of
`argv` is a failure.  A command has only such words, fewer than `MAXARGS` in one array, and is
returned at the end of the line. -/
theorem parser_stays_in_the_line (line : List Byte) :
    parsecmd line ≠ .error .stack ∧
    (∀ s, s <:+ cstring line →
      (∀ toks, (peek s toks).2 <:+ s) ∧ (gettoken s).ps <:+ s ∧
      ((gettoken s).ret = ch 'a' → Stored (cstring line) (gettoken s).q (gettoken s).eq) ∧
      Within s (Redirected (cstring line)) (parseredirs s) ∧
      (∀ argv redirs, Good (cstring line) (.exec argv) → Redirected (cstring line) redirs s →
        Within s (Ended (cstring line)) (parseargs (s.length + 1) argv redirs s) ∧
        (argv.length + 1 = MAXARGS → (peek s [ch '|', ch ')', ch '&', ch ';']).1 = false →
          (gettoken (skip s)).ret = ch 'a' →
          parseargs (s.length + 1) argv redirs s = .error .tooManyArgs)) ∧
      (∀ cmd, Good (cstring line) cmd → (parseback (s.length + 1) cmd s).2 <:+ s ∧
        (peek (parseback (s.length + 1) cmd s).2 [ch '&']).1 = false) ∧
      ∀ frames, Parses (cstring line) frames s) ∧
    ∀ cmd text, parsecmd line = .ok (cmd, text) → Good (cstring line) cmd ∧
      ∃ rest, parseline (4 * (cstring line).length + 4) (cstring line) = .ok (cmd, rest) ∧
        skip rest = [] := by
  have hline := (parses (4 * (cstring line).length + 4) (cstring line) suffix_rfl).1 le_rfl
  refine ⟨?_, fun s hs => ⟨fun _ => skip_suffix s, (gettoken_spec s).1, fun hret => ?_,
    parseredirs_within hs, fun argv redirs hargv hredirs => ⟨?_, fun hlast hpeek hret => ?_⟩,
    fun cmd hcmd => ?_, fun frames => parses frames s hs⟩, fun cmd text hparsed => ?_⟩
  · rw [parsecmd]
    cases hparse : parseline (4 * (cstring line).length + 4) (cstring line) with
    | error failure =>
      rw [hparse] at hline
      exact fun h => hline (Except.error.inj h)
    | ok found =>
      dsimp only
      split_ifs <;> simp
  · obtain ⟨hsuffix, hword⟩ := (gettoken_spec s).2.2 hret
    exact ⟨hsuffix.trans hs, hword⟩
  · exact parseargs_within _ argv redirs s hs (Nat.lt_succ_self _) hargv hredirs.2
  · simp [parseargs, peek_snd, hpeek, hret, hlast]
    decide
  · obtain ⟨hback, hend, -⟩ := parseback_within (s.length + 1) cmd s (Nat.lt_succ_self _) hcmd
    exact ⟨hback, hend⟩
  · rw [parsecmd] at hparsed
    cases hparse : parseline (4 * (cstring line).length + 4) (cstring line) with
    | error failure =>
      rw [hparse] at hparsed
      cases hparsed
    | ok found =>
      rw [hparse] at hparsed hline
      by_cases hrest : (peek found.2 []).2 ≠ []
      · cases (if_pos hrest).symm.trans hparsed
      · obtain ⟨rfl, -⟩ := Prod.mk.inj (Except.ok.inj ((if_neg hrest).symm.trans hparsed))
        exact ⟨hline.2, found.2, rfl, not_not.mp hrest⟩

end

end Xv6.ShellScan
