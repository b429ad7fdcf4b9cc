import Xv6.User.Regex

/-!
# The lines that `grep` writes

The function `grep` of `user/grep.c`, with its buffer of 1024 characters.  `read` may
return any number of bytes from one to what was asked for, until the input ends; the
numbers are a parameter.  The buffer keeps what earlier lines have left in it behind the
NUL.

The last character of the buffer is kept for the NUL, so a line of 1023 characters fills
it without a newline.  The next `read` asks for no bytes and returns 0, which ends the loop
as the end of the input does: the output depends on the input alone, but nothing from such
a line on is searched.
-/

namespace Xv6.Grep

open ShellParser Regex List

def newline : Byte := ch '\n'

def sizeofBuf : ℕ := 1024

def strchr (s : List Byte) (c : Byte) : Option ℕ := (cstring s).findIdx? (· == c)

def store (buf : List Byte) (index : ℕ) (bytes : List Byte) : List Byte :=
  buf.take index ++ bytes ++ buf.drop (index + bytes.length)

def lineLoop (pattern : List Byte) : ℕ → List Byte → ℕ → List Byte → List Byte × ℕ × List Byte
  | 0, buf, p, out => (buf, p, out)
  | rounds + 1, buf, p, out =>
    match strchr (buf.drop p) newline with
    | none => (buf, p, out)
    | some k =>
      let buf := buf.set (p + k) 0
      if regexMatch pattern (cstring (buf.drop p)) then
        let buf := buf.set (p + k) newline
        lineLoop pattern rounds buf (p + k + 1) (out ++ (buf.drop p).take (k + 1))
      else lineLoop pattern rounds buf (p + k + 1) out

/-- The loop over the reads; `choice` says how much the next of them would return if there
were no end of the buffer or of the input. -/
def grepLoop (pattern : List Byte) (choice : ℕ → ℕ) :
    ℕ → List Byte → ℕ → List Byte → List Byte → List Byte
  | 0, _, _, _, out => out
  | rounds + 1, buf, m, input, out =>
    let bytes := input.take (min (max 1 (choice rounds)) (sizeofBuf - m - 1))
    if bytes = [] then out
    else
      let n := bytes.length
      let (buf, p, out) := lineLoop pattern sizeofBuf ((store buf m bytes).set (m + n) 0) 0 out
      if 0 < m + n then
        let m := m + n - p
        grepLoop pattern choice rounds (store buf 0 ((buf.drop p).take m)) m (input.drop n) out
      else grepLoop pattern choice rounds buf (m + n) (input.drop n) out

/-- What `grep` writes; every round but the last reads a byte. -/
def grep (pattern : List Byte) (choice : ℕ → ℕ) (buf input : List Byte) : List Byte :=
  grepLoop pattern choice (input.length + 1) buf 0 input []

/-! ## Lines -/

def lines (text : List Byte) : List (List Byte) := (text.splitOn newline).dropLast

/-- A line that fits into the buffer with its newline. -/
def fits (line : List Byte) : Bool := decide (line.length < sizeofBuf - 1)

def matching (pattern : List Byte) (texts : List (List Byte)) : List Byte :=
  (texts.filter (regexMatch pattern)).flatMap (· ++ [newline])

/-- The matching lines before the first that does not fit. -/
def searched (pattern text : List Byte) : List Byte :=
  matching pattern ((lines text).takeWhile fits)

variable {pattern text line rest : List Byte}

theorem beq_newline (hline : newline ∉ line) : ∀ c ∈ line, (c == newline) = false := by
  intro c hc
  rw [beq_eq_false_iff_ne]
  rintro rfl
  exact hline hc

theorem lines_eq_nil (htext : newline ∉ text) : lines text = [] := by
  rw [lines, List.splitOn, splitOnP_eq_singleton (beq_newline htext)]
  rfl

theorem lines_append (hline : newline ∉ line) (rest : List Byte) :
    lines (line ++ newline :: rest) = line :: lines rest := by
  rw [lines, List.splitOn,
    splitOnP_append_cons_of_forall_mem (beq_newline hline) newline (by simp),
    dropLast_cons_of_ne_nil (splitOnP_ne_nil _ _)]
  rfl

theorem matching_append (first second : List (List Byte)) :
    matching pattern (first ++ second) = matching pattern first ++ matching pattern second := by
  rw [matching, filter_append, flatMap_append]
  rfl

theorem searched_append (hline : newline ∉ line) (hfits : fits line = true) :
    searched pattern (line ++ newline :: rest) =
      matching pattern [line] ++ searched pattern rest := by
  rw [searched, lines_append hline, takeWhile_cons_of_pos hfits, ← singleton_append,
    matching_append]
  rfl

theorem searched_long (hline : newline ∉ line) (hlong : fits line = false) :
    searched pattern (line ++ rest) = [] := by
  by_cases hrest : newline ∈ rest
  · obtain ⟨more, after, rfl, hmore⟩ := eq_append_cons_of_mem hrest
    have hlonger : ¬fits (line ++ more) = true := by
      simp only [fits, decide_eq_false_iff_not, not_lt, length_append, decide_eq_true_eq] at hlong ⊢
      omega
    rw [searched, ← append_assoc, lines_append (by simp [hline, hmore]),
      takeWhile_cons_of_neg hlonger]
    rfl
  · rw [searched, lines_eq_nil (by simp [hline, hrest])]
    rfl

/-! ## The buffer -/

theorem cstring_append (htext : 0 ∉ text) (stale : List Byte) :
    cstring (text ++ 0 :: stale) = text := by
  have hplain : ∀ c ∈ text, decide (c ≠ 0) = true := by
    intro c hc
    rw [decide_eq_true_eq]
    rintro rfl
    exact htext hc
  rw [cstring, takeWhile_append_of_pos hplain]
  simp

theorem strchr_append (htext : 0 ∉ line ++ newline :: rest) (hline : newline ∉ line)
    (stale : List Byte) :
    strchr ((line ++ newline :: rest) ++ 0 :: stale) newline = some line.length := by
  have hnone : line.findIdx? (· == newline) = none :=
    List.findIdx?_eq_none_iff.mpr (beq_newline hline)
  rw [strchr, cstring_append htext, List.findIdx?_append, hnone]
  simp [List.findIdx?_cons]

theorem strchr_none (htext : 0 ∉ text) (hline : newline ∉ text) (stale : List Byte) :
    strchr (text ++ 0 :: stale) newline = none := by
  rw [strchr, cstring_append htext, List.findIdx?_eq_none_iff]
  exact beq_newline hline

/-- The lines in the buffer are written, and an incomplete one is left at the end.  What was
written and what is still to be written for any further input are the same together. -/
theorem lineLoop_spec (pattern stale : List Byte) (rounds : ℕ) : ∀ (buf : List Byte) (p : ℕ)
    (out text : List Byte), buf.drop p = text ++ 0 :: stale → 0 ∉ text →
      text.length ≤ rounds → text.length < sizeofBuf →
      ∃ buf' p' out' part, lineLoop pattern rounds buf p out = (buf', p', out') ∧
        buf'.length = buf.length ∧ buf'.drop p' = part ++ 0 :: stale ∧ 0 ∉ part ∧
        newline ∉ part ∧ p' + part.length = p + text.length ∧
        ∀ input, out' ++ searched pattern (part ++ input) =
          out ++ searched pattern (text ++ input) := by
  induction rounds with
  | zero =>
    intro buf p out text hbuf hnul hrounds _
    have hnil : text = [] := length_eq_zero_iff.mp (Nat.le_zero.mp hrounds)
    exact ⟨buf, p, out, text, rfl, rfl, hbuf, hnul, by simp [hnil], rfl, fun _ => rfl⟩
  | succ rounds ih =>
    intro buf p out text hbuf hnul hrounds hsmall
    rw [lineLoop, hbuf]
    by_cases hline : newline ∈ text
    · obtain ⟨line, rest, rfl, hplain⟩ := eq_append_cons_of_mem hline
      rw [strchr_append hnul hplain]
      simp only [mem_append, mem_cons, not_or] at hnul
      simp only [length_append, length_cons] at hrounds hsmall
      have hfits : fits line = true := by
        simp only [fits, decide_eq_true_eq]
        omega
      -- The NUL in the place of the newline ends the line.
      have hset (c : Byte) (buf : List Byte)
          (hdrop : buf.drop p = line ++ newline :: (rest ++ 0 :: stale) ∨
            buf.drop p = line ++ 0 :: (rest ++ 0 :: stale)) :
          (buf.set (p + line.length) c).drop p = line ++ c :: (rest ++ 0 :: stale) := by
        rw [drop_set, if_neg (by omega), Nat.add_sub_cancel_left]
        rcases hdrop with hdrop | hdrop <;> rw [hdrop] <;> simp
      have hzero := hset 0 buf (.inl (by simpa using hbuf))
      have hcut (buf : List Byte) (c : Byte)
          (hdrop : buf.drop p = line ++ c :: (rest ++ 0 :: stale)) :
          buf.drop (p + line.length + 1) = rest ++ 0 :: stale := by
        rw [Nat.add_assoc, ← drop_drop, hdrop, drop_append]
        simp
      simp only [hzero, cstring_append hnul.1]
      obtain ⟨next, hnext, hlen, hcall⟩ : ∃ next : List Byte,
          next.drop (p + line.length + 1) = rest ++ 0 :: stale ∧ next.length = buf.length ∧
          (if regexMatch pattern line = true then
            lineLoop pattern rounds ((buf.set (p + line.length) 0).set (p + line.length) newline)
              (p + line.length + 1) (out ++ (((buf.set (p + line.length) 0).set
                (p + line.length) newline).drop p).take (line.length + 1))
          else lineLoop pattern rounds (buf.set (p + line.length) 0) (p + line.length + 1) out) =
            lineLoop pattern rounds next (p + line.length + 1)
              (out ++ matching pattern [line]) := by
        by_cases hmatch : regexMatch pattern line = true
        · have hback := hset newline _ (.inr hzero)
          refine ⟨_, hcut _ _ hback, by simp, ?_⟩
          rw [if_pos hmatch, hback, take_append, take_of_length_le (Nat.le_succ _)]
          simp [matching, hmatch]
        · refine ⟨_, hcut _ _ hzero, by simp, ?_⟩
          rw [if_neg hmatch]
          simp [matching, hmatch]
      rw [hcall]
      obtain ⟨buf', p', out', part, hloop, hlength', hdrop, hnul', hplain', hends, hout⟩ :=
        ih next (p + line.length + 1) (out ++ matching pattern [line]) rest hnext hnul.2.2
          (by omega) (by omega)
      refine ⟨buf', p', out', part, hloop, hlength'.trans hlen, hdrop, hnul', hplain', ?_, ?_⟩
      · simp only [length_append, length_cons]
        omega
      · intro input
        rw [hout, append_assoc line, cons_append, searched_append hplain hfits, append_assoc]
    · rw [strchr_none hnul hline]
      exact ⟨buf, p, out, text, rfl, rfl, hbuf, hnul, hline, rfl, fun _ => rfl⟩

theorem grepLoop_spec (choice : ℕ → ℕ) (rounds : ℕ) :
    ∀ part stale input out : List Byte, (part ++ stale).length = sizeofBuf →
      part.length < sizeofBuf → 0 ∉ part → newline ∉ part → 0 ∉ input → input.length < rounds →
      grepLoop pattern choice rounds (part ++ stale) part.length input out =
        out ++ searched pattern (part ++ input) := by
  induction rounds with
  | zero =>
    intro part stale input out _ _ _ _ _ hrounds
    exact absurd hrounds (Nat.not_lt_zero _)
  | succ rounds ih =>
    intro part stale input out hbuf hpart hnul hplain hinput hrounds
    rw [grepLoop]
    obtain ⟨bytes, hbytes⟩ : ∃ bytes,
        input.take (min (max 1 (choice rounds)) (sizeofBuf - part.length - 1)) = bytes :=
      ⟨_, rfl⟩
    have hinput' : bytes ++ input.drop bytes.length = input := by
      rw [← hbytes, length_take]
      rcases Nat.le_total (min (max 1 (choice rounds)) (sizeofBuf - part.length - 1))
        input.length with hle | hle
      · rw [Nat.min_eq_left hle, take_append_drop]
      · rw [Nat.min_eq_right hle, drop_length, append_nil, take_of_length_le hle]
    have hroom : bytes.length ≤ sizeofBuf - part.length - 1 := by
      rw [← hbytes, length_take]
      omega
    dsimp only
    rw [hbytes]
    by_cases hend : bytes = []
    · rw [if_pos hend]
      rw [← hbytes, take_eq_nil_iff] at hend
      -- Either the buffer is full, or the input is at its end.
      rcases hend with hfull | rfl
      · rw [searched_long hplain (by simp only [fits, decide_eq_false_iff_not]; omega), append_nil]
      · rw [append_nil, searched, lines_eq_nil hplain]
        simp [matching]
    · have hsome : 0 < bytes.length := length_pos_iff.mpr hend
      rw [if_neg hend, if_pos (by omega)]
      rw [length_append] at hbuf
      obtain ⟨old, stale', hstale⟩ : ∃ old stale', stale.drop bytes.length = old :: stale' :=
        exists_cons_of_ne_nil (by rw [Ne, drop_eq_nil_iff]; omega)
      have hstore : (store (part ++ stale) part.length bytes).set (part.length + bytes.length) 0 =
          (part ++ bytes) ++ 0 :: stale' := by
        rw [store, take_left', ← drop_drop, drop_left', hstale]
        · rw [set_append_right _ _ (by simp)]
          simp
        · rfl
        · rfl
      have hnul' : 0 ∉ part ++ bytes := by
        rw [mem_append, not_or]
        exact ⟨hnul, fun hmem => hinput (by rw [← hinput']; exact mem_append_left _ hmem)⟩
      obtain ⟨buf', p', out', part', hloop, hlen, hdrop, hnul'', hplain', hends, hout⟩ :=
        lineLoop_spec pattern stale' sizeofBuf (part ++ bytes ++ 0 :: stale') 0 out
          (part ++ bytes) rfl hnul'
          (by rw [length_append]; omega) (by rw [length_append]; omega)
      rw [hstore, hloop]
      dsimp only
      rw [length_append] at hends
      have hm : part.length + bytes.length - p' = part'.length := by omega
      rw [hm, hdrop, take_left' rfl, store, take_zero, nil_append, Nat.zero_add]
      have hbuf' : (part' ++ buf'.drop part'.length).length = sizeofBuf := by
        have hold := congrArg List.length hstale
        rw [length_drop, length_cons] at hold
        simp only [length_append, length_cons] at hlen
        rw [length_append, length_drop, hlen]
        omega
      have hless := congrArg List.length hinput'
      rw [length_append] at hless
      rw [ih part' _ (input.drop bytes.length) out' hbuf' (by omega) hnul'' hplain'
        (fun hmem => hinput (mem_of_mem_drop hmem)) (by omega), hout, append_assoc, hinput']

theorem grep_eq_searched (choice : ℕ → ℕ) {buf input : List Byte} (hbuf : buf.length = sizeofBuf)
    (hinput : 0 ∉ input) : grep pattern choice buf input = searched pattern input :=
  grepLoop_spec choice (input.length + 1) [] buf input [] hbuf (by decide) nofun nofun hinput
    (Nat.lt_succ_self _)

/-- However the input is split, `grep` writes the matching lines exactly if none of them
comes after, or is, a line of 1023 characters or more. -/
theorem grep_exact_iff (pattern input : List Byte) (choice : ℕ → ℕ) (buf : List Byte)
    (hbuf : buf.length = sizeofBuf) (hinput : 0 ∉ input) :
    grep pattern choice buf input = matching pattern (lines input) ↔
      ∀ line ∈ (lines input).dropWhile fits, regexMatch pattern line = false := by
  have hsplit : matching pattern (lines input) =
      searched pattern input ++ matching pattern ((lines input).dropWhile fits) := by
    rw [searched, ← matching_append, takeWhile_append_dropWhile]
  rw [grep_eq_searched choice hbuf hinput, hsplit, self_eq_append_right]
  simp [matching, flatMap_eq_nil_iff]

theorem regexMatch_empty (text : List Byte) : regexMatch [] text = true := by
  cases text <;> simp [regexMatch, matchLoop, matchhere]

theorem grep_exact_short :
    grep [] (fun _ => 1) (List.replicate 1024 0) [ch 'a', newline] = [ch 'a', newline] := by
  have hlines : lines [ch 'a', newline] = [[ch 'a']] :=
    @lines_append [ch 'a'] (by decide) []
  have hexact := (grep_exact_iff [] [ch 'a', newline] (fun _ => 1) (List.replicate 1024 0)
    length_replicate (by decide)).mpr (by rw [hlines]; simp [fits, sizeofBuf])
  rw [hexact, hlines]
  simp [matching, regexMatch_empty]

/-- A line of 1023 characters is not written, although the pattern is empty. -/
theorem grep_drops_a_long_line :
    let input := List.replicate 1023 (ch 'a') ++ [newline]
    grep [] (fun _ => 1023) (List.replicate 1024 0) input = [] ∧
      matching [] (lines input) = input := by
  obtain ⟨line, hline⟩ : ∃ line, List.replicate 1023 (ch 'a') = line := ⟨_, rfl⟩
  have hchar : ∀ c ∈ line, c = ch 'a' := by
    intro c hc
    rw [← hline] at hc
    exact eq_of_mem_replicate hc
  have hlength : line.length = 1023 := by rw [← hline, length_replicate]
  have hplain : newline ∉ line := fun hmem => absurd (hchar _ hmem) (by decide)
  have hnul : (0 : Byte) ∉ line ++ [newline] := by
    rw [mem_append, mem_singleton]
    rintro (hmem | heq)
    · exact absurd (hchar _ hmem) (by decide)
    · exact absurd heq (by decide)
  have hbuf : (List.replicate 1024 (0 : Byte)).length = sizeofBuf := length_replicate
  rw [hline]
  constructor
  · rw [grep_eq_searched _ hbuf hnul]
    exact searched_long hplain (by rw [fits, hlength]; rfl)
  · rw [lines_append hplain, lines_eq_nil not_mem_nil]
    simp [matching, regexMatch_empty]

end Xv6.Grep
