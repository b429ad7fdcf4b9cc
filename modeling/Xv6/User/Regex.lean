import Xv6.User.ShellParser

/-!
# The regular expressions of `grep`

`match`, `matchhere` and `matchstar` of `user/grep.c`.  A string is the list of its
characters before the NUL, so `re[0] == '\0'` says that the list is empty.  A pattern
stands for a sequence of items, and an item for a language; the functions find out whether
a part of the text is in the product of the languages.
-/

namespace Xv6.Regex

open ShellParser

mutual
def matchhere (re text : List Byte) : Bool :=
  match re with
  | [] => true
  | c :: re =>
    if re.head? = some (ch '*') then matchstar c re.tail text
    else if c = ch '$' ∧ re = [] then text.isEmpty
    else
      match text with
      | [] => false
      | t :: text => if c = ch '.' ∨ c = t then matchhere re text else false
termination_by (re.length, text.length, 0)
decreasing_by
  · have := List.length_tail (l := re)
    simp only [List.length_cons, Prod.lex_def]
    omega
  · simp only [List.length_cons, Prod.lex_def]
    omega

/-- The loop goes on at the next character only if this one is a `c`. -/
def matchstar (c : Byte) (re text : List Byte) : Bool :=
  if matchhere re text then true
  else
    match text with
    | [] => false
    | t :: text => if t = c ∨ c = ch '.' then matchstar c re text else false
termination_by (re.length, text.length, 1)
end

/-- The loop of `match`, which also looks at the empty end of the text. -/
def matchLoop (re : List Byte) : List Byte → Bool
  | [] => matchhere re []
  | t :: text => if matchhere re (t :: text) then true else matchLoop re text

def regexMatch (re text : List Byte) : Bool :=
  if re.head? = some (ch '^') then matchhere re.tail text else matchLoop re text

/-! ## Patterns -/

inductive Item where
  | star (c : Byte)
  | eol
  | any
  | char (c : Byte)

def single (c : Byte) : Item := if c = ch '.' then .any else .char c

def items : List Byte → List Item
  | [] => []
  | [c] => if c = ch '$' then [.eol] else [single c]
  | c :: d :: re => if d = ch '*' then .star c :: items re else single c :: items (d :: re)

/-- The characters that a character of a pattern stands for. -/
def Fits (c t : Byte) : Prop := c = ch '.' ∨ c = t

def Item.language : Item → Language Byte
  | .star c => {u | ∀ t ∈ u, Fits c t}
  | .eol => 1
  | .any => {u | ∃ t, u = [t]}
  | .char c => {[c]}

/-- A text that begins with a string of the items, and ends with it after a `$`. -/
def Begins (items : List Item) (text : List Byte) : Prop :=
  ∃ sub rest, text = sub ++ rest ∧ sub ∈ (items.map Item.language).prod ∧
    (Item.eol ∈ items → rest = [])

/-- The meaning of a pattern: some part of the text, the beginning after a `^`, is a string
of its items. -/
def Found (re text : List Byte) : Prop :=
  if re.head? = some (ch '^') then Begins (items re.tail) text
  else ∃ before rest, text = before ++ rest ∧ Begins (items re) rest

theorem begins_nil (text : List Byte) : Begins [] text :=
  ⟨[], text, rfl, Language.mem_one [] |>.mpr rfl, fun hmem => by cases hmem⟩

theorem begins_cons {item : Item} (hitem : item ≠ .eol) (rest : List Item) (text : List Byte) :
    Begins (item :: rest) text ↔ ∃ u v, text = u ++ v ∧ u ∈ item.language ∧ Begins rest v := by
  have heol : Item.eol ∈ item :: rest ↔ Item.eol ∈ rest := by
    rw [List.mem_cons, or_iff_right hitem.symm]
  constructor
  · rintro ⟨sub, after, rfl, hsub, hend⟩
    rw [List.map_cons, List.prod_cons, Language.mem_mul] at hsub
    obtain ⟨u, hu, v, hv, rfl⟩ := hsub
    exact ⟨u, v ++ after, List.append_assoc u v after, hu, v, after, rfl, hv,
      fun hmem => hend (heol.mpr hmem)⟩
  · rintro ⟨u, v, rfl, hu, sub, after, rfl, hsub, hend⟩
    refine ⟨u ++ sub, after, (List.append_assoc u sub after).symm, ?_,
      fun hmem => hend (heol.mp hmem)⟩
    rw [List.map_cons, List.prod_cons, Language.mem_mul]
    exact ⟨u, hu, sub, hsub, rfl⟩

theorem begins_eol (text : List Byte) : Begins [.eol] text ↔ text = [] := by
  constructor
  · rintro ⟨sub, rest, rfl, hsub, hend⟩
    have hnil : sub = [] := by simpa [Item.language] using hsub
    rw [hnil, hend (List.mem_singleton.mpr rfl), List.append_nil]
  · rintro rfl
    exact ⟨[], [], rfl, by simp [Item.language], fun _ => rfl⟩

theorem mem_single {c : Byte} {u : List Byte} :
    u ∈ (single c).language ↔ ∃ t, u = [t] ∧ Fits c t := by
  by_cases hdot : c = ch '.'
  · simp only [single, Fits, hdot, true_or, and_true]
    exact Iff.rfl
  · simp only [single, Fits, hdot, false_or, exists_eq_right']
    exact Iff.rfl

theorem begins_single (c : Byte) (rest : List Item) (text : List Byte) :
    Begins (single c :: rest) text ↔ ∃ t v, text = t :: v ∧ Fits c t ∧ Begins rest v := by
  have hsingle : single c ≠ .eol := by
    rw [single]
    split <;> exact nofun
  rw [begins_cons hsingle]
  constructor
  · rintro ⟨u, v, rfl, hu, hrest⟩
    obtain ⟨t, rfl, hfits⟩ := mem_single.mp hu
    exact ⟨t, v, rfl, hfits, hrest⟩
  · rintro ⟨t, v, rfl, hfits, hrest⟩
    exact ⟨[t], v, rfl, mem_single.mpr ⟨t, rfl, hfits⟩, hrest⟩

/-! ## The search -/

theorem matchstar_iff (c : Byte) (re text : List Byte) : matchstar c re text = true ↔
    ∃ u v, text = u ++ v ∧ (∀ t ∈ u, Fits c t) ∧ matchhere re v = true := by
  induction text with
  | nil =>
    rw [matchstar]
    constructor
    · intro hhere
      exact ⟨[], [], rfl, nofun, by simpa using hhere⟩
    · rintro ⟨u, v, happend, -, hhere⟩
      obtain ⟨rfl, rfl⟩ := List.append_eq_nil_iff.mp happend.symm
      rw [if_pos hhere]
  | cons t text ih =>
    rw [matchstar]
    by_cases hhere : matchhere re (t :: text) = true
    · rw [if_pos hhere]
      exact iff_of_true rfl ⟨[], t :: text, rfl, nofun, hhere⟩
    rw [if_neg hhere]
    have hfits : Fits c t ↔ t = c ∨ c = ch '.' := by rw [Fits, or_comm, eq_comm]
    simp only [← hfits, Bool.if_false_right, Bool.and_eq_true, decide_eq_true_eq, ih]
    constructor
    · rintro ⟨ht, u, v, rfl, hu, hv⟩
      exact ⟨t :: u, v, rfl, List.forall_mem_cons.mpr ⟨ht, hu⟩, hv⟩
    · rintro ⟨u, v, happend, hu, hv⟩
      cases u with
      | nil =>
        rw [List.nil_append] at happend
        exact absurd (happend ▸ hv) hhere
      | cons first u =>
        obtain ⟨rfl, rfl⟩ := List.cons.inj happend
        obtain ⟨ht, hu⟩ := List.forall_mem_cons.mp hu
        exact ⟨ht, u, v, rfl, hu, hv⟩

theorem matchhere_single (c : Byte) (re text : List Byte)
    (hstar : re.head? ≠ some (ch '*')) (hend : ¬(c = ch '$' ∧ re = [])) :
    matchhere (c :: re) text = true ↔ ∃ t v, text = t :: v ∧ Fits c t ∧ matchhere re v = true := by
  rw [matchhere.eq_def]
  dsimp only
  rw [if_neg hstar, if_neg hend]
  cases text with
  | nil => simp
  | cons t text => simp [Fits]

theorem matchhere_iff (re : List Byte) : ∀ text,
    matchhere re text = true ↔ Begins (items re) text := by
  induction re using items.induct with
  | case1 =>
    intro text
    rw [matchhere]
    exact iff_of_true rfl (begins_nil text)
  | case2 =>
    intro text
    rw [matchhere.eq_def]
    dsimp only
    rw [if_neg (by simp), if_pos ⟨rfl, rfl⟩, items, if_pos rfl, begins_eol, List.isEmpty_iff]
  | case3 c hend =>
    intro text
    rw [matchhere_single c [] text (by simp) (fun h => hend h.1), items, if_neg hend, begins_single]
    simp only [matchhere, begins_nil]
  | case4 c re ih =>
    intro text
    have hstar : Item.star c ≠ .eol := nofun
    rw [matchhere.eq_def]
    dsimp only
    rw [if_pos List.head?_cons, List.tail_cons, matchstar_iff, items, if_pos rfl, begins_cons hstar]
    simp only [ih]
    exact Iff.rfl
  | case5 c d re hstar ih =>
    intro text
    rw [matchhere_single c (d :: re) text (by simpa using hstar) (by simp), items,
      if_neg hstar, begins_single]
    simp only [ih]

theorem matchLoop_iff (re text : List Byte) : matchLoop re text = true ↔
    ∃ before rest, text = before ++ rest ∧ matchhere re rest = true := by
  induction text with
  | nil =>
    rw [matchLoop]
    constructor
    · intro hhere
      exact ⟨[], [], rfl, hhere⟩
    · rintro ⟨before, rest, happend, hhere⟩
      rwa [← (List.append_eq_nil_iff.mp happend.symm).2]
  | cons t text ih =>
    rw [matchLoop]
    by_cases hhere : matchhere re (t :: text) = true
    · rw [if_pos hhere]
      exact iff_of_true rfl ⟨[], t :: text, rfl, hhere⟩
    rw [if_neg hhere, ih]
    constructor
    · rintro ⟨before, rest, rfl, hrest⟩
      exact ⟨t :: before, rest, rfl, hrest⟩
    · rintro ⟨before, rest, happend, hrest⟩
      cases before with
      | nil => exact absurd (by rw [happend]; exact hrest) hhere
      | cons first before => exact ⟨before, rest, (List.cons.inj happend).2, hrest⟩

/-- The matcher returns 1 exactly on the texts that the pattern stands for. -/
theorem regexMatch_iff (re text : List Byte) :
    regexMatch re text = true ↔ Found re text := by
  rw [regexMatch, Found]
  by_cases hcaret : re.head? = some (ch '^')
  · rw [if_pos hcaret, if_pos hcaret, matchhere_iff]
  · rw [if_neg hcaret, if_neg hcaret, matchLoop_iff]
    simp only [matchhere_iff]

end Xv6.Regex
