import Mathlib.Data.List.Forall2
import Mathlib.Data.List.Infix
import Mathlib.Tactic.Tauto

/-!
# String patterns

LIKE matching and the trigrams of a text, as in `src/common/string_pattern.cpp`, on bytes.
-/

namespace VertexDB

open List

/-- The byte `%`. -/
def percent : UInt8 := 37

/-- The byte `_`. -/
def underscore : UInt8 := 95

/-- `matchLikeRec`. The recursion is on the pattern; after a `%` every suffix of the text is
tried. -/
def matchLikeRec : (pattern text : List UInt8) → Bool
  | [], text => text.isEmpty
  | c :: pattern, text =>
    if c = percent then
      pattern.isEmpty || text.tails.any fun rest => matchLikeRec pattern rest
    else
      match text with
      | [] => false
      | t :: text => if c ≠ underscore ∧ c ≠ t then false else matchLikeRec pattern text

theorem matchLikeRec_percent (pattern text : List UInt8) :
    matchLikeRec (percent :: pattern) text =
      (pattern.isEmpty || text.tails.any fun rest => matchLikeRec pattern rest) := by
  rw [matchLikeRec.eq_def]
  exact if_pos rfl

theorem matchLikeRec_nil {c : UInt8} (h : c ≠ percent) (pattern : List UInt8) :
    matchLikeRec (c :: pattern) [] = false := by
  rw [matchLikeRec.eq_def]
  exact if_neg h

theorem matchLikeRec_cons {c : UInt8} (h : c ≠ percent) (b : UInt8) (pattern text : List UInt8) :
    matchLikeRec (c :: pattern) (b :: text) =
      if c ≠ underscore ∧ c ≠ b then false else matchLikeRec pattern text := by
  rw [matchLikeRec.eq_def]
  exact if_neg h

/-- `matchLikePattern`. -/
def matchLikePattern (text pattern : List UInt8) : Bool := matchLikeRec pattern text

variable {literal text : List UInt8} {pattern : List UInt8}

/-- What a byte of a pattern stands for. -/
def LikePiece (c : UInt8) (piece : List UInt8) : Prop :=
  c = percent ∨ c = underscore ∧ piece.length = 1 ∨ c ≠ underscore ∧ piece = [c]

theorem matchLikeRec_percent_iff :
    matchLikeRec (percent :: pattern) text = true ↔
      ∃ skipped rest, skipped ++ rest = text ∧ matchLikeRec pattern rest = true := by
  rw [matchLikeRec_percent, Bool.or_eq_true, any_eq_true]
  constructor
  · rintro (h | ⟨rest, hrest, h⟩)
    · rw [List.isEmpty_iff.mp h]
      exact ⟨text, [], append_nil text, rfl⟩
    · obtain ⟨skipped, hskipped⟩ := (mem_tails _ _).mp hrest
      exact ⟨skipped, rest, hskipped, h⟩
  · rintro ⟨skipped, rest, hsplit, h⟩
    exact Or.inr ⟨rest, (mem_tails _ _).mpr ⟨skipped, hsplit⟩, h⟩

/-- A text matches a pattern when it splits into pieces that the bytes of the pattern stand for. -/
theorem matchLikePattern_iff_pieces :
    matchLikePattern text pattern = true ↔
      ∃ pieces, pieces.flatten = text ∧ Forall₂ LikePiece pattern pieces := by
  rw [matchLikePattern]
  induction pattern generalizing text with
  | nil =>
    rw [matchLikeRec, List.isEmpty_iff]
    simp [eq_comm]
  | cons c pattern ih =>
    have hsplit : (∃ pieces, pieces.flatten = text ∧ Forall₂ LikePiece (c :: pattern) pieces) ↔
        ∃ piece rest, piece ++ rest = text ∧ LikePiece c piece ∧
          matchLikeRec pattern rest = true := by
      simp only [forall₂_cons_left_iff, ih]
      constructor
      · rintro ⟨_, hflatten, piece, pieces, hpiece, hpieces, rfl⟩
        exact ⟨piece, pieces.flatten, hflatten, hpiece, pieces, rfl, hpieces⟩
      · rintro ⟨piece, _, hflatten, hpiece, pieces, rfl, hpieces⟩
        exact ⟨piece :: pieces, hflatten, piece, pieces, hpiece, hpieces, rfl⟩
    rw [hsplit]
    by_cases hc : c = percent
    · subst hc
      simp [matchLikeRec_percent_iff, LikePiece]
    · cases text with
      | nil =>
        rw [matchLikeRec_nil hc]
        simp [LikePiece, hc]
      | cons b text =>
        have hone : ∀ piece, LikePiece c piece ↔ ∃ b', piece = [b'] ∧
            (c = underscore ∨ c = b') := by
          intro piece
          by_cases hu : c = underscore
          · subst hu
            simp [LikePiece, hc, length_eq_one_iff]
          · simp [LikePiece, hc, hu]
        rw [matchLikeRec_cons hc]
        simp only [hone]
        constructor
        · intro h
          split_ifs at h with hb
          exact ⟨[b], text, rfl, ⟨b, rfl, by tauto⟩, h⟩
        · rintro ⟨_, rest, hb, ⟨b', rfl, hb'⟩, h⟩
          obtain ⟨rfl, rfl⟩ := cons.inj hb
          rwa [if_neg (by tauto)]

/-- `isWildcardFree`. -/
def isWildcardFree (text : List UInt8) : Bool := !text.contains percent && !text.contains underscore

/-- `likePrefixLiteral`. -/
def likePrefixLiteral (pattern : List UInt8) : Option (List UInt8) :=
  if pattern.getLast? ≠ some percent then none
  else
    let literal := pattern.dropLast
    if literal.isEmpty || !isWildcardFree literal then none else some literal

/-- `likeContainsLiteral`. -/
def likeContainsLiteral (pattern : List UInt8) : Option (List UInt8) :=
  if pattern.length < 3 ∨ pattern.head? ≠ some percent ∨ pattern.getLast? ≠ some percent then none
  else
    let literal := (pattern.drop 1).dropLast
    if literal.isEmpty || !isWildcardFree literal then none else some literal

/-- `extractTrigrams`: the windows of three bytes, or the whole text when it is shorter. -/
def extractTrigrams (text : List UInt8) : List (List UInt8) :=
  if text.length < 3 then (if text.isEmpty then [] else [text])
  else (List.range (text.length - 2)).map fun i => (text.drop i).take 3

/-- A pattern matches its literal beginning byte by byte. -/
theorem exists_of_matchLikeRec_append (hlit : isWildcardFree literal = true)
    (h : matchLikeRec (literal ++ pattern) text = true) :
    ∃ rest, text = literal ++ rest ∧ matchLikeRec pattern rest = true := by
  induction literal generalizing text with
  | nil => exact ⟨text, rfl, h⟩
  | cons c literal ih =>
    simp only [isWildcardFree, contains_cons, Bool.not_or, Bool.and_eq_true,
      Bool.not_eq_true', beq_eq_false_iff_ne] at hlit
    obtain ⟨⟨hpercent, hp⟩, hunderscore, hu⟩ := hlit
    rw [cons_append] at h
    cases text with
    | nil =>
      rw [matchLikeRec_nil (Ne.symm hpercent)] at h
      cases h
    | cons b text =>
      rw [matchLikeRec_cons (Ne.symm hpercent)] at h
      split at h
      · cases h
      · rename_i hcb
        obtain rfl : c = b := by
          by_contra hne
          exact hcb ⟨Ne.symm hunderscore, hne⟩
        obtain ⟨rest, rfl, hrest⟩ := ih (by simp only [isWildcardFree, hp, hu, Bool.not_false,
          Bool.and_self]) h
        exact ⟨rest, rfl, hrest⟩

/-- A text that matches `literal%` begins with the literal. -/
theorem isPrefix_of_matchLikePattern
    (hpat : likePrefixLiteral pattern = some literal) (h : matchLikePattern text pattern = true) :
    literal <+: text := by
  rw [likePrefixLiteral] at hpat
  split at hpat
  · cases hpat
  · rename_i hlast
    push Not at hlast
    simp only [Option.ite_none_left_eq_some, Option.some.injEq, Bool.or_eq_true, not_or] at hpat
    obtain ⟨⟨-, hfree⟩, rfl⟩ := hpat
    have hsplit : pattern = pattern.dropLast ++ [percent] :=
      (dropLast_append_getLast? percent (by simpa using hlast)).symm
    rw [matchLikePattern, hsplit] at h
    obtain ⟨rest, htext, -⟩ := exists_of_matchLikeRec_append (by simpa using hfree) h
    exact ⟨rest, htext.symm⟩

/-- In the order of the texts, a longer text that begins with the literal is greater. -/
theorem lt_of_isPrefix_of_ne (h : literal <+: text) (hne : text ≠ literal) : literal < text := by
  obtain ⟨rest, rfl⟩ := h
  have hrest : rest ≠ [] := by
    rintro rfl
    exact hne (append_nil literal)
  clear hne
  induction literal with
  | nil =>
    obtain ⟨b, rest, rfl⟩ := exists_cons_of_ne_nil hrest
    exact nil_lt_cons b rest
  | cons b literal ih => exact cons_lt_cons_iff.mpr (Or.inr ⟨rfl, ih⟩)

/-- A text that matches `%literal%` contains the literal. -/
theorem isInfix_of_matchLikePattern
    (hpat : likeContainsLiteral pattern = some literal) (h : matchLikePattern text pattern = true) :
    literal <:+: text := by
  rw [likeContainsLiteral] at hpat
  split at hpat
  · cases hpat
  · rename_i hshape
    push Not at hshape
    obtain ⟨hlen, hhead, hlast⟩ := hshape
    simp only [Option.ite_none_left_eq_some, Option.some.injEq, Bool.or_eq_true, not_or] at hpat
    obtain ⟨⟨hne, hfree⟩, rfl⟩ := hpat
    obtain ⟨c, pattern, rfl⟩ := exists_cons_of_length_pos (l := pattern) (by omega)
    obtain rfl : c = percent := by simpa using hhead
    have hlast' : pattern.getLast? = some percent := by
      rw [getLast?_cons_of_ne_nil] at hlast
      · exact hlast
      · rintro rfl
        simp at hlen
    have hsplit : pattern = pattern.dropLast ++ [percent] :=
      (dropLast_append_getLast? percent (by simpa using hlast')).symm
    obtain ⟨skipped, rest, rfl, hmatch⟩ := matchLikeRec_percent_iff.mp h
    rw [hsplit] at hmatch
    obtain ⟨rest, rfl, -⟩ := exists_of_matchLikeRec_append (by simpa using hfree) hmatch
    exact ⟨skipped, rest, append_assoc _ _ _⟩

/-- The trigrams of a text of three bytes or more are its windows. -/
theorem mem_extractTrigrams {gram : List UInt8} (h : 3 ≤ text.length) :
    gram ∈ extractTrigrams text ↔ gram.length = 3 ∧ gram <:+: text := by
  rw [extractTrigrams, if_neg (by omega), mem_map]
  constructor
  · rintro ⟨i, hi, rfl⟩
    rw [mem_range] at hi
    refine ⟨by rw [length_take, length_drop]; omega, ?_⟩
    exact (List.take_prefix _ _).isInfix.trans (drop_suffix _ _).isInfix
  · rintro ⟨hlen, before, after, rfl⟩
    refine ⟨before.length, ?_, ?_⟩
    · rw [mem_range, length_append, length_append]
      omega
    · rw [append_assoc, drop_left, ← hlen, take_left]

/-- A text that contains the literal has its trigrams. -/
theorem extractTrigrams_subset_of_isInfix (h : 3 ≤ literal.length) (hinside : literal <:+: text) :
    extractTrigrams literal ⊆ extractTrigrams text := by
  intro gram hgram
  obtain ⟨hlen, hgram⟩ := (mem_extractTrigrams h).mp hgram
  exact (mem_extractTrigrams (h.trans hinside.length_le)).mpr ⟨hlen, hgram.trans hinside⟩

example : extractTrigrams [1, 2, 3, 4] = [[1, 2, 3], [2, 3, 4]] := by decide

end VertexDB
