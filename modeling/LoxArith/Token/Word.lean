import LoxArith.Token

set_option autoImplicit false

/-! # Words

A word is a keyword or an identifier. Which keyword it can be is told by its first character, or by
its first two, so that one comparison is left: what the word has behind them must be what the
keyword has there. The comparison looks at a part of the word, and there is no such part if the word
ends before it begins (`wordFrom?`). This never happens to a word of the scanner, which is not
empty: a second character is only asked for if there is one (`isSome_wordKind?`).

Offsets count characters. In a word, which is ASCII, these are its bytes.
-/

namespace LoxArith

/-- The characters of a word from an offset on; none if the word ends before the offset. -/
def wordFrom? (word : List Char) (offset : Nat) : Option (List Char) :=
  if offset ≤ word.length then some (word.drop offset) else none

/-- The keyword, if the word goes on as it does from the offset on, and else an identifier. -/
def keywordIf? (word : List Char) (offset : Nat) (suffix : String) (kind : Kind) : Option Kind := do
  return if (← wordFrom? word offset) = suffix.toList then kind else .identifier

/-- The kind of a word. -/
def wordKind? (word : List Char) : Option Kind := do
  match ← word[0]? with
  | 'a' => keywordIf? word 1 "nd" .andWord
  | 'c' => keywordIf? word 1 "lass" .classWord
  | 'e' => keywordIf? word 1 "lse" .elseWord
  | 'f' =>
    if 1 < word.length then
      match ← word[1]? with
      | 'a' => keywordIf? word 2 "lse" .falseWord
      | 'o' => keywordIf? word 2 "r" .forWord
      | 'u' => keywordIf? word 2 "n" .funWord
      | _ => return .identifier
    else return .identifier
  | 'i' => keywordIf? word 1 "f" .ifWord
  | 'n' => keywordIf? word 1 "il" .nilWord
  | 'o' => keywordIf? word 1 "r" .orWord
  | 'p' => keywordIf? word 1 "rint" .printWord
  | 'r' => keywordIf? word 1 "eturn" .returnWord
  | 's' => keywordIf? word 1 "uper" .superWord
  | 't' =>
    if 1 < word.length then
      match ← word[1]? with
      | 'h' => keywordIf? word 2 "is" .thisWord
      | 'r' => keywordIf? word 2 "ue" .trueWord
      | _ => return .identifier
    else return .identifier
  | 'v' => keywordIf? word 1 "ar" .varWord
  | 'w' => keywordIf? word 1 "hile" .whileWord
  | _ => return .identifier

theorem isSome_keywordIf? {word : List Char} {offset : Nat} (h : offset ≤ word.length)
    (suffix : String) (kind : Kind) : (keywordIf? word offset suffix kind).isSome = true := by
  rw [keywordIf?, wordFrom?, if_pos h]
  rfl

/-- A word that is not empty has a kind. -/
theorem isSome_wordKind? (first : Char) (more : List Char) :
    (wordKind? (first :: more)).isSome = true := by
  have hone : 1 ≤ (first :: more).length := Nat.le_add_left 1 more.length
  unfold wordKind?
  simp only [List.getElem?_cons_zero, Option.bind_eq_bind, Option.bind_some]
  split
  case h_4 | h_11 =>
    -- the two characters that leave more than one keyword
    split
    · rename_i htwo
      rw [List.getElem?_eq_getElem htwo, Option.bind_some]
      split
      all_goals first | exact isSome_keywordIf? htwo _ _ | rfl
    · rfl
  case h_14 => rfl
  all_goals exact isSome_keywordIf? hone _ _

end LoxArith
