import LoxArith.Proofs.Token.Lexical

set_option autoImplicit false

/-! # Keywords

The scanner finds the keyword of a word by its first characters and one comparison, the lexical
grammar by looking the word up in a table. They find the same kind for every word (`wordKind?_eq`):
each entry of the table is found by the scanner, and what the scanner finds, an identifier apart, is
an entry of the table, because the characters that led to the comparison and those that were
compared make up the whole word (`mem_keywords_of_keywordIf?`).
-/

namespace LoxArith

/-- A comparison that succeeds has found an entry of the table, if the characters in front of the
offset are the beginning of this entry. -/
theorem mem_keywords_of_keywordIf? {word : List Char} {offset : Nat} {suffix : String}
    {kind found : Kind} (hentry : (String.ofList (word.take offset) ++ suffix, kind) ∈ keywords)
    (h : keywordIf? word offset suffix kind = some found) (hfound : found ≠ .identifier) :
    (String.ofList word, found) ∈ keywords := by
  unfold keywordIf? wordFrom? at h
  split at h
  · by_cases hrest : word.drop offset = suffix.toList
    · obtain rfl : kind = found := by simpa [hrest] using h
      rwa [← String.ofList_toList (s := suffix), ← hrest, ← String.ofList_append,
        List.take_append_drop] at hentry
    · exact absurd (by simpa [hrest] using h.symm) hfound
  · cases h

/-- What the scanner finds is an identifier or an entry of the table. -/
theorem mem_keywords_of_wordKind? {first : Char} {more : List Char} {kind : Kind}
    (h : wordKind? (first :: more) = some kind) (hkind : kind ≠ .identifier) :
    (String.ofList (first :: more), kind) ∈ keywords := by
  have hother : pure Kind.identifier ≠ some kind := fun heq => hkind (Option.some.inj heq).symm
  unfold wordKind? at h
  simp only [List.getElem?_cons_zero, Option.bind_eq_bind, Option.bind_some] at h
  split at h
  case h_4 | h_11 =>
    -- the two characters that leave more than one keyword
    split at h
    · rename_i htwo
      obtain ⟨second, more, rfl⟩ := List.exists_cons_of_length_pos (Nat.lt_of_succ_lt_succ htwo)
      simp only [List.getElem?_cons_succ, List.getElem?_cons_zero, Option.bind_some] at h
      split at h
      all_goals first
        | exact absurd h hother
        | exact mem_keywords_of_keywordIf? (by simp [keywords]) h hkind
    · exact absurd h hother
  case h_14 => exact absurd h hother
  all_goals exact mem_keywords_of_keywordIf? (by simp [keywords]) h hkind

/-- Each entry of the table is found by the scanner. -/
theorem wordKind?_of_mem_keywords {word : String} {kind : Kind} (h : (word, kind) ∈ keywords) :
    wordKind? word.toList = some kind := by
  have hall : ∀ entry ∈ keywords, wordKind? entry.1.toList = some entry.2 := by decide
  exact hall _ h

/-- **A word is a keyword for the scanner exactly if it stands in the table as a whole.** -/
theorem wordKind?_eq (first : Char) (more : List Char) :
    wordKind? (first :: more) = some (tableKind (first :: more)) := by
  obtain ⟨kind, hkind⟩ := Option.isSome_iff_exists.1 (isSome_wordKind? first more)
  unfold tableKind
  cases hlookup : keywords.lookup (String.ofList (first :: more)) with
  | some found =>
      have hfound := wordKind?_of_mem_keywords (mem_of_lookup_eq_some hlookup)
      rwa [String.toList_ofList] at hfound
  | none =>
      by_cases hidentifier : kind = .identifier
      · rw [hkind, hidentifier]
        rfl
      · have hmem := mem_keywords_of_wordKind? hkind hidentifier
        exact absurd rfl (bne_iff_ne.1 (List.lookup_eq_none_iff.1 hlookup _ hmem))

end LoxArith
