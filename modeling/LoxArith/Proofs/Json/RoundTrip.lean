import LoxArith.Json.Read
import LoxArith.Proofs.Json.Scalars

set_option autoImplicit false

/-! # A document is read back from its text

Reading goes through the tokens of the document (`Json.tokens`), which are the same in both layouts.
The writer puts nothing but blanks between them (`tokensInto?_charsAt`), and the reader, given the
tokens of a document, delivers that document to whatever frame is open (`foldlM_tokens`). Both go by
recursion over the document, with the items and members behind the first one as a case of their own.

Only the numbers of a document need be well formed (`Json.WellFormed`). Its strings are read back
whatever they hold, and names may be repeated.
-/

namespace LoxArith

namespace Json

/-! ## The tokens of a document -/

mutual

/-- The tokens of a document. -/
def tokens : Json → List Token
  | .array [] => [.openArray, .closeArray]
  | .array (item :: items) => .openArray :: (tokens item ++ itemTokens items)
  | .object [] => [.openObject, .closeObject]
  | .object ((name, value) :: members) =>
      .openObject :: .scalar (.string name) :: .colon :: (tokens value ++ memberTokens members)
  | scalar => [.scalar scalar]

/-- The tokens behind the first item of an array. -/
def itemTokens : List Json → List Token
  | [] => [.closeArray]
  | item :: items => .comma :: (tokens item ++ itemTokens items)

/-- The tokens behind the first member of an object. -/
def memberTokens : List (Option String × Json) → List Token
  | [] => [.closeObject]
  | (name, value) :: members =>
      .comma :: .scalar (.string name) :: .colon :: (tokens value ++ memberTokens members)

end

mutual

/-- All numbers of the document are well formed. -/
def WellFormed : Json → Prop
  | .number n => n.WellFormed
  | .array items => ItemsWellFormed items
  | .object members => MembersWellFormed members
  | _ => True

/-- All numbers of the documents are well formed. -/
def ItemsWellFormed : List Json → Prop
  | [] => True
  | item :: items => WellFormed item ∧ ItemsWellFormed items

/-- All numbers of the values are well formed. -/
def MembersWellFormed : List (Option String × Json) → Prop
  | [] => True
  | (_, value) :: members => WellFormed value ∧ MembersWellFormed members

end

/-! ## The reader delivers the document -/

section

open Reader

/-- A document does not begin with the end of an array. -/
theorem take?_firstItem (document : Json) (frames : List Frame) :
    document.tokens.foldlM take? (firstItem frames)
      = document.tokens.foldlM take? (value (.array [] :: frames)) := by
  cases document with
  | array items => cases items <;> rfl
  | object members => rcases members with _ | ⟨⟨key, document⟩, members⟩ <;> rfl
  | _ => rfl

mutual

theorem foldlM_tokens (frames : List Frame) : (document : Json) →
    document.tokens.foldlM take? (value frames) = some (deliver document frames)
  | .array [] => rfl
  | .array (item :: items) => by
      rw [tokens, List.foldlM_cons]
      show (item.tokens ++ itemTokens items).foldlM take? (firstItem frames) = _
      rw [List.foldlM_append, take?_firstItem, foldlM_tokens (.array [] :: frames) item]
      exact foldlM_itemTokens [item] frames items
  | .object [] => rfl
  | .object ((key, document) :: members) => by
      rw [tokens]
      show (document.tokens ++ memberTokens members).foldlM take?
        (value (.object [] key :: frames)) = _
      rw [List.foldlM_append, foldlM_tokens (.object [] key :: frames) document]
      exact foldlM_memberTokens [(key, document)] frames members
  | .null => rfl
  | .bool _ => rfl
  | .number _ => rfl
  | .string _ => rfl

theorem foldlM_itemTokens (collected : List Json) (frames : List Frame) : (items : List Json) →
    (itemTokens items).foldlM take? (itemEnd collected frames)
      = some (deliver (.array (collected.reverse ++ items)) frames)
  | [] => by
      rw [List.append_nil]
      rfl
  | item :: items => by
      rw [itemTokens]
      show (item.tokens ++ itemTokens items).foldlM take? (value (.array collected :: frames)) = _
      rw [List.foldlM_append, foldlM_tokens (.array collected :: frames) item]
      refine (foldlM_itemTokens (item :: collected) frames items).trans ?_
      rw [List.reverse_cons, List.append_assoc]
      rfl

theorem foldlM_memberTokens (collected : List (Option String × Json)) (frames : List Frame) :
    (members : List (Option String × Json)) →
    (memberTokens members).foldlM take? (memberEnd collected frames)
      = some (deliver (.object (collected.reverse ++ members)) frames)
  | [] => by
      rw [List.append_nil]
      rfl
  | (key, document) :: members => by
      rw [memberTokens]
      show (document.tokens ++ memberTokens members).foldlM take?
        (value (.object collected key :: frames)) = _
      rw [List.foldlM_append, foldlM_tokens (.object collected key :: frames) document]
      refine (foldlM_memberTokens ((key, document) :: collected) frames members).trans ?_
      rw [List.reverse_cons, List.append_assoc]
      rfl

end

end

/-- The reader makes a document from its tokens. -/
theorem ofTokens?_tokens (document : Json) : ofTokens? document.tokens = some document := by
  rw [ofTokens?, foldlM_tokens [] document]
  rfl

/-! ## The text of a document -/

/-- The layout inside a bracket. -/
def inside (level : Option Nat) : Option Nat := level.map (· + 1)

/-- The break as characters. -/
def breakChars (level : Option Nat) : List Char := (lineBreak level).toList

/-- The name of a member with what stands before its value. -/
def nameChars (level : Option Nat) (name : Option String) : List Char :=
  breakChars (inside level) ++ (quoted name ++ (nameEnd level).toList)

mutual

/-- The characters of a document. -/
def charsAt (level : Option Nat) : Json → List Char
  | .null => ['n', 'u', 'l', 'l']
  | .bool true => ['t', 'r', 'u', 'e']
  | .bool false => ['f', 'a', 'l', 's', 'e']
  | .number n => n.chars
  | .string s => quoted s
  | .array [] => ['[', ']']
  | .array (item :: items) =>
      '[' :: (breakChars (inside level) ++ (charsAt (inside level) item ++ itemChars level items))
  | .object [] => ['\x7b', '\x7d']
  | .object ((name, value) :: members) =>
      '\x7b' ::
        (nameChars level name ++ (charsAt (inside level) value ++ memberChars level members))

/-- The characters behind the first item of an array. -/
def itemChars (level : Option Nat) : List Json → List Char
  | [] => breakChars level ++ [']']
  | item :: items =>
      ',' :: (breakChars (inside level) ++ (charsAt (inside level) item ++ itemChars level items))

/-- The characters behind the first member of an object. -/
def memberChars (level : Option Nat) : List (Option String × Json) → List Char
  | [] => breakChars level ++ ['\x7d']
  | (name, value) :: members =>
      ',' :: (nameChars level name ++ (charsAt (inside level) value ++ memberChars level members))

end

theorem nameEnd_inside (level : Option Nat) : nameEnd (inside level) = nameEnd level := by
  cases level <;> rfl

mutual

theorem toList_writeAt (level : Option Nat) (text : String) : (document : Json) →
    (writeAt level text document).toList = text.toList ++ charsAt level document
  | .null => by simp [writeAt, charsAt]
  | .bool true => by simp [writeAt, charsAt]
  | .bool false => by simp [writeAt, charsAt]
  | .number n => by simp [writeAt, charsAt]
  | .string s => by simp [writeAt, charsAt]
  | .array [] => by simp [writeAt, charsAt]
  | .array (item :: items) => by
      rw [writeAt, charsAt]
      refine (toList_writeItems level _ items).trans ?_
      rw [toList_writeAt (level.map (· + 1)) _ item]
      simp [breakChars, inside]
  | .object [] => by simp [writeAt, charsAt]
  | .object ((name, value) :: members) => by
      rw [writeAt, charsAt]
      refine (toList_writeMembers level _ members).trans ?_
      rw [toList_writeAt (level.map (· + 1)) _ value]
      simp [nameChars, breakChars, inside]

theorem toList_writeItems (level : Option Nat) (text : String) : (items : List Json) →
    (writeItems (inside level) text items ++ lineBreak level ++ "]").toList
      = text.toList ++ itemChars level items
  | [] => by simp [writeItems, itemChars, breakChars]
  | item :: items => by
      rw [writeItems, itemChars]
      refine (toList_writeItems level _ items).trans ?_
      rw [toList_writeAt (inside level) _ item]
      simp [breakChars]

theorem toList_writeMembers (level : Option Nat) (text : String) :
    (members : List (Option String × Json)) →
    (writeMembers (inside level) text members ++ lineBreak level ++ "\x7d").toList
      = text.toList ++ memberChars level members
  | [] => by simp [writeMembers, memberChars, breakChars]
  | (name, value) :: members => by
      rw [writeMembers, memberChars]
      refine (toList_writeMembers level _ members).trans ?_
      rw [toList_writeAt (inside level) _ value, nameEnd_inside]
      simp [nameChars, breakChars]

end

/-! ## The tokens of a text -/

section

variable {collected : List Token} {c : Char} {rest : List Char}

theorem tokensInto?_space (h : isSpace c = true) :
    tokensInto? collected (c :: rest) = tokensInto? collected rest := by
  rw [tokensInto?, if_pos h]

theorem tokensInto?_token {token : Token} {behind : List Char} (hspace : isSpace c = false)
    (h : takeToken? c rest = some (token, behind)) :
    tokensInto? collected (c :: rest) = tokensInto? (token :: collected) behind := by
  rw [tokensInto?, if_neg (ne_true_of_eq_false hspace)]
  split
  · rename_i hnone
    rw [h] at hnone
    cases hnone
  · rename_i hsome
    rw [h] at hsome
    cases hsome
    rfl

theorem tokensInto?_blanks {blanks : List Char} (h : ∀ b ∈ blanks, isSpace b = true) :
    tokensInto? collected (blanks ++ rest) = tokensInto? collected rest := by
  induction blanks with
  | nil => rfl
  | cons b blanks ih =>
      rw [List.cons_append, tokensInto?_space (h b List.mem_cons_self),
        ih fun b hb => h b (List.mem_cons_of_mem _ hb)]

theorem isSpace_of_mem_breakChars (level : Option Nat) :
    ∀ b ∈ breakChars level, isSpace b = true := by
  intro b hb
  cases level with
  | none => cases hb
  | some level =>
      rw [breakChars, lineBreak, String.toList_ofList, List.mem_cons, List.mem_replicate] at hb
      rcases hb with rfl | ⟨-, rfl⟩ <;> rfl

theorem tokensInto?_break (level : Option Nat) :
    tokensInto? collected (breakChars level ++ rest) = tokensInto? collected rest :=
  tokensInto?_blanks (isSpace_of_mem_breakChars level)

theorem tokensInto?_quoted (text : Option String) :
    tokensInto? collected (quoted text ++ rest)
      = tokensInto? (.scalar (.string text) :: collected) rest := by
  obtain ⟨behind, hquoted, htoken⟩ := takeToken?_quoted text rest
  rw [hquoted, tokensInto?_token rfl htoken]

theorem tokensInto?_nameChars (level : Option Nat) (name : Option String) :
    tokensInto? collected (nameChars level name ++ rest)
      = tokensInto? (.colon :: .scalar (.string name) :: collected) rest := by
  rw [nameChars, List.append_assoc, List.append_assoc, tokensInto?_break, tokensInto?_quoted]
  cases level with
  | none => exact tokensInto?_token rfl rfl
  | some level =>
      have hend : (nameEnd (some level)).toList = [':', ' '] := by simp [nameEnd]
      rw [hend, List.cons_append, tokensInto?_token rfl rfl, List.cons_append,
        tokensInto?_space rfl, List.nil_append]

theorem endsNumber_of_isSpace (h : isSpace c = true) :
    isDecimalDigit c = false ∧ c ≠ '.' ∧ c ≠ 'e' ∧ c ≠ 'E' := by
  simp only [isSpace, Bool.or_eq_true, beq_iff_eq] at h
  rcases h with ((rfl | rfl) | rfl) | rfl <;> decide

/-- What stands behind an item does not go on with a number. -/
theorem endsNumber_break {level : Option Nat} (h : EndsNumber rest) :
    EndsNumber (breakChars level ++ rest) := by
  cases level with
  | none => exact h
  | some level =>
      rw [breakChars, lineBreak, String.toList_ofList]
      exact endsNumber_cons (by decide)

theorem endsNumber_itemChars (level : Option Nat) (items : List Json) :
    EndsNumber (itemChars level items ++ rest) := by
  cases items with
  | nil =>
      rw [itemChars, List.append_assoc]
      exact endsNumber_break (endsNumber_cons (by decide))
  | cons item items => exact endsNumber_cons (by decide)

theorem endsNumber_memberChars (level : Option Nat) (members : List (Option String × Json)) :
    EndsNumber (memberChars level members ++ rest) := by
  cases members with
  | nil =>
      rw [memberChars, List.append_assoc]
      exact endsNumber_break (endsNumber_cons (by decide))
  | cons member members => exact endsNumber_cons (by decide)

end

mutual

theorem tokensInto?_charsAt (level : Option Nat) (collected : List Token) {rest : List Char}
    (hrest : EndsNumber rest) : (document : Json) → document.WellFormed →
    tokensInto? collected (charsAt level document ++ rest)
      = tokensInto? (document.tokens.reverse ++ collected) rest
  | .null, _ => tokensInto?_token rfl rfl
  | .bool true, _ => tokensInto?_token rfl rfl
  | .bool false, _ => tokensInto?_token rfl rfl
  | .number n, h => by
      obtain ⟨first, behind, hchars, hspace, htoken⟩ := takeToken?_chars h hrest
      rw [charsAt, hchars]
      exact tokensInto?_token hspace htoken
  | .string s, _ => tokensInto?_quoted s
  | .array [], _ => (tokensInto?_token rfl rfl).trans (tokensInto?_token rfl rfl)
  | .array (item :: items), h => by
      rw [charsAt, tokens, List.cons_append, tokensInto?_token rfl rfl, List.append_assoc,
        tokensInto?_break, List.append_assoc,
        tokensInto?_charsAt (inside level) _ (endsNumber_itemChars level items) item h.1,
        tokensInto?_itemChars level _ rest items h.2]
      simp
  | .object [], _ => (tokensInto?_token rfl rfl).trans (tokensInto?_token rfl rfl)
  | .object ((name, value) :: members), h => by
      rw [charsAt, tokens, List.cons_append, tokensInto?_token rfl rfl, List.append_assoc,
        tokensInto?_nameChars, List.append_assoc,
        tokensInto?_charsAt (inside level) _ (endsNumber_memberChars level members) value h.1,
        tokensInto?_memberChars level _ rest members h.2]
      simp

theorem tokensInto?_itemChars (level : Option Nat) (collected : List Token) (rest : List Char) :
    (items : List Json) → ItemsWellFormed items →
    tokensInto? collected (itemChars level items ++ rest)
      = tokensInto? ((itemTokens items).reverse ++ collected) rest
  | [], _ => by
      rw [itemChars, List.append_assoc, tokensInto?_break]
      exact tokensInto?_token rfl rfl
  | item :: items, h => by
      rw [itemChars, itemTokens, List.cons_append, tokensInto?_token rfl rfl, List.append_assoc,
        tokensInto?_break, List.append_assoc,
        tokensInto?_charsAt (inside level) _ (endsNumber_itemChars level items) item h.1,
        tokensInto?_itemChars level _ rest items h.2]
      simp

theorem tokensInto?_memberChars (level : Option Nat) (collected : List Token) (rest : List Char) :
    (members : List (Option String × Json)) → MembersWellFormed members →
    tokensInto? collected (memberChars level members ++ rest)
      = tokensInto? ((memberTokens members).reverse ++ collected) rest
  | [], _ => by
      rw [memberChars, List.append_assoc, tokensInto?_break]
      exact tokensInto?_token rfl rfl
  | (name, value) :: members, h => by
      rw [memberChars, memberTokens, List.cons_append, tokensInto?_token rfl rfl, List.append_assoc,
        tokensInto?_nameChars, List.append_assoc,
        tokensInto?_charsAt (inside level) _ (endsNumber_memberChars level members) value h.1,
        tokensInto?_memberChars level _ rest members h.2]
      simp

end

/-! ## Round trip -/

/-- **A document is read back from its text**, in either layout and with any blanks behind it. -/
theorem ofText?_writeAt (level : Option Nat) {document : Json} (h : document.WellFormed)
    {blanks : String} (hblanks : ∀ b ∈ blanks.toList, isSpace b = true) :
    ofText? (writeAt level "" document ++ blanks) = some document := by
  have hends : EndsNumber blanks.toList := fun b hb =>
    endsNumber_of_isSpace (hblanks b (List.mem_of_mem_head? hb))
  have htokens : tokens? (writeAt level "" document ++ blanks).toList = some document.tokens := by
    rw [String.toList_append, toList_writeAt, List.append_assoc, tokens?]
    show tokensInto? [] (charsAt level document ++ blanks.toList) = _
    rw [tokensInto?_charsAt level [] hends document h, List.append_nil,
      ← List.append_nil blanks.toList, tokensInto?_blanks hblanks, tokensInto?,
      List.reverse_reverse]
  rw [ofText?, htokens]
  exact ofTokens?_tokens document

end Json

end LoxArith
