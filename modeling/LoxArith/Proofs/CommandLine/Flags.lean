import Mathlib.Tactic.Tauto
import LoxArith.CommandLine.Arguments

set_option autoImplicit false

/-! # Flags among the arguments

A flag that is allowed everywhere is given if its name stands among the arguments in front of two
hyphens, on whichever level (`Flag.Given`). The readers of the arguments take them one level after
the other and collect the flags of each. What carries the proofs is that each reader accounts for
the flags up to the arguments that it leaves to the next one: those that were given are those that
it found and those that are given in what it leaves.
-/

namespace LoxArith

/-- The spelling of a flag. -/
def Flag.name : Flag → String
  | printCode => "--print-code"
  | trace => "--trace"
  | json => "--json"

/-- The flag is among the arguments. Behind two hyphens nothing is a flag. -/
def Flag.Given (f : Flag) (arguments : List String) : Prop :=
  f.name ∈ arguments.takeWhile (· ≠ "--")

instance (f : Flag) (arguments : List String) : Decidable (f.Given arguments) :=
  inferInstanceAs (Decidable (_ ∈ _))

namespace Flag

theorem not_given_nil (f : Flag) : ¬ f.Given [] := List.not_mem_nil

theorem not_given_separator (f : Flag) (rest : List String) : ¬ f.Given ("--" :: rest) := by
  simp [Given]

theorem given_cons {f : Flag} {argument : String} {rest : List String} (h : argument ≠ "--") :
    f.Given (argument :: rest) ↔ f.name = argument ∨ f.Given rest := by
  simp [Given, h]

theorem name_inj {f g : Flag} : f.name = g.name ↔ f = g := by
  cases f <;> cases g <;> decide

theorem name_ne_separator (f : Flag) : f.name ≠ "--" := by
  cases f <;> decide

end Flag

/-! ## One argument -/

namespace Level

variable {level : Level} {argument : String} {f g : Flag} {arguments : List String}

theorem eq_separator (h : level.classify argument = .separator) : argument = "--" := by
  unfold classify at h
  repeat' split at h
  all_goals first | rfl | cases h

theorem eq_name (h : level.classify argument = .flag g) : argument = g.name := by
  unfold classify at h
  repeat' split at h
  all_goals first | (cases h; rfl) | cases h

theorem classify_name (level : Level) (hf : f ≠ .json) : level.classify f.name = .flag f := by
  cases f with
  | printCode => rfl
  | trace => rfl
  | json => exact absurd rfl hf

/-- A word is no flag that is allowed everywhere. -/
theorem ne_of_word (hword : level.classify argument = .word) (hf : f ≠ .json) :
    argument ≠ "--" ∧ f.name ≠ argument := by
  constructor
  · rintro rfl
    cases hword
  · rintro rfl
    rw [level.classify_name hf] at hword
    cases hword

/-- A flag that was found accounts for itself. -/
theorem given_flag (h : level.classify argument = .flag g) (flags : List Flag) :
    f ∈ flags ∨ f.Given (argument :: arguments) ↔ f ∈ g :: flags ∨ f.Given arguments := by
  rw [Flag.given_cons (eq_name h ▸ g.name_ne_separator), eq_name h, Flag.name_inj, List.mem_cons]
  tauto

/-- A word gives no flag. -/
theorem given_word (h : level.classify argument = .word) (hf : f ≠ .json) :
    f.Given (argument :: arguments) ↔ f.Given arguments := by
  obtain ⟨hseparator, hname⟩ := ne_of_word h hf
  rw [Flag.given_cons hseparator, or_iff_right hname]

end Level

/-! ## One level -/

/-- The arguments in which there may still be flags, behind the first word of a level. -/
def FirstWord.left (first : FirstWord) : List String :=
  if first.separated then [] else
    match first.rest with
    | some (_, rest) => rest
    | none => []

namespace Level

variable {level : Level} {f : Flag} {arguments : List String}

/-- The flags up to the first word of a level are accounted for. -/
theorem firstWord_given {flags : List Flag} {first : FirstWord} (hf : f ≠ .json)
    (h : level.firstWord flags arguments = .ok first) :
    f ∈ flags ∨ f.Given arguments ↔ f ∈ first.flags ∨ f.Given first.left := by
  induction arguments generalizing flags with
  | nil =>
      cases h
      rfl
  | cons argument rest ih =>
      unfold firstWord at h
      split at h
      · rename_i hkind
        -- behind the hyphens there is at most a word
        rw [eq_separator hkind, or_iff_left (f.not_given_separator rest)]
        cases rest with
        | nil =>
            cases h
            exact (or_iff_left f.not_given_nil).symm
        | cons word rest =>
            cases h
            exact (or_iff_left f.not_given_nil).symm
      · rename_i g hkind
        split at h
        · cases h
        · rw [given_flag hkind, ih h]
      · cases h
      · rename_i hkind
        cases h
        rw [given_word hkind hf]
        rfl

/-- The flags among the paths of a command are accounted for. -/
theorem paths_given {limit : Nat} {separated : Bool} {flags given : List Flag}
    {found paths : List String} (hf : f ≠ .json)
    (h : level.paths limit separated flags found arguments = .ok (given, paths)) :
    f ∈ given ↔ f ∈ flags ∨ (separated = false ∧ f.Given arguments) := by
  -- once two hyphens were met the reader stays separated, and finds no flag any more
  induction arguments generalizing separated flags found with
  | nil =>
      cases h
      exact (or_iff_left fun hnone => f.not_given_nil hnone.2).symm
  | cons argument rest ih =>
      rw [Level.paths] at h
      cases separated with
      | true =>
          simp only [if_true] at h
          split at h
          · cases h
          · simpa using ih h
      | false =>
          simp only [Bool.false_eq_true, if_false] at h
          split at h
          · rename_i hkind
            rw [eq_separator hkind]
            simpa [f.not_given_separator rest] using ih h
          · rename_i g hkind
            split at h
            · cases h
            · rw [ih h]
              simpa using (given_flag hkind flags).symm
          · cases h
          · rename_i hkind
            split at h
            · cases h
            · rw [ih h, given_word hkind hf]

end Level

/-! ## All arguments -/

section

variable {f : Flag} {arguments : List String}

theorem bind_eq_ok {ε α β : Type} {x : Except ε α} {next : α → Except ε β} {b : β} :
    x >>= next = .ok b ↔ ∃ a, x = .ok a ∧ next a = .ok b := by
  cases x with
  | ok a =>
      constructor
      · exact fun h => ⟨a, rfl, h⟩
      · rintro ⟨_, ⟨⟩, h⟩
        exact h
  | error e =>
      constructor
      · intro h
        cases h
      · rintro ⟨_, ⟨⟩, _⟩

/-- The flags behind a word that is followed by paths only. -/
theorem behind_given {level : Level} {limit : Nat} {flags : List Flag} {paths : List String}
    (hf : f ≠ .json) (h : level.paths limit false [] [] arguments = .ok (flags, paths)) :
    f ∈ flags ↔ f.Given arguments := by
  rw [Level.paths_given hf h, or_iff_right List.not_mem_nil, and_iff_right rfl]

theorem configCommand_given {inner : List Flag} {command : Command} (hf : f ≠ .json)
    (h : configCommand arguments = .ok (inner, command)) :
    f ∈ inner ↔ f.Given arguments := by
  obtain ⟨⟨flags, separated, rest⟩, hfirst, h⟩ := bind_eq_ok.1 h
  have hgiven := Level.firstWord_given hf hfirst
  dsimp only at h
  split at h
  · cases h
  · rename_i word rest
    split at h
    · cases h
    · rename_i hseparated
      have hbehind : ∃ behind paths, Level.paths {} 0 false [] [] rest = .ok (behind, paths) ∧
          inner = flags ++ behind := by
        split at h
        · obtain ⟨_, -, h⟩ := bind_eq_ok.1 h
          obtain ⟨⟨behind, paths⟩, hpaths, h⟩ := bind_eq_ok.1 h
          cases h
          exact ⟨behind, paths, hpaths, rfl⟩
        · obtain ⟨_, -, h⟩ := bind_eq_ok.1 h
          obtain ⟨⟨behind, paths⟩, hpaths, h⟩ := bind_eq_ok.1 h
          cases h
          exact ⟨behind, paths, hpaths, rfl⟩
        · cases h
        · cases h
      obtain ⟨behind, paths, hpaths, rfl⟩ := hbehind
      rw [or_iff_right List.not_mem_nil, FirstWord.left, if_neg hseparated] at hgiven
      rw [List.mem_append, behind_given hf hpaths, hgiven]

/-- The flags of a command that takes one path. -/
theorem onePath_given {level : Level} {make : List Flag → String → Command} {inner : List Flag}
    {command : Command} (hf : f ≠ .json)
    (h : (do
      match ← level.paths 1 false [] [] arguments with
      | (flags, [path]) => return (flags, make flags path)
      | _ => throw Refusal.usage) = .ok (inner, command)) : f ∈ inner ↔ f.Given arguments := by
  obtain ⟨⟨flags, paths⟩, hpaths, h⟩ := bind_eq_ok.1 h
  split at h
  · rename_i heq
    cases h
    cases heq
    exact behind_given hf hpaths
  · cases h

theorem commandOf_given {word : String} {inner : List Flag} {command : Command} (hf : f ≠ .json)
    (h : commandOf word arguments = .ok (inner, command)) : f ∈ inner ↔ f.Given arguments := by
  unfold commandOf at h
  split at h
  · exact onePath_given hf h
  · obtain ⟨⟨flags, paths⟩, hpaths, h⟩ := bind_eq_ok.1 h
    cases h
    exact behind_given hf hpaths
  · exact onePath_given hf h
  · exact configCommand_given hf h
  · cases h
  · cases h

/-- **The switches of an invocation are the flags that are given.** -/
theorem ofArguments?_given {invocation : Invocation}
    (h : Invocation.ofArguments? arguments = .ok invocation) :
    (invocation.printCode = true ↔ Flag.printCode.Given arguments) ∧
      (invocation.trace = true ↔ Flag.trace.Given arguments) := by
  obtain ⟨⟨outer, separated, rest⟩, hfirst, h⟩ := bind_eq_ok.1 h
  have hflags : ∃ inner, (∀ f ≠ Flag.json, f ∈ outer ++ inner ↔ f.Given arguments) ∧
      ∃ command, invocation = ⟨decide (Flag.printCode ∈ outer ++ inner),
        decide (Flag.trace ∈ outer ++ inner), command⟩ := by
    dsimp only at h
    split at h
    · cases h
      refine ⟨[], fun f hf => ?_, _, rfl⟩
      have hnone : FirstWord.left ⟨outer, separated, none⟩ = [] := by
        cases separated <;> rfl
      have hgiven := Level.firstWord_given hf hfirst
      rw [hnone, or_iff_right List.not_mem_nil, or_iff_left f.not_given_nil] at hgiven
      rw [List.append_nil, hgiven]
    · rename_i word rest
      split at h
      · cases h
      · rename_i hseparated
        obtain ⟨⟨inner, command⟩, hcommand, h⟩ := bind_eq_ok.1 h
        cases h
        refine ⟨inner, fun f hf => ?_, command, rfl⟩
        have hgiven := Level.firstWord_given hf hfirst
        rw [or_iff_right List.not_mem_nil, FirstWord.left, if_neg hseparated] at hgiven
        rw [List.mem_append, commandOf_given hf hcommand, hgiven]
  obtain ⟨inner, hgiven, command, rfl⟩ := hflags
  exact ⟨by simpa using hgiven .printCode (by decide), by simpa using hgiven .trace (by decide)⟩

end

end LoxArith
