import LoxArith.Proofs.Grammar
import Mathlib.Data.List.DropRight

set_option autoImplicit false

/-! # Beginnings of sentences

A sentence can be followed lexeme by lexeme. All that has to be kept is whether an operand must
start or has just ended, and which operands are still open around it (`Slot`). Each lexeme
leads from a slot to the next one, or nowhere (`Slot.step`).

What can be followed are exactly the beginnings of sentences. A lexeme leads on if and only if
some sentence goes on with it (`continues_iff_step`), and the lexemes may end if and only if no
parenthesis is open behind an operand (`continues_iff_ended`).
-/

namespace LoxArith

/-! ## Open operands -/

/-- What an open operand waits for: the end of a group, of the operand of a sign, or of the
right operand of an operator. -/
inductive Frame
  | group
  | sign
  | joint (tier : Tier)
  deriving DecidableEq, Repr

/-- The inner operand ends at an operator of the tier: always behind a sign, never in a group,
and behind an operator that binds at least as tightly. -/
def Frame.endsAt : Tier → Frame → Bool
  | _, .group => false
  | _, .sign => true
  | .sum, .joint _ => true
  | .product, .joint tier => tier = .product

/-- The operands that an operator of the tier leaves open, innermost first. -/
def unwind (tier : Tier) (frames : List Frame) : List Frame :=
  frames.dropWhile (Frame.endsAt tier)

theorem unwind_unwind (tier : Tier) (frames : List Frame) :
    unwind tier (unwind tier frames) = unwind tier frames :=
  List.dropWhile_idempotent _ _

/-- What is left open does not end there. -/
theorem not_endsAt_of_unwind {tier : Tier} {frame : Frame} {frames : List Frame}
    (h : unwind tier (frame :: frames) = frame :: frames) : ¬ frame.endsAt tier := by
  intro hends
  have hunwind : unwind tier (frame :: frames) = unwind tier frames :=
    List.dropWhile_cons_of_pos hends
  have hle : (unwind tier frames).length ≤ frames.length :=
    (List.dropWhile_sublist _).length_le
  rw [← hunwind, h, List.length_cons] at hle
  omega

/-- What an operator of a product ends, an operator of a sum ends too. -/
theorem unwind_sum_unwind (tier : Tier) (frames : List Frame) :
    unwind .sum (unwind tier frames) = unwind .sum frames := by
  induction frames with
  | nil => rfl
  | cons frame frames ih =>
      by_cases hends : frame.endsAt tier
      · have hsum : frame.endsAt .sum := by
          cases frame <;> simp_all [Frame.endsAt]
        have hleft : unwind tier (frame :: frames) = unwind tier frames :=
          List.dropWhile_cons_of_pos hends
        have hright : unwind .sum (frame :: frames) = unwind .sum frames :=
          List.dropWhile_cons_of_pos hsum
        rw [hleft, hright, ih]
      · have hleft : unwind tier (frame :: frames) = frame :: frames :=
          List.dropWhile_cons_of_neg hends
        rw [hleft]

/-- An operator of a sum ends everything but a group. -/
theorem unwind_sum_eq_nil_iff {frames : List Frame} :
    unwind .sum frames = [] ↔ Frame.group ∉ frames := by
  have hends : ∀ frame : Frame, frame.endsAt .sum ↔ frame ≠ .group := by
    intro frame
    cases frame <;> simp [Frame.endsAt]
  rw [unwind, List.dropWhile_eq_nil_iff]
  constructor
  · intro hall hgroup
    exact (hends _).1 (hall _ hgroup) rfl
  · intro hgroup frame hframe
    refine (hends _).2 ?_
    rintro rfl
    exact hgroup hframe

/-- Behind what an operator of a sum ends comes a group, or nothing. -/
theorem unwind_sum_cases (frames : List Frame) :
    unwind .sum frames = [] ∨ ∃ outer, unwind .sum frames = .group :: outer := by
  induction frames with
  | nil => exact Or.inl rfl
  | cons frame frames ih =>
      cases frame with
      | group => exact Or.inr ⟨frames, rfl⟩
      | sign => exact ih
      | joint tier => exact ih

/-! ## Following a sentence -/

/-- Where a lexeme stands in a sentence: before an operand or behind one, inside of open
operands. Each of these takes a level of its own. -/
inductive Slot
  | before (frames : List Frame)
  | behind (frames : List Frame)
  deriving DecidableEq, Repr

namespace Slot

/-- The slot behind a lexeme of the given kind, if the lexeme may stand here. -/
def step : Slot → Kind → Option Slot
  | before frames, .number => some (behind frames)
  | before frames, .minus => some (before (.sign :: frames))
  | before frames, .leftParen => some (before (.group :: frames))
  | behind frames, .plus => some (before (.joint .sum :: unwind .sum frames))
  | behind frames, .minus => some (before (.joint .sum :: unwind .sum frames))
  | behind frames, .star => some (before (.joint .product :: unwind .product frames))
  | behind frames, .slash => some (before (.joint .product :: unwind .product frames))
  | behind frames, .rightParen =>
    match unwind .sum frames with
    | [] => none
    | _ :: outer => some (behind outer)
  | _, _ => none

/-- The slot behind several lexemes. -/
def run : Slot → List Lexeme → Option Slot
  | slot, [] => some slot
  | slot, l :: ls => (slot.step l.kind).bind fun next => next.run ls

theorem step_kind (operator : Operator) (frames : List Frame) :
    (behind frames).step operator.kind
      = some (before (.joint operator.tier :: unwind operator.tier frames)) := by
  cases operator <;> rfl

theorem step_rightParen {frames outer : List Frame} (h : unwind .sum frames = .group :: outer) :
    (behind frames).step .rightParen = some (behind outer) := by
  simp only [step, h]

/-- Before an operand, three kinds of lexemes lead on. -/
theorem step_before {frames : List Frame} {kind : Kind} {next : Slot}
    (h : (before frames).step kind = some next) :
    (kind = .number ∧ next = behind frames) ∨ (kind = .minus ∧ next = before (.sign :: frames)) ∨
      (kind = .leftParen ∧ next = before (.group :: frames)) := by
  cases kind <;> simp_all [step]

/-- Behind an operand, the operators lead on, and the end of a group. -/
theorem step_behind {frames : List Frame} {kind : Kind} {next : Slot}
    (h : (behind frames).step kind = some next) :
    (∃ operator : Operator, kind = operator.kind ∧
      next = before (.joint operator.tier :: unwind operator.tier frames)) ∨
      (kind = .rightParen ∧ ∃ outer, unwind .sum frames = .group :: outer ∧
        next = behind outer) := by
  cases kind with
  | plus => exact Or.inl ⟨.add, rfl, (Option.some.inj h).symm⟩
  | minus => exact Or.inl ⟨.subtract, rfl, (Option.some.inj h).symm⟩
  | star => exact Or.inl ⟨.multiply, rfl, (Option.some.inj h).symm⟩
  | slash => exact Or.inl ⟨.divide, rfl, (Option.some.inj h).symm⟩
  | rightParen =>
      rcases unwind_sum_cases frames with hnil | ⟨outer, houter⟩
      · simp [step, hnil] at h
      · rw [step_rightParen houter] at h
        exact Or.inr ⟨rfl, outer, houter, (Option.some.inj h).symm⟩
  | _ => cases h

theorem run_append (slot : Slot) (ls ks : List Lexeme) :
    slot.run (ls ++ ks) = (slot.run ls).bind fun next => next.run ks := by
  induction ls generalizing slot with
  | nil => rfl
  | cons l ls ih =>
      simp only [List.cons_append, run]
      cases slot.step l.kind with
      | none => rfl
      | some next => exact ih next

theorem run_cons {slot next : Slot} {l : Lexeme} (h : slot.step l.kind = some next)
    (ls : List Lexeme) : slot.run (l :: ls) = next.run ls := by
  rw [run, h, Option.bind_some]

end Slot

/-- The slot behind the first lexemes of a text. -/
def slotBehind (ls : List Lexeme) : Option Slot := Slot.run (.before []) ls

theorem slotBehind_concat {ls : List Lexeme} {l : Lexeme} {slot next : Slot}
    (h : slotBehind ls = some slot) (hstep : slot.step l.kind = some next) :
    slotBehind (ls ++ [l]) = some next := by
  have hrun : Slot.run (.before []) ls = some slot := h
  rw [slotBehind, Slot.run_append, hrun, Option.bind_some, Slot.run_cons hstep, Slot.run]

/-! ## Sentences can be followed -/

/-- Where the lexemes of a goal start. -/
def Goal.slot (frames : List Frame) : Goal → Slot
  | .more _ _ => .behind frames
  | _ => .before frames

theorem Tier.slot_operand (tier : Tier) (frames : List Frame) :
    tier.operand.slot frames = .before frames := by
  cases tier <;> rfl

/-- The lexemes of a goal lead behind an operand, in the group where they started. -/
theorem Derives.exists_run {goal : Goal} {ls : List Lexeme} {s : Phrase}
    (h : Derives goal ls s) (frames : List Frame) :
    ∃ inner, (goal.slot frames).run ls = some (.behind inner) ∧
      unwind .sum inner = unwind .sum frames := by
  induction h generalizing frames with
  | number hkind =>
      refine ⟨frames, ?_, rfl⟩
      show (Slot.before frames).run [_] = _
      rw [Slot.run, hkind]
      rfl
  | negate hsign _ ih =>
      obtain ⟨inner, hrun, hunwind⟩ := ih (.sign :: frames)
      refine ⟨inner, ?_, hunwind⟩
      show (Slot.before frames).run (_ :: _) = _
      rw [Slot.run, hsign]
      exact hrun
  | @group opening close ls s hopening _ hclose ih =>
      obtain ⟨inner, hrun, hunwind⟩ := ih (.group :: frames)
      have hinner : (Slot.before (.group :: frames)).run ls = some (.behind inner) := hrun
      have hopened : (Slot.before frames).step opening.kind
          = some (.before (.group :: frames)) := by
        rw [hopening]
        rfl
      have hclosed : (Slot.behind inner).step close.kind = some (.behind frames) := by
        rw [hclose]
        exact Slot.step_rightParen hunwind
      refine ⟨frames, ?_, rfl⟩
      show (Slot.before frames).run _ = _
      rw [Slot.run_cons hopened, Slot.run_append, hinner, Option.bind_some,
        Slot.run_cons hclosed, Slot.run]
  | @chain tier ls ks left s _ _ ih ihothers =>
      obtain ⟨first, hfirst, hunwind⟩ := ih frames
      obtain ⟨inner, hrun, hunwind'⟩ := ihothers first
      refine ⟨inner, ?_, hunwind'.trans hunwind⟩
      rw [tier.slot_operand] at hfirst
      show (Slot.before frames).run _ = _
      rw [Slot.run_append, hfirst, Option.bind_some]
      exact hrun
  | stop => exact ⟨frames, rfl, rfl⟩
  | @more tier operator joint ls ks left right s hjoint htier _ _ ih ihothers =>
      subst htier
      obtain ⟨right, hright, hunwind⟩ := ih (.joint operator.tier :: unwind operator.tier frames)
      obtain ⟨inner, hrun, hunwind'⟩ := ihothers right
      refine ⟨inner, ?_, ?_⟩
      · have hjoined := Slot.step_kind operator frames
        rw [← hjoint] at hjoined
        rw [Tier.slot_operand] at hright
        rw [Goal.slot, Slot.run_cons hjoined, Slot.run_append, hright, Option.bind_some]
        exact hrun
      · rw [hunwind', hunwind]
        exact unwind_sum_unwind operator.tier frames

/-! ## What can be followed is a sentence

Behind an operand the lexemes are read as far as a unary phrase goes. An operator makes the
chain out of it that ends there, together with the chains that were open. -/

/-- One more operand for a chain. -/
theorem Derives.more_concat {operator : Operator} {left s : Phrase} {ks : List Lexeme}
    (h : Derives (.more operator.tier left) ks s) {joint : Lexeme} {js : List Lexeme}
    {right : Phrase} (hjoint : joint.kind = operator.kind)
    (hright : Derives operator.tier.operand js right) :
    Derives (.more operator.tier left) (ks ++ joint :: js) (.binary s operator right) := by
  generalize hgoal : Goal.more operator.tier left = goal at h
  induction h generalizing left with
  | @stop tier left' =>
      cases hgoal
      have hlast : Derives (.more operator.tier left') (joint :: (js ++ [])) _ :=
        .more hjoint rfl hright .stop
      rw [List.append_nil] at hlast
      exact hlast
  | more hjoint' htier' operand' _ _ ih =>
      cases hgoal
      rw [List.cons_append, List.append_assoc]
      exact .more hjoint' htier' operand' (ih rfl)
  | _ => cases hgoal

theorem Derives.chain_concat {operator : Operator} {s : Phrase} {ks : List Lexeme}
    (h : Derives (.chain operator.tier) ks s) {joint : Lexeme} {js : List Lexeme}
    {right : Phrase} (hjoint : joint.kind = operator.kind)
    (hright : Derives operator.tier.operand js right) :
    Derives (.chain operator.tier) (ks ++ joint :: js) (.binary s operator right) := by
  cases h with
  | chain first others =>
      rw [List.append_assoc]
      exact Derives.chain first (others.more_concat hjoint hright)

/-- The lexemes that open the operands: signs, parentheses, and chains with an operator behind
them. A chain takes in all operands that its operator ends. -/
inductive Opens : List Frame → List Lexeme → Prop
  | root : Opens [] []
  | group {frames : List Frame} {ls : List Lexeme} {opening : Lexeme}
      (hkind : opening.kind = .leftParen) (outer : Opens frames ls) :
      Opens (.group :: frames) (ls ++ [opening])
  | sign {frames : List Frame} {ls : List Lexeme} {sign : Lexeme}
      (hkind : sign.kind = .minus) (outer : Opens frames ls) :
      Opens (.sign :: frames) (ls ++ [sign])
  | joint {frames : List Frame} {ls ks : List Lexeme} {operator : Operator} {joint : Lexeme}
      {left : Phrase} (hkind : joint.kind = operator.kind)
      (hleft : Derives (.chain operator.tier) ks left)
      (hframes : unwind operator.tier frames = frames) (outer : Opens frames ls) :
      Opens (.joint operator.tier :: frames) (ls ++ (ks ++ [joint]))

namespace Opens

variable {frames : List Frame} {ls ks : List Lexeme} {s : Phrase}

/-- The right operand of an operator completes its chain. -/
theorem joined {tier : Tier} (h : Opens (.joint tier :: frames) ls)
    (hs : Derives tier.operand ks s) :
    ∃ ls' ks' s', ls ++ ks = ls' ++ ks' ∧ Opens (unwind tier frames) ls' ∧
      Derives (.chain tier) ks' s' := by
  cases h with
  | @joint _ ls js operator joint left hkind hleft hframes outer =>
      refine ⟨ls, js ++ joint :: ks, _, by simp, ?_, hleft.chain_concat hkind hs⟩
      rw [hframes]
      exact outer

/-- An operator of a product makes a term out of the unary phrase before it. -/
theorem exists_term (h : Opens frames ls) (hs : Derives .unary ks s) :
    ∃ ls' ks' s', ls ++ ks = ls' ++ ks' ∧ Opens (unwind .product frames) ls' ∧
      Derives (.chain .product) ks' s' := by
  induction h generalizing ks s with
  | root => exact ⟨[], ks, s, rfl, .root, .single .product hs⟩
  | @group frames ls opening hkind outer _ =>
      exact ⟨ls ++ [opening], ks, s, rfl, .group hkind outer, .single .product hs⟩
  | @sign frames ls sign hkind outer ih =>
      obtain ⟨ls', ks', s', heq, hopens, hterm⟩ := ih (.negate hkind hs)
      exact ⟨ls', ks', s', by rw [← heq]; simp, hopens, hterm⟩
  | @joint frames ls js operator joint left hkind hleft hframes outer _ =>
      have hopens := Opens.joint hkind hleft hframes outer
      generalize operator.tier = tier at hopens ⊢
      cases tier with
      | sum => exact ⟨_, ks, s, rfl, hopens, .single .product hs⟩
      | product => exact hopens.joined hs

/-- An operator of a sum, or the end of a group, makes an expression out of it. -/
theorem exists_expression (h : Opens frames ls) (hs : Derives .unary ks s) :
    ∃ ls' ks' s', ls ++ ks = ls' ++ ks' ∧ Opens (unwind .sum frames) ls' ∧
      Derives (.chain .sum) ks' s' := by
  obtain ⟨ls, ks, s, heq, hopens, hterm⟩ := h.exists_term hs
  have hstable := unwind_unwind .product frames
  rw [heq, ← unwind_sum_unwind .product]
  generalize unwind .product frames = frames at hopens hstable
  cases hopens with
  | root => exact ⟨[], ks, s, rfl, .root, .single .sum hterm⟩
  | @group frames ls opening hkind outer =>
      exact ⟨ls ++ [opening], ks, s, rfl, .group hkind outer, .single .sum hterm⟩
  | @sign frames ls sign hkind outer =>
      exact absurd rfl (not_endsAt_of_unwind hstable)
  | @joint frames ls js operator joint left hkind hleft hframes outer =>
      have hopens := Opens.joint hkind hleft hframes outer
      generalize operator.tier = tier at hopens hstable ⊢
      cases tier with
      | product => exact absurd rfl (not_endsAt_of_unwind hstable)
      | sum => exact hopens.joined hterm

theorem exists_chain (h : Opens frames ls) (hs : Derives .unary ks s) (tier : Tier) :
    ∃ ls' ks' s', ls ++ ks = ls' ++ ks' ∧ Opens (unwind tier frames) ls' ∧
      Derives (.chain tier) ks' s' := by
  cases tier with
  | sum => exact h.exists_expression hs
  | product => exact h.exists_term hs

end Opens

/-- The lexemes open the operands of the slot, and end with a unary phrase behind an
operand. -/
def Slot.Reached : Slot → List Lexeme → Prop
  | before frames, ls => Opens frames ls
  | behind frames, ls => ∃ ks js s, ls = ks ++ js ∧ Opens frames ks ∧ Derives .unary js s

/-- One lexeme further. -/
theorem Slot.Reached.step {slot next : Slot} {ls : List Lexeme} {l : Lexeme}
    (h : slot.Reached ls) (hstep : slot.step l.kind = some next) :
    next.Reached (ls ++ [l]) := by
  cases slot with
  | before frames =>
      rcases step_before hstep with ⟨hkind, rfl⟩ | ⟨hkind, rfl⟩ | ⟨hkind, rfl⟩
      · exact ⟨ls, [l], _, rfl, h, .number hkind⟩
      · exact Opens.sign hkind h
      · exact Opens.group hkind h
  | behind frames =>
      obtain ⟨ks, js, s, rfl, hopens, hs⟩ := h
      rcases step_behind hstep with ⟨operator, hkind, rfl⟩ | ⟨hkind, outer, houter, rfl⟩
      · obtain ⟨ls, ks, s, heq, hopens, hchain⟩ := hopens.exists_chain hs operator.tier
        rw [heq, List.append_assoc]
        exact Opens.joint hkind hchain (unwind_unwind _ _) hopens
      · obtain ⟨ls, ks, s, heq, hopens, hexpression⟩ := hopens.exists_chain hs .sum
        rw [houter] at hopens
        cases hopens with
        | @group _ ls opening hopening houter =>
            refine ⟨ls, opening :: (ks ++ [l]), _, ?_, houter,
              .group hopening hexpression hkind⟩
            rw [heq]
            simp

theorem Slot.Reached.run {slot next : Slot} {ls ks : List Lexeme}
    (h : slot.Reached ls) (hrun : slot.run ks = some next) : next.Reached (ls ++ ks) := by
  induction ks generalizing slot ls with
  | nil =>
      obtain rfl : slot = next := Option.some.inj hrun
      rw [List.append_nil]
      exact h
  | cons k ks ih =>
      obtain ⟨middle, hstep, hrest⟩ := Option.bind_eq_some_iff.1 hrun
      have hreached := ih (h.step hstep) hrest
      rw [List.append_assoc] at hreached
      exact hreached

/-- **The sentences are the lexemes that lead behind an operand with no group open.** -/
theorem exists_derives_iff {ls : List Lexeme} :
    (∃ s, Derives (.chain .sum) ls s) ↔
      ∃ frames, slotBehind ls = some (.behind frames) ∧ unwind .sum frames = [] := by
  constructor
  · rintro ⟨s, hs⟩
    obtain ⟨frames, hrun, hunwind⟩ := hs.exists_run []
    exact ⟨frames, hrun, hunwind⟩
  · rintro ⟨frames, hrun, hunwind⟩
    have hroot : (Slot.before []).Reached [] := Opens.root
    obtain ⟨ks, js, s, heq, hopens, hs⟩ := hroot.run hrun
    obtain ⟨ks, js, s, heq', hopens, hexpression⟩ := hopens.exists_chain hs .sum
    rw [hunwind] at hopens
    cases hopens
    rw [List.nil_append] at heq heq'
    rw [heq, heq']
    exact ⟨s, hexpression⟩

/-! ## How a sentence goes on -/

/-- Some sentence begins with `before` and goes on with `next`. The end of the text goes on
with nothing. -/
def Continues (before : List Lexeme) (next : Lexeme) : Prop :=
  if next.kind = .endOfText then ∃ s, Derives (.chain .sum) before s
  else ∃ after s, Derives (.chain .sum) (before ++ next :: after) s

/-- From each slot there is a way to the end: a number, and the parentheses that are missing. -/
theorem Slot.exists_run (slot : Slot) :
    ∃ ls frames, slot.run ls = some (.behind frames) ∧ unwind .sum frames = [] := by
  have hclose : ∀ size frames, frames.length ≤ size →
      ∃ ls inner, (behind frames).run ls = some (.behind inner) ∧ unwind .sum inner = [] := by
    intro size
    induction size with
    | zero =>
        intro frames hsize
        obtain rfl := List.eq_nil_of_length_eq_zero (Nat.le_zero.1 hsize)
        exact ⟨[], [], rfl, rfl⟩
    | succ size ih =>
        intro frames hsize
        rcases unwind_sum_cases frames with hnil | ⟨outer, houter⟩
        · exact ⟨[], frames, rfl, hnil⟩
        · have hlength : outer.length ≤ size := by
            have hle := (List.dropWhile_sublist (l := frames) (Frame.endsAt .sum)).length_le
            rw [← unwind, houter, List.length_cons] at hle
            omega
          obtain ⟨ls, inner, hrun, hunwind⟩ := ih outer hlength
          refine ⟨⟨.rightParen, ")", 0, 0⟩ :: ls, inner, ?_, hunwind⟩
          rw [run_cons (step_rightParen houter)]
          exact hrun
  cases slot with
  | behind frames => exact hclose _ frames (Nat.le_refl _)
  | before frames =>
      obtain ⟨ls, inner, hrun, hunwind⟩ := hclose _ frames (Nat.le_refl _)
      exact ⟨⟨.number, "0", 0, 0⟩ :: ls, inner, hrun, hunwind⟩

section

variable {before : List Lexeme} {slot : Slot} {next : Lexeme}

/-- **A lexeme goes on with a sentence if and only if it leads to a further slot.** -/
theorem continues_iff_step (h : slotBehind before = some slot)
    (hnext : next.kind ≠ .endOfText) :
    Continues before next ↔ ∃ further, slot.step next.kind = some further := by
  have hrun : ∀ after, slotBehind (before ++ next :: after)
      = (slot.step next.kind).bind fun further => further.run after := by
    intro after
    have hbefore : Slot.run (.before []) before = some slot := h
    rw [slotBehind, Slot.run_append, hbefore, Option.bind_some, Slot.run]
  rw [Continues, if_neg hnext]
  constructor
  · rintro ⟨after, s, hs⟩
    obtain ⟨frames, hframes, -⟩ := exists_derives_iff.1 ⟨s, hs⟩
    rw [hrun] at hframes
    obtain ⟨further, hstep, -⟩ := Option.bind_eq_some_iff.1 hframes
    exact ⟨further, hstep⟩
  · rintro ⟨further, hstep⟩
    obtain ⟨after, frames, hafter, hunwind⟩ := further.exists_run
    refine ⟨after, exists_derives_iff.2 ⟨frames, ?_, hunwind⟩⟩
    rw [hrun, hstep, Option.bind_some]
    exact hafter

/-- **The lexemes may end behind an operand, if no group is open.** -/
theorem continues_iff_ended (h : slotBehind before = some slot)
    (hnext : next.kind = .endOfText) :
    Continues before next ↔ ∃ frames, slot = .behind frames ∧ Frame.group ∉ frames := by
  rw [Continues, if_pos hnext, exists_derives_iff]
  simp only [h, Option.some.injEq, unwind_sum_eq_nil_iff]

end

end LoxArith
