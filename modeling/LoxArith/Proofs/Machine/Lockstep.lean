import LoxArith.Proofs.Grammar
import LoxArith.Proofs.Machine.Visits
import Mathlib.Data.List.Forall2

set_option autoImplicit false

/-! # Runs of the same code

The machine decides by the bytes, by the size of the pool and by the number of live values,
never by a value or a line. So two chunks with the same code and pools of the same size run
in lockstep (`Chunk.Runs.lockstep`): they visit the same offsets with as many values, and stop
in the same way. Values that are related in the pools stay related on the stack, if negation
and the operators respect the relation. Lines are those of the chunk that is run.

The relation is a parameter: with equality the two runs have the same values, and with the
relation that holds of any two doubles nothing is asked of the pools but their size.
-/

namespace LoxArith

/-- A relation between doubles that the arithmetic of the machine respects. -/
structure Respects (R : Float → Float → Prop) : Prop where
  negate : ∀ {x y}, R x y → R (-x) (-y)
  apply : ∀ (operator : Operator) {x y x' y'}, R x y → R x' y' →
    R (operator.apply x x') (operator.apply y y')

theorem respects_eq : Respects Eq where
  negate h := congrArg _ h
  apply operator _ _ _ _ h h' := congrArg₂ operator.apply h h'

theorem respects_true : Respects fun _ _ => True where
  negate _ := trivial
  apply _ _ _ _ _ _ _ := trivial

section

variable {R : Float → Float → Prop}

/-! ## Stacks -/

namespace Stack

/-- The live values are related one by one. -/
def Related (R : Float → Float → Prop) (s s' : Stack) : Prop := List.Forall₂ R s.live s'.live

variable {s s' : Stack}

theorem Related.height_eq (h : Related R s s') : s.height = s'.height := by
  rw [← s.length_live, ← s'.length_live]
  exact h.length_eq

theorem related_cleared (s s' : Stack) : Related R s.cleared s'.cleared := by
  rw [Related, live_cleared, live_cleared]
  exact .nil

/-- Related stacks take a value both, or neither does. -/
theorem Related.push? (h : Related R s s') {v v' : Float} (hv : R v v') :
    (s.push? v = none ∧ s'.push? v' = none) ∨
      ∃ t t', s.push? v = some t ∧ s'.push? v' = some t' ∧ Related R t t' := by
  have hheight := h.height_eq
  cases hpush : s.push? v with
  | none =>
      have hfull := (s.push?_eq_none_iff v).1 hpush
      exact Or.inl ⟨rfl, (s'.push?_eq_none_iff v').2 (hheight ▸ hfull)⟩
  | some t =>
      cases hpush' : s'.push? v' with
      | none =>
          have hfull := (s'.push?_eq_none_iff v').1 hpush'
          rw [(s.push?_eq_none_iff v).2 (hheight ▸ hfull)] at hpush
          cases hpush
      | some t' =>
          refine Or.inr ⟨t, t', rfl, rfl, ?_⟩
          rw [Related, live_push? hpush, live_push? hpush']
          exact List.rel_append h (.cons hv .nil)

/-- Related stacks give related values. -/
theorem Related.pop? (h : Related R s s') :
    (s.pop? = none ∧ s'.pop? = none) ∨
      ∃ v t v' t', s.pop? = some (v, t) ∧ s'.pop? = some (v', t') ∧ R v v' ∧ Related R t t' := by
  cases hpop : s.pop? with
  | none =>
      have hlive := s.pop?_eq_none_iff.1 hpop
      rw [Related, hlive, List.forall₂_nil_left_iff] at h
      exact Or.inl ⟨rfl, s'.pop?_eq_none_iff.2 h⟩
  | some popped =>
      obtain ⟨v, t⟩ := popped
      cases hpop' : s'.pop? with
      | none =>
          have hlive := s'.pop?_eq_none_iff.1 hpop'
          rw [Related, hlive, List.forall₂_nil_right_iff] at h
          rw [s.pop?_eq_none_iff.2 h] at hpop
          cases hpop
      | some popped' =>
          obtain ⟨v', t'⟩ := popped'
          rw [Related, live_pop? hpop, live_pop? hpop'] at h
          -- the values on top are the last ones
          have hlength : t.live.length = t'.live.length := by
            have hall := h.length_eq
            simpa using hall
          have hvalues := List.forall₂_drop t.live.length h
          have hbelow := List.forall₂_take t.live.length h
          rw [List.drop_left] at hvalues
          rw [hlength, List.drop_left] at hvalues
          rw [List.take_left, hlength, List.take_left] at hbelow
          exact Or.inr ⟨v, t, v', t', rfl, rfl, (List.forall₂_cons.1 hvalues).1, hbelow⟩

end Stack

/-! ## Results and steps -/

/-- Related values, or the same fault of the same instruction. The line is the one that each
chunk has for the instruction. -/
inductive SameResult (R : Float → Float → Prop) (c c' : Chunk) :
    Except RuntimeError Float → Except RuntimeError Float → Prop
  | value {v v' : Float} (h : R v v') : SameResult R c c' (.ok v) (.ok v')
  | fault (offset : Nat) (f : RuntimeFault) :
      SameResult R c c' (.error ⟨c.line? offset, f⟩) (.error ⟨c'.line? offset, f⟩)

/-- The steps lead to the same place. -/
inductive SameStep (R : Float → Float → Prop) (c c' : Chunk) : Step → Step → Prop
  | goOn {next : Nat} {s s' : Stack} (h : s.Related R s') :
      SameStep R c c' (.goOn next s) (.goOn next s')
  | stop {result result' : Except RuntimeError Float} {s s' : Stack}
      (hresult : SameResult R c c' result result') (h : s.Related R s') :
      SameStep R c c' (.stop result s) (.stop result' s')

namespace Chunk

/-- The chunks have the same code, and their pools hold related doubles in the same order. -/
structure Matches (R : Float → Float → Prop) (c c' : Chunk) : Prop where
  code : c.code = c'.code
  constants : List.Forall₂ R c.constants.toList c'.constants.toList

variable {c c' : Chunk} {s s' : Stack}

theorem matches_of_eq (hcode : c.code = c'.code) (hconstants : c.constants = c'.constants) :
    Matches Eq c c' :=
  ⟨hcode, by rw [hconstants, List.forall₂_eq_eq_eq]⟩

theorem sameStep_faultAt (offset : Nat) (f : RuntimeFault) (h : s.Related R s') :
    SameStep R c c' (c.faultAt offset f s) (c'.faultAt offset f s') :=
  .stop (.fault offset f) h

theorem sameStep_pushThen (offset next : Nat) {v v' : Float} (hv : R v v') (h : s.Related R s') :
    SameStep R c c' (c.pushThen offset next v s) (c'.pushThen offset next v' s') := by
  unfold pushThen
  rcases h.push? hv with ⟨hpush, hpush'⟩ | ⟨t, t', hpush, hpush', ht⟩
  · rw [hpush, hpush']
    exact sameStep_faultAt offset _ h
  · rw [hpush, hpush']
    exact .goOn ht

theorem sameStep_binaryStep (hR : Respects R) (offset : Nat) (operator : Operator)
    (h : s.Related R s') :
    SameStep R c c' (c.binaryStep offset operator.apply s)
      (c'.binaryStep offset operator.apply s') := by
  unfold binaryStep
  rcases h.pop? with ⟨hpop, hpop'⟩ | ⟨y, t, y', t', hpop, hpop', hy, ht⟩
  · rw [hpop, hpop']
    exact sameStep_faultAt offset _ h
  rw [hpop, hpop']
  dsimp only
  rcases ht.pop? with ⟨hpop, hpop'⟩ | ⟨x, u, x', u', hpop, hpop', hx, hu⟩
  · rw [hpop, hpop']
    exact sameStep_faultAt offset _ ht
  · rw [hpop, hpop']
    exact sameStep_pushThen offset _ (hR.apply operator hx hy) hu

theorem sameStep_negateStep (hR : Respects R) (offset : Nat) (h : s.Related R s') :
    SameStep R c c' (c.negateStep offset s) (c'.negateStep offset s') := by
  unfold negateStep
  rcases h.pop? with ⟨hpop, hpop'⟩ | ⟨x, t, x', t', hpop, hpop', hx, ht⟩
  · rw [hpop, hpop']
    exact sameStep_faultAt offset _ h
  · rw [hpop, hpop']
    exact sameStep_pushThen offset _ (hR.negate hx) ht

theorem sameStep_returnStep (offset : Nat) (h : s.Related R s') :
    SameStep R c c' (c.returnStep offset s) (c'.returnStep offset s') := by
  unfold returnStep
  rcases h.pop? with ⟨hpop, hpop'⟩ | ⟨x, t, x', t', hpop, hpop', hx, ht⟩
  · rw [hpop, hpop']
    exact sameStep_faultAt offset _ h
  · rw [hpop, hpop']
    exact .stop (.value hx) ht

/-- Related pools have entries at the same indices. -/
theorem Matches.getElem? (hc : Matches R c c') (i : Nat) :
    (c.constants[i]? = none ∧ c'.constants[i]? = none) ∨
      ∃ v v', c.constants[i]? = some v ∧ c'.constants[i]? = some v' ∧ R v v' := by
  have hsize := hc.constants.length_eq
  rw [Array.length_toList, Array.length_toList] at hsize
  rcases Nat.lt_or_ge i c.constants.size with hlt | hge
  · have hlt' : i < c'.constants.size := hsize ▸ hlt
    refine Or.inr ⟨c.constants[i], c'.constants[i], Array.getElem?_eq_getElem hlt,
      Array.getElem?_eq_getElem hlt', ?_⟩
    exact (List.forall₂_iff_get.1 hc.constants).2 i (by simpa using hlt) (by simpa using hlt')
  · exact Or.inl ⟨Array.getElem?_eq_none hge, Array.getElem?_eq_none (hsize ▸ hge)⟩

theorem sameStep_constantStep (hc : Matches R c c') (offset : Nat) (h : s.Related R s') :
    SameStep R c c' (c.constantStep offset s) (c'.constantStep offset s') := by
  unfold constantStep
  rw [← hc.code]
  split
  · exact sameStep_faultAt offset _ h
  · rename_i index _
    rcases hc.getElem? index.toNat with ⟨hnone, hnone'⟩ | ⟨v, v', hentry, hentry', hv⟩
    · rw [hnone, hnone']
      exact sameStep_faultAt offset _ h
    · rw [hentry, hentry']
      exact sameStep_pushThen offset _ hv h

/-- **One step of the same code.** -/
theorem Matches.sameStep (hc : Matches R c c') (hR : Respects R) (offset : Nat)
    (h : s.Related R s') : SameStep R c c' (c.step offset s) (c'.step offset s') := by
  unfold step
  rw [← hc.code]
  split
  · exact sameStep_faultAt _ _ h
  split
  · exact sameStep_faultAt _ _ h
  · exact sameStep_constantStep hc offset h
  · exact sameStep_negateStep hR offset h
  · exact sameStep_binaryStep hR offset .add h
  · exact sameStep_binaryStep hR offset .subtract h
  · exact sameStep_binaryStep hR offset .multiply h
  · exact sameStep_binaryStep hR offset .divide h
  · exact sameStep_returnStep offset h

/-! ## Runs -/

/-- The same offset, with related live values. -/
def SameVisit (R : Float → Float → Prop) (visit visit' : Visit) : Prop :=
  visit.1 = visit'.1 ∧ visit.2.Related R visit'.2

/-- **Runs of the same code go in lockstep.** -/
theorem Runs.lockstep (hc : Matches R c c') (hR : Respects R) {offset : Nat}
    {visits visits' : List Visit} {outcome outcome' : Outcome}
    (hrun : c.Runs offset s visits outcome) (hrun' : c'.Runs offset s' visits' outcome')
    (h : s.Related R s') :
    List.Forall₂ (SameVisit R) visits visits' ∧
      SameResult R c c' outcome.result outcome'.result ∧
      outcome.stack.Related R outcome'.stack := by
  induction hrun generalizing s' visits' with
  | @stop offset _ _ _ hstep =>
      have hsame := hc.sameStep hR offset h
      rw [hstep] at hsame
      cases hrun' with
      | stop hstep' =>
          rw [hstep'] at hsame
          cases hsame with
          | stop hresult hafter => exact ⟨.cons ⟨rfl, h⟩ .nil, hresult, hafter⟩
      | goOn hstep' more' =>
          rw [hstep'] at hsame
          cases hsame
  | @goOn offset _ _ _ _ _ hstep more ih =>
      have hsame := hc.sameStep hR offset h
      rw [hstep] at hsame
      cases hrun' with
      | stop hstep' =>
          rw [hstep'] at hsame
          cases hsame
      | goOn hstep' more' =>
          rw [hstep'] at hsame
          cases hsame with
          | goOn hafter =>
              obtain ⟨hvisits, hresult, hstack⟩ := ih more' hafter
              exact ⟨.cons ⟨rfl, h⟩ hvisits, hresult, hstack⟩

/-- Chunks with the same code and related pools have runs of the same visits and results,
whatever the stacks were used for before. -/
theorem Matches.run (hc : Matches R c c') (hR : Respects R) (s s' : Stack) :
    List.Forall₂ (SameVisit R) (c.visits s) (c'.visits s') ∧
      SameResult R c c' (c.run s).result (c'.run s').result ∧
      (c.run s).stack.Related R (c'.run s').stack :=
  (c.runs_visits s).lockstep hc hR (c'.runs_visits s') (Stack.related_cleared s s')

end Chunk

end

end LoxArith
