import LoxArith.Listing
import LoxArith.Proofs.Faults
import LoxArith.Proofs.Machine.Visits

set_option autoImplicit false

/-! # The offsets of a listing

A listing has one line for each instruction. Its offsets tile the code (`Chunk.Tiles`): each
follows the one before it by the byte length of the instruction there, and only the last
instruction may lack its operand. The machine visits the same offsets in the same order
(`Chunk.Tiles.visits`), as far as it gets, and at most one more, the end of the code.

So the machine and the listing, which decode the bytes each for itself, agree on where
instructions start.
-/

namespace LoxArith

namespace Chunk

variable {c : Chunk}

/-! ## Tiles -/

/-- The byte length of the instruction at an offset: two for a load, and one for any other
byte. -/
def widthAt (c : Chunk) (offset : Nat) : Nat :=
  if c.code[offset]? = some OpCode.constant.toByte then 2 else 1

theorem widthAt_cases (c : Chunk) (offset : Nat) : c.widthAt offset = 1 ∨ c.widthAt offset = 2 := by
  unfold widthAt
  split
  · exact Or.inr rfl
  · exact Or.inl rfl

/-- The width of an opcode is that of the instruction at its byte. -/
theorem widthAt_of_opCode {offset : Nat} {op : OpCode}
    (hop : c.code[offset]? = some op.toByte) : c.widthAt offset = op.width := by
  rw [widthAt, hop]
  cases op <;> rfl

theorem nextOffset_eq_add (c : Chunk) (offset : Nat) :
    c.nextOffset offset = offset + c.widthAt offset := by
  unfold nextOffset
  split
  · rename_i op hop
    obtain ⟨byte, hbyte, hdecode⟩ := Option.bind_eq_some_iff.1 hop
    rw [OpCode.eq_toByte_of_ofByte? hdecode] at hbyte
    rw [widthAt_of_opCode hbyte]
  · rename_i hnone
    have hload : c.code[offset]? ≠ some OpCode.constant.toByte := by
      intro hbyte
      rw [hbyte] at hnone
      cases hnone
    rw [widthAt, if_neg hload]

/-- From an offset on, the instructions start at these offsets, up to the end of the code. -/
inductive Tiles (c : Chunk) : Nat → List Nat → Prop
  | finish {offset : Nat} (h : c.size ≤ offset) : Tiles c offset []
  | next {offset : Nat} {offsets : List Nat} (h : offset < c.size)
      (more : Tiles c (offset + c.widthAt offset) offsets) : Tiles c offset (offset :: offsets)

/-- The listing shows the instructions at the offsets that tile the code. -/
theorem exists_tiles (c : Chunk) (offset : Nat) :
    ∃ offsets, c.Tiles offset offsets ∧
      ∀ text, c.listFrom offset text = text ++ String.join (offsets.map c.listingLine) := by
  by_cases hin : offset < c.size
  · have hnext := c.nextOffset_eq_add offset
    have hwidth := c.widthAt_cases offset
    obtain ⟨offsets, htiles, hlist⟩ := exists_tiles c (offset + c.widthAt offset)
    refine ⟨offset :: offsets, .next hin htiles, ?_⟩
    intro text
    rw [listFrom, if_pos hin, hnext, hlist, List.map_cons, String.join_cons, String.append_assoc]
  · refine ⟨[], .finish (Nat.le_of_not_lt hin), ?_⟩
    intro text
    rw [listFrom, if_neg hin]
    exact (String.append_empty).symm
  termination_by c.size - offset

namespace Tiles

variable {offset : Nat} {offsets : List Nat}

/-- The offsets lie in the code, at or behind the first one. -/
theorem bounds (h : c.Tiles offset offsets) : ∀ o ∈ offsets, offset ≤ o ∧ o < c.size := by
  induction h with
  | finish _ => simp
  | @next offset offsets hin _ ih =>
      intro o ho
      rcases List.mem_cons.1 ho with rfl | ho
      · exact ⟨Nat.le_refl _, hin⟩
      · have hbounds := ih o ho
        omega

theorem pairwise (h : c.Tiles offset offsets) : offsets.Pairwise (· < ·) := by
  induction h with
  | finish _ => exact .nil
  | @next offset offsets _ more ih =>
      refine List.pairwise_cons.2 ⟨?_, ih⟩
      intro o ho
      have hbounds := more.bounds o ho
      have hwidth := c.widthAt_cases offset
      omega

/-- An instruction ends where the next one starts, and the last one at the end of the code, or
one byte behind it if its operand is missing. -/
theorem ends {front back : List Nat} {o : Nat} (h : c.Tiles offset offsets)
    (hoffsets : offsets = front ++ o :: back) :
    (∀ o', back.head? = some o' → o' = o + c.widthAt o) ∧
      (back = [] → o + c.widthAt o = c.size ∨
        (c.widthAt o = 2 ∧ o + 1 = c.size)) := by
  induction h generalizing front with
  | finish _ => simp at hoffsets
  | @next offset offsets hin more ih =>
      cases front with
      | cons o' front => exact ih (List.cons.inj hoffsets).2
      | nil =>
          obtain ⟨rfl, rfl⟩ := List.cons.inj hoffsets
          have hwidth := c.widthAt_cases offset
          cases more with
          | finish hend =>
              refine ⟨by simp, fun _ => ?_⟩
              omega
          | next _ _ => simp

/-- Instructions start at the offsets. -/
theorem starts (h : c.Tiles offset offsets) (hstart : c.Starts offset) :
    ∀ o ∈ offsets, c.Starts o := by
  induction h with
  | finish _ => simp
  | @next offset offsets hin _ ih =>
      intro o ho
      rcases List.mem_cons.1 ho with rfl | ho
      · exact hstart
      · refine ih ?_ o ho
        rw [← c.nextOffset_eq_add]
        exact .next hstart hin

end Tiles

/-! ## Visits -/

/-- A step that goes on does so at the next instruction. -/
theorem step_eq_goOn {offset next : Nat} {stack after : Stack}
    (h : c.step offset stack = .goOn next after) :
    offset < c.size ∧ next = offset + c.widthAt offset := by
  unfold step at h
  split at h
  · exact absurd h (faultAt_ne_goOn _ _ _ _ _ _)
  rename_i byte hbyte
  refine ⟨(Array.getElem?_eq_some_iff.1 hbyte).1, ?_⟩
  have hwidth : ∀ {op : OpCode}, OpCode.ofByte? byte = some op → c.widthAt offset = op.width := by
    intro op hop
    rw [OpCode.eq_toByte_of_ofByte? hop] at hbyte
    exact widthAt_of_opCode hbyte
  split at h
  · exact absurd h (faultAt_ne_goOn _ _ _ _ _ _)
  · rename_i hop
    rw [hwidth hop]
    exact (constantStep_eq_goOn h).1
  · rename_i hop
    rw [hwidth hop]
    exact negateStep_eq_goOn h
  iterate 4
    · rename_i hop
      rw [hwidth hop]
      exact binaryStep_eq_goOn h
  · exact absurd h (returnStep_ne_goOn _ _ _ _ _)

/-- **The machine visits the offsets of the listing.** The visits inside the code are at the
first of the offsets that tile it. If the run comes to the end of the code, all of them were
visited, and there is one visit more, at the end. -/
theorem Tiles.visits {offset : Nat} {offsets : List Nat} {stack : Stack} {visits : List Visit}
    {outcome : Outcome} (h : c.Tiles offset offsets) (hrun : c.Runs offset stack visits outcome)
    (hin : offset ≤ c.size) :
    visits.map Prod.fst <+: offsets ∨ visits.map Prod.fst = offsets ++ [c.size] := by
  induction hrun generalizing offsets with
  | stop hstep =>
      cases h with
      | finish hend =>
          rw [Nat.le_antisymm hin hend]
          exact Or.inr rfl
      | next _ _ => exact Or.inl (List.prefix_append [_] _)
  | goOn hstep _ ih =>
      obtain ⟨hlt, rfl⟩ := step_eq_goOn hstep
      have hnext := (lt_of_step_eq_goOn hstep).2
      cases h with
      | finish hend => exact absurd hlt (Nat.not_lt_of_le hend)
      | next _ more =>
          rcases ih more hnext with hvisits | hvisits
          · exact Or.inl (List.prefix_cons_inj _ |>.2 hvisits)
          · exact Or.inr (congrArg _ hvisits)

/-- Only a return stops with a value. -/
theorem step_eq_stop_ok {offset : Nat} {stack after : Stack} {value : Float}
    (h : c.step offset stack = .stop (.ok value) after) :
    c.code[offset]? = some OpCode.return.toByte := by
  have hpush : ∀ (next : Nat) (v : Float) (s : Stack),
      c.pushThen offset next v s ≠ .stop (.ok value) after := by
    intro next v s
    unfold pushThen
    split <;> simp [faultAt]
  have hbinary : ∀ operation, c.binaryStep offset operation stack ≠ .stop (.ok value) after := by
    intro operation
    unfold binaryStep
    split
    · simp [faultAt]
    split
    · simp [faultAt]
    · exact hpush _ _ _
  unfold step at h
  split at h
  · cases h
  rename_i byte hbyte
  split at h
  · cases h
  · unfold constantStep at h
    split at h
    · cases h
    split at h
    · cases h
    · exact absurd h (hpush _ _ _)
  · unfold negateStep at h
    split at h
    · cases h
    · exact absurd h (hpush _ _ _)
  · exact absurd h (hbinary _)
  · exact absurd h (hbinary _)
  · exact absurd h (hbinary _)
  · exact absurd h (hbinary _)
  · rename_i hop
    rw [hbyte, OpCode.eq_toByte_of_ofByte? hop]

/-- A run with a value ends with a visit to a return. -/
theorem Runs.last_return {offset : Nat} {stack : Stack} {visits : List Visit} {outcome : Outcome}
    {value : Float} (h : c.Runs offset stack visits outcome) (hvalue : outcome.result = .ok value) :
    ∃ front last, visits.map Prod.fst = front ++ [last] ∧
      c.code[last]? = some OpCode.return.toByte := by
  induction h with
  | stop hstep =>
      cases hvalue
      exact ⟨[], _, rfl, step_eq_stop_ok hstep⟩
  | @goOn offset _ _ _ _ _ hstep _ ih =>
      obtain ⟨front, last, hvisits, hreturn⟩ := ih hvalue
      exact ⟨offset :: front, last, congrArg _ hvisits, hreturn⟩

end Chunk

end LoxArith
