import LoxArith.Chunk
import LoxArith.Proofs.Number.Bits

set_option autoImplicit false

/-! # The pool of constants

Asking for a constant either finds the first equal entry or adds one at the end
(`addConstant_cases`); whatever is said about pools follows from this.

A pool that was filled with doubles without a sign holds each of them once, in the order of
their first appearance. Doubles are told apart by their bits here: `distinctBits xs` is what
a pool holds after `xs` were asked for, and the index of a double is its position there. The
index stays the same however many doubles follow.
-/

namespace LoxArith

/-! ## Distinct doubles -/

/-- The bits of the doubles in order, without later duplicates. -/
def distinctBits (xs : List Float) : List UInt64 := (xs.map Float.toBits).eraseDups

/-- The position of a double among the distinct ones of a list. -/
def bitsIndex (xs : List Float) (x : Float) : Nat := (distinctBits xs).idxOf x.toBits

theorem mem_distinctBits {xs : List Float} {x : Float} :
    x.toBits ∈ distinctBits xs ↔ x ∈ xs := by
  simp only [distinctBits, List.mem_eraseDups, List.mem_map]
  constructor
  · rintro ⟨y, hy, h⟩
    exact toBits_injective h ▸ hy
  · intro hx
    exact ⟨x, hx, rfl⟩

/-- A double that is there is not added again. -/
theorem distinctBits_concat_of_mem {xs : List Float} {x : Float} (h : x ∈ xs) :
    distinctBits (xs ++ [x]) = distinctBits xs := by
  have hmem : x.toBits ∈ xs.map Float.toBits := List.mem_map_of_mem h
  rw [distinctBits, List.map_append, List.eraseDups_append]
  simp only [List.map_cons, List.map_nil, List.removeAll, List.filter_cons, List.elem_eq_mem, hmem]
  simp [distinctBits]

/-- A new double comes last. -/
theorem distinctBits_concat_of_notMem {xs : List Float} {x : Float} (h : x ∉ xs) :
    distinctBits (xs ++ [x]) = distinctBits xs ++ [x.toBits] := by
  have hmem : x.toBits ∉ xs.map Float.toBits := by
    intro hx
    rcases List.mem_map.1 hx with ⟨y, hy, hxy⟩
    exact h (toBits_injective hxy ▸ hy)
  rw [distinctBits, List.map_append, List.eraseDups_append]
  simp only [List.map_cons, List.map_nil, List.removeAll, List.filter_cons, List.elem_eq_mem, hmem]
  simp [distinctBits, List.eraseDups_cons]

/-- No double is there twice. -/
theorem nodup_distinctBits (xs : List Float) : (distinctBits xs).Nodup := by
  induction xs using List.reverseRecOn with
  | nil => exact List.nodup_nil
  | append_singleton xs x ih =>
      by_cases h : x ∈ xs
      · rw [distinctBits_concat_of_mem h]
        exact ih
      · rw [distinctBits_concat_of_notMem h]
        refine List.nodup_append.2 ⟨ih, by simp, ?_⟩
        rintro b hb c hc rfl
        exact h (mem_distinctBits.1 (List.mem_singleton.1 hc ▸ hb))

/-- There are no more distinct doubles than doubles to choose from. -/
theorem length_distinctBits_le {xs ys : List Float} (h : ∀ x ∈ xs, x ∈ ys) :
    (distinctBits xs).length ≤ ys.length := by
  have hsub : distinctBits xs ⊆ ys.map Float.toBits := by
    intro b hb
    rcases List.mem_map.1 (List.mem_eraseDups.1 hb) with ⟨x, hx, rfl⟩
    exact List.mem_map_of_mem (h x hx)
  calc (distinctBits xs).length
      ≤ (ys.map Float.toBits).length :=
        (nodup_distinctBits xs).length_le_of_subset hsub
    _ = ys.length := List.length_map _

/-- Doubles that follow do not move the ones that are there. -/
theorem bitsIndex_append {xs : List Float} {x : Float} (h : x ∈ xs) (ys : List Float) :
    bitsIndex (xs ++ ys) x = bitsIndex xs x := by
  have hmem : x.toBits ∈ distinctBits xs := mem_distinctBits.2 h
  simp only [bitsIndex, distinctBits, List.map_append, List.eraseDups_append]
  exact List.idxOf_append_of_mem hmem

/-! ## Asking for a constant -/

namespace Chunk

/-- The entry at `index` is the first one that is equal to `value`. -/
structure IsFirst (c : Chunk) (value : Float) (index : Nat) : Prop where
  found : ∃ entry, c.constants[index]? = some entry ∧ (entry == value) = true
  least : ∀ i < index, ∀ entry, c.constants[i]? = some entry → (entry == value) = false

theorem isFirst_iff {c : Chunk} {value : Float} {index : Nat} :
    c.IsFirst value index ↔ c.constants.findIdx? (· == value) = some index := by
  rw [Array.findIdx?_eq_some_iff_getElem]
  constructor
  · rintro ⟨⟨entry, hentry, hequal⟩, hleast⟩
    obtain ⟨hindex, rfl⟩ := Array.getElem?_eq_some_iff.1 hentry
    refine ⟨hindex, hequal, fun i hi => ?_⟩
    rw [hleast i hi _ (Array.getElem?_eq_getElem (Nat.lt_trans hi hindex))]
    exact Bool.false_ne_true
  · rintro ⟨hindex, hequal, hleast⟩
    refine ⟨⟨_, Array.getElem?_eq_getElem hindex, hequal⟩, ?_⟩
    intro i hi entry hentry
    obtain ⟨_, rfl⟩ := Array.getElem?_eq_some_iff.1 hentry
    exact Bool.not_eq_true _ ▸ hleast i hi

/-- **What asking for a constant does.** If there is an equal entry, the first one is given;
otherwise the constant becomes the last entry. -/
theorem addConstant_cases (c : Chunk) (value : Float) :
    (c.IsFirst value (c.addConstant value).1 ∧ (c.addConstant value).2 = c) ∨
    ((∀ entry ∈ c.constants, (entry == value) = false) ∧
      c.addConstant value =
        (c.constants.size, { c with constants := c.constants.push value })) := by
  unfold addConstant
  split
  · rename_i index hindex
    exact Or.inl ⟨isFirst_iff.2 hindex, rfl⟩
  · rename_i hnone
    exact Or.inr ⟨Array.findIdx?_eq_none_iff.1 hnone, rfl⟩

theorem addConstant_code (c : Chunk) (value : Float) : (c.addConstant value).2.code = c.code := by
  rcases c.addConstant_cases value with ⟨-, hsame⟩ | ⟨-, hnew⟩
  · rw [hsame]
  · rw [hnew]

theorem addConstant_lines (c : Chunk) (value : Float) :
    (c.addConstant value).2.lines = c.lines := by
  rcases c.addConstant_cases value with ⟨-, hsame⟩ | ⟨-, hnew⟩
  · rw [hsame]
  · rw [hnew]

/-- The index that is given out lies in the pool that results. -/
theorem addConstant_lt (c : Chunk) (value : Float) :
    (c.addConstant value).1 < (c.addConstant value).2.constants.size := by
  rcases c.addConstant_cases value with ⟨hfirst, hsame⟩ | ⟨-, hnew⟩
  · obtain ⟨entry, hentry, -⟩ := hfirst.found
    rw [hsame]
    exact (Array.getElem?_eq_some_iff.1 hentry).1
  · simp [hnew]

theorem size_le_addConstant (c : Chunk) (value : Float) :
    c.constants.size ≤ (c.addConstant value).2.constants.size := by
  rcases c.addConstant_cases value with ⟨-, hsame⟩ | ⟨-, hnew⟩
  · rw [hsame]
  · simp [hnew]

end Chunk

/-! ## Filling a pool -/

namespace Chunk

/-- The pool holds the distinct ones of some doubles without a sign. -/
structure Pools (c : Chunk) (xs : List Float) : Prop where
  bits : c.constants.toList.map Float.toBits = distinctBits xs
  magnitudes : ∀ x ∈ xs, IsMagnitude x

theorem pools_nil : ({} : Chunk).Pools [] := ⟨rfl, by simp⟩

theorem Pools.mem {c : Chunk} {xs : List Float} (h : c.Pools xs) {x : Float} :
    x ∈ c.constants ↔ x ∈ xs := by
  rw [← mem_distinctBits, ← h.bits, List.mem_map, ← Array.mem_toList_iff]
  constructor
  · intro hx
    exact ⟨x, hx, rfl⟩
  · rintro ⟨y, hy, hxy⟩
    exact toBits_injective hxy ▸ hy

/-- Looking for an equal double is looking for the same bits. -/
theorem findIdx_eq_idxOf {l : List Float} {value : Float} (hl : ∀ x ∈ l, IsMagnitude x)
    (hvalue : IsMagnitude value) :
    l.findIdx (· == value) = (l.map Float.toBits).idxOf value.toBits := by
  induction l with
  | nil => rfl
  | cons x l ih =>
      have hx : IsMagnitude x := hl x List.mem_cons_self
      have hbeq : (x == value) = (x.toBits == value.toBits) := by
        rw [Bool.eq_iff_iff, beq_iff_eq_of_isMagnitude hx hvalue, beq_iff_eq]
        constructor
        · intro heq
          rw [heq]
        · intro heq
          exact toBits_injective heq
      rw [List.findIdx_cons, List.map_cons, List.idxOf_cons, hbeq,
        ih fun y hy => hl y (List.mem_cons_of_mem x hy)]

/-- **Asking for a constant.** The index is the position of the double among the distinct
ones, and the pool grows only by a double it did not hold. -/
theorem Pools.addConstant {c : Chunk} {xs : List Float} (h : c.Pools xs) {value : Float}
    (hvalue : IsMagnitude value) :
    (c.addConstant value).2.Pools (xs ++ [value]) ∧
      (c.addConstant value).1 = bitsIndex (xs ++ [value]) value := by
  have hmagnitudes : ∀ x ∈ xs ++ [value], IsMagnitude x := by
    intro x hx
    rcases List.mem_append.1 hx with hx | hx
    · exact h.magnitudes x hx
    · exact List.mem_singleton.1 hx ▸ hvalue
  have hpool : ∀ x ∈ c.constants.toList, IsMagnitude x :=
    fun x hx => h.magnitudes x (h.mem.1 (Array.mem_toList_iff.1 hx))
  have hfind : c.constants.findIdx (· == value) = (distinctBits xs).idxOf value.toBits := by
    rw [← h.bits, ← findIdx_eq_idxOf hpool hvalue, ← List.findIdx_toArray, Array.toArray_toList]
  unfold bitsIndex
  rcases c.addConstant_cases value with ⟨hfirst, hsame⟩ | ⟨hnone, hnew⟩
  · -- the double is there: the search stops at its bits
    obtain ⟨entry, hentry, hequal⟩ := hfirst.found
    have hin : entry ∈ xs := h.mem.1 (Array.mem_of_getElem? hentry)
    obtain rfl := (beq_iff_eq_of_isMagnitude (h.magnitudes entry hin) hvalue).1 hequal
    obtain ⟨-, hindex⟩ := Array.findIdx?_eq_some_iff_findIdx_eq.1 (isFirst_iff.1 hfirst)
    rw [distinctBits_concat_of_mem hin, hsame]
    refine ⟨⟨?_, hmagnitudes⟩, ?_⟩
    · rw [distinctBits_concat_of_mem hin, h.bits]
    · rw [← hfind, hindex]
  · -- no equal double is there: it becomes the last one
    have hmem : value ∉ xs := by
      intro hmem
      have heq := hnone value (h.mem.2 hmem)
      exact Bool.false_ne_true (heq.symm.trans ((beq_iff_eq_of_isMagnitude hvalue hvalue).2 rfl))
    have hlast : value.toBits ∉ distinctBits xs := fun hin => hmem (mem_distinctBits.1 hin)
    rw [distinctBits_concat_of_notMem hmem, hnew]
    refine ⟨⟨?_, hmagnitudes⟩, ?_⟩
    · simp [distinctBits_concat_of_notMem hmem, h.bits]
    · rw [List.idxOf_append_of_notMem hlast, ← h.bits]
      simp

end Chunk

end LoxArith
