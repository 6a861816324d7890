import Mathlib.Data.List.Basic
import Mathlib.Algebra.Order.BigOperators.Group.List
import Mathlib.Algebra.Ring.Nat

/-!
# Offsets into concatenated blocks

A list of blocks is read as one sequence, their concatenation. `locate` finds the block an
offset of that sequence falls into and the offset inside the block, scanning the block lengths
from the first one on. Empty blocks contribute nothing and are never found.
-/

namespace Aesd.Foundation

/-- The block that contains an offset, with the offset inside it. -/
def locate : List ℕ → ℕ → Option (ℕ × ℕ)
  | [], _ => none
  | length :: rest, offset =>
    if offset < length then some (0, offset)
    else (locate rest (offset - length)).map fun found ↦ (found.1 + 1, found.2)

theorem locate_eq_none_iff (lengths : List ℕ) (offset : ℕ) :
    locate lengths offset = none ↔ lengths.sum ≤ offset := by
  induction lengths generalizing offset with
  | nil => simp [locate]
  | cons length rest ih =>
    by_cases hhead : offset < length
    · simp only [locate, hhead, if_true, List.sum_cons, reduceCtorEq, false_iff]
      omega
    · simp only [locate, hhead, if_false, Option.map_eq_none_iff, ih, List.sum_cons]
      omega

/-- The block found starts at the sum of the lengths before it and contains the offset. -/
theorem locate_eq_some_iff (lengths : List ℕ) (offset index inner : ℕ) :
    locate lengths offset = some (index, inner) ↔
      ∃ h : index < lengths.length,
        (lengths.take index).sum + inner = offset ∧ inner < lengths[index] := by
  induction lengths generalizing offset index with
  | nil => simp [locate]
  | cons length rest ih =>
    by_cases hhead : offset < length
    · simp only [locate, hhead, if_true, Option.some.injEq, Prod.mk.injEq]
      constructor
      · rintro ⟨rfl, rfl⟩
        exact ⟨by simp, by simp, by simpa using hhead⟩
      · rintro ⟨hindex, hsum, hinner⟩
        cases index with
        | zero => simpa [eq_comm] using hsum
        | succ index =>
          simp only [List.take_succ_cons, List.sum_cons] at hsum
          omega
    · simp only [locate, hhead, if_false, Option.map_eq_some_iff, Prod.mk.injEq, Prod.exists]
      constructor
      · rintro ⟨found, rest', hfound, rfl, rfl⟩
        obtain ⟨hindex, hsum, hinner⟩ := (ih (offset - length) found).mp hfound
        refine ⟨by simpa using hindex, ?_, by simpa using hinner⟩
        simp only [List.take_succ_cons, List.sum_cons]
        omega
      · rintro ⟨hindex, hsum, hinner⟩
        cases index with
        | zero =>
          simp only [List.take_zero, List.sum_nil, List.getElem_cons_zero] at hsum hinner
          omega
        | succ index =>
          simp only [List.take_succ_cons, List.sum_cons, List.getElem_cons_succ,
            List.length_cons] at hindex hsum hinner
          exact ⟨index, inner, (ih (offset - length) index).mpr
            ⟨by omega, by omega, hinner⟩, rfl, rfl⟩

theorem locate_append_replicate_zero (lengths : List ℕ) (count offset : ℕ) :
    locate (lengths ++ List.replicate count 0) offset = locate lengths offset := by
  induction lengths generalizing offset with
  | nil =>
    rw [List.nil_append, (locate_eq_none_iff _ _).mpr (by simp)]
    rfl
  | cons length rest ih => simp only [List.cons_append, locate, ih]

section Content

variable {Element : Type*}

def startOf (blocks : List (List Element)) (index : ℕ) : ℕ := (blocks.take index).flatten.length

theorem startOf_eq_sum (blocks : List (List Element)) (index : ℕ) :
    startOf blocks index = ((blocks.map List.length).take index).sum := by
  rw [startOf, List.length_flatten, List.map_take]

theorem startOf_succ {blocks : List (List Element)} {index : ℕ} (h : index < blocks.length) :
    startOf blocks (index + 1) = startOf blocks index + blocks[index].length := by
  rw [startOf, startOf, List.take_succ_eq_append_getElem h, List.flatten_append,
    List.length_append, List.flatten_singleton]

theorem startOf_length (blocks : List (List Element)) :
    startOf blocks blocks.length = blocks.flatten.length := by
  rw [startOf, List.take_length]

theorem startOf_mono (blocks : List (List Element)) {first second : ℕ} (h : first ≤ second) :
    startOf blocks first ≤ startOf blocks second := by
  rw [startOf, startOf, ← List.take_append_drop first (blocks.take second), List.take_take,
    Nat.min_eq_left h, List.flatten_append, List.length_append]
  exact Nat.le_add_right _ _

/-- Every block ends inside the concatenation. -/
theorem startOf_add_length_le {blocks : List (List Element)} {index : ℕ}
    (h : index < blocks.length) :
    startOf blocks index + blocks[index].length ≤ blocks.flatten.length := by
  calc startOf blocks index + blocks[index].length
      = startOf blocks (index + 1) := (startOf_succ h).symm
    _ ≤ startOf blocks blocks.length := startOf_mono blocks (Nat.succ_le_of_lt h)
    _ = blocks.flatten.length := startOf_length blocks

/-- The concatenation from a block's start on begins with that block. -/
theorem drop_startOf {blocks : List (List Element)} {index : ℕ} (h : index < blocks.length) :
    blocks.flatten.drop (startOf blocks index) =
      blocks[index] ++ (blocks.drop (index + 1)).flatten := by
  have hsplit : blocks = blocks.take index ++ blocks[index] :: blocks.drop (index + 1) := by
    rw [List.getElem_cons_drop, List.take_append_drop]
  calc
    blocks.flatten.drop (startOf blocks index) =
        ((blocks.take index).flatten ++
          (blocks[index] :: blocks.drop (index + 1)).flatten).drop (startOf blocks index) := by
      rw [← List.flatten_append, ← hsplit]
    _ = blocks[index] ++ (blocks.drop (index + 1)).flatten := by
      rw [startOf, List.drop_left, List.flatten_cons]

/-- Bytes read inside one block are the bytes of the concatenation at the global offset. -/
theorem take_drop_flatten {blocks : List (List Element)} {index : ℕ} (h : index < blocks.length)
    {inner count : ℕ} (hcount : inner + count ≤ blocks[index].length) :
    (blocks.flatten.drop (startOf blocks index + inner)).take count =
      (blocks[index].drop inner).take count := by
  rw [← List.drop_drop, drop_startOf h, List.drop_append_of_le_length (by omega),
    List.take_append_of_le_length (by rw [List.length_drop]; omega)]

/-- Every offset below the total falls into some block. -/
theorem exists_startOf {blocks : List (List Element)} {offset : ℕ}
    (h : offset < blocks.flatten.length) :
    ∃ index inner, ∃ hindex : index < blocks.length,
      offset = startOf blocks index + inner ∧ inner < blocks[index].length := by
  have hsome : locate (blocks.map List.length) offset ≠ none := by
    rw [Ne, locate_eq_none_iff, ← List.length_flatten]
    omega
  obtain ⟨⟨index, inner⟩, hfound⟩ := Option.ne_none_iff_exists'.mp hsome
  obtain ⟨hindex, hsum, hinner⟩ := (locate_eq_some_iff _ _ _ _).mp hfound
  rw [List.length_map] at hindex
  rw [List.getElem_map] at hinner
  exact ⟨index, inner, hindex, by rw [startOf_eq_sum, hsum], hinner⟩

/-- What a block has from an offset of the concatenation on, up to its end. -/
def restOf : List (List Element) → ℕ → List Element
  | [], _ => []
  | block :: rest, offset =>
    if offset < block.length then block.drop offset else restOf rest (offset - block.length)

theorem restOf_startOf {blocks : List (List Element)} {index inner : ℕ}
    (h : index < blocks.length) (hinner : inner < blocks[index].length) :
    restOf blocks (startOf blocks index + inner) = blocks[index].drop inner := by
  induction blocks generalizing index with
  | nil => exact absurd h (Nat.not_lt_zero index)
  | cons block rest ih =>
    cases index with
    | zero =>
      have hstart : startOf (block :: rest) 0 + inner = inner := Nat.zero_add inner
      rw [hstart]
      exact if_pos hinner
    | succ index =>
      have hstart : startOf (block :: rest) (index + 1) = block.length + startOf rest index := by
        simp only [startOf, List.take_succ_cons, List.flatten_cons, List.length_append]
      have hbehind : ¬ block.length + startOf rest index + inner < block.length := by omega
      have hrest : block.length + startOf rest index + inner - block.length =
          startOf rest index + inner := by omega
      rw [hstart, restOf, if_neg hbehind, hrest]
      exact ih (Nat.lt_of_succ_lt_succ h) hinner

theorem restOf_of_le {blocks : List (List Element)} {offset : ℕ}
    (h : blocks.flatten.length ≤ offset) : restOf blocks offset = [] := by
  induction blocks generalizing offset with
  | nil => rfl
  | cons block rest ih =>
    rw [List.flatten_cons, List.length_append] at h
    rw [restOf, if_neg (by omega)]
    exact ih (by omega)

end Content

end Aesd.Foundation
