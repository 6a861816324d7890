import Mathlib.Data.List.Basic
import Mathlib.Data.Nat.Find

/-!
# Reading in pieces

A reader is asked again and again, each time at the place its last answer left. When every answer
is the beginning of what is left at its place, and is empty only where nothing is left, then there
is a first empty answer, and the answers before it are all that was left at the start. The sizes
of the answers do not matter and need not be the same for two readings at one place.
-/

namespace Aesd.Foundation

variable {Place Element : Type*} (read : ℕ → Place → List Element × Place)

def placeAfter (start : Place) : ℕ → Place
  | 0 => start
  | number + 1 => (read number (placeAfter start number)).2

/-- What the reading with this number yields. -/
def pieceAt (start : Place) (number : ℕ) : List Element :=
  (read number (placeAfter read start number)).1

/-- A reading moves on by a number of readings when the first ones are done. -/
theorem placeAfter_succ (start : Place) (number : ℕ) :
    placeAfter read start (number + 1) =
      placeAfter (fun later ↦ read (later + 1)) (read 0 start).2 number := by
  induction number with
  | zero => rfl
  | succ number ih => rw [placeAfter, ih, placeAfter]

theorem pieceAt_succ (start : Place) (number : ℕ) :
    pieceAt read start (number + 1) =
      pieceAt (fun later ↦ read (later + 1)) (read 0 start).2 number := by
  rw [pieceAt, placeAfter_succ, pieceAt]

/-- What is left at a place is what a reading yields there and what is left behind it. -/
structure Follows (left : Place → List Element) (valid : Place → Prop) : Prop where
  keeps : ∀ number place, valid place → valid (read number place).2
  splits : ∀ number place, valid place →
    left place = (read number place).1 ++ left (read number place).2

/-- Moreover a reading yields nothing only where nothing is left. -/
structure Depletes (left : Place → List Element) (valid : Place → Prop) : Prop
    extends Follows read left valid where
  ends : ∀ number place, valid place → (read number place).1 = [] → left place = []

variable {read} {left : Place → List Element} {valid : Place → Prop} {start : Place}

namespace Follows

theorem valid_placeAfter (h : Follows read left valid) (hstart : valid start) (count : ℕ) :
    valid (placeAfter read start count) := by
  induction count with
  | zero => exact hstart
  | succ count ih => exact h.keeps count _ ih

/-- The pieces read so far and what is left are what was left at the start. -/
theorem pieces_append_left (h : Follows read left valid) (hstart : valid start) (count : ℕ) :
    (List.range count).flatMap (pieceAt read start) ++ left (placeAfter read start count) =
      left start := by
  induction count with
  | zero => rfl
  | succ count ih =>
    have hsplit := h.splits count _ (h.valid_placeAfter hstart count)
    rw [List.range_succ, List.flatMap_append, List.append_assoc, List.flatMap_singleton]
    rw [hsplit] at ih
    exact ih

/-- Each reading that yields something uses up an element. -/
theorem le_length_left (h : Follows read left valid) (hstart : valid start) {count : ℕ}
    (hpieces : ∀ number < count, pieceAt read start number ≠ []) :
    count ≤ (left start).length := by
  have hcount : count ≤ ((List.range count).flatMap (pieceAt read start)).length := by
    induction count with
    | zero => exact Nat.zero_le _
    | succ count ih =>
      have hbefore := ih fun number hnumber ↦ hpieces number (Nat.lt_succ_of_lt hnumber)
      have hlast := List.length_pos_iff.mpr (hpieces count (Nat.lt_succ_self count))
      rw [List.range_succ, List.flatMap_append, List.length_append, List.flatMap_singleton]
      omega
  rw [← h.pieces_append_left hstart count, List.length_append]
  omega

end Follows

/-- **Reading ends.** There is a first reading that yields nothing, after no more readings than
there were elements, and the readings before it yield everything. -/
theorem Depletes.exists_end (h : Depletes read left valid) (hstart : valid start) :
    ∃ count ≤ (left start).length, (∀ number < count, pieceAt read start number ≠ []) ∧
      pieceAt read start count = [] ∧
      (List.range count).flatMap (pieceAt read start) = left start := by
  have hend : ∃ count, pieceAt read start count = [] := by
    by_contra hnone
    rw [not_exists] at hnone
    have hle := h.le_length_left hstart
      (fun number (_ : number < (left start).length + 1) ↦ hnone number)
    omega
  have hbefore : ∀ number < Nat.find hend, pieceAt read start number ≠ [] :=
    fun number hnumber ↦ Nat.find_min hend hnumber
  have hpieces := h.pieces_append_left hstart (Nat.find hend)
  rw [h.ends _ _ (h.valid_placeAfter hstart _) (Nat.find_spec hend), List.append_nil] at hpieces
  exact ⟨Nat.find hend, h.le_length_left hstart hbefore, hbefore, Nat.find_spec hend, hpieces⟩

end Aesd.Foundation
