import Mathlib.Data.List.Basic
import Mathlib.Logic.Function.Basic

/-!
# Memory blocks with identities

A heap maps identities to the contents of the blocks that are live. An identity is handed out
once: allocation always takes one that was never live before, so a pointer kept after its block
was released, or lost while its block is still live, can be told apart from every later block.
A pointer is an optional identity, `none` being the null pointer.
-/

namespace Aesd.Foundation

/-- Live blocks by identity, and the bound below which identities have been handed out. -/
structure Heap (Cell : Type*) where
  block : ℕ → Option (List Cell)
  next : ℕ
  unused : ∀ id, next ≤ id → block id = none

namespace Heap

variable {Cell : Type*}

def empty : Heap Cell where
  block := fun _ ↦ none
  next := 0
  unused := fun _ _ ↦ rfl

def Live (heap : Heap Cell) (id : ℕ) : Prop := heap.block id ≠ none

instance (heap : Heap Cell) (id : ℕ) : Decidable (heap.Live id) :=
  match h : heap.block id with
  | none => isFalse fun hlive ↦ hlive h
  | some _ => isTrue fun hnone ↦ by rw [h] at hnone; exact absurd hnone (by simp)

/-- The contents behind a pointer; there are none behind the null pointer. -/
def read (heap : Heap Cell) (pointer : Option ℕ) : List Cell :=
  (pointer.bind heap.block).getD []

/-- Allocate a block with these contents; its identity is `heap.next`. -/
def alloc (heap : Heap Cell) (cells : List Cell) : Heap Cell where
  block := Function.update heap.block heap.next (some cells)
  next := heap.next + 1
  unused id hid := by
    rw [Function.update_of_ne (by omega)]
    exact heap.unused id (by omega)

/-- Release the block behind a pointer; releasing the null pointer does nothing. -/
def free (heap : Heap Cell) (pointer : Option ℕ) : Heap Cell where
  block := fun id ↦ if pointer = some id then none else heap.block id
  next := heap.next
  unused id hid := by
    split
    · rfl
    · exact heap.unused id hid

def splice (cells : List Cell) (offset : ℕ) (new : List Cell) : List Cell :=
  cells.take offset ++ new ++ cells.drop (offset + new.length)

def store (heap : Heap Cell) (id offset : ℕ) (new : List Cell) : Heap Cell where
  block := fun other ↦
    if other = id then (heap.block other).map fun cells ↦ splice cells offset new
    else heap.block other
  next := heap.next
  unused other hother := by
    rw [heap.unused other hother]
    split <;> rfl

/-- Contents cut or extended to a length, the extension taken from `filler` by position. -/
def resize (cells : List Cell) (length : ℕ) (filler : ℕ → Cell) : List Cell :=
  cells.take length ++ (List.range (length - cells.length)).map fun k ↦ filler (cells.length + k)

@[simp]
theorem length_resize (cells : List Cell) (length : ℕ) (filler : ℕ → Cell) :
    (resize cells length filler).length = length := by
  simp only [resize, List.length_append, List.length_take, List.length_map, List.length_range]
  omega

theorem take_resize {cells : List Cell} {length kept : ℕ} (filler : ℕ → Cell)
    (hcells : kept ≤ cells.length) (hlength : kept ≤ length) :
    (resize cells length filler).take kept = cells.take kept := by
  rw [resize, List.take_append_of_le_length (by rw [List.length_take]; omega), List.take_take,
    Nat.min_eq_left hlength]

/-- Overwriting up to the end of the contents leaves the part before the offset. -/
theorem splice_to_end {cells new : List Cell} {offset : ℕ}
    (h : cells.length ≤ offset + new.length) :
    splice cells offset new = cells.take offset ++ new := by
  rw [splice, List.drop_of_length_le h, List.append_nil]

@[simp]
theorem read_none (heap : Heap Cell) : heap.read none = [] := rfl

theorem read_some (heap : Heap Cell) (id : ℕ) : heap.read (some id) = (heap.block id).getD [] := rfl

@[simp]
theorem next_free (heap : Heap Cell) (pointer : Option ℕ) : (heap.free pointer).next = heap.next :=
  rfl

@[simp]
theorem not_live_empty (id : ℕ) : ¬ (empty : Heap Cell).Live id := fun h ↦ h rfl

theorem Live.lt_next {heap : Heap Cell} {id : ℕ} (h : heap.Live id) : id < heap.next := by
  by_contra hle
  exact h (heap.unused id (Nat.not_lt.mp hle))

theorem live_alloc_iff (heap : Heap Cell) (cells : List Cell) (id : ℕ) :
    (heap.alloc cells).Live id ↔ id = heap.next ∨ heap.Live id := by
  by_cases hid : id = heap.next
  · simp [Live, alloc, hid]
  · simp [Live, alloc, hid]

theorem live_free_iff (heap : Heap Cell) (pointer : Option ℕ) (id : ℕ) :
    (heap.free pointer).Live id ↔ pointer ≠ some id ∧ heap.Live id := by
  by_cases hid : pointer = some id
  · simp [Live, free, hid]
  · simp [Live, free, hid]

@[simp]
theorem live_store_iff (heap : Heap Cell) (id offset : ℕ) (new : List Cell) (other : ℕ) :
    (heap.store id offset new).Live other ↔ heap.Live other := by
  by_cases hid : other = id
  · simp [Live, store, hid]
  · simp [Live, store, hid]

@[simp]
theorem read_alloc_self (heap : Heap Cell) (cells : List Cell) :
    (heap.alloc cells).read (some heap.next) = cells := by
  simp [read_some, alloc]

/-- Allocation leaves every block already handed out alone. -/
theorem read_alloc_of_lt (heap : Heap Cell) (cells : List Cell) {id : ℕ} (h : id < heap.next) :
    (heap.alloc cells).read (some id) = heap.read (some id) := by
  simp [read_some, alloc, Nat.ne_of_lt h]

theorem read_free_of_ne (heap : Heap Cell) {pointer : Option ℕ} {id : ℕ} (h : pointer ≠ some id) :
    (heap.free pointer).read (some id) = heap.read (some id) := by
  simp [read_some, free, h]

theorem read_store_of_ne (heap : Heap Cell) {id other : ℕ} (offset : ℕ) (new : List Cell)
    (h : other ≠ id) : (heap.store id offset new).read (some other) = heap.read (some other) := by
  simp [read_some, store, h]

theorem read_store_self {heap : Heap Cell} {id : ℕ} (hlive : heap.Live id) (offset : ℕ)
    (new : List Cell) :
    (heap.store id offset new).read (some id) = splice (heap.read (some id)) offset new := by
  obtain ⟨cells, hcells⟩ := Option.ne_none_iff_exists'.mp hlive
  simp [read_some, store, hcells]

end Heap

end Aesd.Foundation
