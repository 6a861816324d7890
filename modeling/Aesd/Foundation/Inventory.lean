import Aesd.Foundation.Heap
import Mathlib.Data.List.Nodup
import Mathlib.Data.List.Perm.Basic
import Mathlib.Data.List.ReduceOption

/-!
# Inventories of a heap

A list that names every live block once. Each operation on the heap has its rule, so that the
inventory at the end of a run says what was never released. A checked release fails where a block
would be released a second time; an inventory tells when a series of them succeeds.
-/

namespace Aesd.Foundation.Heap

variable {Cell : Type*}

/-- The list names every live block, and none twice. -/
structure Inventory (heap : Heap Cell) (ids : List ℕ) : Prop where
  nodup : ids.Nodup
  live_iff : ∀ id, heap.Live id ↔ id ∈ ids

/-- A release that fails on a block that is not live; releasing NULL does nothing. -/
def release (heap : Heap Cell) : Option ℕ → Option (Heap Cell)
  | none => some heap
  | some id => if heap.Live id then some (heap.free (some id)) else none

def releaseAll (heap : Heap Cell) : List (Option ℕ) → Option (Heap Cell)
  | [] => some heap
  | pointer :: rest => (heap.release pointer).bind fun heap ↦ heap.releaseAll rest

namespace Inventory

variable {heap : Heap Cell} {ids : List ℕ}

theorem empty : (Heap.empty : Heap Cell).Inventory [] where
  nodup := List.nodup_nil
  live_iff := fun id ↦ iff_of_false (Heap.not_live_empty id) List.not_mem_nil

theorem perm (h : heap.Inventory ids) {ids' : List ℕ} (hperm : ids.Perm ids') :
    heap.Inventory ids' where
  nodup := hperm.nodup h.nodup
  live_iff := fun id ↦ (h.live_iff id).trans hperm.mem_iff

theorem alloc (h : heap.Inventory ids) (cells : List Cell) :
    (heap.alloc cells).Inventory (heap.next :: ids) where
  nodup := by
    apply List.nodup_cons.mpr
    refine ⟨fun hmem ↦ ?_, h.nodup⟩
    have hlive := (h.live_iff heap.next).mpr hmem
    exact Nat.lt_irrefl _ hlive.lt_next
  live_iff := by
    intro id
    rw [live_alloc_iff, h.live_iff, List.mem_cons]

theorem store (h : heap.Inventory ids) (id offset : ℕ) (new : List Cell) :
    (heap.store id offset new).Inventory ids where
  nodup := h.nodup
  live_iff := fun other ↦ (live_store_iff heap id offset new other).trans (h.live_iff other)

theorem free {pointer : Option ℕ} (h : heap.Inventory (pointer.toList ++ ids)) :
    (heap.free pointer).Inventory ids where
  nodup := (List.nodup_append.mp h.nodup).2.1
  live_iff := by
    intro id
    rw [live_free_iff, h.live_iff, List.mem_append, Option.mem_toList]
    constructor
    · rintro ⟨hne, hsame | hmem⟩
      · exact absurd hsame hne
      · exact hmem
    · intro hmem
      refine ⟨fun hsame ↦ ?_, Or.inr hmem⟩
      have hapart := (List.nodup_append.mp h.nodup).2.2
      exact hapart id (Option.mem_toList.mpr hsame) id hmem rfl

theorem eq_nil_iff (h : heap.Inventory ids) : ids = [] ↔ ∀ id, ¬ heap.Live id := by
  rw [List.eq_nil_iff_forall_not_mem]
  exact forall_congr' fun id ↦ not_congr (h.live_iff id).symm

/-- Whatever an inventory names can be released, each block once. -/
theorem releaseAll {pointers : List (Option ℕ)}
    (h : heap.Inventory (pointers.reduceOption ++ ids)) :
    ∃ left, heap.releaseAll pointers = some left ∧ left.Inventory ids := by
  induction pointers generalizing heap with
  | nil => exact ⟨heap, rfl, h⟩
  | cons pointer rest ih =>
    cases pointer with
    | none => exact ih h
    | some id =>
      have hlive : heap.Live id := (h.live_iff id).mpr List.mem_cons_self
      have hfreed : (heap.free (some id)).Inventory (rest.reduceOption ++ ids) := h.free
      obtain ⟨left, hleft, hinventory⟩ := ih hfreed
      refine ⟨left, ?_, hinventory⟩
      rw [Heap.releaseAll, Heap.release, if_pos hlive]
      exact hleft

end Inventory

end Aesd.Foundation.Heap
