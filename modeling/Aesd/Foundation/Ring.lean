import Mathlib.Data.List.Basic
import Mathlib.Data.List.Induction
import Mathlib.Data.List.Rotate
import Mathlib.Data.Nat.ModEq

/-!
# Bounded logs kept in a ring of slots

A log grows without bound while only its last `size` elements are kept. They live in `size`
slots, the element of index `k` in slot `k % size`. Two offsets and a flag are all a ring stores
about the log: the slot written next, the slot of the oldest kept element, and whether every
slot is in use.

`Represents` states what the slots, the offsets and the flag say about the whole log. One write
keeps it, and a walk over all the slots from the read offset meets the kept elements from oldest
to newest and then blank slots only, so a loop over the ring never has to look at the write
offset or at the flag.
-/

namespace Aesd.Foundation

/-! ## The kept part of a log -/

section Window

variable {Element : Type*}

/-- The last `size` elements of a log. -/
def window (size : ℕ) (log : List Element) : List Element := log.drop (log.length - size)

def evicted (size : ℕ) (log : List Element) : List Element := log.take (log.length - size)

theorem evicted_append_window (size : ℕ) (log : List Element) :
    evicted size log ++ window size log = log := List.take_append_drop _ _

@[simp]
theorem evicted_eq_nil_iff (size : ℕ) (log : List Element) :
    evicted size log = [] ↔ log.length ≤ size := by
  rw [evicted, List.take_eq_nil_iff, Nat.sub_eq_zero_iff_le]
  constructor
  · rintro (hle | rfl)
    · exact hle
    · exact Nat.zero_le size
  · exact Or.inl

theorem length_window (size : ℕ) (log : List Element) :
    (window size log).length = min log.length size := by
  rw [window, List.length_drop]
  omega

theorem map_window {Other : Type*} (f : Element → Other) (size : ℕ) (log : List Element) :
    (window size log).map f = window size (log.map f) := by
  simp only [window, List.map_drop, List.length_map]

theorem mem_of_mem_window {size : ℕ} {log : List Element} {element : Element}
    (h : element ∈ window size log) : element ∈ log := List.mem_of_mem_drop h

theorem getElem_window {size : ℕ} {log : List Element} {index : ℕ}
    (h : index < (window size log).length) (hlog : log.length - size + index < log.length) :
    (window size log)[index] = log[log.length - size + index] := by
  simp only [window, List.getElem_drop]

/-- Appending to a bounded FIFO: where there is no room the oldest element leaves. -/
def enqueue (size : ℕ) (fifo : List Element) (element : Element) : List Element :=
  (if fifo.length < size then fifo else fifo.tail) ++ [element]

theorem window_of_length_le {size : ℕ} {log : List Element} (h : log.length ≤ size) :
    window size log = log := by
  rw [window, Nat.sub_eq_zero_of_le h, List.drop_zero]

/-- Writing to the log appends to its kept part. -/
theorem window_concat {size : ℕ} (hpos : 0 < size) (log : List Element) (element : Element) :
    window size (log ++ [element]) = enqueue size (window size log) element := by
  have hlength := length_window size log
  unfold enqueue
  by_cases hroom : log.length < size
  · have hfits : (log ++ [element]).length ≤ size := by
      rw [List.length_append, List.length_singleton]
      exact hroom
    rw [if_pos (by omega), window_of_length_le hroom.le, window_of_length_le hfits]
  · have hdrop : (log ++ [element]).length - size = log.length - size + 1 := by
      rw [List.length_append, List.length_singleton]
      omega
    rw [if_neg (by omega), window, hdrop, List.drop_append_of_le_length (by omega), window,
      List.tail_drop]

/-- **The kept part of a log is a bounded FIFO of its elements.** -/
theorem foldl_enqueue {size : ℕ} (hpos : 0 < size) (log : List Element) :
    log.foldl (enqueue size) [] = window size log := by
  induction log using List.reverseRecOn with
  | nil => exact (window_of_length_le (Nat.zero_le size)).symm
  | append_singleton log element ih =>
    calc (log ++ [element]).foldl (enqueue size) []
        = enqueue size (log.foldl (enqueue size) []) element := List.foldl_concat _ _ _ _
      _ = enqueue size (window size log) element := by rw [ih]
      _ = window size (log ++ [element]) := (window_concat hpos log element).symm

end Window

/-! ## Slots -/

section Slots

variable {Element : Type*}

/-- The elements a walk of `steps` slots meets from slot `index` on, wrapping after `size`. -/
def walk (size : ℕ) (slots : ℕ → Element) : ℕ → ℕ → List Element
  | 0, _ => []
  | steps + 1, index => slots index :: walk size slots steps ((index + 1) % size)

@[simp]
theorem length_walk (size : ℕ) (slots : ℕ → Element) (steps index : ℕ) :
    (walk size slots steps index).length = steps := by
  induction steps generalizing index with
  | zero => rfl
  | succ steps ih => rw [walk, List.length_cons, ih]

/-- Going on from a slot that was reached in so many steps. -/
theorem slot_add_one (size index position : ℕ) :
    ((index + position) % size + 1) % size = (index + (position + 1)) % size := by
  rw [Nat.mod_add_mod, Nat.add_assoc]

theorem next_slot_add (size index position : ℕ) :
    ((index + 1) % size + position) % size = (index + (position + 1)) % size := by
  rw [Nat.mod_add_mod, Nat.add_assoc, Nat.add_comm 1 position]

theorem getElem_walk {size : ℕ} {slots : ℕ → Element} {steps index position : ℕ}
    (hindex : index < size) (h : position < (walk size slots steps index).length) :
    (walk size slots steps index)[position] = slots ((index + position) % size) := by
  induction steps generalizing index position with
  | zero => simp only [length_walk, Nat.not_lt_zero] at h
  | succ steps ih =>
    cases position with
    | zero => simp only [walk, List.getElem_cons_zero, Nat.add_zero, Nat.mod_eq_of_lt hindex]
    | succ position =>
      have hsize : 0 < size := Nat.zero_lt_of_lt hindex
      simp only [walk, List.getElem_cons_succ]
      rw [ih (Nat.mod_lt _ hsize), next_slot_add]

theorem walk_take {size : ℕ} {slots : ℕ → Element} {steps kept : ℕ} (index : ℕ)
    (h : kept ≤ steps) : (walk size slots steps index).take kept = walk size slots kept index := by
  induction kept generalizing steps index with
  | zero => rfl
  | succ kept ih =>
    obtain ⟨steps, rfl⟩ : ∃ rest, steps = rest + 1 := ⟨steps - 1, by omega⟩
    simp only [walk, List.take_succ_cons, ih _ (Nat.le_of_succ_le_succ h)]

/-- A walk over all slots starts somewhere on the way around them. -/
theorem walk_eq_rotate {size : ℕ} (slots : ℕ → Element) {index : ℕ} (hindex : index < size) :
    walk size slots size index = ((List.range size).map slots).rotate index := by
  apply List.ext_getElem
  · rw [length_walk, List.length_rotate, List.length_map, List.length_range]
  · intro position _ _
    simp only [getElem_walk hindex, List.getElem_rotate, List.getElem_map, List.getElem_range,
      List.length_map, List.length_range, Nat.add_comm]

/-- So all these walks meet the same elements. -/
theorem walk_perm {size : ℕ} (slots : ℕ → Element) {first second : ℕ} (hfirst : first < size)
    (hsecond : second < size) :
    (walk size slots size first).Perm (walk size slots size second) := by
  rw [walk_eq_rotate slots hfirst, walk_eq_rotate slots hsecond]
  exact (List.rotate_perm _ _).trans (List.rotate_perm _ _).symm

/-- What the slots, the two offsets and the flag of a ring say about the log written to it. -/
structure Represents (size : ℕ) (blank : Element) (slots : ℕ → Element)
    (inOffset outOffset : ℕ) (full : Bool) (log : List Element) : Prop where
  inOffset_eq : inOffset = log.length % size
  outOffset_eq : outOffset = if log.length < size then 0 else log.length % size
  full_eq : full = decide (size ≤ log.length)
  written : ∀ index (h : index < log.length), log.length ≤ index + size →
    slots (index % size) = log[index]
  untouched : ∀ slot < size, log.length ≤ slot → slots slot = blank

/-- Two log indices less than a whole turn apart share no slot. -/
theorem mod_ne_of_lt {size first second : ℕ} (hlt : first < second)
    (hturn : second < first + size) : first % size ≠ second % size := by
  intro heq
  have hdvd : size ∣ second - first := (Nat.modEq_iff_dvd' hlt.le).mp heq
  have hle : size ≤ second - first := Nat.le_of_dvd (by omega) hdvd
  omega

namespace Represents

variable {size : ℕ} {blank : Element} {slots : ℕ → Element} {inOffset outOffset : ℕ}
  {full : Bool} {log : List Element}

/-- A ring whose slots are all blank represents the empty log. -/
theorem empty (hblank : ∀ slot < size, slots slot = blank) (hpos : 0 < size) :
    Represents size blank slots 0 0 false [] where
  inOffset_eq := (Nat.zero_mod size).symm
  outOffset_eq := (if_pos hpos).symm
  full_eq := (decide_eq_false (Nat.not_le.mpr hpos)).symm
  written := fun index h ↦ absurd h (Nat.not_lt_zero index)
  untouched := fun slot hslot _ ↦ hblank slot hslot

theorem inOffset_lt (h : Represents size blank slots inOffset outOffset full log)
    (hpos : 0 < size) : inOffset < size := by
  rw [h.inOffset_eq]
  exact Nat.mod_lt _ hpos

theorem outOffset_lt (h : Represents size blank slots inOffset outOffset full log)
    (hpos : 0 < size) : outOffset < size := by
  rw [h.outOffset_eq]
  split
  · exact hpos
  · exact Nat.mod_lt _ hpos

/-- The offset and flag updates of one write: the write offset moves on, the read offset moves
with it only when every slot was in use, and the flag compares the two. -/
theorem push (h : Represents size blank slots inOffset outOffset full log) (hpos : 0 < size)
    {slots' : ℕ → Element} {element : Element} (hin : slots' inOffset = element)
    (hother : ∀ slot < size, slot ≠ inOffset → slots' slot = slots slot) :
    Represents size blank slots' ((inOffset + 1) % size)
      (if full then (outOffset + 1) % size else outOffset)
      ((inOffset + 1) % size == if full then (outOffset + 1) % size else outOffset)
      (log ++ [element]) := by
  have hlength : (log ++ [element]).length = log.length + 1 := by simp
  have hin' : (inOffset + 1) % size = (log.length + 1) % size := by
    rw [h.inOffset_eq, Nat.mod_add_mod]
  have hout' : (if full then (outOffset + 1) % size else outOffset) =
      if log.length + 1 < size then 0 else (log.length + 1) % size := by
    rw [h.full_eq, h.outOffset_eq]
    by_cases hfull : size ≤ log.length
    · simp only [hfull, decide_true, if_true, if_neg (Nat.not_lt.mpr hfull), Nat.mod_add_mod,
        if_neg (show ¬ log.length + 1 < size by omega)]
    · simp only [hfull, decide_false, Bool.false_eq_true, if_false,
        if_pos (Nat.not_le.mp hfull)]
      split
      · rfl
      · rw [show log.length + 1 = size by omega, Nat.mod_self]
  refine ⟨by rw [hlength, hin'], by rw [hlength, hout'], ?_, ?_, ?_⟩
  · rw [hin', hout', hlength]
    by_cases hroom : log.length + 1 < size
    · simp only [if_pos hroom, Nat.mod_eq_of_lt hroom, Nat.not_le.mpr hroom, decide_false]
      exact beq_false_of_ne (by omega)
    · simp only [if_neg hroom, Nat.not_lt.mp hroom, decide_true, beq_self_eq_true]
  · intro index hindex hkept
    rw [hlength] at hindex hkept
    by_cases hlast : index = log.length
    · subst hlast
      rw [← h.inOffset_eq, hin]
      exact (List.getElem_concat_length rfl _).symm
    · have hlt : index < log.length := by omega
      have hslot : index % size ≠ inOffset := by
        rw [h.inOffset_eq]
        exact mod_ne_of_lt hlt (by omega)
      rw [hother _ (Nat.mod_lt _ hpos) hslot, h.written index hlt (by omega),
        List.getElem_append_left hlt]
  · intro slot hslot hlog
    rw [hlength] at hlog
    have hne : slot ≠ inOffset := by
      rw [h.inOffset_eq, Nat.mod_eq_of_lt (by omega)]
      omega
    rw [hother slot hslot hne, h.untouched slot hslot (by omega)]

/-- The slot of the `index`-th kept element, counted from the oldest. -/
theorem slot_window (h : Represents size blank slots inOffset outOffset full log)
    {index : ℕ} (hindex : index < (window size log).length) :
    slots ((outOffset + index) % size) = (window size log)[index] := by
  have hbound : index < min log.length size := by rw [← length_window]; exact hindex
  rw [getElem_window hindex (by omega), h.outOffset_eq]
  by_cases hroom : log.length < size
  · rw [if_pos hroom, ← h.written (log.length - size + index) (by omega) (by omega)]
    congr 2
    omega
  · rw [if_neg hroom, ← h.written (log.length - size + index) (by omega) (by omega),
      Nat.mod_add_mod]
    congr 1
    have hturn : log.length + index = log.length - size + index + size := by omega
    rw [hturn, Nat.add_mod_right]

/-- A slot holds the last element written to it, or was never written. -/
theorem slot_cases (h : Represents size blank slots inOffset outOffset full log) {slot : ℕ}
    (hslot : slot < size) :
    (∃ index, ∃ hindex : index < log.length, index % size = slot ∧
        log.length ≤ index + size ∧ slots slot = log[index]) ∨
      (log.length ≤ slot ∧ slots slot = blank) := by
  by_cases hwritten : log.length ≤ slot
  · exact Or.inr ⟨hwritten, h.untouched slot hslot hwritten⟩
  · -- the last index below the length of the log with the remainder `slot`
    have hturns := Nat.div_add_mod (log.length - 1 - slot) size
    have hrest := Nat.mod_lt (log.length - 1 - slot) (show size > 0 by omega)
    have hindex : slot + size * ((log.length - 1 - slot) / size) < log.length := by omega
    have hlast : log.length ≤ slot + size * ((log.length - 1 - slot) / size) + size := by omega
    have hmod : (slot + size * ((log.length - 1 - slot) / size)) % size = slot := by
      rw [Nat.add_mul_mod_self_left, Nat.mod_eq_of_lt hslot]
    refine Or.inl ⟨_, hindex, hmod, hlast, ?_⟩
    rw [← h.written _ hindex hlast, hmod]

/-- A walk over every slot meets the kept elements in order and then blank slots only. -/
theorem walk_eq (h : Represents size blank slots inOffset outOffset full log) (hpos : 0 < size) :
    walk size slots size outOffset =
      window size log ++ List.replicate (size - log.length) blank := by
  apply List.ext_getElem
  · rw [length_walk, List.length_append, length_window, List.length_replicate]
    omega
  · intro position hwalk _
    rw [getElem_walk (h.outOffset_lt hpos)]
    rw [length_walk] at hwalk
    by_cases hkept : position < (window size log).length
    · rw [List.getElem_append_left hkept, h.slot_window hkept]
    · have hlength := length_window size log
      have hroom : log.length < size := by omega
      rw [List.getElem_append_right (Nat.not_lt.mp hkept), List.getElem_replicate,
        h.outOffset_eq, if_pos hroom, Nat.zero_add, Nat.mod_eq_of_lt hwalk]
      exact h.untouched position hwalk (by omega)

/-- A walk over as many slots as there are kept elements meets exactly these. -/
theorem walk_kept (h : Represents size blank slots inOffset outOffset full log) (hpos : 0 < size) :
    walk size slots (min log.length size) outOffset = window size log := by
  rw [← walk_take outOffset (Nat.min_le_right log.length size), h.walk_eq hpos]
  exact List.take_left' (length_window size log)

/-- In a ring with room every slot but those of the kept elements is blank. -/
theorem blank_of_not_kept (h : Represents size blank slots inOffset outOffset full log)
    (hroom : full = false) {slot : ℕ} (hslot : slot < size)
    (hother : ∀ index < min log.length size, slot ≠ (outOffset + index) % size) :
    slots slot = blank := by
  have hlength : log.length < size := by
    rw [h.full_eq, decide_eq_false_iff_not] at hroom
    exact Nat.not_le.mp hroom
  apply h.untouched slot hslot
  by_contra hwritten
  apply hother slot (by omega)
  rw [h.outOffset_eq, if_pos hlength, Nat.zero_add, Nat.mod_eq_of_lt hslot]

/-- Past the kept elements a walk that ends before its first slot comes round again meets blank
slots only. -/
theorem walk_untouched (h : Represents size blank slots inOffset outOffset full log)
    {position steps : ℕ} (hlog : log.length ≤ position) (hsteps : position + steps ≤ size) :
    walk size slots steps ((outOffset + position) % size) = List.replicate steps blank := by
  apply List.ext_getElem
  · rw [length_walk, List.length_replicate]
  · intro index hwalk _
    have hindex : index < steps := by rwa [length_walk] at hwalk
    have hroom : log.length < size := by omega
    rw [getElem_walk (Nat.mod_lt _ (by omega)), List.getElem_replicate, Nat.mod_add_mod,
      h.outOffset_eq, if_pos hroom, Nat.zero_add, Nat.mod_eq_of_lt (by omega)]
    exact h.untouched _ (by omega) (by omega)

/-- From the read offset the walk reaches the slot written next, in a ring with room, after
exactly the kept elements. -/
theorem eq_inOffset_iff (h : Represents size blank slots inOffset outOffset full log)
    {position : ℕ} (hposition : position < size) :
    ((outOffset + position) % size = inOffset ∧ full = false) ↔ log.length = position := by
  rw [h.full_eq, h.outOffset_eq, h.inOffset_eq, decide_eq_false_iff_not, Nat.not_le]
  by_cases hroom : log.length < size
  · rw [if_pos hroom, Nat.zero_add, Nat.mod_eq_of_lt hposition, Nat.mod_eq_of_lt hroom]
    exact ⟨fun hboth ↦ hboth.1.symm, fun heq ↦ ⟨heq.symm, hroom⟩⟩
  · constructor
    · rintro ⟨-, hlt⟩
      exact absurd hlt hroom
    · intro heq
      exact absurd (heq ▸ hposition) hroom

end Represents

end Slots

end Aesd.Foundation
