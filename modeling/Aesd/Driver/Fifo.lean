import Aesd.Driver.Seek

/-!
# The ring as a bounded FIFO

What the ring is for: a FIFO of entries with room for ten, from which the oldest leaves when there
is no room. The ring stores no length. Its number of entries is what the loop of `aesd_ioctl`
counts, which has to tell the empty ring from the full one by the flag, since the two offsets are
the same in both.
-/

namespace Aesd.Driver.CircularBuffer

open Foundation

variable {buffer : CircularBuffer} {added : List BufferEntry}

/-- The FIFO a ring stands for: as many entries as `aesd_ioctl` counts, from `out_offs` on. -/
def fifo (buffer : CircularBuffer) : List BufferEntry :=
  walk maxWriteOperationsSupported buffer.slot
    (countLoop buffer maxWriteOperationsSupported buffer.outOffs 0) buffer.outOffs

theorem Holds.fifo_eq (h : buffer.Holds added) : buffer.fifo = held added := by
  rw [fifo, h.countLoop_eq, length_window]
  exact Represents.walk_kept h (by decide)

/-- Adding an entry to the ring appends it to the FIFO. -/
theorem Holds.fifo_addEntry (h : buffer.Holds added) (entry : BufferEntry) :
    (aesdCircularBufferAddEntry buffer entry).fifo =
      enqueue maxWriteOperationsSupported buffer.fifo entry := by
  calc (aesdCircularBufferAddEntry buffer entry).fifo
      = held (added ++ [entry]) := (h.addEntry entry).fifo_eq
    _ = enqueue maxWriteOperationsSupported (held added) entry :=
        window_concat (by decide) added entry
    _ = enqueue maxWriteOperationsSupported buffer.fifo entry := by rw [h.fifo_eq]

/-- So a ring that is filled entry by entry goes through the states of the FIFO. -/
theorem Holds.fifo_foldl (h : buffer.Holds added) (entries : List BufferEntry) :
    (entries.foldl aesdCircularBufferAddEntry buffer).fifo =
      entries.foldl (enqueue maxWriteOperationsSupported) buffer.fifo := by
  induction entries generalizing buffer added with
  | nil => rfl
  | cons entry rest ih =>
    rw [List.foldl_cons, List.foldl_cons, ih (h.addEntry entry), h.fifo_addEntry]

/-- A new ring is the empty FIFO, and each entry added to it is appended. -/
theorem fifo_addAll (entries : List BufferEntry) :
    (addAll entries).fifo = entries.foldl (enqueue maxWriteOperationsSupported) [] := by
  have hinit : aesdCircularBufferInit.fifo = [] := holds_init.fifo_eq
  rw [addAll, holds_init.fifo_foldl, hinit]

theorem countLoop_addAll (entries : List BufferEntry) :
    countLoop (addAll entries) maxWriteOperationsSupported (addAll entries).outOffs 0 =
      min entries.length maxWriteOperationsSupported := by
  rw [(holds_addAll entries).countLoop_eq, length_window]

/-- The two offsets are the same in the empty and in the full ring, and in no other. -/
theorem Holds.inOffs_eq_outOffs_iff (h : buffer.Holds added) :
    buffer.inOffs = buffer.outOffs ↔ added = [] ∨ buffer.full = true := by
  rw [h.inOffset_eq, h.outOffset_eq, h.full_eq, decide_eq_true_iff, ← List.length_eq_zero_iff]
  by_cases hroom : added.length < maxWriteOperationsSupported
  · rw [if_pos hroom, Nat.mod_eq_of_lt hroom]
    exact (or_iff_left (Nat.not_le.mpr hroom)).symm
  · rw [if_neg hroom]
    exact iff_of_true rfl (Or.inr (Nat.not_lt.mp hroom))

theorem Holds.full_foldl (h : buffer.Holds added) (hfull : buffer.full = true)
    (entries : List BufferEntry) :
    (entries.foldl aesdCircularBufferAddEntry buffer).full = true := by
  rw [h.full_eq, decide_eq_true_iff] at hfull
  rw [(holds_foldl h entries).full_eq, decide_eq_true_iff, List.length_append]
  exact Nat.le_add_right_of_le hfull

/-- The ring represents the bounded FIFO of these entries: reading from `out_offs` on gives the
last of them, at most ten, in the order in which they were added; the flag is set when there are
ten, and stays set; the offsets are indices, and the same only in the empty and in the full ring;
where the flag is not set every other slot is zero; and the loop of `aesd_ioctl` counts what is held
in all of these states. -/
structure RepresentsFifo (buffer : CircularBuffer) (entries : List BufferEntry) : Prop where
  reads : walk maxWriteOperationsSupported buffer.slot
      (min entries.length maxWriteOperationsSupported) buffer.outOffs =
    entries.foldl (enqueue maxWriteOperationsSupported) []
  last : entries.foldl (enqueue maxWriteOperationsSupported) [] =
    entries.drop (entries.length - min entries.length maxWriteOperationsSupported)
  full_iff : buffer.full = true ↔ maxWriteOperationsSupported ≤ entries.length
  staysFull : buffer.full = true → ∀ later : List BufferEntry,
    (later.foldl aesdCircularBufferAddEntry buffer).full = true
  inOffs_lt : buffer.inOffs < maxWriteOperationsSupported
  outOffs_lt : buffer.outOffs < maxWriteOperationsSupported
  ambiguous_iff : buffer.inOffs = buffer.outOffs ↔ entries = [] ∨ buffer.full = true
  blank : buffer.full = false → ∀ slot < maxWriteOperationsSupported,
    (∀ index < min entries.length maxWriteOperationsSupported,
      slot ≠ (buffer.outOffs + index) % maxWriteOperationsSupported) →
    buffer.slot slot = BufferEntry.zero
  counts : countLoop buffer maxWriteOperationsSupported buffer.outOffs 0 =
    min entries.length maxWriteOperationsSupported

/-- **The ring is a bounded FIFO.** It represents the FIFO of its entries however many were added to
a new buffer. -/
theorem addAll_representsFifo (entries : List BufferEntry) :
    RepresentsFifo (addAll entries) entries where
  reads := by
    rw [← countLoop_addAll]
    exact fifo_addAll entries
  last := by
    rw [foldl_enqueue (by decide), window]
    congr 1
    omega
  full_iff := by
    rw [(holds_addAll entries).full_eq, decide_eq_true_iff]
  staysFull := (holds_addAll entries).full_foldl
  inOffs_lt := (holds_addAll entries).inOffs_lt
  outOffs_lt := (holds_addAll entries).outOffs_lt
  ambiguous_iff := (holds_addAll entries).inOffs_eq_outOffs_iff
  blank := fun hroom _ ↦ Represents.blank_of_not_kept (holds_addAll entries) hroom
  counts := countLoop_addAll entries

end Aesd.Driver.CircularBuffer
