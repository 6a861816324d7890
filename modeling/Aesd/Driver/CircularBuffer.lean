import Aesd.Foundation.Blocks
import Aesd.Foundation.Ring
import Aesd.Foundation.Word
import Mathlib.Logic.Function.Basic

/-!
# The circular buffer of write commands

The ring of `aesd-circular-buffer.c`: ten entries, each a pointer to the bytes of one write
command and their number, the slot written next, the slot of the oldest command, and a flag for
a full ring. Adding to a full ring overwrites the oldest entry.

The search for a file position walks all ten slots from the read offset and looks neither at the
write offset nor at the flag. `Holds` is the invariant that makes this right: it relates the
physical state to the list of all entries ever added, and in particular keeps every slot that
was never written at zero.
-/

namespace Aesd.Driver

open Foundation

abbrev maxWriteOperationsSupported : ℕ := 10

/-- `struct aesd_buffer_entry`, its pointer being a block identity or null. -/
structure BufferEntry where
  buffptr : Option ℕ
  size : ℕ
deriving DecidableEq

def BufferEntry.zero : BufferEntry := ⟨none, 0⟩

structure CircularBuffer where
  entry : Fin maxWriteOperationsSupported → BufferEntry
  inOffs : ℕ
  outOffs : ℕ
  full : Bool

namespace CircularBuffer

/-- `buffer->entry[i]`; every index the code computes is below ten. -/
def slot (buffer : CircularBuffer) (i : ℕ) : BufferEntry :=
  buffer.entry (Fin.ofNat maxWriteOperationsSupported i)

/-- `buffer->entry[i] = *add_entry` alone. -/
def setSlot (buffer : CircularBuffer) (i : ℕ) (addEntry : BufferEntry) : CircularBuffer :=
  { buffer with
    entry := Function.update buffer.entry (Fin.ofNat maxWriteOperationsSupported i) addEntry }

end CircularBuffer

/-- `aesd_circular_buffer_init`: the structure is zeroed. -/
def aesdCircularBufferInit : CircularBuffer where
  entry := fun _ ↦ BufferEntry.zero
  inOffs := 0
  outOffs := 0
  full := false

/-- `aesd_circular_buffer_add_entry`. The new flag compares the offsets after both have moved. -/
def aesdCircularBufferAddEntry (buffer : CircularBuffer) (addEntry : BufferEntry) :
    CircularBuffer :=
  let inOffs := (buffer.inOffs + 1) % maxWriteOperationsSupported
  let outOffs :=
    if buffer.full then (buffer.outOffs + 1) % maxWriteOperationsSupported else buffer.outOffs
  { entry :=
      Function.update buffer.entry (Fin.ofNat maxWriteOperationsSupported buffer.inOffs) addEntry
    inOffs := inOffs
    outOffs := outOffs
    full := inOffs == outOffs }

/-- The loop of the search, with the number of slots still to visit in place of `count`. -/
def findLoop (buffer : CircularBuffer) (charOffset : ℕ) : ℕ → ℕ → ℕ → Option (ℕ × ℕ)
  | 0, _, _ => none
  | steps + 1, i, boffset =>
    let next := addU64 boffset (buffer.slot i).size
    if charOffset < next then some (i, subU64 charOffset boffset)
    else findLoop buffer charOffset steps ((i + 1) % maxWriteOperationsSupported) next

/-- `aesd_circular_buffer_find_entry_offset_for_fpos`: the slot found and the value stored to
`*entry_offset_byte_rtn`, or `none` where the code returns NULL. -/
def aesdCircularBufferFindEntryOffsetForFpos (buffer : CircularBuffer) (charOffset : ℕ) :
    Option (ℕ × ℕ) :=
  findLoop buffer charOffset maxWriteOperationsSupported buffer.outOffs 0

/-- The loop of `AESD_CIRCULAR_BUFFER_FOREACH` from slot `index` on, its body one that may fail. -/
def foreachLoop {State : Type*} (body : State → BufferEntry → Option State)
    (buffer : CircularBuffer) : ℕ → ℕ → State → Option State
  | 0, _, state => some state
  | steps + 1, index, state =>
    (body state (buffer.slot index)).bind (foreachLoop body buffer steps (index + 1))

def aesdCircularBufferForeach {State : Type*} (body : State → BufferEntry → Option State)
    (buffer : CircularBuffer) (state : State) : Option State :=
  foreachLoop body buffer maxWriteOperationsSupported 0 state

namespace CircularBuffer

/-- The ring represents the list of all entries ever added to it. -/
def Holds (buffer : CircularBuffer) (added : List BufferEntry) : Prop :=
  Represents maxWriteOperationsSupported BufferEntry.zero buffer.slot buffer.inOffs
    buffer.outOffs buffer.full added

/-- The entries currently held, from oldest to newest, of the list of all entries added. -/
abbrev held (added : List BufferEntry) : List BufferEntry :=
  window maxWriteOperationsSupported added

def heldSize (added : List BufferEntry) : ℕ := ((held added).map BufferEntry.size).sum

theorem slot_addEntry_self (buffer : CircularBuffer) (addEntry : BufferEntry) :
    (aesdCircularBufferAddEntry buffer addEntry).slot buffer.inOffs = addEntry := by
  simp [slot, aesdCircularBufferAddEntry]

theorem slot_addEntry_of_ne {buffer : CircularBuffer} (addEntry : BufferEntry) {i : ℕ}
    (hi : i < maxWriteOperationsSupported)
    (hin : buffer.inOffs < maxWriteOperationsSupported) (hne : i ≠ buffer.inOffs) :
    (aesdCircularBufferAddEntry buffer addEntry).slot i = buffer.slot i := by
  have hfin : Fin.ofNat maxWriteOperationsSupported i ≠
      Fin.ofNat maxWriteOperationsSupported buffer.inOffs := by
    intro heq
    have hval := congrArg Fin.val heq
    simp only [Fin.ofNat, Nat.mod_eq_of_lt hi, Nat.mod_eq_of_lt hin] at hval
    exact hne hval
  simp only [slot, aesdCircularBufferAddEntry]
  exact Function.update_of_ne hfin _ _

theorem holds_init : aesdCircularBufferInit.Holds [] :=
  Represents.empty (fun _ _ ↦ rfl) (by decide)

namespace Holds

variable {buffer : CircularBuffer} {added : List BufferEntry}

theorem inOffs_lt (h : buffer.Holds added) : buffer.inOffs < maxWriteOperationsSupported :=
  Represents.inOffset_lt h (by decide)

theorem outOffs_lt (h : buffer.Holds added) : buffer.outOffs < maxWriteOperationsSupported :=
  Represents.outOffset_lt h (by decide)

theorem addEntry (h : buffer.Holds added) (entry : BufferEntry) :
    (aesdCircularBufferAddEntry buffer entry).Holds (added ++ [entry]) :=
  Represents.push h (by decide) (slot_addEntry_self buffer entry)
    (fun _ hslot hne ↦ slot_addEntry_of_ne entry hslot h.inOffs_lt hne)

/-- Visiting all slots from `out_offs` on meets the held entries and then zero entries only. -/
theorem walk_eq (h : buffer.Holds added) :
    walk maxWriteOperationsSupported buffer.slot maxWriteOperationsSupported buffer.outOffs =
      held added ++
        List.replicate (maxWriteOperationsSupported - added.length) BufferEntry.zero :=
  Represents.walk_eq h (by decide)

theorem walk_sizes (h : buffer.Holds added) :
    (walk maxWriteOperationsSupported buffer.slot maxWriteOperationsSupported
        buffer.outOffs).map BufferEntry.size =
      (held added).map BufferEntry.size ++
        List.replicate (maxWriteOperationsSupported - added.length) 0 := by
  rw [h.walk_eq, List.map_append, List.map_replicate]
  rfl

end Holds

/-! ## The search for a file position -/

/-- The loop of the search is `locate` on the sizes of the slots still to visit, as long as
their sum does not wrap. -/
theorem findLoop_eq_locate (buffer : CircularBuffer) (charOffset : ℕ) (hchar : charOffset < 2 ^ 64)
    (steps i boffset : ℕ) (hi : i < maxWriteOperationsSupported) (hboffset : boffset ≤ charOffset)
    (htotal : boffset + ((walk maxWriteOperationsSupported buffer.slot steps i).map
      BufferEntry.size).sum < 2 ^ 64) :
    findLoop buffer charOffset steps i boffset =
      (locate ((walk maxWriteOperationsSupported buffer.slot steps i).map BufferEntry.size)
        (charOffset - boffset)).map
          fun found ↦ ((i + found.1) % maxWriteOperationsSupported, found.2) := by
  induction steps generalizing i boffset with
  | zero => rfl
  | succ steps ih =>
    simp only [walk, List.map_cons, List.sum_cons] at htotal
    have hadd : addU64 boffset (buffer.slot i).size = boffset + (buffer.slot i).size :=
      addU64_eq (by omega)
    simp only [findLoop, walk, List.map_cons, locate, hadd]
    by_cases hfound : charOffset < boffset + (buffer.slot i).size
    · rw [if_pos hfound, if_pos (by omega), subU64_eq hboffset hchar]
      simp only [Option.map_some, Nat.add_zero, Nat.mod_eq_of_lt hi]
    · rw [if_neg hfound, if_neg (by omega),
        ih ((i + 1) % maxWriteOperationsSupported) _ (Nat.mod_lt _ (by decide)) (by omega)
          (by omega), Option.map_map]
      have hrest : charOffset - (boffset + (buffer.slot i).size) =
          charOffset - boffset - (buffer.slot i).size := by omega
      rw [hrest]
      congr 1
      funext found
      simp only [Function.comp_apply, next_slot_add]

/-- The search finds the held entry that contains the position, counting from the oldest. -/
theorem Holds.find_eq {buffer : CircularBuffer} {added : List BufferEntry}
    (h : buffer.Holds added) (htotal : heldSize added < 2 ^ 64) {charOffset : ℕ}
    (hchar : charOffset < 2 ^ 64) :
    aesdCircularBufferFindEntryOffsetForFpos buffer charOffset =
      (locate ((held added).map BufferEntry.size) charOffset).map
        fun found ↦ ((buffer.outOffs + found.1) % maxWriteOperationsSupported, found.2) := by
  have hsum : ((walk maxWriteOperationsSupported buffer.slot maxWriteOperationsSupported
      buffer.outOffs).map BufferEntry.size).sum = heldSize added := by
    simp only [h.walk_sizes, List.sum_append, List.sum_replicate_nat, Nat.mul_zero, Nat.add_zero,
      heldSize]
  rw [aesdCircularBufferFindEntryOffsetForFpos,
    findLoop_eq_locate buffer charOffset hchar _ _ _ h.outOffs_lt (Nat.zero_le _)
      (by rw [hsum, Nat.zero_add]; exact htotal),
    h.walk_sizes, locate_append_replicate_zero, Nat.sub_zero]

/-! ## The search in a buffer that was filled entry by entry -/

/-- The buffer after `aesd_circular_buffer_init` and these calls of
`aesd_circular_buffer_add_entry`. -/
def addAll (entries : List BufferEntry) : CircularBuffer :=
  entries.foldl aesdCircularBufferAddEntry aesdCircularBufferInit

theorem holds_foldl {buffer : CircularBuffer} {added : List BufferEntry} (h : buffer.Holds added)
    (entries : List BufferEntry) :
    (entries.foldl aesdCircularBufferAddEntry buffer).Holds (added ++ entries) := by
  induction entries generalizing buffer added with
  | nil => simpa using h
  | cons entry rest ih => simpa using ih (h.addEntry entry)

theorem holds_addAll (entries : List BufferEntry) : (addAll entries).Holds entries :=
  holds_foldl holds_init entries

/-- The slot to which the held entry with this number was stored when it was added. -/
def storedSlot (entries : List BufferEntry) (index : ℕ) : ℕ :=
  (addAll (entries.take (entries.length - maxWriteOperationsSupported + index))).inOffs

/-- Where a held entry starts in the concatenation of the held entries, counted from the oldest. -/
def entryStart (entries : List BufferEntry) (index : ℕ) : ℕ :=
  (((held entries).map BufferEntry.size).take index).sum

/-- The byte range of the held entry with this number contains the position. -/
def Covers (entries : List BufferEntry) (charOffset index : ℕ) : Prop :=
  ∃ h : index < (held entries).length, entryStart entries index ≤ charOffset ∧
    charOffset < entryStart entries index + (held entries)[index].size

theorem covers_iff_locate (entries : List BufferEntry) (charOffset index : ℕ) :
    Covers entries charOffset index ↔
      locate ((held entries).map BufferEntry.size) charOffset =
        some (index, charOffset - entryStart entries index) := by
  rw [locate_eq_some_iff]
  unfold Covers entryStart
  simp only [List.getElem_map, List.length_map]
  apply exists_congr
  intro hindex
  omega

/-- The slots are used in turn. -/
theorem storedSlot_eq {entries : List BufferEntry} {index : ℕ}
    (hindex : index < (held entries).length) :
    storedSlot entries index =
      ((addAll entries).outOffs + index) % maxWriteOperationsSupported := by
  have hstored := (holds_addAll (entries.take
    (entries.length - maxWriteOperationsSupported + index))).inOffset_eq
  have hout := (holds_addAll entries).outOffset_eq
  rw [length_window] at hindex
  rw [List.length_take, Nat.min_eq_left (by omega)] at hstored
  rw [storedSlot, hstored, hout]
  simp only [maxWriteOperationsSupported] at hindex ⊢
  split <;> omega

/-- **The search is exact.** For every sequence of entries added to a new buffer and every
position, NULL is returned exactly from the total size of the held entries on. Below it one held
entry and no other contains the position; the slot returned is the one that holds this entry, and
the offset is the distance from the start of the entry. -/
theorem find_addAll (entries : List BufferEntry)
    (htotal : (entries.map BufferEntry.size).sum < 2 ^ 64) {charOffset : ℕ}
    (hchar : charOffset < 2 ^ 64) :
    (aesdCircularBufferFindEntryOffsetForFpos (addAll entries) charOffset = none ↔
        heldSize entries ≤ charOffset) ∧
      (charOffset < heldSize entries → ∃! index, Covers entries charOffset index) ∧
      ∀ index, Covers entries charOffset index →
        aesdCircularBufferFindEntryOffsetForFpos (addAll entries) charOffset =
            some (storedSlot entries index, charOffset - entryStart entries index) ∧
          (held entries)[index]? = some ((addAll entries).slot (storedSlot entries index)) ∧
          charOffset - entryStart entries index <
            ((addAll entries).slot (storedSlot entries index)).size := by
  have hheld : heldSize entries < 2 ^ 64 := by
    have hsplit := List.sum_take_add_sum_drop (entries.map BufferEntry.size)
      (entries.length - maxWriteOperationsSupported)
    rw [← List.map_drop] at hsplit
    unfold heldSize held window
    omega
  have hfind := (holds_addAll entries).find_eq hheld hchar
  refine ⟨?_, fun hinside ↦ ?_, fun index hcovers ↦ ?_⟩
  · rw [hfind, Option.map_eq_none_iff, locate_eq_none_iff]
    rfl
  · have hsome : locate ((held entries).map BufferEntry.size) charOffset ≠ none := by
      rw [Ne, locate_eq_none_iff]
      exact Nat.not_le.mpr hinside
    obtain ⟨⟨index, inner⟩, hfound⟩ := Option.ne_none_iff_exists'.mp hsome
    have hinner : inner = charOffset - entryStart entries index := by
      obtain ⟨-, hsum, -⟩ := (locate_eq_some_iff _ _ _ _).mp hfound
      unfold entryStart
      omega
    refine ⟨index, (covers_iff_locate _ _ _).mpr (hinner ▸ hfound), fun other hother ↦ ?_⟩
    have hsame := hfound.symm.trans ((covers_iff_locate _ _ _).mp hother)
    exact (congrArg Prod.fst (Option.some.inj hsame)).symm
  · have hlocate := (covers_iff_locate _ _ _).mp hcovers
    obtain ⟨hindex, hstart, hend⟩ := hcovers
    have hslot : (addAll entries).slot (storedSlot entries index) = (held entries)[index] := by
      rw [storedSlot_eq hindex]
      exact Represents.slot_window (holds_addAll entries) hindex
    rw [hslot, hfind, hlocate, storedSlot_eq hindex]
    exact ⟨rfl, List.getElem?_eq_getElem hindex, by omega⟩

def wrappedEntries : List BufferEntry := List.replicate 11 ⟨some 0, 1⟩ ++ [⟨some 1, 0⟩]

/-- Position 8 is in the entry added last but one, in slot 0, and nothing is held from position 9
on. -/
theorem find_addAll_wrapped :
    aesdCircularBufferFindEntryOffsetForFpos (addAll wrappedEntries) 9 = none ∧
      aesdCircularBufferFindEntryOffsetForFpos (addAll wrappedEntries) 8 = some (0, 0) := by
  have hcovers : Covers wrappedEntries 8 8 := ⟨by decide, by decide, by decide⟩
  constructor
  · exact (find_addAll wrappedEntries (by decide) (by decide)).1.mpr (by decide)
  · exact ((find_addAll wrappedEntries (by decide) (by decide)).2.2 8 hcovers).1

end CircularBuffer

end Aesd.Driver
