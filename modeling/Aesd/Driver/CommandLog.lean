import Aesd.Driver.Write

/-!
# The device as a log of commands

What the device is for, without slots, offsets and blocks: it is given commands one after the
other, keeps the last ten, and serves them as one sequence of bytes. `Stores` says that a kernel
state implements the log of all commands ever committed. Every operation keeps it, the log
growing by what `aesd_write` commits, so it holds at the end of every run.
-/

namespace Aesd.Driver

open Foundation

abbrev heldCommands (commands : List (List UInt8)) : List (List UInt8) :=
  window maxWriteOperationsSupported commands

/-- The bytes the device serves to its readers. -/
def content (commands : List (List UInt8)) : List UInt8 := (heldCommands commands).flatten

def evictedBytes (commands : List (List UInt8)) : ℕ :=
  (evicted maxWriteOperationsSupported commands).flatten.length

def commits (system : System) (calls : List Call) : List (List UInt8) :=
  device.collect (fun _ result ↦ result.committed.toList) system calls

/-- The kernel state implements the log: the entries ever added have the logged bytes. -/
def Stores (kernel : Kernel) (commands : List (List UInt8)) : Prop :=
  ∃ added, Sound kernel added ∧ added.map (entryBytes kernel.heap) = commands

/-! ## The content of the log -/

/-- The held bytes are what is left of all committed bytes. -/
theorem drop_evictedBytes (commands : List (List UInt8)) :
    commands.flatten.drop (evictedBytes commands) = content commands := by
  have hsplit : commands.flatten =
      (evicted maxWriteOperationsSupported commands).flatten ++ content commands := by
    rw [content, ← List.flatten_append, evicted_append_window]
  rw [hsplit, evictedBytes, List.drop_left]

theorem evictedBytes_add_length (commands : List (List UInt8)) :
    evictedBytes commands + (content commands).length = commands.flatten.length := by
  rw [evictedBytes, content, ← List.length_append, ← List.flatten_append, evicted_append_window]

/-- A held command starts after all evicted ones and the held ones before it. -/
theorem startOf_held (commands : List (List UInt8)) (index : ℕ) :
    evictedBytes commands + startOf (heldCommands commands) index =
      startOf commands (commands.length - maxWriteOperationsSupported + index) := by
  rw [startOf, startOf, heldCommands, window, List.take_add, List.flatten_append,
    List.length_append]
  rfl

/-! ## Every operation keeps the log -/

section Steps

variable {kernel : Kernel} {commands : List (List UInt8)}

theorem Stores.loaded : Stores System.loaded.kernel [] := ⟨[], Sound.loaded, rfl⟩

/-- A write appends to the log exactly what it commits. -/
theorem Stores.write (h : Stores kernel commands) (newlineFound : List UInt8 → Bool)
    (call : WriteCall) :
    Stores (aesdWriteWith newlineFound call kernel).1
      (commands ++ (aesdWriteWith newlineFound call kernel).2.committed.toList) := by
  obtain ⟨added, hsound, rfl⟩ := h
  have hbytes : added.map (entryBytes (writtenHeap call kernel)) =
      added.map (entryBytes kernel.heap) :=
    List.map_congr_left fun entry hentry ↦ hsound.entryBytes_writtenHeap call hentry
  by_cases hserved : Served call kernel
  · rw [aesdWriteWith_of_served hserved]
    by_cases hfound : newlineFound (writtenBlock call kernel) = true
    · rw [if_pos hfound]
      refine ⟨_, hsound.committed hserved, ?_⟩
      rw [List.map_append, hbytes]
      rfl
    · rw [if_neg hfound]
      refine ⟨_, hsound.pending hserved, ?_⟩
      rw [hbytes]
      exact (List.append_nil _).symm
  · rw [aesdWriteWith_of_not_served hserved]
    exact ⟨_, hsound.refused, (List.append_nil _).symm⟩

theorem Stores.aesdWrite (h : Stores kernel commands) (call : WriteCall) :
    Stores (aesdWrite call kernel).1
      (commands ++ (aesdWrite call kernel).2.committed.toList) := h.write _ call

@[simp]
theorem committed_aesdRead (kernel : Kernel) (count : ℕ) (copied : Bool) (fPos : ℤ) :
    (aesdRead kernel count copied fPos).1.committed = none := by
  unfold aesdRead
  split
  · rfl
  · split <;> rfl

/-- Only writes touch the kernel state, and only they commit. -/
theorem Stores.next {system : System} (h : Stores system.kernel commands) (call : Call) :
    Stores (device.next system call).kernel
      (commands ++ (device.emit system call).committed.toList) := by
  cases call with
  | write file call => exact h.aesdWrite call
  | read file count copied =>
    rw [device_emit_read, committed_aesdRead]
    exact (List.append_nil commands).symm ▸ h
  | llseek file offset whence => exact (List.append_nil commands).symm ▸ h
  | ioctl file cmd arg => exact (List.append_nil commands).symm ▸ h

/-- After every run of the device its kernel state implements the log of all it committed. -/
theorem stores_run (calls : List Call) :
    Stores (device.run System.loaded calls).kernel (commits System.loaded calls) := by
  have hstep : ∀ (system : System) commands call, Stores system.kernel commands → True →
      Stores (device.next system call).kernel
        (commands ++ (device.emit system call).committed.toList) :=
    fun _ _ call h _ ↦ h.next call
  exact Machine.collect_run (fun (system : System) commands ↦ Stores system.kernel commands)
    (fun (_ : Call) (result : Result) ↦ result.committed.toList) hstep Stores.loaded
    (Machine.meets_of_forall (fun _ _ ↦ trivial) _ calls)

end Steps

/-! ## What the physical state says about the log -/

section Slots

variable {kernel : Kernel} {commands : List (List UInt8)}

theorem Sound.held_sizes {added : List BufferEntry} (h : Sound kernel added) :
    (CircularBuffer.held added).map BufferEntry.size =
      (heldCommands (added.map (entryBytes kernel.heap))).map List.length := by
  rw [heldCommands, ← map_window, List.map_map]
  exact List.map_congr_left fun entry hentry ↦
    (h.entryBytes_length (mem_of_mem_window hentry)).symm

/-- The held commands leave plenty of room in a signed 64-bit offset. -/
theorem Stores.length_content_lt (h : Stores kernel commands) :
    (content commands).length < 2 ^ 62 := by
  obtain ⟨added, hsound, rfl⟩ := h
  have hbound : ((CircularBuffer.held added).map BufferEntry.size).sum ≤
      ((CircularBuffer.held added).map BufferEntry.size).length • kmallocLimit := by
    apply List.sum_le_card_nsmul
    intro size hsize
    obtain ⟨entry, hentry, rfl⟩ := List.mem_map.mp hsize
    exact hsound.addedSize entry (mem_of_mem_window hentry)
  have hcount : ((CircularBuffer.held added).map BufferEntry.size).length ≤
      maxWriteOperationsSupported := by
    rw [List.length_map, length_window]
    exact Nat.min_le_right _ _
  rw [content, List.length_flatten, ← hsound.held_sizes]
  calc
    ((CircularBuffer.held added).map BufferEntry.size).sum ≤
        ((CircularBuffer.held added).map BufferEntry.size).length • kmallocLimit := hbound
    _ ≤ maxWriteOperationsSupported * kmallocLimit := Nat.mul_le_mul_right _ hcount
    _ < 2 ^ 62 := by decide

/-- So does the end of every held command. -/
theorem Stores.startOf_add_length_lt (h : Stores kernel commands) {index : ℕ}
    (hindex : index < (heldCommands commands).length) :
    startOf (heldCommands commands) index + (heldCommands commands)[index].length < 2 ^ 62 := by
  calc startOf (heldCommands commands) index + (heldCommands commands)[index].length
      ≤ (content commands).length := startOf_add_length_le hindex
    _ < 2 ^ 62 := h.length_content_lt

theorem length_heldCommands_le (commands : List (List UInt8)) :
    (heldCommands commands).length ≤ maxWriteOperationsSupported := by
  rw [length_window]
  exact Nat.min_le_right _ _

theorem Stores.ring (h : Stores kernel commands) :
    ∃ added, kernel.dev.circularBuffer.Holds added ∧ added.length = commands.length ∧
      (CircularBuffer.held added).map BufferEntry.size =
        (heldCommands commands).map List.length := by
  obtain ⟨added, hsound, rfl⟩ := h
  exact ⟨added, hsound.ring, (List.length_map _).symm, hsound.held_sizes⟩

/-- The slot of a held command, counted from the oldest. -/
def heldSlot (kernel : Kernel) (index : ℕ) : BufferEntry :=
  kernel.dev.circularBuffer.slot
    ((kernel.dev.circularBuffer.outOffs + index) % maxWriteOperationsSupported)

/-- The slots from the read offset on hold the commands in order. -/
theorem Stores.entryBytes_heldSlot (h : Stores kernel commands) {index : ℕ}
    (hindex : index < (heldCommands commands).length) :
    entryBytes kernel.heap (heldSlot kernel index) = (heldCommands commands)[index] ∧
      (heldSlot kernel index).size = (heldCommands commands)[index].length := by
  obtain ⟨added, hsound, rfl⟩ := h
  have hslot : index < (CircularBuffer.held added).length := by
    rwa [heldCommands, length_window, List.length_map, ← length_window] at hindex
  have hentry : heldSlot kernel index = (CircularBuffer.held added)[index] :=
    Represents.slot_window hsound.ring hslot
  have hmem : heldSlot kernel index ∈ added := by
    rw [hentry]
    exact mem_of_mem_window (List.getElem_mem hslot)
  have hcommand : entryBytes kernel.heap (heldSlot kernel index) =
      (heldCommands (added.map (entryBytes kernel.heap)))[index] := by
    simp only [heldCommands, ← map_window, List.getElem_map, hentry]
  refine ⟨hcommand, ?_⟩
  rw [← hcommand, hsound.entryBytes_length hmem]

/-- The search of the driver finds the held command that contains a position. -/
theorem Stores.find_eq (h : Stores kernel commands) {position : ℕ} (hposition : position < 2 ^ 64) :
    aesdCircularBufferFindEntryOffsetForFpos kernel.dev.circularBuffer position =
      (locate ((heldCommands commands).map List.length) position).map fun found ↦
        ((kernel.dev.circularBuffer.outOffs + found.1) % maxWriteOperationsSupported,
          found.2) := by
  have htotal := h.length_content_lt
  obtain ⟨added, hring, -, hsizes⟩ := h.ring
  rw [content, List.length_flatten, ← hsizes] at htotal
  rw [hring.find_eq (htotal.trans (by decide)) hposition, hsizes]

theorem Stores.find_eq_none_iff (h : Stores kernel commands) {position : ℕ}
    (hposition : position < 2 ^ 64) :
    aesdCircularBufferFindEntryOffsetForFpos kernel.dev.circularBuffer position = none ↔
      (content commands).length ≤ position := by
  rw [h.find_eq hposition, Option.map_eq_none_iff, locate_eq_none_iff, content,
    List.length_flatten]

/-- At the position of a byte of a held command the search finds that command and that byte. -/
theorem Stores.find_startOf (h : Stores kernel commands) {index inner : ℕ}
    (hindex : index < (heldCommands commands).length)
    (hinner : inner < (heldCommands commands)[index].length) :
    aesdCircularBufferFindEntryOffsetForFpos kernel.dev.circularBuffer
        (startOf (heldCommands commands) index + inner) =
      some ((kernel.dev.circularBuffer.outOffs + index) % maxWriteOperationsSupported, inner) := by
  have hend := h.startOf_add_length_lt hindex
  have hfound : locate ((heldCommands commands).map List.length)
      (startOf (heldCommands commands) index + inner) = some (index, inner) := by
    rw [locate_eq_some_iff]
    exact ⟨by rwa [List.length_map], by rw [startOf_eq_sum], by rwa [List.getElem_map]⟩
  rw [h.find_eq (by omega), hfound]
  rfl

end Slots

end Aesd.Driver
