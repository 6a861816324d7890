import Aesd.Driver.CommandLog

/-!
# Seeking

The loops of `aesd_llseek` and `aesd_ioctl` walk the ring from the read offset and, unlike the
search, look at the write offset and the flag to find the end of the held commands. Under the
ring invariant the counting loop yields the number of commands held and the summing loop the
length of the first ones, the zero slot it adds before it leaves the loop contributing nothing.

`AESDCHAR_IOCSEEKTO` compares the offset with the size in the physical slot `write_cmd`, while
its position is computed from the read offset on. The two agree until the ring has wrapped; the
last theorem says exactly when the request does what its description promises.
-/

namespace Aesd.Driver

open Foundation

namespace CircularBuffer

variable {buffer : CircularBuffer} {added : List BufferEntry}

/-- The test with which both loops leave early holds right after the held entries. -/
theorem Holds.leaves_iff (h : buffer.Holds added) {position : ℕ}
    (hposition : position < maxWriteOperationsSupported) :
    ((buffer.outOffs + position) % maxWriteOperationsSupported = buffer.inOffs ∧
      buffer.full = false) ↔ added.length = position :=
  Represents.eq_inOffset_iff h hposition

/-- The summing loop adds up the slots it walks over. Where it leaves early only zero slots are
left to visit. -/
theorem Holds.sizeLoop_walk (h : buffer.Holds added) (steps position total : ℕ)
    (hsteps : position + steps ≤ maxWriteOperationsSupported)
    (hsum : total + ((walk maxWriteOperationsSupported buffer.slot steps
      ((buffer.outOffs + position) % maxWriteOperationsSupported)).map BufferEntry.size).sum <
        2 ^ 64) :
    sizeLoop buffer steps ((buffer.outOffs + position) % maxWriteOperationsSupported) total =
      total + ((walk maxWriteOperationsSupported buffer.slot steps
        ((buffer.outOffs + position) % maxWriteOperationsSupported)).map
          BufferEntry.size).sum := by
  induction steps generalizing position total with
  | zero => rfl
  | succ steps ih =>
    simp only [walk, List.map_cons, List.sum_cons, slot_add_one] at hsum ⊢
    have hadd : addU64 total
        (buffer.slot ((buffer.outOffs + position) % maxWriteOperationsSupported)).size =
      total + (buffer.slot
        ((buffer.outOffs + position) % maxWriteOperationsSupported)).size := by
      apply addU64_eq
      omega
    simp only [sizeLoop, h.leaves_iff (show position < maxWriteOperationsSupported by omega),
      hadd, slot_add_one]
    by_cases hend : added.length = position
    · have hblank : walk maxWriteOperationsSupported buffer.slot steps
          ((buffer.outOffs + (position + 1)) % maxWriteOperationsSupported) =
            List.replicate steps BufferEntry.zero :=
        Represents.walk_untouched h (by omega) (by omega)
      have hzero : ((List.replicate steps BufferEntry.zero).map BufferEntry.size).sum = 0 := by
        rw [List.map_replicate]
        simp [BufferEntry.zero]
      rw [if_pos hend, hblank, hzero, Nat.add_zero]
    · rw [if_neg hend, ih (position + 1) _ (by omega) (by omega), Nat.add_assoc]

/-- Over the first `steps` slots the summing loop adds up the first `steps` held entries. -/
theorem Holds.sizeLoop_eq (h : buffer.Holds added) (htotal : heldSize added < 2 ^ 64)
    {steps : ℕ} (hsteps : steps ≤ maxWriteOperationsSupported) :
    sizeLoop buffer steps buffer.outOffs 0 =
      (((held added).map BufferEntry.size).take steps).sum := by
  have hout : buffer.outOffs = (buffer.outOffs + 0) % maxWriteOperationsSupported := by
    rw [Nat.add_zero, Nat.mod_eq_of_lt h.outOffs_lt]
  have hwalk : ((walk maxWriteOperationsSupported buffer.slot steps buffer.outOffs).map
      BufferEntry.size).sum = (((held added).map BufferEntry.size).take steps).sum := by
    rw [← walk_take buffer.outOffs hsteps, List.map_take, h.walk_sizes, List.take_append,
      List.sum_append, List.take_replicate, List.sum_replicate_nat, Nat.mul_zero, Nat.add_zero]
  have hbound : (((held added).map BufferEntry.size).take steps).sum ≤ heldSize added := by
    have hsplit := List.sum_take_add_sum_drop ((held added).map BufferEntry.size) steps
    unfold heldSize
    omega
  have hloop := h.sizeLoop_walk steps 0 0 (by omega)
    (by rw [← hout, hwalk, Nat.zero_add]; omega)
  rw [← hout, hwalk, Nat.zero_add] at hloop
  exact hloop

/-- The counting loop counts on from any slot among the held ones. -/
theorem Holds.countLoop_walk (h : buffer.Holds added) (steps position : ℕ)
    (hsteps : position + steps = maxWriteOperationsSupported)
    (hposition : position ≤ (held added).length) :
    countLoop buffer steps ((buffer.outOffs + position) % maxWriteOperationsSupported) position =
      (held added).length := by
  induction steps generalizing position with
  | zero =>
    rw [length_window] at hposition ⊢
    simp only [countLoop]
    omega
  | succ steps ih =>
    simp only [countLoop, h.leaves_iff (show position < maxWriteOperationsSupported by omega),
      slot_add_one]
    rw [length_window] at hposition ih ⊢
    by_cases hend : added.length = position
    · rw [if_pos hend]
      omega
    · rw [if_neg hend]
      exact ih (position + 1) (by omega) (by omega)

/-- The counting loop of `aesd_ioctl` yields the number of entries held. -/
theorem Holds.countLoop_eq (h : buffer.Holds added) :
    countLoop buffer maxWriteOperationsSupported buffer.outOffs 0 = (held added).length := by
  have hloop := h.countLoop_walk maxWriteOperationsSupported 0 rfl (Nat.zero_le _)
  rwa [Nat.add_zero, Nat.mod_eq_of_lt h.outOffs_lt] at hloop

end CircularBuffer

/-! ## Seeking in the log of commands -/

section Commands

variable {kernel : Kernel} {commands : List (List UInt8)}

theorem Stores.countLoop_eq (h : Stores kernel commands) :
    countLoop kernel.dev.circularBuffer maxWriteOperationsSupported
      kernel.dev.circularBuffer.outOffs 0 = (heldCommands commands).length := by
  obtain ⟨added, hring, hlength, -⟩ := h.ring
  rw [hring.countLoop_eq, length_window, length_window, hlength]

/-- The sum over the first slots is the position at which the next held command starts. -/
theorem Stores.sizeLoop_eq (h : Stores kernel commands) {steps : ℕ}
    (hsteps : steps ≤ maxWriteOperationsSupported) :
    sizeLoop kernel.dev.circularBuffer steps kernel.dev.circularBuffer.outOffs 0 =
      startOf (heldCommands commands) steps := by
  have htotal := h.length_content_lt
  obtain ⟨added, hring, -, hsizes⟩ := h.ring
  rw [content, List.length_flatten, ← hsizes] at htotal
  rw [hring.sizeLoop_eq (htotal.trans (by decide)) hsteps, hsizes, startOf_eq_sum]

/-- `aesd_llseek` takes the end of the device to be the length of its content. -/
theorem Stores.totalSize_eq (h : Stores kernel commands) :
    sizeLoop kernel.dev.circularBuffer maxWriteOperationsSupported
      kernel.dev.circularBuffer.outOffs 0 = (content commands).length := by
  have hheld := length_heldCommands_le commands
  rw [h.sizeLoop_eq le_rfl, startOf, List.take_of_length_le hheld, content]

/-- `AESDCHAR_IOCSEEKTO` succeeds when the command exists and the physical slot of the same
number is long enough, and then moves to the offset behind the start of the held command. -/
theorem Stores.aesdIoctl_seekto (h : Stores kernel commands) (fPos : ℤ) (seekto : AesdSeekto) :
    aesdIoctl kernel.dev fPos aesdcharIocseekto (some seekto) =
      if seekto.writeCmd.toNat < (heldCommands commands).length ∧
          seekto.writeCmdOffset.toNat <
            (kernel.dev.circularBuffer.slot seekto.writeCmd.toNat).size then
        (0, ((startOf (heldCommands commands) seekto.writeCmd.toNat +
          seekto.writeCmdOffset.toNat : ℕ) : ℤ))
      else (-einval, fPos) := by
  have hheld := length_heldCommands_le commands
  have htype : iocType aesdcharIocseekto = aesdIocMagic := by decide
  have hnr : ¬ iocNr aesdcharIocseekto > aesdcharIocMaxnr := by decide
  simp only [aesdIoctl, htype, ne_eq, not_true_eq_false, if_false, hnr, if_true, h.countLoop_eq]
  by_cases hcmd : seekto.writeCmd.toNat < (heldCommands commands).length
  · have hoffset := seekto.writeCmdOffset.toNat_lt
    have hstart := h.startOf_add_length_lt hcmd
    by_cases hsize : seekto.writeCmdOffset.toNat <
        (kernel.dev.circularBuffer.slot seekto.writeCmd.toNat).size
    · rw [if_neg (by omega), if_pos ⟨hcmd, hsize⟩, h.sizeLoop_eq (hcmd.le.trans hheld),
        addU64_eq (by omega), toI64_eq (by omega) (by omega)]
    · rw [if_pos (Or.inr (by omega)), if_neg fun hboth ↦ hsize hboth.2]
  · rw [if_pos (Or.inl (by omega)), if_neg fun hboth ↦ hcmd hboth.1]

/-! ## Exactness of `AESDCHAR_IOCSEEKTO` -/

theorem neg_einval_ne_zero : -einval ≠ 0 := by decide

/-- What the request is to do, by the description of `struct aesd_seekto`: it succeeds exactly
for a byte of a held command, the zero-referenced `write_cmd` counting from the oldest one; it
then moves to that byte, where the search finds it, and otherwise it fails and moves nothing. -/
structure SeeksToCommand (kernel : Kernel) (commands : List (List UInt8)) (seekto : AesdSeekto)
    (fPos ret fPos' : ℤ) : Prop where
  succeeds_iff : ret = 0 ↔ ∃ h : seekto.writeCmd.toNat < (heldCommands commands).length,
    seekto.writeCmdOffset.toNat < (heldCommands commands)[seekto.writeCmd.toNat].length
  moves : ret = 0 → fPos' = ((startOf (heldCommands commands) seekto.writeCmd.toNat +
    seekto.writeCmdOffset.toNat : ℕ) : ℤ)
  finds : ret = 0 → ∃ slot,
    aesdCircularBufferFindEntryOffsetForFpos kernel.dev.circularBuffer (toU64 fPos') =
      some (slot, seekto.writeCmdOffset.toNat) ∧
    some (entryBytes kernel.heap (kernel.dev.circularBuffer.slot slot)) =
      (heldCommands commands)[seekto.writeCmd.toNat]?
  fails : ret ≠ 0 → ret = -einval ∧ fPos' = fPos

/-- For a held command, the physical slot with its number and the slot it is in agree on whether
the offset is inside the entry. -/
def SlotsAgree (kernel : Kernel) (commands : List (List UInt8)) (seekto : AesdSeekto) : Prop :=
  seekto.writeCmd.toNat < (heldCommands commands).length →
    (seekto.writeCmdOffset.toNat < (kernel.dev.circularBuffer.slot seekto.writeCmd.toNat).size ↔
      seekto.writeCmdOffset.toNat < (heldSlot kernel seekto.writeCmd.toNat).size)

/-- The request does what it is to do if and only if the two slots agree. -/
theorem Stores.seeksToCommand_iff (h : Stores kernel commands) (seekto : AesdSeekto)
    (fPos : ℤ) :
    SeeksToCommand kernel commands seekto fPos
        (aesdIoctl kernel.dev fPos aesdcharIocseekto (some seekto)).1
        (aesdIoctl kernel.dev fPos aesdcharIocseekto (some seekto)).2 ↔
      SlotsAgree kernel commands seekto := by
  rw [h.aesdIoctl_seekto]
  constructor
  · intro hseeks hcmd
    rw [(h.entryBytes_heldSlot hcmd).2]
    have hiff := hseeks.succeeds_iff
    by_cases hsize : seekto.writeCmdOffset.toNat <
        (kernel.dev.circularBuffer.slot seekto.writeCmd.toNat).size
    · rw [if_pos ⟨hcmd, hsize⟩] at hiff
      obtain ⟨_, hlength⟩ := hiff.mp rfl
      exact ⟨fun _ ↦ hlength, fun _ ↦ hsize⟩
    · rw [if_neg fun hboth ↦ hsize hboth.2] at hiff
      refine ⟨fun hlt ↦ absurd hlt hsize, fun hlength ↦ ?_⟩
      exact absurd (hiff.mpr ⟨hcmd, hlength⟩) neg_einval_ne_zero
  · intro hagree
    by_cases hfits : seekto.writeCmd.toNat < (heldCommands commands).length ∧
        seekto.writeCmdOffset.toNat <
          (kernel.dev.circularBuffer.slot seekto.writeCmd.toNat).size
    · obtain ⟨hcmd, hsize⟩ := hfits
      have hheld := h.entryBytes_heldSlot hcmd
      have hlength := (hagree hcmd).mp hsize
      rw [hheld.2] at hlength
      have hfind := h.find_startOf hcmd hlength
      have hend := h.startOf_add_length_lt hcmd
      rw [if_pos ⟨hcmd, hsize⟩]
      have hunsigned := toU64_natCast (show startOf (heldCommands commands)
        seekto.writeCmd.toNat + seekto.writeCmdOffset.toNat < 2 ^ 64 by omega)
      have hcommand := (congrArg some hheld.1).trans (List.getElem?_eq_getElem hcmd).symm
      exact ⟨⟨fun _ ↦ ⟨hcmd, hlength⟩, fun _ ↦ rfl⟩, fun _ ↦ rfl,
        fun _ ↦ ⟨_, by rw [hunsigned]; exact hfind, hcommand⟩, fun hne ↦ absurd rfl hne⟩
    · rw [if_neg hfits]
      refine ⟨⟨fun hzero ↦ absurd hzero neg_einval_ne_zero, ?_⟩,
        fun hzero ↦ absurd hzero neg_einval_ne_zero,
        fun hzero ↦ absurd hzero neg_einval_ne_zero, fun _ ↦ ⟨rfl, rfl⟩⟩
      rintro ⟨hcmd, hlength⟩
      rw [← (h.entryBytes_heldSlot hcmd).2] at hlength
      exact absurd ⟨hcmd, (hagree hcmd).mpr hlength⟩ hfits

end Commands

/-- **Exact condition of the seek request.** After any run of the device, for any file and any
pair, `AESDCHAR_IOCSEEKTO` does what its description says if and only if the physical slot
`write_cmd` and the slot of the held command agree on the offset. -/
theorem ioctl_seekto_iff_slotsAgree (calls : List Call) (file : ℕ) (seekto : AesdSeekto) :
    SeeksToCommand (device.run System.loaded calls).kernel (commits System.loaded calls) seekto
        ((device.run System.loaded calls).fPos file)
        (device.emit (device.run System.loaded calls)
          (.ioctl file aesdcharIocseekto (some seekto))).ret
        ((device.next (device.run System.loaded calls)
          (.ioctl file aesdcharIocseekto (some seekto))).fPos file) ↔
      SlotsAgree (device.run System.loaded calls).kernel (commits System.loaded calls) seekto := by
  have hiff := (stores_run calls).seeksToCommand_iff seekto
    ((device.run System.loaded calls).fPos file)
  simp only [device_next_ioctl, device_emit_ioctl, Function.update_self]
  exact hiff

/-- Ten one-byte commands and an eleventh of five bytes: the oldest held command has one byte. -/
def wrappedCalls : List Call :=
  List.replicate 10 (.write 0 (.complete [newline])) ++
    [.write 0 (.complete [97, 98, 99, 100, newline])]

/-- After eleven commits physical slot zero holds the newest command, and a request for byte 3
of the oldest one is checked against it and succeeds. -/
theorem ioctl_seekto_wrapped :
    ¬ SeeksToCommand (device.run System.loaded wrappedCalls).kernel
      (commits System.loaded wrappedCalls) ⟨0, 3⟩
      ((device.run System.loaded wrappedCalls).fPos 0)
      (device.emit (device.run System.loaded wrappedCalls)
        (.ioctl 0 aesdcharIocseekto (some ⟨0, 3⟩))).ret
      ((device.next (device.run System.loaded wrappedCalls)
        (.ioctl 0 aesdcharIocseekto (some ⟨0, 3⟩))).fPos 0) := by
  intro hseeks
  have hret : (device.emit (device.run System.loaded wrappedCalls)
      (.ioctl 0 aesdcharIocseekto (some ⟨0, 3⟩))).ret = 0 := by decide +kernel
  have hheld : (heldCommands (commits System.loaded wrappedCalls))[0]? = some [newline] := by
    decide +kernel
  obtain ⟨hcmd, hlength⟩ : ∃ h : 0 < (heldCommands (commits System.loaded wrappedCalls)).length,
      3 < (heldCommands (commits System.loaded wrappedCalls))[0].length :=
    hseeks.succeeds_iff.mp hret
  rw [List.getElem?_eq_getElem hcmd, Option.some_inj] at hheld
  rw [hheld] at hlength
  exact absurd hlength (by decide)

end Aesd.Driver
