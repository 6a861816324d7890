import Aesd.Driver.Conservation
import Aesd.Driver.Seek
import Aesd.Foundation.Grouping

/-!
# Partial writes and the commands they make up

When nothing fails, a write adds its whole buffer to the pending bytes and completes the command
exactly when the string they then hold contains a newline. For data without NUL bytes this means:
the sequence of writes is cut behind every write that contains a newline, each group is one
command, and what follows the last cut is pending.
-/

namespace Aesd.Driver

open Foundation

def isNewline (byte : UInt8) : Bool := byte == newline

theorem any_isNewline_iff (bytes : List UInt8) : bytes.any isNewline = true ↔ newline ∈ bytes := by
  simp [isNewline]

/-- The commands in the ring, read from `out_offs` on for the number of commands held. -/
def ringCommands (kernel : Kernel) : List (List UInt8) :=
  (walk maxWriteOperationsSupported kernel.dev.circularBuffer.slot
    (countLoop kernel.dev.circularBuffer maxWriteOperationsSupported
      kernel.dev.circularBuffer.outOffs 0)
    kernel.dev.circularBuffer.outOffs).map (entryBytes kernel.heap)

/-- The ring, read from `out_offs` on, holds the last commands of the log. -/
theorem Stores.ringCommands_eq {kernel : Kernel} {commands : List (List UInt8)}
    (h : Stores kernel commands) : ringCommands kernel = heldCommands commands := by
  have hout : kernel.dev.circularBuffer.outOffs < maxWriteOperationsSupported := by
    obtain ⟨added, hring, -⟩ := h.ring
    exact hring.outOffs_lt
  rw [ringCommands, h.countLoop_eq]
  apply List.ext_getElem
  · rw [List.length_map, length_walk]
  · intro index _ hindex
    rw [List.getElem_map, getElem_walk hout]
    exact (h.entryBytes_heldSlot hindex).1

/-- The bytes a reader of the device can read from its start on. -/
def readable (kernel : Kernel) : List UInt8 := (ringCommands kernel).flatten

theorem readable_eq {kernel : Kernel} {commands : List (List UInt8)}
    (h : Stores kernel commands) : readable kernel = content commands := by
  rw [readable, h.ringCommands_eq]
  rfl

/-! ## Complete writes -/

section Complete

variable {kernel : Kernel} {commands : List (List UInt8)} {call : WriteCall}

/-- The kernel copies the whole buffer, and a search past the end of the block finds nothing. -/
structure WriteCall.Complete (call : WriteCall) : Prop where
  copied : call.remain = 0
  overran : call.beyond = false

theorem WriteCall.complete_complete (buf : List UInt8) : (WriteCall.complete buf).Complete :=
  ⟨rfl, rfl⟩

/-- The state after a write without failures: the commands `committed` are added to the log, and
the bytes `pending` are pending. -/
structure Leaves (kernel : Kernel) (commands : List (List UInt8)) (pending : List UInt8) :
    Prop where
  stores : Stores kernel commands
  attached : Attached kernel
  pending_eq : pendingBytes kernel = pending

theorem Leaves.loaded : Leaves Kernel.loaded [] [] := ⟨Stores.loaded, Or.inl rfl, rfl⟩

/-- A write without failures completes the command when the string now in the block contains a
newline, and otherwise leaves all its bytes pending. -/
theorem Leaves.write {pending : List UInt8} (h : Leaves kernel commands pending)
    (hcomplete : call.Complete) (hserved : Served call kernel) :
    (newline ∈ stringOf nul (pending ++ call.buf) →
      (aesdWrite call kernel).2.committed = some (pending ++ call.buf) ∧
        Leaves (aesdWrite call kernel).1 (commands ++ [pending ++ call.buf]) []) ∧
    (newline ∉ stringOf nul (pending ++ call.buf) →
      (aesdWrite call kernel).2.committed = none ∧
        Leaves (aesdWrite call kernel).1 commands (pending ++ call.buf)) := by
  obtain ⟨added, hsound, -⟩ := h.stores
  have haccepted : call.accepted = call.buf.length := by
    rw [WriteCall.accepted, hcomplete.copied, Nat.sub_zero]
  have hkept : keptBytes call kernel = pending :=
    (hsound.keptBytes_eq h.attached call).trans h.pending_eq
  have hblock : writtenBlock call kernel = pending ++ call.buf := by
    rw [writtenBlock, hkept, hcomplete.copied, Nat.zero_min, copiedBytes_zero]
  have hbytes := entryBytes_writtenEntry call kernel
  rw [hkept, haccepted, List.take_length] at hbytes
  have hfound : strchrNewline call.beyond (writtenBlock call kernel) = true ↔
      newline ∈ stringOf nul (pending ++ call.buf) := by
    rw [strchrNewline_iff, hblock, hcomplete.overran]
    simp
  have hstores := h.stores.write (strchrNewline call.beyond) call
  have hattached := (hsound.write_conserves h.attached hserved (strchrNewline call.beyond)).1
  unfold aesdWrite
  constructor
  · intro hnewline
    have hcommitted : (aesdWriteWith (strchrNewline call.beyond) call kernel).2.committed =
        some (pending ++ call.buf) := by
      rw [aesdWriteWith_of_served hserved, if_pos (hfound.mpr hnewline), hbytes]
    rw [hcommitted] at hstores
    refine ⟨hcommitted, hstores, hattached, ?_⟩
    rw [aesdWriteWith_of_served hserved, if_pos (hfound.mpr hnewline)]
    rfl
  · intro hnone
    have hcommitted : (aesdWriteWith (strchrNewline call.beyond) call kernel).2.committed =
        none := by
      rw [aesdWriteWith_of_served hserved, if_neg (fun hyes ↦ hnone (hfound.mp hyes))]
      rfl
    rw [hcommitted, Option.toList_none, List.append_nil] at hstores
    refine ⟨hcommitted, hstores, hattached, ?_⟩
    rw [aesdWriteWith_of_served hserved, if_neg (fun hyes ↦ hnone (hfound.mp hyes))]
    exact hbytes

end Complete

/-! ## What can be pending -/

section Pending

/-- The string that is pending has no newline: it would have been committed. -/
def Unfinished (kernel : Kernel) : Prop := newline ∉ stringOf nul (pendingBytes kernel)

theorem Unfinished.loaded : Unfinished Kernel.loaded := List.not_mem_nil

theorem unfinished_write (call : WriteCall) (kernel : Kernel) :
    Unfinished (aesdWrite call kernel).1 := by
  unfold aesdWrite
  by_cases hserved : Served call kernel
  · rw [aesdWriteWith_of_served hserved]
    cases hfound : strchrNewline call.beyond (writtenBlock call kernel) with
    | true => exact List.not_mem_nil
    | false =>
      intro hnewline
      rw [if_neg Bool.false_ne_true, pendingBytes, entryBytes, writtenEntry,
        read_writtenHeap_next] at hnewline
      have hstring := mem_stringOf_of_mem_take hnewline
      have hyes := (strchrNewline_iff call.beyond (writtenBlock call kernel)).mpr (Or.inl hstring)
      exact Bool.false_ne_true (hfound.symm.trans hyes)
  · rw [aesdWriteWith_of_not_served hserved, Unfinished, pendingBytes, entryBytes,
      Heap.read_none, List.take_nil]
    exact List.not_mem_nil

/-- After every run of the device no finished command is pending. -/
theorem run_unfinished (calls : List Call) :
    Unfinished (device.run System.loaded calls).kernel := by
  have hstep : ∀ (system : System) call, Unfinished system.kernel →
      Unfinished (device.next system call).kernel := by
    intro system call h
    cases call with
    | write file call => exact unfinished_write call system.kernel
    | read file count copied => exact h
    | llseek file offset whence => exact h
    | ioctl file cmd arg => exact h
  exact Machine.invariant_run hstep Unfinished.loaded calls

end Pending

/-! ## Groups of writes -/

section Groups

/-- A write without failures of bytes none of which is NUL. -/
structure WriteCall.Plain (call : WriteCall) (kernel : Kernel) : Prop where
  nonempty : call.buf ≠ []
  noNul : nul ∉ call.buf
  complete : call.Complete
  served : Served call kernel

def Call.Plain (system : System) : Call → Prop
  | .write _ call => call.Plain system.kernel
  | _ => False

def Call.buf : Call → List UInt8
  | .write _ call => call.buf
  | _ => []

/-- The buffers of the calls, cut behind every one that contains a newline: the complete groups,
each concatenated, and the incomplete one. -/
def groups (calls : List Call) : List (List UInt8) × List UInt8 :=
  cutAfter isNewline [] (calls.map Call.buf)

/-- The device has these bytes pending, none of them a newline or NUL, behind the commands of its
log. -/
structure Open (kernel : Kernel) (commands : List (List UInt8)) (pending : List UInt8) : Prop where
  leaves : Leaves kernel commands pending
  noNul : nul ∉ pending
  unfinished : newline ∉ pending

theorem Open.of_eq_nil {kernel : Kernel} {commands chunks : List (List UInt8)}
    {pending : List UInt8} (h : Open kernel commands pending) (hnothing : chunks = []) :
    Open kernel (commands ++ (cutAfter isNewline pending chunks).1)
      (cutAfter isNewline pending chunks).2 := by
  rw [hnothing, cutAfter_nil, List.append_nil]
  exact h

/-- One served write of a chunk without NUL bytes cuts the pending bytes and the chunk. -/
theorem Open.write {kernel : Kernel} {commands : List (List UInt8)} {pending : List UInt8}
    (h : Open kernel commands pending) {call : WriteCall} (hnul : nul ∉ call.buf)
    (hcomplete : call.Complete) (hserved : Served call kernel) :
    (aesdWrite call kernel).2.committed.toList = (cutAfter isNewline pending [call.buf]).1 ∧
      Open (aesdWrite call kernel).1 (commands ++ (cutAfter isNewline pending [call.buf]).1)
        (cutAfter isNewline pending [call.buf]).2 := by
  have hplain : nul ∉ pending ++ call.buf := by
    rw [List.mem_append, not_or]
    exact ⟨h.noNul, hnul⟩
  obtain ⟨hcommits, hkeeps⟩ := h.leaves.write hcomplete hserved
  rw [stringOf_eq_self hplain, List.mem_append, or_iff_right h.unfinished, ← any_isNewline_iff]
    at hcommits hkeeps
  cases hend : call.buf.any isNewline with
  | true =>
    obtain ⟨hcommitted, hleaves⟩ := hcommits hend
    rw [cutAfter_cons_of_end hend, hcommitted]
    exact ⟨rfl, hleaves, List.not_mem_nil, List.not_mem_nil⟩
  | false =>
    obtain ⟨hcommitted, hleaves⟩ := hkeeps (ne_true_of_eq_false hend)
    rw [cutAfter_cons_of_open hend, hcommitted, cutAfter_nil, List.append_nil]
    refine ⟨rfl, hleaves, hplain, ?_⟩
    rw [List.mem_append, not_or, ← any_isNewline_iff call.buf]
    exact ⟨h.unfinished, ne_true_of_eq_false hend⟩

/-- After every run of plain writes the device holds the groups of the run. -/
theorem leaves_groups {calls : List Call}
    (hplain : device.Meets Call.Plain System.loaded calls) :
    Leaves (device.run System.loaded calls).kernel (groups calls).1 (groups calls).2 := by
  have hstep : ∀ (system : System) chunks call,
      Open system.kernel (cutAfter isNewline [] chunks).1 (cutAfter isNewline [] chunks).2 →
      call.Plain system →
      Open (device.next system call).kernel
        (cutAfter isNewline [] (chunks ++ [call.buf])).1
        (cutAfter isNewline [] (chunks ++ [call.buf])).2 := by
    intro system chunks call h hcall
    cases call with
    | write file call =>
      rw [cutAfter_append]
      exact (h.write hcall.noNul hcall.complete hcall.served).2
    | read file count copied => exact absurd hcall id
    | llseek file offset whence => exact absurd hcall id
    | ioctl file cmd arg => exact absurd hcall id
  have hrun := Machine.collect_run
    (fun (system : System) chunks ↦
      Open system.kernel (cutAfter isNewline [] chunks).1 (cutAfter isNewline [] chunks).2)
    (fun (call : Call) (_ : Result) ↦ [call.buf]) hstep
    (show Open System.loaded.kernel (cutAfter isNewline [] []).1 (cutAfter isNewline [] []).2 from
      ⟨Leaves.loaded, List.not_mem_nil, List.not_mem_nil⟩) hplain
  rw [List.nil_append, Machine.collect_inputs] at hrun
  exact hrun.leaves

/-- What the ring and the pending entry of the device hold. -/
structure SameContents (first second : Kernel) : Prop where
  ring : ringCommands first = ringCommands second
  pending : pendingBytes first = pendingBytes second
  size : first.dev.entry.size = second.dev.entry.size

/-- **Commands are the groups of writes.** After every run of plain writes the ring, read from
`out_offs` on, holds the last ten complete groups of the run and the pending entry the incomplete
one. So it does not matter into which writes a command is split whose only newline is its last
byte. -/
theorem plain_writes_make_groups :
    (∀ calls, device.Meets Call.Plain System.loaded calls →
      ringCommands (device.run System.loaded calls).kernel =
          window maxWriteOperationsSupported (groups calls).1 ∧
        pendingBytes (device.run System.loaded calls).kernel = (groups calls).2 ∧
        (device.run System.loaded calls).kernel.dev.entry.size = (groups calls).2.length) ∧
    (∀ (before first second after : List Call) (body : List UInt8), newline ∉ body →
      (first.map Call.buf).flatten = body ++ [newline] →
      (second.map Call.buf).flatten = body ++ [newline] →
      device.Meets Call.Plain System.loaded (before ++ first ++ after) →
      device.Meets Call.Plain System.loaded (before ++ second ++ after) →
      SameContents (device.run System.loaded (before ++ first ++ after)).kernel
        (device.run System.loaded (before ++ second ++ after)).kernel) := by
  have hholds : ∀ calls, device.Meets Call.Plain System.loaded calls →
      ringCommands (device.run System.loaded calls).kernel =
          window maxWriteOperationsSupported (groups calls).1 ∧
        pendingBytes (device.run System.loaded calls).kernel = (groups calls).2 ∧
        (device.run System.loaded calls).kernel.dev.entry.size = (groups calls).2.length := by
    intro calls hplain
    have hleaves := leaves_groups hplain
    obtain ⟨added, hsound, -⟩ := hleaves.stores
    refine ⟨hleaves.stores.ringCommands_eq, hleaves.pending_eq, ?_⟩
    rw [← hleaves.pending_eq, hsound.length_pendingBytes hleaves.attached]
  refine ⟨hholds, fun before first second after body hbody hfirst hsecond hplain hplain' ↦ ?_⟩
  have hopen : body.any isNewline = false := by
    rw [← Bool.not_eq_true, any_isNewline_iff]
    exact hbody
  have hsame : groups (before ++ first ++ after) = groups (before ++ second ++ after) := by
    unfold groups
    simp only [List.map_append, cutAfter_append, cutAfter_line hopen rfl hfirst,
      cutAfter_line hopen rfl hsecond]
  obtain ⟨hring, hpending, hsize⟩ := hholds _ hplain
  obtain ⟨hring', hpending', hsize'⟩ := hholds _ hplain'
  rw [← hsame] at hring' hpending' hsize'
  exact ⟨hring.trans hring'.symm, hpending.trans hpending'.symm, hsize.trans hsize'.symm⟩

/-- The command "ab" with its newline in two writes, and a third write that stays pending. -/
def splitCalls : List Call :=
  [.write 0 (.complete [97]), .write 1 (.complete [98, newline]), .write 0 (.complete [99])]

theorem plain_splitCalls : device.Meets Call.Plain System.loaded splitCalls := by
  refine ⟨?_, ?_, ?_, trivial⟩ <;>
    exact ⟨by decide, by decide, WriteCall.complete_complete _, by decide +kernel⟩

theorem plain_writes_make_groups_split :
    ringCommands (device.run System.loaded splitCalls).kernel = [[97, 98, newline]] ∧
      pendingBytes (device.run System.loaded splitCalls).kernel = [99] := by
  obtain ⟨hring, hpending, -⟩ := plain_writes_make_groups.1 splitCalls plain_splitCalls
  exact ⟨hring.trans (by decide), hpending.trans (by decide)⟩

end Groups

end Aesd.Driver
