import Aesd.Driver.CommandLog

/-!
# What becomes of accepted and of refused bytes

A write accepts the bytes its return value counts. As long as no allocation is refused, every
accepted byte is committed or pending, once and in order, whatever `copy_from_user` leaves out
and wherever the newline search sees a newline: the filler behind a partial copy is never part
of an entry. A refused reallocation is different. It clears the pointer of the pending entry and
keeps its size, so the pending bytes are gone.
-/

namespace Aesd.Driver

open Foundation

/-- The pending entry has not lost its block. -/
def Attached (kernel : Kernel) : Prop :=
  kernel.dev.entry.size = 0 ∨ kernel.dev.entry.buffptr ≠ none

section Pending

variable {kernel : Kernel} {added : List BufferEntry}

theorem Sound.length_pendingBytes (h : Sound kernel added) (hattached : Attached kernel) :
    (pendingBytes kernel).length = kernel.dev.entry.size := by
  rw [pendingBytes, entryBytes, List.length_take]
  apply Nat.min_eq_left
  cases hattached with
  | inl hzero => exact hzero ▸ Nat.zero_le _
  | inr hpointer =>
    obtain ⟨block, hblock⟩ := Option.ne_none_iff_exists'.mp hpointer
    rw [hblock]
    exact (h.pendingLive block hblock).2

/-- Moving the pending bytes to a larger block keeps them. -/
theorem Sound.keptBytes_eq (h : Sound kernel added) (hattached : Attached kernel)
    (call : WriteCall) : keptBytes call kernel = pendingBytes kernel := by
  have hlength := h.length_pendingBytes hattached
  rw [pendingBytes, entryBytes, List.length_take] at hlength
  unfold keptBytes
  split
  · rename_i hzero
    rw [pendingBytes, entryBytes, hzero, List.take_zero]
  · exact Heap.take_resize call.filler (by omega) (Nat.le_add_right _ _)

end Pending

/-! ## Conservation -/

/-- The device under writes whose newline search may answer anything. -/
def writer : Machine Kernel (WriteCall × (List UInt8 → Bool)) Result where
  step kernel call := aesdWriteWith call.2 call.1 kernel

def acceptedBytes (call : WriteCall × (List UInt8 → Bool)) (result : Result) : List UInt8 :=
  call.1.buf.take result.ret.toNat

def writerCommits (kernel : Kernel) (calls : List (WriteCall × (List UInt8 → Bool))) :
    List (List UInt8) :=
  writer.collect (fun _ result ↦ result.committed.toList) kernel calls

theorem ret_of_not_served {newlineFound : List UInt8 → Bool} {call : WriteCall}
    {kernel : Kernel} (h : ¬ Served call kernel) :
    (aesdWriteWith newlineFound call kernel).2.ret = -enomem := by
  rw [aesdWriteWith_of_not_served h]
  rfl

theorem ret_of_served {newlineFound : List UInt8 → Bool} {call : WriteCall} {kernel : Kernel}
    (h : Served call kernel) :
    (aesdWriteWith newlineFound call kernel).2.ret = call.accepted := by
  rw [aesdWriteWith_of_served h]
  split <;> rfl

/-- A write returns `-ENOMEM` exactly when its allocation is refused. -/
theorem ret_eq_neg_enomem_iff (newlineFound : List UInt8 → Bool) (call : WriteCall)
    (kernel : Kernel) :
    (aesdWriteWith newlineFound call kernel).2.ret = -enomem ↔ ¬ Served call kernel := by
  constructor
  · intro hret hserved
    rw [ret_of_served hserved, enomem] at hret
    omega
  · exact ret_of_not_served

/-- One served write: what it commits and what it leaves pending are the bytes that were pending
and the bytes it accepts. -/
theorem Sound.write_conserves {kernel : Kernel} {added : List BufferEntry}
    (h : Sound kernel added) (hattached : Attached kernel) {call : WriteCall}
    (hserved : Served call kernel) (newlineFound : List UInt8 → Bool) :
    Attached (aesdWriteWith newlineFound call kernel).1 ∧
      (aesdWriteWith newlineFound call kernel).2.committed.toList.flatten ++
          pendingBytes (aesdWriteWith newlineFound call kernel).1 =
        pendingBytes kernel ++ call.buf.take call.accepted := by
  have hbytes := entryBytes_writtenEntry call kernel
  rw [h.keptBytes_eq hattached] at hbytes
  rw [aesdWriteWith_of_served hserved]
  by_cases hfound : newlineFound (writtenBlock call kernel) = true
  · rw [if_pos hfound]
    refine ⟨Or.inl rfl, ?_⟩
    simp only [Option.toList_some, List.flatten_singleton, pendingBytes, hbytes]
    exact List.append_nil _
  · rw [if_neg hfound]
    exact ⟨Or.inr (Option.some_ne_none _), hbytes⟩

/-- Every run of writes implements the log of what it commits. -/
theorem writer_stores (calls : List (WriteCall × (List UInt8 → Bool))) :
    Stores (writer.run Kernel.loaded calls) (writerCommits Kernel.loaded calls) := by
  have hstep : ∀ kernel commands (call : WriteCall × (List UInt8 → Bool)),
      Stores kernel commands → True →
        Stores (writer.next kernel call)
          (commands ++ (writer.emit kernel call).committed.toList) :=
    fun _ _ call h _ ↦ h.write call.2 call.1
  exact Machine.collect_run Stores
    (fun (_ : WriteCall × (List UInt8 → Bool)) (result : Result) ↦ result.committed.toList)
    hstep Stores.loaded
    (Machine.meets_of_forall (fun _ _ ↦ trivial) _ calls)

/-- A served write keeps what is known of the state, and the bytes. -/
theorem writer_step {kernel : Kernel}
    (h : (∃ added, Sound kernel added) ∧ Attached kernel)
    (call : WriteCall × (List UInt8 → Bool)) (hret : (writer.emit kernel call).ret ≠ -enomem) :
    ((∃ added, Sound (writer.next kernel call) added) ∧ Attached (writer.next kernel call)) ∧
      (writer.emit kernel call).committed.toList.flatten ++
          pendingBytes (writer.next kernel call) =
        pendingBytes kernel ++ acceptedBytes call (writer.emit kernel call) := by
  obtain ⟨⟨added, hsound⟩, hattached⟩ := h
  have hserved : Served call.1 kernel := by
    by_contra hrefused
    exact hret (ret_of_not_served hrefused)
  have htaken : acceptedBytes call (writer.emit kernel call) =
      call.1.buf.take call.1.accepted := by
    have hcount : (writer.emit kernel call).ret = call.1.accepted := ret_of_served hserved
    rw [acceptedBytes, hcount, Int.toNat_natCast]
  obtain ⟨hnext, hbytes⟩ := hsound.write_conserves hattached hserved call.2
  obtain ⟨added', hsound', -⟩ := Stores.write ⟨added, hsound, rfl⟩ call.2 call.1
  rw [htaken]
  exact ⟨⟨⟨added', hsound'⟩, hnext⟩, hbytes⟩

/-- **No accepted byte is lost, duplicated, reordered or replaced.** After every run of writes,
none of them refused, the committed commands followed by the pending bytes are the accepted bytes
of all calls in order; and the kernel state implements exactly these commands. -/
theorem accepted_bytes_conserved (calls : List (WriteCall × (List UInt8 → Bool)))
    (haccepted : ∀ result ∈ writer.outputs Kernel.loaded calls, result.ret ≠ -enomem) :
    (writerCommits Kernel.loaded calls).flatten ++ pendingBytes (writer.run Kernel.loaded calls) =
        writer.collect acceptedBytes Kernel.loaded calls ∧
      (pendingBytes (writer.run Kernel.loaded calls)).length =
        (writer.run Kernel.loaded calls).dev.entry.size ∧
      Stores (writer.run Kernel.loaded calls) (writerCommits Kernel.loaded calls) := by
  obtain ⟨⟨⟨added, hsound⟩, hattached⟩, hbytes⟩ :=
    Machine.collect_conserved pendingBytes
      (fun _ result ↦ result.committed.toList.flatten) acceptedBytes
      (fun kernel ↦ (∃ added, Sound kernel added) ∧ Attached kernel)
      (fun _ call h hret ↦ writer_step h call hret)
      ⟨⟨[], Sound.loaded⟩, Or.inl rfl⟩ (Machine.meets_of_outputs haccepted)
  refine ⟨?_, hsound.length_pendingBytes hattached, writer_stores calls⟩
  calc
    (writerCommits Kernel.loaded calls).flatten ++ pendingBytes (writer.run Kernel.loaded calls) =
        pendingBytes Kernel.loaded ++ writer.collect acceptedBytes Kernel.loaded calls := by
      rw [writerCommits, Machine.flatten_collect, hbytes]
    _ = writer.collect acceptedBytes Kernel.loaded calls := List.nil_append _

/-- Three writes: one of "ab" whose second byte is not copied, one of "cd" that is not copied at
all, and one of a newline. -/
def faultedCalls : List (WriteCall × (List UInt8 → Bool)) :=
  [(⟨[97, 98], true, fun _ ↦ 7, 1, false⟩, strchrNewline false),
    (⟨[99, 100], true, fun _ ↦ 7, 2, false⟩, strchrNewline false),
    (⟨[newline], true, fun _ ↦ 7, 0, false⟩, strchrNewline false)]

theorem accepted_bytes_conserved_faulted :
    (writerCommits Kernel.loaded faultedCalls).flatten ++
        pendingBytes (writer.run Kernel.loaded faultedCalls) =
      writer.collect acceptedBytes Kernel.loaded faultedCalls ∧
    writer.collect acceptedBytes Kernel.loaded faultedCalls = [97, newline] :=
  ⟨(accepted_bytes_conserved faultedCalls (by decide +kernel)).1, by decide +kernel⟩

/-! ## Refused writes -/

/-- What a failed call is to leave behind: everything as it was, so that a later write does what
it would have done without it. -/
structure LeavesNoTrace (before after : System) : Prop where
  pending : pendingBytes after.kernel = pendingBytes before.kernel
  size : after.kernel.dev.entry.size = before.kernel.dev.entry.size
  ring : after.kernel.dev.circularBuffer = before.kernel.dev.circularBuffer
  heap : after.kernel.heap = before.kernel.heap
  fPos : after.fPos = before.fPos
  later : ∀ file call, device.step after (.write file call) = device.step before (.write file call)

/-- While nothing is pending a write does not look at the pointer of the pending entry. -/
theorem aesdWriteWith_pointer_irrelevant {kernel : Kernel} (hzero : kernel.dev.entry.size = 0)
    (newlineFound : List UInt8 → Bool) (call : WriteCall) (pointer : Option ℕ) :
    aesdWriteWith newlineFound call
        { kernel with dev := { kernel.dev with entry := ⟨pointer, kernel.dev.entry.size⟩ } } =
      aesdWriteWith newlineFound call kernel := by
  simp only [aesdWriteWith, hzero, if_true]

theorem device_next_refused {system : System} {call : WriteCall}
    (h : ¬ Served call system.kernel) (file : ℕ) :
    device.next system (.write file call) =
      { system with
        kernel :=
          { system.kernel with
            dev := { system.kernel.dev with
              entry := ⟨none, system.kernel.dev.entry.size⟩ } } } := by
  rw [device_next_write, aesdWrite, aesdWriteWith_of_not_served h]

/-- **Exact condition of a harmless refusal.** After every run of the device, a write that
returns `-ENOMEM` leaves no trace if and only if nothing was pending or the pending entry had
already lost its block. -/
theorem refused_write_leavesNoTrace_iff (calls : List Call) (file : ℕ) (call : WriteCall)
    (hret : (device.emit (device.run System.loaded calls) (.write file call)).ret = -enomem) :
    LeavesNoTrace (device.run System.loaded calls)
        (device.next (device.run System.loaded calls) (.write file call)) ↔
      (device.run System.loaded calls).kernel.dev.entry.size = 0 ∨
        (device.run System.loaded calls).kernel.dev.entry.buffptr = none := by
  obtain ⟨added, hsound, -⟩ := stores_run calls
  generalize device.run System.loaded calls = system at *
  have hrefused : ¬ Served call system.kernel :=
    (ret_eq_neg_enomem_iff _ call system.kernel).mp hret
  rw [device_next_refused hrefused]
  constructor
  · intro htrace
    by_contra hpending
    rw [not_or] at hpending
    have hlength := hsound.length_pendingBytes (Or.inr hpending.2)
    rw [← htrace.pending, pendingBytes, entryBytes, Heap.read_none, List.take_nil] at hlength
    exact hpending.1 hlength.symm
  · intro hnothing
    have hpending : pendingBytes
        { system.kernel with
          dev := { system.kernel.dev with entry := ⟨none, system.kernel.dev.entry.size⟩ } } =
          pendingBytes system.kernel := by
      cases hnothing with
      | inl hzero => simp only [pendingBytes, entryBytes, hzero, List.take_zero]
      | inr hlost => simp only [pendingBytes, entryBytes, hlost]
    refine ⟨hpending, rfl, rfl, rfl, rfl, fun file' call' ↦ ?_⟩
    have hlater : aesdWrite call'
        { system.kernel with
          dev := { system.kernel.dev with entry := ⟨none, system.kernel.dev.entry.size⟩ } } =
          aesdWrite call' system.kernel := by
      cases hnothing with
      | inl hzero => exact aesdWriteWith_pointer_irrelevant hzero _ call' none
      | inr hlost => rw [← hlost]
    simp only [device, hlater]

def refusedCall : WriteCall := ⟨[newline], false, fun _ ↦ 0, 0, false⟩

/-- Behind two commands nothing is pending and the refusal is harmless, and so is a second refusal
behind one that has lost the pending bytes. -/
theorem refused_write_leavesNoTrace_sample :
    LeavesNoTrace
        (device.run System.loaded
          [.write 0 (.complete [120, newline]), .write 0 (.complete [121, newline])])
        (device.next (device.run System.loaded
          [.write 0 (.complete [120, newline]), .write 0 (.complete [121, newline])])
          (.write 1 refusedCall)) ∧
      LeavesNoTrace
        (device.run System.loaded [.write 0 (.complete [97, 98]), .write 0 refusedCall])
        (device.next (device.run System.loaded
          [.write 0 (.complete [97, 98]), .write 0 refusedCall]) (.write 1 refusedCall)) :=
  ⟨(refused_write_leavesNoTrace_iff _ 1 refusedCall (by decide +kernel)).mpr (Or.inl rfl),
    (refused_write_leavesNoTrace_iff _ 1 refusedCall (by decide +kernel)).mpr (Or.inr rfl)⟩

/-- With "ab" pending the refusal loses both bytes: a later newline is committed behind two bytes
of whatever the new block held. -/
theorem refused_write_loses_pending :
    (device.emit (device.run System.loaded [.write 0 (.complete [97, 98])])
        (.write 0 refusedCall)).ret = -enomem ∧
      ¬ LeavesNoTrace (device.run System.loaded [.write 0 (.complete [97, 98])])
        (device.next (device.run System.loaded [.write 0 (.complete [97, 98])])
          (.write 0 refusedCall)) ∧
      (device.emit (device.run System.loaded
          [.write 0 (.complete [97, 98]), .write 0 refusedCall])
        (.write 0 ⟨[newline], true, fun _ ↦ 7, 0, false⟩)).committed = some [7, 7, newline] := by
  refine ⟨by decide +kernel, fun htrace ↦ ?_, by decide +kernel⟩
  have hlost := htrace.pending
  exact absurd hlost (by decide +kernel)

end Aesd.Driver
