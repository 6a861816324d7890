import Aesd.Driver.Conservation
import Aesd.Driver.Grouping

/-!
# The newline search of a write

`aesd_write` looks for the end of a command with `strchr`, a search in a string, while the pending
entry is bytes with a length. The two differ where the bytes contain a NUL: the search stops there
and misses a newline behind it. And they differ where the block contains neither: nothing
terminates it, and the search leaves it.
-/

namespace Aesd.Driver

open Foundation

/-! ## The accesses of a write -/

section Accesses

/-- The length of the block that `aesd_write` asks `kzalloc` or `krealloc` for. -/
def aesdWriteRequest (call : WriteCall) (kernel : Kernel) : ℕ :=
  if kernel.dev.entry.size = 0 then call.buf.length
  else kernel.dev.entry.size + call.buf.length

/-- The indices of `dev->entry.buffptr` that `aesd_write` stores to in `copy_from_user` and looks at
in `strchr`. -/
def aesdWriteAccesses (call : WriteCall) (kernel : Kernel) : List ℕ :=
  let entry := kernel.dev.entry
  let count := call.buf.length
  let allocation :=
    if entry.size = 0 then kzalloc kernel.heap call.served count
    else krealloc kernel.heap call.served call.filler entry.buffptr (entry.size + count)
  match allocation with
  | (_, none) => []
  | (heap, some block) =>
    let heap := copyFromUser heap block entry.size call.buf (min call.remain count)
    let cells := heap.read (some block)
    (List.range count).map (fun index ↦ entry.size + index) ++
      List.range ((search nul newline cells).looked cells.length)

variable {call : WriteCall} {kernel : Kernel}

theorem aesdWriteRequest_eq (call : WriteCall) (kernel : Kernel) :
    aesdWriteRequest call kernel = kernel.dev.entry.size + call.buf.length := by
  unfold aesdWriteRequest
  split <;> omega

theorem length_writtenBlock (call : WriteCall) (kernel : Kernel) :
    (writtenBlock call kernel).length = aesdWriteRequest call kernel := by
  rw [writtenBlock, List.length_append, length_keptBytes,
    length_copiedBytes (Nat.min_le_right _ _), aesdWriteRequest_eq]

theorem aesdWriteAccesses_of_not_served (h : ¬ Served call kernel) :
    aesdWriteAccesses call kernel = [] := by
  simp only [aesdWriteAccesses, allocation_of_not_served h]

theorem aesdWriteAccesses_of_served (h : Served call kernel) :
    aesdWriteAccesses call kernel =
      (List.range call.buf.length).map (fun index ↦ kernel.dev.entry.size + index) ++
        List.range ((search nul newline (writtenBlock call kernel)).looked
          (writtenBlock call kernel).length) := by
  rw [← read_writtenHeap_next]
  simp only [aesdWriteAccesses, allocation_of_served h, writtenHeap]

/-- Something stops the search inside the block: a newline or NUL among the bytes kept from before
or among those copied, or the zeros for bytes that could not be copied. -/
def Stopped (call : WriteCall) (kernel : Kernel) : Prop :=
  call.accepted < call.buf.length ∨
    newline ∈ keptBytes call kernel ++ call.buf.take call.accepted ∨
    nul ∈ keptBytes call kernel ++ call.buf.take call.accepted

theorem writtenBlock_eq (call : WriteCall) (kernel : Kernel) :
    writtenBlock call kernel =
      keptBytes call kernel ++ call.buf.take call.accepted ++
        List.replicate (call.buf.length - call.accepted) nul := by
  have haccepted : call.buf.length - min call.remain call.buf.length = call.accepted := by
    unfold WriteCall.accepted
    omega
  have hremain : min call.remain call.buf.length = call.buf.length - call.accepted := by
    unfold WriteCall.accepted
    omega
  rw [writtenBlock, copiedBytes, haccepted, hremain, List.append_assoc]

theorem stopped_iff (call : WriteCall) (kernel : Kernel) :
    Stopped call kernel ↔
      newline ∈ writtenBlock call kernel ∨ nul ∈ writtenBlock call kernel := by
  have hnewline : newline ∉ List.replicate (call.buf.length - call.accepted) nul :=
    fun hmem ↦ absurd (List.eq_of_mem_replicate hmem) (by decide)
  have hnul : nul ∈ List.replicate (call.buf.length - call.accepted) nul ↔
      call.accepted < call.buf.length := by
    simp only [List.mem_replicate, and_true]
    omega
  rw [writtenBlock_eq, Stopped]
  generalize keptBytes call kernel ++ call.buf.take call.accepted = cells
  rw [List.mem_append, List.mem_append, hnul]
  tauto

/-- A write stays inside the block it asked for exactly when something stops the search. -/
theorem accesses_lt_iff (call : WriteCall) (kernel : Kernel) :
    (∀ index ∈ aesdWriteAccesses call kernel, index < aesdWriteRequest call kernel) ↔
      (Served call kernel → Stopped call kernel) := by
  by_cases hserved : Served call kernel
  · have hlooked := looked_search_le_iff nul newline (writtenBlock call kernel)
    rw [← stopped_iff, length_writtenBlock] at hlooked
    rw [aesdWriteAccesses_of_served hserved, length_writtenBlock, ← hlooked]
    constructor
    · intro hinside _
      by_contra hbehind
      have hmem : aesdWriteRequest call kernel ∈ List.range
          ((search nul newline (writtenBlock call kernel)).looked
            (aesdWriteRequest call kernel)) := List.mem_range.mpr (by omega)
      exact lt_irrefl _ (hinside _ (List.mem_append_right _ hmem))
    · intro hstopped index hindex
      rcases List.mem_append.mp hindex with hstored | hsearched
      · obtain ⟨offset, hoffset, rfl⟩ := List.mem_map.mp hstored
        have hlt := List.mem_range.mp hoffset
        rw [aesdWriteRequest_eq]
        omega
      · exact (List.mem_range.mp hsearched).trans_le (hstopped hserved)
  · rw [aesdWriteAccesses_of_not_served hserved]
    exact ⟨fun _ hyes ↦ absurd hyes hserved, fun _ index hindex ↦ absurd hindex List.not_mem_nil⟩

end Accesses

/-- **Exact condition of memory safety.** After every run of the device every write stays inside
the block it asked for if and only if its allocation is refused or something in the block stops
the newline search. -/
theorem accesses_inside_iff (calls : List Call) (call : WriteCall) :
    (∀ index ∈ aesdWriteAccesses call (device.run System.loaded calls).kernel,
        index < aesdWriteRequest call (device.run System.loaded calls).kernel) ↔
      (Served call (device.run System.loaded calls).kernel →
        Stopped call (device.run System.loaded calls).kernel) :=
  accesses_lt_iff call _

/-- The first write of "ab" looks at a third byte. -/
theorem write_without_newline_overruns :
    ¬ ∀ index ∈ aesdWriteAccesses (.complete [97, 98]) (device.run System.loaded []).kernel,
      index < aesdWriteRequest (.complete [97, 98]) (device.run System.loaded []).kernel := by
  decide +kernel

/-! ## Newlines behind a NUL -/

section Commits

/-- The bytes that are pending when the newline search starts. -/
def accumulated (kernel : Kernel) (call : WriteCall) : List UInt8 :=
  pendingBytes kernel ++ call.buf.take call.accepted

/-- These bytes were added to the ring as one entry, and nothing is pending any more. -/
structure CommitsAll (before after : Kernel) (bytes : List UInt8) : Prop where
  added : ∃ entry, after.dev.circularBuffer =
      aesdCircularBufferAddEntry before.dev.circularBuffer entry ∧
    entryBytes after.heap entry = bytes
  emptied : after.dev.entry = ⟨none, 0⟩

/-- What a write is to do: commit what has accumulated exactly when this contains a newline. -/
def CommitsOnNewline (kernel : Kernel) (call : WriteCall) : Prop :=
  CommitsAll kernel (aesdWrite call kernel).1 (accumulated kernel call) ↔
    newline ∈ accumulated kernel call

/-- A newline among the accumulated bytes is reached: one is in front of the first NUL. -/
def NewlineReached (kernel : Kernel) (call : WriteCall) : Prop :=
  newline ∈ accumulated kernel call → newline ∈ stringOf nul (accumulated kernel call)

/-- The kernel serves the allocation of the call, if it is a write, and a search past the end of
the block finds nothing. -/
def Call.Allocates (system : System) : Call → Prop
  | .write _ call => Served call system.kernel ∧ call.beyond = false
  | _ => True

/-- A call of any kind does what it is to do with newlines; only writes search. -/
def Call.CommitsOnNewline (system : System) : Call → Prop
  | .write _ call => Driver.CommitsOnNewline system.kernel call
  | _ => True

def Call.Reaches (system : System) : Call → Prop
  | .write _ call => NewlineReached system.kernel call
  | _ => True

def NoneFinished (system : System) : Prop := newline ∉ pendingBytes system.kernel

variable {kernel : Kernel} {added : List BufferEntry} {call : WriteCall}

/-- The search finds a newline in the string the accumulated bytes hold; the zeros behind a partial
copy do not matter. -/
theorem Sound.search_iff (h : Sound kernel added) (hattached : Attached kernel)
    (hbeyond : call.beyond = false) :
    strchrNewline call.beyond (writtenBlock call kernel) = true ↔
      newline ∈ stringOf nul (accumulated kernel call) := by
  have hblock : writtenBlock call kernel = accumulated kernel call ++
      List.replicate (call.buf.length - call.accepted) nul := by
    rw [writtenBlock_eq, h.keptBytes_eq hattached, accumulated]
  rw [strchrNewline_iff, hblock, stringOf_append_replicate, hbeyond]
  simp only [Bool.false_eq_true, and_false, or_false]

/-- A served write commits what has accumulated if the search finds a newline, and otherwise
leaves it pending. -/
theorem Sound.write_accumulated (h : Sound kernel added) (hattached : Attached kernel)
    (hserved : Served call kernel) (hbeyond : call.beyond = false) :
    (newline ∈ stringOf nul (accumulated kernel call) →
      CommitsAll kernel (aesdWrite call kernel).1 (accumulated kernel call) ∧
        (aesdWrite call kernel).2.committed = some (accumulated kernel call)) ∧
    (newline ∉ stringOf nul (accumulated kernel call) →
      (aesdWrite call kernel).1.dev.entry ≠ ⟨none, 0⟩ ∧
        pendingBytes (aesdWrite call kernel).1 = accumulated kernel call ∧
        (aesdWrite call kernel).2.committed = none) := by
  have hbytes := entryBytes_writtenEntry call kernel
  rw [h.keptBytes_eq hattached] at hbytes
  have hsearch := h.search_iff hattached hbeyond
  unfold aesdWrite
  rw [aesdWriteWith_of_served hserved]
  constructor
  · intro hfound
    rw [if_pos (hsearch.mpr hfound)]
    exact ⟨⟨⟨_, rfl, hbytes⟩, rfl⟩, congrArg some hbytes⟩
  · intro hnone
    rw [if_neg fun hyes ↦ hnone (hsearch.mp hyes)]
    refine ⟨fun hentry ↦ ?_, hbytes, rfl⟩
    exact Option.some_ne_none _ (congrArg BufferEntry.buffptr hentry)

/-- A served write does what it is to do exactly when it reaches the newline. -/
theorem Sound.commitsOnNewline_iff (h : Sound kernel added) (hattached : Attached kernel)
    (hserved : Served call kernel) (hbeyond : call.beyond = false) :
    CommitsOnNewline kernel call ↔ NewlineReached kernel call := by
  obtain ⟨hcommits, hkeeps⟩ := h.write_accumulated hattached hserved hbeyond
  unfold CommitsOnNewline NewlineReached
  constructor
  · intro hiff hnewline
    by_contra hnone
    exact (hkeeps hnone).1 (hiff.mpr hnewline).emptied
  · intro hreached
    constructor
    · intro hall
      by_contra hnewline
      exact (hkeeps fun hstring ↦ hnewline (mem_of_mem_stringOf hstring)).1 hall.emptied
    · intro hnewline
      exact (hcommits (hreached hnewline)).1

/-- What is known in every state of a run whose allocations are all served. -/
def Settled (kernel : Kernel) : Prop := (∃ added, Sound kernel added) ∧ Attached kernel

theorem Settled.loaded : Settled System.loaded.kernel := ⟨⟨[], Sound.loaded⟩, Or.inl rfl⟩

theorem Settled.next {system : System} (h : Settled system.kernel) {call : Call}
    (hallocates : call.Allocates system) : Settled (device.next system call).kernel := by
  obtain ⟨⟨added, hsound⟩, hattached⟩ := h
  cases call with
  | write file call =>
    obtain ⟨added', hsound', -⟩ := Stores.aesdWrite ⟨added, hsound, rfl⟩ call
    exact ⟨⟨added', hsound'⟩, (hsound.write_conserves hattached hallocates.1 _).1⟩
  | read file count copied => exact ⟨⟨added, hsound⟩, hattached⟩
  | llseek file offset whence => exact ⟨⟨added, hsound⟩, hattached⟩
  | ioctl file cmd arg => exact ⟨⟨added, hsound⟩, hattached⟩

/-- One call leaves no newline pending exactly when it reaches the newline. -/
theorem Settled.noneFinished_next_iff {system : System} (h : Settled system.kernel)
    (hnone : NoneFinished system) {call : Call} (hallocates : call.Allocates system) :
    NoneFinished (device.next system call) ↔ call.Reaches system := by
  obtain ⟨⟨added, hsound⟩, hattached⟩ := h
  cases call with
  | write file call =>
    obtain ⟨hcommits, hkeeps⟩ :=
      hsound.write_accumulated hattached hallocates.1 hallocates.2
    unfold NoneFinished Call.Reaches NewlineReached
    rw [device_next_write]
    by_cases hfound : newline ∈ stringOf nul (accumulated system.kernel call)
    · have hempty : pendingBytes (aesdWrite call system.kernel).1 = [] := by
        rw [pendingBytes, entryBytes, (hcommits hfound).1.emptied, List.take_zero]
      rw [hempty]
      exact ⟨fun _ _ ↦ hfound, fun _ ↦ List.not_mem_nil⟩
    · rw [(hkeeps hfound).2.1]
      exact ⟨fun hno hyes ↦ absurd hyes hno, fun hreached hyes ↦ hfound (hreached hyes)⟩
  | read file count copied => exact ⟨fun _ ↦ trivial, fun _ ↦ hnone⟩
  | llseek file offset whence => exact ⟨fun _ ↦ trivial, fun _ ↦ hnone⟩
  | ioctl file cmd arg => exact ⟨fun _ ↦ trivial, fun _ ↦ hnone⟩

theorem Settled.newline_mem_committed {system : System} (h : Settled system.kernel) {call : Call}
    (hallocates : call.Allocates system) {command : List UInt8}
    (hcommand : command ∈ (device.emit system call).committed.toList) : newline ∈ command := by
  obtain ⟨⟨added, hsound⟩, hattached⟩ := h
  cases call with
  | write file call =>
    obtain ⟨hcommits, hkeeps⟩ :=
      hsound.write_accumulated hattached hallocates.1 hallocates.2
    have hemit : device.emit system (.write file call) = (aesdWrite call system.kernel).2 := rfl
    rw [hemit] at hcommand
    by_cases hfound : newline ∈ stringOf nul (accumulated system.kernel call)
    · rw [(hcommits hfound).2] at hcommand
      exact List.mem_singleton.mp hcommand ▸ mem_of_mem_stringOf hfound
    · rw [(hkeeps hfound).2.2] at hcommand
      exact absurd hcommand List.not_mem_nil
  | read file count copied =>
    rw [device_emit_read, committed_aesdRead] at hcommand
    exact absurd hcommand List.not_mem_nil
  | llseek file offset whence => exact absurd hcommand List.not_mem_nil
  | ioctl file cmd arg => exact absurd hcommand List.not_mem_nil

theorem Settled.call_commitsOnNewline_iff {system : System} (h : Settled system.kernel)
    {call : Call} (hallocates : call.Allocates system) :
    call.CommitsOnNewline system ↔ call.Reaches system := by
  obtain ⟨⟨added, hsound⟩, hattached⟩ := h
  cases call with
  | write file call =>
    exact hsound.commitsOnNewline_iff hattached hallocates.1 hallocates.2
  | read file count copied => exact Iff.rfl
  | llseek file offset whence => exact Iff.rfl
  | ioctl file cmd arg => exact Iff.rfl

end Commits

/-- **Exact condition of newline framing.** In every run whose allocations are all served: every
write commits what has accumulated exactly when this contains a newline, and the pending bytes
never contain a newline, and every committed command contains one, if and only if every write
whose accumulated bytes contain a newline has one in front of the first NUL. -/
theorem commits_on_newline_iff (calls : List Call)
    (hallocates : device.Meets (fun system call ↦ call.Allocates system) System.loaded calls) :
    (device.Meets (fun system call ↦ call.CommitsOnNewline system) System.loaded calls ∧
        device.Always NoneFinished System.loaded calls ∧
        ∀ command ∈ commits System.loaded calls, newline ∈ command) ↔
      device.Meets (fun system call ↦ call.Reaches system) System.loaded calls := by
  have hnext : ∀ (system : System) (call : Call), Settled system.kernel → call.Allocates system →
      Settled (device.next system call).kernel := fun _ _ h hcall ↦ h.next hcall
  have hmeets :
      device.Meets (fun system call ↦ call.CommitsOnNewline system) System.loaded calls ↔
        device.Meets (fun system call ↦ call.Reaches system) System.loaded calls :=
    Machine.meets_iff_meets hnext (fun _ _ h hcall ↦ h.call_commitsOnNewline_iff hcall)
      Settled.loaded hallocates
  have halways : device.Always NoneFinished System.loaded calls ↔
      device.Meets (fun system call ↦ call.Reaches system) System.loaded calls :=
    Machine.always_iff_meets_of_assumed (fun system call h hcall _ ↦ hnext system call h hcall)
      (fun _ _ h hcall hnone ↦ h.noneFinished_next_iff hnone hcall) Settled.loaded
      List.not_mem_nil hallocates
  have hcommits : ∀ command ∈ commits System.loaded calls, newline ∈ command :=
    Machine.forall_mem_collect hnext (fun _ _ h hcall _ ↦ h.newline_mem_committed hcall)
      Settled.loaded hallocates
  rw [hmeets, halways]
  exact ⟨fun hall ↦ hall.1, fun hreaches ↦ ⟨hreaches, hreaches, hcommits⟩⟩

/-- A command in two writes, a NUL behind its newline. -/
theorem commits_on_newline_iff_split :
    device.Always NoneFinished System.loaded
      [.write 0 (.complete [97]), .write 1 (.complete [newline, nul])] := by
  refine ((commits_on_newline_iff _ ?_).mpr ?_).2.1
  · exact ⟨⟨by decide +kernel, rfl⟩, ⟨by decide +kernel, rfl⟩, trivial⟩
  · exact ⟨fun hmem ↦ absurd hmem (by decide +kernel), fun _ ↦ by decide +kernel, trivial⟩

/-- A newline behind a NUL is not found: the write stays pending, newline and all. -/
theorem newline_behind_nul_stays_pending :
    ¬ CommitsOnNewline System.loaded.kernel (.complete [nul, newline]) ∧
      ¬ NoneFinished (device.run System.loaded [.write 0 (.complete [nul, newline])]) := by
  constructor
  · intro hcommits
    have hall := hcommits.mpr (by decide +kernel)
    have hsize := congrArg BufferEntry.size hall.emptied
    exact absurd hsize (by decide +kernel)
  · exact not_not_intro (by decide +kernel)

end Aesd.Driver
