import Aesd.Driver.Interleaving
import Aesd.Driver.LogDevice

/-!
# The driver is the device its users see

The driver answers every sequence of calls as the abstract device does, leaving without an answer
what this leaves without one. Under any schedule of concurrent calls the answers are those of its
log, in the order of the mutex.
-/

namespace Aesd.Driver

open Foundation

/-! ## What the driver implements -/

/-- The kernel's side of the device implements the log. -/
structure Implements (kernel : Kernel) (log : CommandLog) : Prop where
  stores : Stores kernel log.commands
  pending_eq : pendingBytes kernel = log.pending
  kept_eq : ∀ call, keptBytes call kernel = log.kept call.filler

theorem Implements.loaded : Implements Kernel.loaded CommandLog.empty where
  stores := Stores.loaded
  pending_eq := rfl
  kept_eq := fun _ ↦ rfl

section Steps

variable {kernel : Kernel} {log : CommandLog}

/-! ### Writing -/

/-- The newline search answers what the bytes that are then pending say. -/
theorem found_iff (call : WriteCall) (kernel : Kernel) :
    strchrNewline call.beyond (writtenBlock call kernel) = true ↔
      EndsCommand call (keptBytes call kernel ++ call.buf.take call.accepted) := by
  have hzeros : newline ∉ List.replicate (call.buf.length - call.accepted) nul :=
    fun hmem ↦ absurd (List.eq_of_mem_replicate hmem) (by decide)
  have hnone : nul ∉ List.replicate (call.buf.length - call.accepted) nul ↔
      call.accepted = call.buf.length := by
    have hle : call.accepted ≤ call.buf.length := Nat.sub_le _ _
    simp only [List.mem_replicate, and_true, not_not]
    omega
  rw [strchrNewline_iff, writtenBlock_eq, stringOf_append_replicate, EndsCommand]
  generalize keptBytes call kernel ++ call.buf.take call.accepted = bytes
  simp only [List.mem_append, not_or, hnone]
  tauto

/-- Without its block the pending entry keeps as many bytes of the new one as it had. -/
theorem keptBytes_detached (call : WriteCall) (kernel : Kernel) (size : ℕ) :
    keptBytes call { kernel with dev := { kernel.dev with entry := ⟨none, size⟩ } } =
      (List.range size).map call.filler := by
  unfold keptBytes
  dsimp only
  split
  · rename_i hzero
    rw [hzero]
    rfl
  · simp only [Heap.read_none, Heap.resize, List.take_nil, List.nil_append, List.length_nil,
      Nat.sub_zero, Nat.zero_add, ← List.map_take, List.take_range,
      Nat.min_eq_left (Nat.le_add_right _ _)]

theorem Implements.size_eq (h : Implements kernel log) (call : WriteCall) :
    kernel.dev.entry.size = (log.kept call.filler).length := by
  rw [← h.kept_eq call, length_keptBytes]

theorem Implements.served_iff (h : Implements kernel log) (call : WriteCall) :
    Served call kernel ↔
      call.served = true ∧ (log.kept call.filler).length + call.buf.length ≤ kmallocLimit := by
  rw [Served, h.size_eq call]

/-- A write that completes a command leaves nothing pending. -/
theorem Implements.commits (h : Implements kernel log) {call : WriteCall}
    (hserved : Served call kernel)
    (hline : EndsCommand call (log.kept call.filler ++ call.buf.take call.accepted)) :
    Implements (aesdWrite call kernel).1
        ⟨log.commands ++ [log.kept call.filler ++ call.buf.take call.accepted], [], 0⟩ ∧
      (aesdWrite call kernel).2 =
        ⟨call.accepted, [], some (log.kept call.filler ++ call.buf.take call.accepted)⟩ := by
  have hstores := h.stores.aesdWrite call
  have hwrite : aesdWrite call kernel = _ := aesdWriteWith_of_served hserved
  rw [← h.kept_eq call] at hline
  rw [if_pos ((found_iff call _).mpr hline), entryBytes_writtenEntry, h.kept_eq call] at hwrite
  rw [hwrite] at hstores ⊢
  exact ⟨⟨hstores, rfl, fun _ ↦ rfl⟩, rfl⟩

/-- Any other write that is served leaves its bytes pending. -/
theorem Implements.appends (h : Implements kernel log) {call : WriteCall}
    (hserved : Served call kernel)
    (hopen : ¬ EndsCommand call (log.kept call.filler ++ call.buf.take call.accepted)) :
    Implements (aesdWrite call kernel).1
        ⟨log.commands, log.kept call.filler ++ call.buf.take call.accepted, 0⟩ ∧
      (aesdWrite call kernel).2 = Result.of call.accepted := by
  have hstores := h.stores.aesdWrite call
  have hbytes := entryBytes_writtenEntry call kernel
  have hwrite : aesdWrite call kernel = _ := aesdWriteWith_of_served hserved
  rw [h.kept_eq call] at hbytes
  rw [← h.kept_eq call] at hopen
  rw [if_neg fun hfound ↦ hopen ((found_iff call _).mp hfound)] at hwrite
  rw [hwrite] at hstores ⊢
  obtain ⟨added, hsound, hcommands⟩ := hstores
  refine ⟨⟨⟨added, hsound, ?_⟩, hbytes, fun later ↦ ?_⟩, rfl⟩
  · exact hcommands.trans (List.append_nil _)
  · rw [hsound.keptBytes_eq (Or.inr (Option.some_ne_none _)) later, CommandLog.kept]
    exact hbytes.trans (List.append_nil _).symm

/-- Without its block the pending entry has lost its bytes, but not their number. -/
theorem Implements.detached (h : Implements kernel log) (filler : ℕ → UInt8) :
    Implements { kernel with dev := { kernel.dev with entry := ⟨none, kernel.dev.entry.size⟩ } }
      ⟨log.commands, [], (log.kept filler).length⟩ := by
  obtain ⟨added, hsound, hcommands⟩ := h.stores
  refine ⟨⟨added, hsound.refused, hcommands⟩, List.take_nil, fun later ↦ ?_⟩
  have hsize := h.size_eq ⟨[], true, filler, 0, true⟩
  rw [keptBytes_detached, hsize]
  exact (List.nil_append _).symm

/-- A refused write forgets the pending bytes. -/
theorem Implements.refuses (h : Implements kernel log) {call : WriteCall}
    (hrefused : ¬ Served call kernel) :
    Implements (aesdWrite call kernel).1 ⟨log.commands, [], (log.kept call.filler).length⟩ ∧
      (aesdWrite call kernel).2 = Result.of (-enomem) := by
  have hwrite : aesdWrite call kernel = _ := aesdWriteWith_of_not_served hrefused
  rw [hwrite]
  exact ⟨h.detached call.filler, rfl⟩

theorem Implements.write (h : Implements kernel log) (call : WriteCall) :
    Implements (aesdWrite call kernel).1 (log.write call).1 ∧
      (aesdWrite call kernel).2 = (log.write call).2 := by
  have hiff := h.served_iff call
  rw [CommandLog.write]
  by_cases hserved : Served call kernel
  · rw [if_pos (hiff.mp hserved)]
    by_cases hline : EndsCommand call (log.kept call.filler ++ call.buf.take call.accepted)
    · rw [if_pos hline]
      exact h.commits hserved hline
    · rw [if_neg hline]
      exact h.appends hserved hline
  · rw [if_neg fun hyes ↦ hserved (hiff.mpr hyes)]
    exact h.refuses hserved

/-! ### The other calls -/

variable {position : ℕ}

theorem Implements.read (h : Implements kernel log) (hposition : position < 2 ^ 63) (count : ℕ)
    (copied : Bool) :
    aesdRead kernel count copied position =
      ((log.read position count copied).1, ((log.read position count copied).2 : ℤ)) := by
  have hstores := h.stores
  rw [CommandLog.read]
  by_cases hpast : (content log.commands).length ≤ position
  · rw [hstores.aesdRead_past hposition hpast, restOf_of_le hpast, if_pos rfl]
  · obtain ⟨index, inner, hindex, hsplit, hinner⟩ := exists_startOf (Nat.not_le.mp hpast)
    have hread := hstores.aesdRead_inside hindex hinner count copied
    have hrest := restOf_startOf hindex hinner
    rw [← hsplit] at hread hrest
    have hlength : ((heldCommands log.commands)[index].drop inner).length =
        (heldCommands log.commands)[index].length - inner := List.length_drop
    have hne : (heldCommands log.commands)[index].drop inner ≠ [] := by
      rw [Ne, ← List.length_eq_zero_iff, hlength]
      omega
    have htake : ((heldCommands log.commands)[index].drop inner).take
        (min count ((heldCommands log.commands)[index].length - inner)) =
          ((heldCommands log.commands)[index].drop inner).take count := by
      rw [← hlength, ← List.take_take, List.take_length]
    have hcount : (((heldCommands log.commands)[index].drop inner).take count).length =
        min count ((heldCommands log.commands)[index].length - inner) := by
      rw [List.length_take, hlength]
    rw [hread, hrest, if_neg hne]
    cases copied with
    | true =>
      rw [if_pos rfl, if_pos rfl, htake, ← hcount]
    | false => rfl

theorem Implements.llseek (h : Implements kernel log) (hposition : position < 2 ^ 63)
    (offset : Int64) (whence : ℤ) :
    (Result.of (aesdLlseek kernel.dev position offset whence).1,
        (aesdLlseek kernel.dev position offset whence).2) =
      ((log.llseek position offset.toInt whence).1,
        ((log.llseek position offset.toInt whence).2 : ℤ)) := by
  have hrange : InRange position := ⟨Int.natCast_nonneg _, by exact_mod_cast hposition⟩
  rw [h.stores.aesdLlseek_eq hrange offset whence, CommandLog.llseek]
  cases seekTarget (content log.commands).length position offset.toInt whence with
  | none => rfl
  | some sum =>
    by_cases hinside : 0 ≤ sum ∧ sum ≤ (content log.commands).length
    · simp only [if_pos hinside, Int.toNat_of_nonneg hinside.1]
    · simp only [if_neg hinside]

/-- The physical slot of a number holds the last command of this remainder. -/
theorem Stores.size_slot_eq {kernel : Kernel} {commands : List (List UInt8)}
    (h : Stores kernel commands) {slot : ℕ} (hslot : slot < maxWriteOperationsSupported)
    (hheld : slot < commands.length) :
    (kernel.dev.circularBuffer.slot slot).size = (slotCommand commands slot).length := by
  obtain ⟨added, hsound, rfl⟩ := h
  rw [List.length_map] at hheld
  rcases Represents.slot_cases hsound.ring hslot with ⟨index, hindex, hmod, hlast, heq⟩ | ⟨hle, -⟩
  · have hnumber : slot + maxWriteOperationsSupported *
        ((added.length - 1 - slot) / maxWriteOperationsSupported) = index := by
      unfold maxWriteOperationsSupported at hmod hlast ⊢
      omega
    rw [heq, slotCommand, List.length_map, hnumber, List.getD_eq_getElem?_getD,
      List.getElem?_eq_getElem (by simpa), Option.getD_some,
      List.getElem_map, hsound.entryBytes_length (List.getElem_mem hindex)]
  · exact absurd hheld (Nat.not_lt.mpr hle)

theorem Stores.aesdIoctl_eq {kernel : Kernel} {commands : List (List UInt8)}
    (h : Stores kernel commands) (fPos : ℤ) (seekto : AesdSeekto) :
    aesdIoctl kernel.dev fPos aesdcharIocseekto (some seekto) =
      (seekCommand commands seekto).elim (-einval, fPos) fun position ↦ (0, (position : ℤ)) := by
  rw [h.aesdIoctl_seekto, seekCommand]
  by_cases hcmd : seekto.writeCmd.toNat < (heldCommands commands).length
  · have hcount : (heldCommands commands).length =
        min commands.length maxWriteOperationsSupported := length_window _ _
    have hsize := h.size_slot_eq (show seekto.writeCmd.toNat < maxWriteOperationsSupported by omega)
      (show seekto.writeCmd.toNat < commands.length by omega)
    rw [hsize]
    split
    · rfl
    · rfl
  · rw [if_neg fun hboth ↦ hcmd hboth.1, if_neg fun hboth ↦ hcmd hboth.1]
    rfl

theorem aesdIoctl_of_ne (dev : AesdDev) (fPos : ℤ) {cmd : ℕ} (h : cmd ≠ aesdcharIocseekto)
    (arg : Option AesdSeekto) : aesdIoctl dev fPos cmd arg = (-enotty, fPos) := by
  simp only [aesdIoctl, if_neg h]
  split
  · rfl
  · split
    · rfl
    · rfl

theorem Implements.ioctl (h : Implements kernel log) (position cmd : ℕ)
    (arg : Option AesdSeekto) :
    (Result.of (aesdIoctl kernel.dev position cmd arg).1,
        (aesdIoctl kernel.dev position cmd arg).2) =
      ((log.ioctl position cmd arg).1, ((log.ioctl position cmd arg).2 : ℤ)) := by
  unfold CommandLog.ioctl
  by_cases hcmd : cmd = aesdcharIocseekto
  · subst hcmd
    rw [if_pos rfl]
    cases arg with
    | none => rfl
    | some seekto =>
      rw [h.stores.aesdIoctl_eq]
      dsimp only
      cases seekCommand log.commands seekto with
      | none => rfl
      | some position => rfl
  · rw [if_neg hcmd, aesdIoctl_of_ne _ _ hcmd]

/-! ### Every call -/

/-- Every operation is answered as by the log, and leaves a position in range. -/
theorem Implements.next (h : Implements kernel log) {operation : Operation}
    (hrange : InRange operation.fPos) :
    Implements (operations.next kernel operation) (logOperations.next log operation) ∧
      operations.emit kernel operation = logOperations.emit log operation ∧
      InRange (operations.emit kernel operation).fPos := by
  obtain ⟨call, fPos⟩ := operation
  dsimp only at hrange
  obtain ⟨position, rfl⟩ := Int.eq_ofNat_of_zero_le hrange.1
  have hposition : position < 2 ^ 63 := by exact_mod_cast hrange.2
  cases call with
  | write file call =>
    obtain ⟨hnext, hresult⟩ := h.write call
    exact ⟨hnext, congrArg (Return.mk · position) hresult, hrange⟩
  | read file count copied =>
    have hread := h.read hposition count copied
    refine ⟨h, ?_, h.stores.inRange_aesdRead hrange count copied⟩
    exact congrArg (fun answer : Result × ℤ ↦ Return.mk answer.1 answer.2) hread
  | llseek file offset whence =>
    have hseek := h.llseek hposition offset whence
    refine ⟨h, ?_, inRange_aesdLlseek kernel.dev hrange offset whence⟩
    exact congrArg (fun answer : Result × ℤ ↦ Return.mk answer.1 answer.2) hseek
  | ioctl file cmd arg =>
    have hioctl := h.ioctl position cmd arg
    refine ⟨h, ?_, h.stores.inRange_aesdIoctl hrange cmd arg⟩
    exact congrArg (fun answer : Result × ℤ ↦ Return.mk answer.1 answer.2) hioctl

/-- A call faults where it brings no bytes to no pending bytes. -/
theorem Implements.faults_iff (h : Implements kernel log) (call : Call) :
    call.Faults kernel ↔ call.Stalls log := by
  cases call with
  | write file call =>
    have hsize : kernel.dev.entry.size = 0 ↔ log.pending = [] ∧ log.forgotten = 0 := by
      rw [h.size_eq call, CommandLog.kept, List.length_append, List.length_map, List.length_range,
        Nat.add_eq_zero_iff, List.length_eq_zero_iff]
    exact and_congr_right fun _ ↦ hsize
  | read file count copied => exact Iff.rfl
  | llseek file offset whence => exact Iff.rfl
  | ioctl file cmd arg => exact Iff.rfl

theorem Implements.faulted (h : Implements kernel log) {call : Call}
    (hfaults : call.Faults kernel) :
    Implements (kernel.setEntry ⟨none, kernel.dev.entry.size⟩) log := by
  cases call with
  | write file call =>
    have hkept : log.kept call.filler = [] := by
      rw [← List.length_eq_zero_iff, ← h.size_eq call]
      exact hfaults.2
    obtain ⟨-, hpending, hforgotten⟩ := (h.faults_iff (.write file call)).mp hfaults
    have hdetached := h.detached call.filler
    rw [hkept] at hdetached
    have hlog : log = ⟨log.commands, [], 0⟩ := by
      rw [← hpending, ← hforgotten]
    rw [hlog]
    exact hdetached
  | read file count copied => exact hfaults.elim
  | llseek file offset whence => exact hfaults.elim
  | ioctl file cmd arg => exact hfaults.elim

end Steps

/-! ## Calls one after the other -/

/-- The driver stands where the abstract device stands. -/
structure Mirrors (guarded : Guarded) (device : LogDevice) : Prop where
  implements : Implements guarded.system.kernel device.log
  fPos_eq : ∀ file, guarded.system.fPos file = device.position file
  inRange : ∀ file, InRange (guarded.system.fPos file)
  held_eq : guarded.held = device.blocked

theorem Mirrors.loaded : Mirrors Guarded.loaded LogDevice.empty where
  implements := Implements.loaded
  fPos_eq := fun _ ↦ rfl
  inRange := fun _ ↦ inRange_zero
  held_eq := rfl

section Mirrors

variable {guarded : Guarded} {device : LogDevice}

/-- A call that comes to its end moves its own file. -/
theorem Mirrors.returns (h : Mirrors guarded device) (call : Call) :
    Mirrors ⟨Driver.device.next guarded.system call, false⟩
        ⟨logOperations.next device.log ⟨call, device.position call.file⟩,
          Function.update device.position call.file
            (logOperations.emit device.log ⟨call, device.position call.file⟩).fPos.toNat, false⟩ ∧
      Driver.device.emit guarded.system call =
        (logOperations.emit device.log ⟨call, device.position call.file⟩).result := by
  have hgiven : InRange (Operation.mk call (guarded.system.fPos call.file)).fPos :=
    h.inRange call.file
  obtain ⟨hnext, hemit, hrange⟩ := h.implements.next hgiven
  rw [device_next_eq, device_emit_eq, ← h.fPos_eq, ← hemit]
  refine ⟨⟨hnext, fun other ↦ ?_, fun other ↦ ?_, rfl⟩, rfl⟩
  · by_cases hother : other = call.file
    · subst hother
      simp only [Function.update_self, Int.toNat_of_nonneg hrange.1]
    · simp only [Function.update_of_ne hother]
      exact h.fPos_eq other
  · by_cases hother : other = call.file
    · subst hother
      simp only [Function.update_self]
      exact hrange
    · simp only [Function.update_of_ne hother]
      exact h.inRange other

/-- Every call is answered alike, or left without an answer on both sides. -/
theorem Mirrors.next (h : Mirrors guarded device) (call : Call) :
    Mirrors (driver.next guarded call) (logDevice.next device call) ∧
      driver.emit guarded call = logDevice.emit device call := by
  obtain ⟨hreturns, hanswer⟩ := h.returns call
  have hspec : logDevice.step device call =
      if call.refused then (device, some (logOperations.emit device.log _).result)
      else if device.blocked then (device, none)
      else if call.Stalls device.log then ({ device with blocked := true }, none)
      else (_, some (logOperations.emit device.log _).result) := rfl
  rw [Machine.next, Machine.next, Machine.emit, Machine.emit, driver_step_eq, hspec, hanswer,
    ← h.held_eq]
  by_cases hrefused : call.refused = true
  · rw [if_pos hrefused, if_pos hrefused]
    exact ⟨h, rfl⟩
  · rw [if_neg hrefused, if_neg hrefused]
    by_cases hheld : guarded.held = true
    · rw [if_pos hheld, if_pos hheld]
      exact ⟨h, rfl⟩
    · rw [if_neg hheld, if_neg hheld]
      by_cases hfaults : call.Faults guarded.system.kernel
      · rw [if_pos hfaults, if_pos ((h.implements.faults_iff call).mp hfaults)]
        exact ⟨⟨h.implements.faulted hfaults, h.fPos_eq, h.inRange, rfl⟩, rfl⟩
      · have hstalls : ¬_ := mt (h.implements.faults_iff call).mpr hfaults
        rw [if_neg hfaults, if_neg hstalls]
        exact ⟨hreturns, rfl⟩

end Mirrors

/-- The calls of a run are answered alike. -/
theorem mirrors_run (calls : List Call) :
    Mirrors (driver.run Guarded.loaded calls) (logDevice.run LogDevice.empty calls) ∧
      driver.outputs Guarded.loaded calls = logDevice.outputs LogDevice.empty calls := by
  have hstep : ∀ (guarded : Guarded) (device : LogDevice) (call call' : Call),
      Mirrors guarded device → call = call' → True →
        Mirrors (driver.next guarded call) (logDevice.next device call') ∧
          id (driver.emit guarded call) = logDevice.emit device call' := by
    rintro guarded device call _ hmirrors rfl -
    exact hmirrors.next call
  have hsame : List.Forall₂ (fun call call' : Call ↦ call = call') calls calls :=
    List.forall₂_same.mpr fun _ _ ↦ rfl
  obtain ⟨hlast, houtputs⟩ := Machine.simulation_run Mirrors id hstep Mirrors.loaded hsame
    (Machine.meets_of_forall (fun _ _ ↦ trivial) _ calls)
  rw [List.map_id] at houtputs
  exact ⟨hlast, houtputs⟩

/-- **The driver is the abstract device.** In every run the driver answers every call as the
abstract device does, and leaves without an answer the calls that this leaves without one. In the
end it has the same content, the same bytes pending and its files at the same positions. -/
theorem device_refines_logDevice (calls : List Call) :
    driver.outputs Guarded.loaded calls = logDevice.outputs LogDevice.empty calls ∧
      ringCommands (driver.run Guarded.loaded calls).system.kernel =
        heldCommands (logDevice.run LogDevice.empty calls).log.commands ∧
      pendingBytes (driver.run Guarded.loaded calls).system.kernel =
        (logDevice.run LogDevice.empty calls).log.pending ∧
      ∀ file, (driver.run Guarded.loaded calls).system.fPos file =
        (logDevice.run LogDevice.empty calls).position file := by
  obtain ⟨hlast, houtputs⟩ := mirrors_run calls
  exact ⟨houtputs, hlast.implements.stores.ringCommands_eq, hlast.implements.pending_eq,
    hlast.fPos_eq⟩

/-- Two bytes are forgotten when a write behind them is refused, and a command is made of two others
and of what completes it; a file reads it, one after a request. Behind a write of no bytes only a
request that the device does not know is answered. -/
example : logDevice.outputs LogDevice.empty
    [.write 0 ⟨[97, 98, 99], true, fun _ ↦ 0, 1, false⟩,
      .write 0 ⟨[99], false, fun _ ↦ 0, 0, false⟩,
      .write 0 ⟨[newline], true, fun _ ↦ 120, 0, false⟩, .read 1 1 true,
      .ioctl 2 aesdcharIocseekto (some ⟨0, 1⟩), .read 2 5 true, .llseek 2 0 seekEnd,
      .write 0 (.complete []), .read 1 1 true, .ioctl 2 0 none] =
    [some (.of 2), some (.of (-enomem)), some ⟨1, [], some [120, 120, newline]⟩,
      some ⟨1, [120], none⟩, some (.of 0), some ⟨2, [120, newline], none⟩, some (.of 3), none, none,
      some (.of (-enotty))] := by
  decide +kernel

/-! ## Concurrent calls -/

section Concurrent

variable {Thread : Type*} [DecidableEq Thread]

/-- A call that returns in front of the mutex is answered alike in every state. -/
theorem emit_of_enterCall {operation : Operation} {result : Return}
    (henter : enterCall operation = .inr result) (hrange : InRange operation.fPos)
    (log : CommandLog) : logOperations.emit log operation = result := by
  obtain ⟨call, fPos⟩ := operation
  dsimp only at hrange
  obtain ⟨position, rfl⟩ := Int.eq_ofNat_of_zero_le hrange.1
  cases call with
  | write file call => exact absurd henter Sum.inl_ne_inr
  | read file count copied => exact absurd henter Sum.inl_ne_inr
  | llseek file offset whence => exact absurd henter Sum.inl_ne_inr
  | ioctl file cmd arg =>
    have hemit : logOperations.emit log ⟨.ioctl file cmd arg, position⟩ =
        ⟨(log.ioctl position cmd arg).1, (log.ioctl position cmd arg).2⟩ := rfl
    rw [hemit]
    unfold CommandLog.ioctl
    by_cases hcmd : cmd = aesdcharIocseekto
    · subst hcmd
      cases arg with
      | none => exact Sum.inr.inj henter
      | some seekto => exact absurd henter Sum.inl_ne_inr
    · have hrefused : enterCall ⟨.ioctl file cmd arg, position⟩ =
          .inr ⟨Result.of (-enotty), position⟩ := by
        simp only [enterCall, if_neg hcmd, ite_self]
      rw [if_neg hcmd]
      exact Sum.inr.inj (hrefused.symm.trans henter)

theorem implements_run {given : List Operation}
    (hrange : ∀ operation ∈ given, InRange operation.fPos) :
    Implements (operations.run Kernel.loaded given) (logOperations.run CommandLog.empty given) := by
  have hstep : ∀ (kernel : Kernel) (log : CommandLog) (operation operation' : Operation),
      Implements kernel log → operation = operation' → InRange operation.fPos →
        Implements (operations.next kernel operation) (logOperations.next log operation') ∧
          id (operations.emit kernel operation) = logOperations.emit log operation' := by
    rintro kernel log operation _ himplements rfl hrange
    obtain ⟨hnext, hemit, -⟩ := himplements.next hrange
    exact ⟨hnext, hemit⟩
  have hsame : List.Forall₂ (fun operation operation' : Operation ↦ operation = operation')
      given given := List.forall₂_same.mpr fun _ _ ↦ rfl
  exact (Machine.simulation_run Implements id hstep Implements.loaded hsame
    (Machine.meets_of_forall_mem hrange _)).1

/-- The calls that have returned were answered by the log in this order, or, in front of the mutex,
as it answers them at any time. When the mutex is free the kernel implements it. -/
structure AnsweredInTurn (calls : Thread → Operation)
    (state : Contention Thread Kernel Place Return) (order : List Thread) : Prop where
  answered : ∀ before thread after result, order = before ++ thread :: after →
    state.phase thread = .returned result → result =
      logOperations.emit (logOperations.run CommandLog.empty (before.map calls)) (calls thread)
  others : ∀ thread ∉ order, ∀ result, state.phase thread = .returned result →
    ∀ log, logOperations.emit log (calls thread) = result
  free : state.holder = none →
    Implements state.shared (logOperations.run CommandLog.empty (order.map calls))

/-- **Under any schedule the driver is the abstract log.** Let threads call the driver at any
positions, their statements in any order that `dev->mtx` allows: they are answered by the log in the
order in which they took it. -/
theorem concurrent_calls_refine_logDevice {calls : Thread → Operation}
    (hrange : ∀ thread, InRange (calls thread).fPos) (schedule : List Thread) :
    AnsweredInTurn calls (scheduled calls Kernel.loaded schedule)
      (mtxOrder calls Kernel.loaded schedule) := by
  have himplements : ∀ order : List Thread,
      Implements (operations.run Kernel.loaded (order.map calls))
        (logOperations.run CommandLog.empty (order.map calls)) := fun order ↦
    implements_run (List.forall_mem_map.mpr fun thread _ ↦ hrange thread)
  have hserial := scheduled_serial calls Kernel.loaded schedule
  constructor
  case answered =>
    intro before thread after result horder hreturned
    rw [← ((himplements before).next (hrange thread)).2.1]
    exact hserial.result_eq_of_holderInside (scheduled_holderInside calls Kernel.loaded schedule)
      horder hreturned
  case others =>
    intro thread hnot result hreturned log
    rcases hserial.others thread hnot with hwaiting | ⟨result', hreturned', henter⟩
    · exact absurd (hwaiting.symm.trans hreturned) (by simp)
    · obtain rfl := Phase.returned.inj (hreturned'.symm.trans hreturned)
      exact emit_of_enterCall henter (hrange thread) log
  case free =>
    intro hfree
    rw [(hserial.free hfree).1]
    exact himplements _

end Concurrent

def twoReaders : Fin 3 → Operation
  | 0 => ⟨.write 0 (.complete [97, 98, newline]), 0⟩
  | _ => ⟨.read 1 2 true, 0⟩

/-- The readers take turns for a statement each once the writer is done. -/
def readersInterleaved : List (Fin 3) :=
  List.replicate 20 0 ++ (List.replicate 20 [2, 1]).flatten

/-- Both readers are given the bytes at the position they have in common. -/
theorem concurrent_calls_refine_logDevice_shared :
    (scheduled twoReaders Kernel.loaded readersInterleaved).holder = none ∧
      (∀ result,
        (scheduled twoReaders Kernel.loaded readersInterleaved).phase 1 = .returned result →
          result = ⟨⟨2, [97, 98], none⟩, 2⟩) ∧
      ∀ result,
        (scheduled twoReaders Kernel.loaded readersInterleaved).phase 2 = .returned result →
          result = ⟨⟨2, [97, 98], none⟩, 2⟩ := by
  have hrange : ∀ thread, InRange (twoReaders thread).fPos := fun
    | 0 => inRange_zero
    | 1 => inRange_zero
    | 2 => inRange_zero
  have horder : mtxOrder twoReaders Kernel.loaded readersInterleaved = [0, 2, 1] := by
    decide +kernel
  have hanswered := (concurrent_calls_refine_logDevice hrange readersInterleaved).answered
  refine ⟨by decide +kernel, fun result hreturned ↦ ?_, fun result hreturned ↦ ?_⟩
  · rw [hanswered [0, 2] 1 [] result horder hreturned]
    decide +kernel
  · rw [hanswered [0] 2 [1] result horder hreturned]
    decide +kernel

end Aesd.Driver
