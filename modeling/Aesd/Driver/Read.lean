import Aesd.Driver.Seek

/-!
# Reading

A read searches the ring for the file position and copies from the command it finds, up to the
end of that command. Seen from the log this is a read of the sequence of all committed bytes at
a base that moves with every eviction, whatever the other files of the device do in between.
-/

namespace Aesd.Driver

open Foundation

section Read

variable {kernel : Kernel} {commands : List (List UInt8)}

/-- Past the content a read returns 0 and leaves the position. -/
theorem Stores.aesdRead_past (h : Stores kernel commands) {position : ℕ}
    (hposition : position < 2 ^ 63) (hpast : (content commands).length ≤ position) (count : ℕ)
    (copied : Bool) : aesdRead kernel count copied position = (Result.of 0, (position : ℤ)) := by
  have hnone := (h.find_eq_none_iff (hposition.trans (by decide))).mpr hpast
  simp only [aesdRead, toU64_natCast (hposition.trans (by decide)), hnone]

/-- Inside a held command a read copies up to the end of that command. -/
theorem Stores.aesdRead_inside (h : Stores kernel commands) {index inner : ℕ}
    (hindex : index < (heldCommands commands).length)
    (hinner : inner < (heldCommands commands)[index].length) (count : ℕ) (copied : Bool) :
    aesdRead kernel count copied ((startOf (heldCommands commands) index + inner : ℕ) : ℤ) =
      if copied then
        (⟨(min count ((heldCommands commands)[index].length - inner) : ℕ),
            ((heldCommands commands)[index].drop inner).take
              (min count ((heldCommands commands)[index].length - inner)), none⟩,
          ((startOf (heldCommands commands) index + inner +
            min count ((heldCommands commands)[index].length - inner) : ℕ) : ℤ))
      else
        (Result.of (-efault), ((startOf (heldCommands commands) index + inner : ℕ) : ℤ)) := by
  have hend := h.startOf_add_length_lt hindex
  obtain ⟨hbytes, hsize⟩ := h.entryBytes_heldSlot hindex
  have hretval : (if count < subU64 (heldSlot kernel index).size inner then count
      else subU64 (heldSlot kernel index).size inner) =
        min count ((heldCommands commands)[index].length - inner) := by
    rw [subU64_eq (by omega) (by omega), hsize]
    split <;> omega
  have hdata : ∀ length ≤ (heldCommands commands)[index].length - inner,
      ((kernel.heap.read (heldSlot kernel index).buffptr).drop inner).take length =
        ((heldCommands commands)[index].drop inner).take length := by
    intro length hlength
    rw [← hbytes, entryBytes, List.drop_take, List.take_take, Nat.min_eq_left]
    omega
  have hunsigned := toU64_natCast (show startOf (heldCommands commands) index + inner < 2 ^ 64 by
    omega)
  unfold heldSlot at hretval hdata
  simp only [aesdRead, hunsigned, h.find_startOf hindex hinner, hretval,
    hdata _ (Nat.min_le_right _ _)]
  rw [← Int.natCast_add, toI64_eq (by omega) (by omega)]

/-- What a read at a position of the sequence of all committed bytes is to do: it returns the
bytes from the moving base plus the position on, up to the end of the committed command they are
in, and moves the position behind them. -/
structure ReadsStream (commands : List (List UInt8)) (position count : ℕ) (result : Result)
    (fPos' : ℤ) : Prop where
  data : result.data = (commands.flatten.drop (evictedBytes commands + position)).take
    result.data.length
  ret : result.ret = result.data.length
  advances : fPos' = ((position + result.data.length : ℕ) : ℤ)
  length_of_inside : evictedBytes commands + position < commands.flatten.length →
    ∃ index < commands.length, startOf commands index ≤ evictedBytes commands + position ∧
      evictedBytes commands + position < startOf commands (index + 1) ∧
      result.data.length =
        min count (startOf commands (index + 1) - (evictedBytes commands + position))
  zero_iff_past : 0 < count →
    (result.ret = 0 ↔ commands.flatten.length ≤ evictedBytes commands + position)

theorem Stores.readsStream (h : Stores kernel commands) {position : ℕ}
    (hposition : position < 2 ^ 63) (count : ℕ) :
    ReadsStream commands position count (aesdRead kernel count true position).1
      (aesdRead kernel count true position).2 := by
  have hsplit := evictedBytes_add_length commands
  by_cases hpast : (content commands).length ≤ position
  · rw [h.aesdRead_past hposition hpast]
    refine ⟨rfl, rfl, rfl, fun hinside ↦ absurd hinside (by omega), fun _ ↦ ?_⟩
    exact ⟨fun _ ↦ by omega, fun _ ↦ rfl⟩
  · obtain ⟨index, inner, hindex, rfl, hinner⟩ := exists_startOf (Nat.not_le.mp hpast)
    have hcommand : commands.length - maxWriteOperationsSupported + index < commands.length := by
      rw [heldCommands, length_window] at hindex
      omega
    have helement : (heldCommands commands)[index] =
        commands[commands.length - maxWriteOperationsSupported + index] :=
      getElem_window hindex hcommand
    have hstart := startOf_held commands index
    have hnext := startOf_succ hcommand
    rw [← helement] at hnext
    have hlength : (((heldCommands commands)[index].drop inner).take
        (min count ((heldCommands commands)[index].length - inner))).length =
          min count ((heldCommands commands)[index].length - inner) := by
      rw [List.length_take, List.length_drop]
      omega
    rw [h.aesdRead_inside hindex hinner, if_pos rfl]
    refine ⟨?_, ?_, ?_, fun _ ↦ ?_, fun hcount ↦ ?_⟩
    · dsimp only
      rw [hlength, ← Nat.add_assoc, hstart, take_drop_flatten hcommand, helement]
      rw [← helement]
      omega
    · dsimp only
      rw [hlength]
    · dsimp only
      rw [hlength]
    · refine ⟨_, hcommand, by omega, by omega, ?_⟩
      dsimp only
      rw [hlength]
      congr 1
      omega
    · dsimp only
      omega

/-- Every read that can copy returns a piece of the content from the position on, and nothing
only at its end. -/
theorem Stores.aesdRead_eq (h : Stores kernel commands) {position : ℕ}
    (hposition : position < 2 ^ 63) (count : ℕ) :
    ∃ piece : List UInt8, aesdRead kernel count true position =
        (⟨piece.length, piece, none⟩, ((position + piece.length : ℕ) : ℤ)) ∧
      piece <+: (content commands).drop position ∧ piece.length ≤ count ∧
      (0 < count → piece = [] → (content commands).length ≤ position) := by
  have hreads := h.readsStream hposition count
  have hsplit := evictedBytes_add_length commands
  have hcommitted := committed_aesdRead kernel count true position
  have hdata := hreads.data
  rw [← List.drop_drop, drop_evictedBytes] at hdata
  refine ⟨(aesdRead kernel count true position).1.data, ?_, ?_, ?_, ?_⟩
  · rw [← hreads.ret, ← hreads.advances, ← hcommitted]
  · rw [hdata]
    exact List.take_prefix _ _
  · by_cases hinside : evictedBytes commands + position < commands.flatten.length
    · obtain ⟨index, -, -, -, hlength⟩ := hreads.length_of_inside hinside
      rw [hlength]
      exact Nat.min_le_left _ _
    · have hpast : (content commands).drop position = [] := List.drop_eq_nil_iff.mpr (by omega)
      rw [hdata, hpast, List.take_nil]
      exact Nat.zero_le _
  · intro hcount hnil
    have hzero : (aesdRead kernel count true position).1.ret = 0 := by
      rw [hreads.ret, hnil]
      rfl
    have hpast := (hreads.zero_iff_past hcount).mp hzero
    omega

/-! ## File positions -/

def InRange (fPos : ℤ) : Prop := 0 ≤ fPos ∧ fPos < 2 ^ 63

theorem inRange_zero : InRange 0 := ⟨le_rfl, by decide⟩

theorem Stores.inRange_aesdRead (h : Stores kernel commands) {fPos : ℤ} (hfPos : InRange fPos)
    (count : ℕ) (copied : Bool) : InRange (aesdRead kernel count copied fPos).2 := by
  obtain ⟨position, rfl⟩ := Int.eq_ofNat_of_zero_le hfPos.1
  have hposition : position < 2 ^ 63 := by
    have hlt := hfPos.2
    omega
  by_cases hpast : (content commands).length ≤ position
  · rw [h.aesdRead_past hposition hpast]
    exact hfPos
  · obtain ⟨index, inner, hindex, rfl, hinner⟩ := exists_startOf (Nat.not_le.mp hpast)
    have hend := h.startOf_add_length_lt hindex
    rw [h.aesdRead_inside hindex hinner]
    unfold InRange at hfPos ⊢
    split
    · dsimp only
      omega
    · exact hfPos

theorem inRange_aesdLlseek (dev : AesdDev) {fPos : ℤ} (hfPos : InRange fPos) (offset : Int64)
    (whence : ℤ) : InRange (aesdLlseek dev fPos offset whence).2 := by
  have hoffset := offset.toInt_lt
  have hword : ∀ value, toI64 value < 2 ^ 63 := by
    intro value
    unfold toI64
    omega
  have hsought : ∀ {newPos : ℤ} (totalSize : ℕ), newPos < 2 ^ 63 →
      InRange (if newPos < 0 ∨ toU64 newPos > totalSize then (-einval, fPos)
        else (newPos, newPos)).2 := by
    intro newPos totalSize hnewPos
    split
    · exact hfPos
    · rename_i hrange
      exact ⟨Int.not_lt.mp fun hneg ↦ hrange (Or.inl hneg), hnewPos⟩
  unfold aesdLlseek
  by_cases hset : whence = seekSet
  · simp only [if_pos hset]
    exact hsought _ hoffset
  · by_cases hcur : whence = seekCur
    · simp only [if_neg hset, if_pos hcur]
      exact hsought _ (hword _)
    · by_cases hend : whence = seekEnd
      · simp only [if_neg hset, if_neg hcur, if_pos hend]
        exact hsought _ (hword _)
      · simp only [if_neg hset, if_neg hcur, if_neg hend]
        exact hfPos

theorem Stores.inRange_aesdIoctl (h : Stores kernel commands) {fPos : ℤ} (hfPos : InRange fPos)
    (cmd : ℕ) (arg : Option AesdSeekto) : InRange (aesdIoctl kernel.dev fPos cmd arg).2 := by
  by_cases hcmd : cmd = aesdcharIocseekto
  · subst hcmd
    cases arg with
    | none =>
      unfold aesdIoctl
      split_ifs <;> exact hfPos
    | some seekto =>
      rw [h.aesdIoctl_seekto]
      split
      · rename_i hfits
        have hoffset := seekto.writeCmdOffset.toNat_lt
        have hstart := h.startOf_add_length_lt hfits.1
        unfold InRange
        dsimp only
        omega
      · exact hfPos
  · unfold aesdIoctl
    simp only [if_neg hcmd]
    split_ifs <;> exact hfPos

end Read

/-- After every run the kernel implements the log and all file positions are in range. -/
theorem run_stores_inRange (calls : List Call) :
    Stores (device.run System.loaded calls).kernel (commits System.loaded calls) ∧
      ∀ file, InRange ((device.run System.loaded calls).fPos file) := by
  refine ⟨stores_run calls, ?_⟩
  have hupdate : ∀ {fPos : ℕ → ℤ} {file : ℕ} {value : ℤ}, (∀ file, InRange (fPos file)) →
      InRange value → ∀ other, InRange (Function.update fPos file value other) := by
    intro fPos file value hfPos hvalue other
    by_cases hfile : other = file
    · rw [hfile, Function.update_self]
      exact hvalue
    · rw [Function.update_of_ne hfile]
      exact hfPos other
  have hstep : ∀ (system : System) call, (∃ commands, Stores system.kernel commands) ∧
      (∀ file, InRange (system.fPos file)) →
        (∃ commands, Stores (device.next system call).kernel commands) ∧
          ∀ file, InRange ((device.next system call).fPos file) := by
    rintro system call ⟨⟨commands, hstores⟩, hfPos⟩
    refine ⟨⟨_, hstores.next call⟩, ?_⟩
    cases call with
    | write file call => exact hfPos
    | read file count copied => exact hupdate hfPos (hstores.inRange_aesdRead (hfPos file) _ _)
    | llseek file offset whence => exact hupdate hfPos (inRange_aesdLlseek _ (hfPos file) _ _)
    | ioctl file cmd arg => exact hupdate hfPos (hstores.inRange_aesdIoctl (hfPos file) _ _)
  exact (Machine.invariant_run hstep ⟨⟨[], Stores.loaded⟩, fun _ ↦ inRange_zero⟩ calls).2

/-- The calls other than `aesd_write`. -/
def Call.Reads : Call → Prop
  | .write _ _ => False
  | _ => True

/-- A call that is not a write leaves the kernel alone and commits nothing. -/
theorem Call.Reads.kernel_next {call : Call} (h : call.Reads) (system : System) :
    (device.next system call).kernel = system.kernel ∧
      (device.emit system call).committed = none := by
  cases call with
  | write file call => exact absurd h id
  | read file count copied =>
    refine ⟨rfl, ?_⟩
    rw [device_emit_read]
    exact committed_aesdRead _ _ _ _
  | llseek file offset whence => exact ⟨rfl, rfl⟩
  | ioctl file cmd arg => exact ⟨rfl, rfl⟩

/-- **The device is a stream with a moving base.** After every run of writes, reads, seeks and
requests on any files: a read of any file returns bytes of the sequence of all committed bytes,
counted from the first one that is still held, and moves that file's position only; so does a
read at any other position; and no call but a write changes the stream, its base or the pending
entry. -/
theorem reads_refine_stream (calls : List Call) :
    (∀ file count, ∃ fPos',
      ReadsStream (commits System.loaded calls)
        ((device.run System.loaded calls).fPos file).toNat count
        (device.emit (device.run System.loaded calls) (.read file count true)) fPos' ∧
      device.next (device.run System.loaded calls) (.read file count true) =
        { device.run System.loaded calls with
          fPos := Function.update (device.run System.loaded calls).fPos file fPos' }) ∧
    (∀ position count : ℕ, position < 2 ^ 63 →
      ReadsStream (commits System.loaded calls) position count
        (aesdRead (device.run System.loaded calls).kernel count true position).1
        (aesdRead (device.run System.loaded calls).kernel count true position).2) ∧
    (∀ call : Call, call.Reads →
      commits System.loaded (calls ++ [call]) = commits System.loaded calls ∧
      (device.run System.loaded (calls ++ [call])).kernel =
        (device.run System.loaded calls).kernel) := by
  obtain ⟨hstores, hrange⟩ := run_stores_inRange calls
  refine ⟨fun file count ↦ ⟨_, ?_, device_next_read _ file count true⟩,
    fun position count hposition ↦ hstores.readsStream hposition count, fun call hcall ↦ ?_⟩
  · obtain ⟨position, hposition⟩ := Int.eq_ofNat_of_zero_le (hrange file).1
    have hlt := (hrange file).2
    rw [device_emit_read, hposition, Int.toNat_natCast]
    exact hstores.readsStream (by omega) count
  · obtain ⟨hkernel, hcommitted⟩ := hcall.kernel_next (device.run System.loaded calls)
    constructor
    · rw [commits, Machine.collect_append, Machine.collect, Machine.collect, hcommitted]
      exact List.append_nil _
    · rw [Machine.run_append]
      exact hkernel

end Aesd.Driver
