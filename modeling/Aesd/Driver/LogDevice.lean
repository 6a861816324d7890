import Aesd.Driver.Faults
import Aesd.Driver.NewlineSearch
import Aesd.Driver.Range

/-!
# The device as its users see it

An abstract device without slots, blocks, offsets into a ring or machine words: the commands
written so far, the bytes behind the last of them, and a position for each file. A refused
allocation shows in it: of the bytes pending then only the number is left, and what comes next is
written behind as many bytes of whatever the new memory holds. So does a write of no bytes when none
are pending, which is never answered and after which the device answers no call that looks at its
log.
-/

namespace Aesd.Driver

open Foundation

/-! ## The log -/

/-- The commands completed so far and the bytes behind the last of them. -/
structure CommandLog where
  commands : List (List UInt8)
  pending : List UInt8
  /-- how many bytes are pending of which nothing is left but their number -/
  forgotten : ℕ

def CommandLog.empty : CommandLog := ⟨[], [], 0⟩

/-- These bytes complete a command: they contain a newline in front of any NUL. Where nothing at
all stops the search it goes on behind them, and `beyond` says what it finds there. -/
def EndsCommand (call : WriteCall) (bytes : List UInt8) : Prop :=
  newline ∈ stringOf nul bytes ∨
    call.accepted = call.buf.length ∧ newline ∉ bytes ∧ nul ∉ bytes ∧ call.beyond = true

instance (call : WriteCall) (bytes : List UInt8) : Decidable (EndsCommand call bytes) :=
  inferInstanceAs (Decidable (_ ∨ _))

/-- What stands in front of the bytes of a write: the pending bytes, or as many bytes of the new
memory as were forgotten. -/
def CommandLog.kept (log : CommandLog) (filler : ℕ → UInt8) : List UInt8 :=
  log.pending ++ (List.range log.forgotten).map filler

/-- A write adds what it accepts to the pending bytes, and may complete a command with them. -/
def CommandLog.write (log : CommandLog) (call : WriteCall) : CommandLog × Result :=
  let kept := log.kept call.filler
  let bytes := kept ++ call.buf.take call.accepted
  if call.served = true ∧ kept.length + call.buf.length ≤ kmallocLimit then
    if EndsCommand call bytes then
      (⟨log.commands ++ [bytes], [], 0⟩, ⟨call.accepted, [], some bytes⟩)
    else (⟨log.commands, bytes, 0⟩, Result.of call.accepted)
  else (⟨log.commands, [], kept.length⟩, Result.of (-enomem))

/-- A read gives bytes of one command, from the position on, and moves behind them. -/
def CommandLog.read (log : CommandLog) (position count : ℕ) (copied : Bool) : Result × ℕ :=
  let rest := restOf (heldCommands log.commands) position
  if rest = [] then (Result.of 0, position)
  else if copied then
    (⟨(rest.take count).length, rest.take count, none⟩, position + (rest.take count).length)
  else (Result.of (-efault), position)

/-- A seek moves to a sum inside the content or at its end. -/
def CommandLog.llseek (log : CommandLog) (position : ℕ) (offset whence : ℤ) : Result × ℕ :=
  match seekTarget (content log.commands).length position offset whence with
  | none => (Result.of (-einval), position)
  | some sum =>
    if 0 ≤ sum ∧ sum ≤ (content log.commands).length then (Result.of sum, sum.toNat)
    else (Result.of (-einval), position)

/-- The last of the commands whose number has this remainder. -/
def slotCommand (commands : List (List UInt8)) (slot : ℕ) : List UInt8 :=
  commands.getD
    (slot + maxWriteOperationsSupported *
      ((commands.length - 1 - slot) / maxWriteOperationsSupported)) []

/-- Where a seek request leads. The number counts from the oldest command held, while the offset
is checked against the command in the slot of this number. -/
def seekCommand (commands : List (List UInt8)) (seekto : AesdSeekto) : Option ℕ :=
  if seekto.writeCmd.toNat < (heldCommands commands).length ∧
      seekto.writeCmdOffset.toNat < (slotCommand commands seekto.writeCmd.toNat).length then
    some (startOf (heldCommands commands) seekto.writeCmd.toNat + seekto.writeCmdOffset.toNat)
  else none

/-- A request moves to a byte of a command. -/
def CommandLog.ioctl (log : CommandLog) (position cmd : ℕ) (arg : Option AesdSeekto) :
    Result × ℕ :=
  if cmd = aesdcharIocseekto then
    match arg with
    | none => (Result.of (-efault), position)
    | some seekto =>
      match seekCommand log.commands seekto with
      | none => (Result.of (-einval), position)
      | some position => (Result.of 0, position)
  else (Result.of (-enotty), position)

/-- The log under calls that bring their positions along. -/
def logOperations : Machine CommandLog Operation Return where
  step log operation :=
    let position := operation.fPos.toNat
    match operation.call with
    | .write _ call =>
      let (log, result) := log.write call
      (log, ⟨result, position⟩)
    | .read _ count copied =>
      let (result, position) := log.read position count copied
      (log, ⟨result, position⟩)
    | .llseek _ offset whence =>
      let (result, position) := log.llseek position offset.toInt whence
      (log, ⟨result, position⟩)
    | .ioctl _ cmd arg =>
      let (result, position) := log.ioctl position cmd arg
      (log, ⟨result, position⟩)

/-! ## The device -/

structure LogDevice where
  log : CommandLog
  position : ℕ → ℕ
  /-- whether a call that was never answered has blocked the log -/
  blocked : Bool

def LogDevice.empty : LogDevice := ⟨CommandLog.empty, fun _ ↦ 0, false⟩

/-- No bytes are brought to no pending bytes. -/
def Call.Stalls (log : CommandLog) : Call → Prop
  | .write _ call => call.buf = [] ∧ log.pending = [] ∧ log.forgotten = 0
  | _ => False

instance (log : CommandLog) : (call : Call) → Decidable (call.Stalls log)
  | .write _ call =>
    inferInstanceAs (Decidable (call.buf = [] ∧ log.pending = [] ∧ log.forgotten = 0))
  | .read .. => instDecidableFalse
  | .llseek .. => instDecidableFalse
  | .ioctl .. => instDecidableFalse

/-- The device under calls made one after the other. Requests that it does not know or cannot copy
it answers in any state. -/
def logDevice : Machine LogDevice Call (Option Result) where
  step device call :=
    let (log, returned) := logOperations.step device.log ⟨call, device.position call.file⟩
    if call.refused then (device, some returned.result)
    else if device.blocked then (device, none)
    else if call.Stalls device.log then ({ device with blocked := true }, none)
    else
      (⟨log, Function.update device.position call.file returned.fPos.toNat, false⟩,
        some returned.result)

end Aesd.Driver
