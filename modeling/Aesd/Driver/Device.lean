import Aesd.Driver.CircularBuffer
import Aesd.Driver.Kernel
import Aesd.Foundation.Machine

/-!
# The character device

The operations of `main.c` on the one device the module manages. A device holds the ring of
completed write commands and one entry for the command still being written; their bytes live in
kernel blocks. Every operation takes `dev->mtx` for its whole length, so operations of different
open files happen one after the other and a run of the device is a list of calls.

A call carries what its caller passes and what the kernel decides during it. Its result is what
the caller sees, together with the bytes of the entry that `aesd_write` handed to
`aesd_circular_buffer_add_entry`, if it did. The calls of the runs here are those that return. A
write of no bytes with none pending is not one of them: it faults under `dev->mtx`, and the machine
`driver` leaves it without an answer.
-/

namespace Aesd.Driver

open Foundation

/-- `struct aesd_dev`; the mutex is held by each operation throughout and left out. -/
structure AesdDev where
  /-- whether the character device is registered -/
  cdev : Bool
  circularBuffer : CircularBuffer
  /-- the command being written -/
  entry : BufferEntry

/-- The device and the blocks the kernel has given it. -/
structure Kernel where
  heap : Heap UInt8
  dev : AesdDev

/-- The arguments of one `aesd_write` and what the kernel decides during it. -/
structure WriteCall where
  /-- the user buffer; its length is `count` -/
  buf : List UInt8
  /-- whether the allocation is served -/
  served : Bool
  /-- what a reallocated block holds beyond its old contents -/
  filler : ℕ → UInt8
  /-- how many bytes `copy_from_user` leaves uncopied -/
  remain : ℕ
  /-- what the newline search reports when it runs past the end of the block -/
  beyond : Bool

/-- A write during which the kernel serves the allocation and copies the whole buffer, and in
which a search past the end of the block finds nothing. -/
def WriteCall.complete (buf : List UInt8) : WriteCall := ⟨buf, true, fun _ ↦ 0, 0, false⟩

structure AesdSeekto where
  writeCmd : UInt32
  writeCmdOffset : UInt32
deriving DecidableEq

/-- What an operation returns, the bytes it copies to the user, and the bytes it commits to the
ring. -/
structure Result where
  ret : ℤ
  data : List UInt8
  committed : Option (List UInt8)
deriving DecidableEq

def Result.of (ret : ℤ) : Result := ⟨ret, [], none⟩

/-! ## Module load and unload -/

def AesdDev.zeroed : AesdDev := ⟨false, aesdCircularBufferInit, BufferEntry.zero⟩

/-- `aesd_setup_cdev`, with the result of `cdev_add`. -/
def aesdSetupCdev (dev : AesdDev) (err : ℤ) : AesdDev × ℤ := ({ dev with cdev := err == 0 }, err)

/-- `aesd_init_module`, with the results of `alloc_chrdev_region` and `cdev_add`. -/
def aesdInitModule (dev : AesdDev) (region err : ℤ) : AesdDev × ℤ :=
  if region < 0 then (dev, region) else aesdSetupCdev AesdDev.zeroed err

/-- `aesd_cleanup_module`: the character device is removed and its number released. -/
def aesdCleanupModule (kernel : Kernel) : Kernel :=
  { kernel with dev := { kernel.dev with cdev := false } }

/-- The device after a successful `aesd_init_module`, with no block allocated yet. -/
def Kernel.loaded : Kernel := ⟨Heap.empty, (aesdInitModule AesdDev.zeroed 0 0).1⟩

/-! ## Reading and writing -/

/-- `aesd_read` at `*f_pos`; `copied` tells whether `copy_to_user` succeeds. -/
def aesdRead (kernel : Kernel) (count : ℕ) (copied : Bool) (fPos : ℤ) : Result × ℤ :=
  match aesdCircularBufferFindEntryOffsetForFpos kernel.dev.circularBuffer (toU64 fPos) with
  | none => (Result.of 0, fPos)
  | some (i, offset) =>
    let buffer := kernel.dev.circularBuffer.slot i
    let retval :=
      if count < subU64 buffer.size offset then count else subU64 buffer.size offset
    if copied then
      (⟨retval, ((kernel.heap.read buffer.buffptr).drop offset).take retval, none⟩,
        toI64 (fPos + retval))
    else (Result.of (-efault), fPos)

/-- `aesd_write`, its newline search being any function of the block. The sum passed to
`krealloc` cannot wrap: the kernel caps `count` and the size is that of a block. -/
def aesdWriteWith (newlineFound : List UInt8 → Bool) (call : WriteCall) (kernel : Kernel) :
    Kernel × Result :=
  let entry := kernel.dev.entry
  let count := call.buf.length
  let allocation :=
    if entry.size = 0 then kzalloc kernel.heap call.served count
    else krealloc kernel.heap call.served call.filler entry.buffptr (entry.size + count)
  match allocation with
  | (heap, none) =>
    ({ heap := heap, dev := { kernel.dev with entry := ⟨none, entry.size⟩ } },
      Result.of (-enomem))
  | (heap, some block) =>
    let remain := min call.remain count
    let heap := copyFromUser heap block entry.size call.buf remain
    let retval := if remain > 0 then count - remain else count
    let entry : BufferEntry := ⟨some block, entry.size + retval⟩
    if newlineFound (heap.read (some block)) then
      ({ heap := heap
         dev := { kernel.dev with
           circularBuffer := aesdCircularBufferAddEntry kernel.dev.circularBuffer entry
           entry := ⟨none, 0⟩ } },
        ⟨retval, [], some ((heap.read (some block)).take entry.size)⟩)
    else ({ heap := heap, dev := { kernel.dev with entry := entry } }, Result.of retval)

def aesdWrite (call : WriteCall) (kernel : Kernel) : Kernel × Result :=
  aesdWriteWith (strchrNewline call.beyond) call kernel

/-! ## Seeking -/

/-- The loop that adds up entry sizes, leaving after the slot written next unless the ring is
full. `aesd_llseek` runs it over all ten slots, `aesd_ioctl` over `write_cmd` of them. -/
def sizeLoop (buffer : CircularBuffer) : ℕ → ℕ → ℕ → ℕ
  | 0, _, total => total
  | steps + 1, i, total =>
    let total := addU64 total (buffer.slot i).size
    if i = buffer.inOffs ∧ buffer.full = false then total
    else sizeLoop buffer steps ((i + 1) % maxWriteOperationsSupported) total

/-- The loop of `aesd_ioctl` that counts the commands held. -/
def countLoop (buffer : CircularBuffer) : ℕ → ℕ → ℕ → ℕ
  | 0, _, count => count
  | steps + 1, i, count =>
    if i = buffer.inOffs ∧ buffer.full = false then count
    else countLoop buffer steps ((i + 1) % maxWriteOperationsSupported) (count + 1)

def seekSet : ℤ := 0
def seekCur : ℤ := 1
def seekEnd : ℤ := 2

/-- `aesd_llseek`: its return value and the file position it leaves. -/
def aesdLlseek (dev : AesdDev) (fPos : ℤ) (offset : Int64) (whence : ℤ) : ℤ × ℤ :=
  let totalSize :=
    sizeLoop dev.circularBuffer maxWriteOperationsSupported dev.circularBuffer.outOffs 0
  let newPos :=
    if whence = seekSet then some offset.toInt
    else if whence = seekCur then some (toI64 (fPos + offset.toInt))
    else if whence = seekEnd then some (toI64 (totalSize + offset.toInt))
    else none
  match newPos with
  | none => (-einval, fPos)
  | some newPos =>
    if newPos < 0 ∨ toU64 newPos > totalSize then (-einval, fPos) else (newPos, newPos)

def aesdIocMagic : ℕ := 0x16

def aesdcharIocMaxnr : ℕ := 1

def iocType (cmd : ℕ) : ℕ := cmd / 2 ^ 8 % 2 ^ 8

def iocNr (cmd : ℕ) : ℕ := cmd % 2 ^ 8

/-- `AESDCHAR_IOCSEEKTO`, that is `_IOWR(AESD_IOC_MAGIC, 1, struct aesd_seekto)`: direction,
size of the argument, type and number. -/
def aesdcharIocseekto : ℕ := 3 * 2 ^ 30 + 8 * 2 ^ 16 + aesdIocMagic * 2 ^ 8 + 1

/-- `aesd_ioctl`: its return value and the file position it leaves. The argument is `none` where
`copy_from_user` fails. -/
def aesdIoctl (dev : AesdDev) (fPos : ℤ) (cmd : ℕ) (arg : Option AesdSeekto) : ℤ × ℤ :=
  let buffer := dev.circularBuffer
  if iocType cmd ≠ aesdIocMagic then (-enotty, fPos)
  else if iocNr cmd > aesdcharIocMaxnr then (-enotty, fPos)
  else if cmd = aesdcharIocseekto then
    match arg with
    | none => (-efault, fPos)
    | some seekto =>
      let count := countLoop buffer maxWriteOperationsSupported buffer.outOffs 0
      if seekto.writeCmd.toNat ≥ count ∨
          (buffer.slot seekto.writeCmd.toNat).size ≤ seekto.writeCmdOffset.toNat then
        (-einval, fPos)
      else
        let newPos := sizeLoop buffer seekto.writeCmd.toNat buffer.outOffs 0
        (0, toI64 (addU64 newPos seekto.writeCmdOffset.toNat))
  else (-enotty, fPos)

/-! ## Runs of the device -/

/-- The kernel and the position of every file open on the device. -/
structure System where
  kernel : Kernel
  fPos : ℕ → ℤ

inductive Call where
  | write (file : ℕ) (call : WriteCall)
  | read (file count : ℕ) (copied : Bool)
  | llseek (file : ℕ) (offset : Int64) (whence : ℤ)
  | ioctl (file cmd : ℕ) (arg : Option AesdSeekto)

/-- The device under calls of any number of open files. -/
def device : Machine System Call Result where
  step system
    | .write _ call =>
      let (kernel, result) := aesdWrite call system.kernel
      ({ system with kernel := kernel }, result)
    | .read file count copied =>
      let (result, fPos) := aesdRead system.kernel count copied (system.fPos file)
      ({ system with fPos := Function.update system.fPos file fPos }, result)
    | .llseek file offset whence =>
      let (ret, fPos) := aesdLlseek system.kernel.dev (system.fPos file) offset whence
      ({ system with fPos := Function.update system.fPos file fPos }, Result.of ret)
    | .ioctl file cmd arg =>
      let (ret, fPos) := aesdIoctl system.kernel.dev (system.fPos file) cmd arg
      ({ system with fPos := Function.update system.fPos file fPos }, Result.of ret)

section Steps

variable (system : System)

theorem device_next_write (file : ℕ) (call : WriteCall) :
    device.next system (.write file call) =
      { system with kernel := (aesdWrite call system.kernel).1 } := rfl

theorem device_next_read (file count : ℕ) (copied : Bool) :
    device.next system (.read file count copied) =
      { system with
        fPos := Function.update system.fPos file
          (aesdRead system.kernel count copied (system.fPos file)).2 } := rfl

theorem device_emit_read (file count : ℕ) (copied : Bool) :
    device.emit system (.read file count copied) =
      (aesdRead system.kernel count copied (system.fPos file)).1 := rfl

theorem device_next_ioctl (file cmd : ℕ) (arg : Option AesdSeekto) :
    device.next system (.ioctl file cmd arg) =
      { system with
        fPos := Function.update system.fPos file
          (aesdIoctl system.kernel.dev (system.fPos file) cmd arg).2 } := rfl

theorem device_emit_ioctl (file cmd : ℕ) (arg : Option AesdSeekto) :
    device.emit system (.ioctl file cmd arg) =
      Result.of (aesdIoctl system.kernel.dev (system.fPos file) cmd arg).1 := rfl

end Steps

/-- The loaded module, every file open at its start. -/
def System.loaded : System := ⟨Kernel.loaded, fun _ ↦ 0⟩

end Aesd.Driver
