import Aesd.Driver.Device
import Aesd.Foundation.CriticalSection

/-!
# The operations statement by statement

The four operations as threads run them: one statement, or one round of a loop, in each step
between `mutex_lock` and `mutex_unlock`, every early return with the unlock in front of it. What
`aesd_ioctl` checks before it takes `dev->mtx`, it checks outside.

What the threads share under the mutex is the kernel's side of the device. The position a call works
at is its own: the file layer hands `aesd_read` and `aesd_write` a copy of `file->f_pos` made before
the call, and stores what they leave in it when they have returned, both outside `dev->mtx`;
`aesd_llseek` and `aesd_ioctl` find in `file->f_pos` whatever was stored last. So the position is an
argument, and what is left of it a part of the result.

Run without interruption each operation does in one piece what its definition says, or never comes
to its end: a write of no bytes that starts a command dies under the mutex.
-/

namespace Aesd.Driver

open Foundation

/-! ## The operations -/

def Call.file : Call → ℕ
  | .write file _ => file
  | .read file _ _ => file
  | .llseek file _ _ => file
  | .ioctl file _ _ => file

structure Operation where
  call : Call
  fPos : ℤ

structure Return where
  result : Result
  fPos : ℤ
deriving DecidableEq

def operations : Machine Kernel Operation Return where
  step kernel operation :=
    match operation.call with
    | .write _ call =>
      let (kernel, result) := aesdWrite call kernel
      (kernel, ⟨result, operation.fPos⟩)
    | .read _ count copied =>
      let (result, fPos) := aesdRead kernel count copied operation.fPos
      (kernel, ⟨result, fPos⟩)
    | .llseek _ offset whence =>
      let (ret, fPos) := aesdLlseek kernel.dev operation.fPos offset whence
      (kernel, ⟨Result.of ret, fPos⟩)
    | .ioctl _ cmd arg =>
      let (ret, fPos) := aesdIoctl kernel.dev operation.fPos cmd arg
      (kernel, ⟨Result.of ret, fPos⟩)

/-- Between calls made one after the other the positions are those of the open files. -/
theorem device_next_eq (system : System) (call : Call) :
    device.next system call =
      ⟨operations.next system.kernel ⟨call, system.fPos call.file⟩,
        Function.update system.fPos call.file
          (operations.emit system.kernel ⟨call, system.fPos call.file⟩).fPos⟩ := by
  cases call with
  | write file call =>
    simp only [Machine.next, Machine.emit, device, operations, Call.file, Function.update_eq_self]
  | read file count copied => rfl
  | llseek file offset whence => rfl
  | ioctl file cmd arg => rfl

theorem device_emit_eq (system : System) (call : Call) :
    device.emit system call =
      (operations.emit system.kernel ⟨call, system.fPos call.file⟩).result := by
  cases call with
  | write file call => rfl
  | read file count copied => rfl
  | llseek file offset whence => rfl
  | ioctl file cmd arg => rfl

/-! ## The statements -/

/-- `aesd_read` under the mutex. A loop carries how many of its rounds are left. -/
inductive ReadStatement where
  /-- `aesd_circular_buffer_find_entry_offset_for_fpos` is called -/
  | find
  | search (charOffset steps i boffset : ℕ)
  /-- `if (buffer == NULL)` -/
  | found (buffer : Option (ℕ × ℕ))
  | retval (i offset : ℕ)
  | copyToUser (i offset retval : ℕ)
  | advance (retval : ℕ) (data : List UInt8)

/-- `aesd_write` under the mutex, with the statements of `aesd_circular_buffer_add_entry`. -/
inductive WriteStatement where
  /-- `if (dev->entry.size == 0)` -/
  | size
  | kzalloc
  | krealloc
  /-- `if(dev->entry.buffptr == NULL)` -/
  | null
  | copyFromUser
  | grow (remain : ℕ)
  | strchr (retval : ℕ)
  | addEntry (retval : ℕ)
  | inOffs (result : Result)
  | outOffs (result : Result)
  | full (result : Result)
  | clearBuffptr (result : Result)
  | clearSize (result : Result)
  /-- `strchr` reads where no block is, and the thread dies with `dev->mtx` held -/
  | fault

/-- `aesd_llseek` under the mutex -/
inductive LlseekStatement where
  | start
  | total (steps i totalSize : ℕ)
  | switch (totalSize : ℕ)
  | check (totalSize : ℕ) (newPos : ℤ)
  | store (newPos : ℤ)

/-- `aesd_ioctl` under the mutex -/
inductive IoctlStatement where
  | start
  | count (steps i count : ℕ)
  | check (count : ℕ)
  | sum (steps i newPos : ℕ)
  | store (newPos : ℕ)

/-- Where a call stands under `dev->mtx`, with its arguments and local variables. -/
inductive Place where
  | read (fPos : ℤ) (count : ℕ) (copied : Bool) (statement : ReadStatement)
  | write (fPos : ℤ) (call : WriteCall) (statement : WriteStatement)
  | llseek (fPos : ℤ) (offset : Int64) (whence : ℤ) (statement : LlseekStatement)
  | ioctl (fPos : ℤ) (seekto : AesdSeekto) (statement : IoctlStatement)
  /-- `mutex_unlock` and `return` -/
  | leave (result : Result) (fPos : ℤ)

def Kernel.setEntry (kernel : Kernel) (entry : BufferEntry) : Kernel :=
  { kernel with dev := { kernel.dev with entry := entry } }

def Kernel.setBuffer (kernel : Kernel) (buffer : CircularBuffer) : Kernel :=
  { kernel with dev := { kernel.dev with circularBuffer := buffer } }

def Kernel.setHeap (kernel : Kernel) (heap : Heap UInt8) : Kernel := { kernel with heap := heap }

/-- The result of a write that hands its entry to the ring. -/
def Kernel.committing (kernel : Kernel) (retval : ℕ) : Result :=
  let entry := kernel.dev.entry
  ⟨retval, [], some ((kernel.heap.read entry.buffptr).take entry.size)⟩

def readStatement (kernel : Kernel) (fPos : ℤ) (count : ℕ) (copied : Bool) :
    ReadStatement → Kernel × CriticalSection.Outcome Place Return
  | .find =>
    (kernel, .goesOn (.read fPos count copied (.search (toU64 fPos)
      maxWriteOperationsSupported kernel.dev.circularBuffer.outOffs 0)))
  | .search _ 0 _ _ => (kernel, .goesOn (.read fPos count copied (.found none)))
  | .search charOffset (steps + 1) i boffset =>
    let next := addU64 boffset (kernel.dev.circularBuffer.slot i).size
    if charOffset < next then
      (kernel, .goesOn (.read fPos count copied (.found (some (i, subU64 charOffset boffset)))))
    else
      (kernel, .goesOn (.read fPos count copied
        (.search charOffset steps ((i + 1) % maxWriteOperationsSupported) next)))
  | .found none => (kernel, .goesOn (.leave (Result.of 0) fPos))
  | .found (some (i, offset)) => (kernel, .goesOn (.read fPos count copied (.retval i offset)))
  | .retval i offset =>
    let size := (kernel.dev.circularBuffer.slot i).size
    let retval := if count < subU64 size offset then count else subU64 size offset
    (kernel, .goesOn (.read fPos count copied (.copyToUser i offset retval)))
  | .copyToUser i offset retval =>
    let block := kernel.heap.read (kernel.dev.circularBuffer.slot i).buffptr
    if copied then
      (kernel,
        .goesOn (.read fPos count copied (.advance retval ((block.drop offset).take retval))))
    else (kernel, .goesOn (.leave (Result.of (-efault)) fPos))
  | .advance retval data =>
    (kernel, .goesOn (.leave ⟨retval, data, none⟩ (toI64 (fPos + retval))))

def writeStatement (kernel : Kernel) (fPos : ℤ) (call : WriteCall) :
    WriteStatement → Kernel × CriticalSection.Outcome Place Return
  | .size =>
    if kernel.dev.entry.size = 0 then (kernel, .goesOn (.write fPos call .kzalloc))
    else (kernel, .goesOn (.write fPos call .krealloc))
  | .kzalloc =>
    if call.buf = [] then
      -- for no bytes `kzalloc` returns ZERO_SIZE_PTR, whatever the memory: no block, and not NULL
      (kernel.setEntry ⟨none, kernel.dev.entry.size⟩, .goesOn (.write fPos call .fault))
    else
      let allocation := kzalloc kernel.heap call.served call.buf.length
      ((kernel.setHeap allocation.1).setEntry ⟨allocation.2, kernel.dev.entry.size⟩,
        .goesOn (.write fPos call .null))
  | .krealloc =>
    let entry := kernel.dev.entry
    let allocation := krealloc kernel.heap call.served call.filler entry.buffptr
      (entry.size + call.buf.length)
    ((kernel.setHeap allocation.1).setEntry ⟨allocation.2, entry.size⟩,
      .goesOn (.write fPos call .null))
  | .null =>
    match kernel.dev.entry.buffptr with
    | none => (kernel, .goesOn (.leave (Result.of (-enomem)) fPos))
    | some _ => (kernel, .goesOn (.write fPos call .copyFromUser))
  | .copyFromUser =>
    let entry := kernel.dev.entry
    let remain := min call.remain call.buf.length
    let heap := entry.buffptr.elim kernel.heap fun block ↦
      copyFromUser kernel.heap block entry.size call.buf remain
    (kernel.setHeap heap, .goesOn (.write fPos call (.grow remain)))
  | .grow remain =>
    let entry := kernel.dev.entry
    let retval := if remain > 0 then call.buf.length - remain else call.buf.length
    (kernel.setEntry ⟨entry.buffptr, entry.size + retval⟩,
      .goesOn (.write fPos call (.strchr retval)))
  | .strchr retval =>
    if strchrNewline call.beyond (kernel.heap.read kernel.dev.entry.buffptr) then
      (kernel, .goesOn (.write fPos call (.addEntry retval)))
    else (kernel, .goesOn (.leave (Result.of retval) fPos))
  | .addEntry retval =>
    let buffer := kernel.dev.circularBuffer
    (kernel.setBuffer (buffer.setSlot buffer.inOffs kernel.dev.entry),
      .goesOn (.write fPos call (.inOffs (kernel.committing retval))))
  | .inOffs result =>
    let buffer := kernel.dev.circularBuffer
    let inOffs := (buffer.inOffs + 1) % maxWriteOperationsSupported
    (kernel.setBuffer { buffer with inOffs := inOffs },
      .goesOn (.write fPos call (.outOffs result)))
  | .outOffs result =>
    let buffer := kernel.dev.circularBuffer
    let outOffs :=
      if buffer.full then (buffer.outOffs + 1) % maxWriteOperationsSupported else buffer.outOffs
    (kernel.setBuffer { buffer with outOffs := outOffs }, .goesOn (.write fPos call (.full result)))
  | .full result =>
    let buffer := kernel.dev.circularBuffer
    let full := buffer.inOffs == buffer.outOffs
    (kernel.setBuffer { buffer with full := full },
      .goesOn (.write fPos call (.clearBuffptr result)))
  | .clearBuffptr result =>
    (kernel.setEntry ⟨none, kernel.dev.entry.size⟩,
      .goesOn (.write fPos call (.clearSize result)))
  | .clearSize result =>
    (kernel.setEntry ⟨kernel.dev.entry.buffptr, 0⟩, .goesOn (.leave result fPos))
  | .fault => (kernel, .goesOn (.write fPos call .fault))

def llseekStatement (kernel : Kernel) (fPos : ℤ) (offset : Int64) (whence : ℤ) :
    LlseekStatement → Kernel × CriticalSection.Outcome Place Return
  | .start =>
    (kernel, .goesOn (.llseek fPos offset whence
      (.total maxWriteOperationsSupported kernel.dev.circularBuffer.outOffs 0)))
  | .total 0 _ totalSize => (kernel, .goesOn (.llseek fPos offset whence (.switch totalSize)))
  | .total (steps + 1) i totalSize =>
    let buffer := kernel.dev.circularBuffer
    let totalSize := addU64 totalSize (buffer.slot i).size
    if i = buffer.inOffs ∧ buffer.full = false then
      (kernel, .goesOn (.llseek fPos offset whence (.switch totalSize)))
    else
      (kernel, .goesOn (.llseek fPos offset whence
        (.total steps ((i + 1) % maxWriteOperationsSupported) totalSize)))
  | .switch totalSize =>
    if whence = seekSet then
      (kernel, .goesOn (.llseek fPos offset whence (.check totalSize offset.toInt)))
    else if whence = seekCur then
      (kernel, .goesOn (.llseek fPos offset whence
        (.check totalSize (toI64 (fPos + offset.toInt)))))
    else if whence = seekEnd then
      (kernel, .goesOn (.llseek fPos offset whence
        (.check totalSize (toI64 (totalSize + offset.toInt)))))
    else (kernel, .goesOn (.leave (Result.of (-einval)) fPos))
  | .check totalSize newPos =>
    if newPos < 0 ∨ toU64 newPos > totalSize then
      (kernel, .goesOn (.leave (Result.of (-einval)) fPos))
    else (kernel, .goesOn (.llseek fPos offset whence (.store newPos)))
  | .store newPos => (kernel, .goesOn (.leave (Result.of newPos) newPos))

def ioctlStatement (kernel : Kernel) (fPos : ℤ) (seekto : AesdSeekto) :
    IoctlStatement → Kernel × CriticalSection.Outcome Place Return
  | .start =>
    (kernel, .goesOn (.ioctl fPos seekto
      (.count maxWriteOperationsSupported kernel.dev.circularBuffer.outOffs 0)))
  | .count 0 _ count => (kernel, .goesOn (.ioctl fPos seekto (.check count)))
  | .count (steps + 1) i count =>
    let buffer := kernel.dev.circularBuffer
    if i = buffer.inOffs ∧ buffer.full = false then
      (kernel, .goesOn (.ioctl fPos seekto (.check count)))
    else
      (kernel, .goesOn (.ioctl fPos seekto
        (.count steps ((i + 1) % maxWriteOperationsSupported) (count + 1))))
  | .check count =>
    let buffer := kernel.dev.circularBuffer
    if seekto.writeCmd.toNat ≥ count ∨
        (buffer.slot seekto.writeCmd.toNat).size ≤ seekto.writeCmdOffset.toNat then
      (kernel, .goesOn (.leave (Result.of (-einval)) fPos))
    else (kernel, .goesOn (.ioctl fPos seekto (.sum seekto.writeCmd.toNat buffer.outOffs 0)))
  | .sum 0 _ newPos => (kernel, .goesOn (.ioctl fPos seekto (.store newPos)))
  | .sum (steps + 1) i newPos =>
    let buffer := kernel.dev.circularBuffer
    let newPos := addU64 newPos (buffer.slot i).size
    if i = buffer.inOffs ∧ buffer.full = false then
      (kernel, .goesOn (.ioctl fPos seekto (.store newPos)))
    else
      (kernel, .goesOn (.ioctl fPos seekto
        (.sum steps ((i + 1) % maxWriteOperationsSupported) newPos)))
  | .store newPos =>
    (kernel,
      .goesOn (.leave (Result.of 0) (toI64 (addU64 newPos seekto.writeCmdOffset.toNat))))

/-- What a call does before it asks for `dev->mtx`. -/
def enterCall (operation : Operation) : Place ⊕ Return :=
  let fPos := operation.fPos
  match operation.call with
  | .write _ call => .inl (.write fPos call .size)
  | .read _ count copied => .inl (.read fPos count copied .find)
  | .llseek _ offset whence => .inl (.llseek fPos offset whence .start)
  | .ioctl _ cmd arg =>
    if iocType cmd ≠ aesdIocMagic then .inr ⟨Result.of (-enotty), fPos⟩
    else if iocNr cmd > aesdcharIocMaxnr then .inr ⟨Result.of (-enotty), fPos⟩
    else if cmd = aesdcharIocseekto then
      match arg with
      | none => .inr ⟨Result.of (-efault), fPos⟩
      | some seekto => .inl (.ioctl fPos seekto .start)
    else .inr ⟨Result.of (-enotty), fPos⟩

/-- The driver's code around and under `dev->mtx`. -/
def statements : CriticalSection Kernel Operation Place Return where
  enter := enterCall
  step kernel
    | .read fPos count copied statement => readStatement kernel fPos count copied statement
    | .write fPos call statement => writeStatement kernel fPos call statement
    | .llseek fPos offset whence statement => llseekStatement kernel fPos offset whence statement
    | .ioctl fPos seekto statement => ioctlStatement kernel fPos seekto statement
    | .leave result fPos => (kernel, .releases ⟨result, fPos⟩)

/-- The call comes to search a string where no block is: it is a write of no bytes that finds no
bytes pending. -/
def Call.Faults (kernel : Kernel) : Call → Prop
  | .write _ call => call.buf = [] ∧ kernel.dev.entry.size = 0
  | _ => False

instance (kernel : Kernel) : (call : Call) → Decidable (call.Faults kernel)
  | .write _ call => inferInstanceAs (Decidable (call.buf = [] ∧ kernel.dev.entry.size = 0))
  | .read .. => instDecidableFalse
  | .llseek .. => instDecidableFalse
  | .ioctl .. => instDecidableFalse

/-! ## One call without interruption -/

section Whole

variable {kernel kernel' : Kernel} {result : Return}

theorem completes_leave (kernel : Kernel) (result : Result) (fPos : ℤ) :
    statements.Completes kernel (.leave result fPos) kernel ⟨result, fPos⟩ := .last rfl

/-- The search loop ends with what `findLoop` finds. -/
theorem completes_search_iff (fPos : ℤ) (count : ℕ) (copied : Bool)
    (charOffset steps i boffset : ℕ) :
    statements.Completes kernel (.read fPos count copied (.search charOffset steps i boffset))
        kernel' result ↔
      statements.Completes kernel (.read fPos count copied
        (.found (findLoop kernel.dev.circularBuffer charOffset steps i boffset)))
        kernel' result := by
  induction steps generalizing i boffset with
  | zero => exact CriticalSection.completes_step_iff rfl
  | succ steps ih =>
    by_cases hfound : charOffset < addU64 boffset (kernel.dev.circularBuffer.slot i).size
    · rw [findLoop, if_pos hfound]
      apply CriticalSection.completes_step_iff
      simp only [statements, readStatement, if_pos hfound]
    · rw [findLoop, if_neg hfound, ← ih]
      apply CriticalSection.completes_step_iff
      simp only [statements, readStatement, if_neg hfound]

/-- The loop of `aesd_llseek` ends with what `sizeLoop` adds up. -/
theorem completes_total_iff (fPos : ℤ) (offset : Int64) (whence : ℤ) (steps i totalSize : ℕ) :
    statements.Completes kernel (.llseek fPos offset whence (.total steps i totalSize))
        kernel' result ↔
      statements.Completes kernel (.llseek fPos offset whence
        (.switch (sizeLoop kernel.dev.circularBuffer steps i totalSize))) kernel' result := by
  induction steps generalizing i totalSize with
  | zero => exact CriticalSection.completes_step_iff rfl
  | succ steps ih =>
    by_cases hleaves : i = kernel.dev.circularBuffer.inOffs ∧
        kernel.dev.circularBuffer.full = false
    · rw [sizeLoop, if_pos hleaves]
      apply CriticalSection.completes_step_iff
      simp only [statements, llseekStatement, if_pos hleaves]
    · rw [sizeLoop, if_neg hleaves, ← ih]
      apply CriticalSection.completes_step_iff
      simp only [statements, llseekStatement, if_neg hleaves]

theorem completes_sum_iff (fPos : ℤ) (seekto : AesdSeekto) (steps i newPos : ℕ) :
    statements.Completes kernel (.ioctl fPos seekto (.sum steps i newPos)) kernel' result ↔
      statements.Completes kernel (.ioctl fPos seekto
        (.store (sizeLoop kernel.dev.circularBuffer steps i newPos))) kernel' result := by
  induction steps generalizing i newPos with
  | zero => exact CriticalSection.completes_step_iff rfl
  | succ steps ih =>
    by_cases hleaves : i = kernel.dev.circularBuffer.inOffs ∧
        kernel.dev.circularBuffer.full = false
    · rw [sizeLoop, if_pos hleaves]
      apply CriticalSection.completes_step_iff
      simp only [statements, ioctlStatement, if_pos hleaves]
    · rw [sizeLoop, if_neg hleaves, ← ih]
      apply CriticalSection.completes_step_iff
      simp only [statements, ioctlStatement, if_neg hleaves]

/-- The first loop of `aesd_ioctl` ends with what `countLoop` counts. -/
theorem completes_count_iff (fPos : ℤ) (seekto : AesdSeekto) (steps i count : ℕ) :
    statements.Completes kernel (.ioctl fPos seekto (.count steps i count)) kernel' result ↔
      statements.Completes kernel (.ioctl fPos seekto
        (.check (countLoop kernel.dev.circularBuffer steps i count))) kernel' result := by
  induction steps generalizing i count with
  | zero => exact CriticalSection.completes_step_iff rfl
  | succ steps ih =>
    by_cases hleaves : i = kernel.dev.circularBuffer.inOffs ∧
        kernel.dev.circularBuffer.full = false
    · rw [countLoop, if_pos hleaves]
      apply CriticalSection.completes_step_iff
      simp only [statements, ioctlStatement, if_pos hleaves]
    · rw [countLoop, if_neg hleaves, ← ih]
      apply CriticalSection.completes_step_iff
      simp only [statements, ioctlStatement, if_neg hleaves]

theorem completes_read (kernel : Kernel) (fPos : ℤ) (count : ℕ) (copied : Bool) :
    statements.Completes kernel (.read fPos count copied .find) kernel
      ⟨(aesdRead kernel count copied fPos).1, (aesdRead kernel count copied fPos).2⟩ := by
  rw [aesdRead, aesdCircularBufferFindEntryOffsetForFpos]
  refine .next rfl ((completes_search_iff ..).mpr ?_)
  cases findLoop kernel.dev.circularBuffer (toU64 fPos) maxWriteOperationsSupported
      kernel.dev.circularBuffer.outOffs 0 with
  | none => exact .next rfl (completes_leave kernel (Result.of 0) fPos)
  | some found =>
    obtain ⟨i, offset⟩ := found
    refine .next rfl (.next rfl ?_)
    cases copied with
    | true => exact .next rfl (.next rfl (completes_leave _ _ _))
    | false => exact .next rfl (completes_leave kernel (Result.of (-efault)) fPos)

/-- The block a write asks the kernel for, from whichever branch. -/
def allocationOf (call : WriteCall) (kernel : Kernel) : Heap UInt8 × Option ℕ :=
  if kernel.dev.entry.size = 0 then kzalloc kernel.heap call.served call.buf.length
  else krealloc kernel.heap call.served call.filler kernel.dev.entry.buffptr
    (kernel.dev.entry.size + call.buf.length)

theorem completes_size_iff (fPos : ℤ) {call : WriteCall}
    (hbytes : ¬ (call.buf = [] ∧ kernel.dev.entry.size = 0)) :
    statements.Completes kernel (.write fPos call .size) kernel' result ↔
      statements.Completes ((kernel.setHeap (allocationOf call kernel).1).setEntry
          ⟨(allocationOf call kernel).2, kernel.dev.entry.size⟩)
        (.write fPos call .null) kernel' result := by
  by_cases hsize : kernel.dev.entry.size = 0
  · have hbranch : statements.step kernel (.write fPos call .size) =
        (kernel, .goesOn (.write fPos call .kzalloc)) := if_pos hsize
    rw [CriticalSection.completes_step_iff hbranch, allocationOf, if_pos hsize]
    exact CriticalSection.completes_step_iff (if_neg fun hempty ↦ hbytes ⟨hempty, hsize⟩)
  · have hbranch : statements.step kernel (.write fPos call .size) =
        (kernel, .goesOn (.write fPos call .krealloc)) := if_neg hsize
    rw [CriticalSection.completes_step_iff hbranch, allocationOf, if_neg hsize]
    exact CriticalSection.completes_step_iff rfl

/-- `aesd_circular_buffer_add_entry`, and the pending entry cleared behind it. -/
theorem completes_addEntry (kernel : Kernel) (fPos : ℤ) (call : WriteCall) (retval : ℕ) :
    statements.Completes kernel (.write fPos call (.addEntry retval))
      ((kernel.setBuffer (aesdCircularBufferAddEntry kernel.dev.circularBuffer
        kernel.dev.entry)).setEntry ⟨none, 0⟩) ⟨kernel.committing retval, fPos⟩ :=
  .next rfl (.next rfl (.next rfl (.next rfl (.next rfl (.next rfl (completes_leave _ _ _))))))

theorem completes_write (fPos : ℤ) {call : WriteCall}
    (hbytes : ¬ (call.buf = [] ∧ kernel.dev.entry.size = 0)) :
    statements.Completes kernel (.write fPos call .size) (aesdWrite call kernel).1
      ⟨(aesdWrite call kernel).2, fPos⟩ := by
  rw [aesdWrite, aesdWriteWith]
  refine (completes_size_iff fPos hbytes).mpr ?_
  rcases hallocation : allocationOf call kernel with ⟨heap, pointer⟩
  rw [allocationOf] at hallocation
  simp only [hallocation]
  cases pointer with
  | none => exact .next rfl (completes_leave _ (Result.of (-enomem)) fPos)
  | some block =>
    refine .next rfl (.next rfl (.next rfl ?_))
    by_cases hfound : strchrNewline call.beyond ((copyFromUser heap block
        kernel.dev.entry.size call.buf (min call.remain call.buf.length)).read
          (some block)) = true
    · simp only [if_pos hfound]
      exact .next (if_pos hfound) (completes_addEntry _ fPos call _)
    · simp only [if_neg hfound]
      exact .next (if_neg hfound) (completes_leave _ _ fPos)

/-- A write of no bytes that finds none pending does not come to its end. -/
theorem not_completes_write (fPos : ℤ) {call : WriteCall} (hempty : call.buf = [])
    (hsize : kernel.dev.entry.size = 0) (kernel' : Kernel) (result : Return) :
    ¬ statements.Completes kernel (.write fPos call .size) kernel' result := by
  have hbranch : statements.step kernel (.write fPos call .size) =
      (kernel, .goesOn (.write fPos call .kzalloc)) := if_pos hsize
  have hzero : statements.step kernel (.write fPos call .kzalloc) =
      (kernel.setEntry ⟨none, kernel.dev.entry.size⟩, .goesOn (.write fPos call .fault)) :=
    if_pos hempty
  rw [CriticalSection.completes_step_iff hbranch, CriticalSection.completes_step_iff hzero]
  exact CriticalSection.not_completes_of_waits rfl

theorem completes_llseek (kernel : Kernel) (fPos : ℤ) (offset : Int64) (whence : ℤ) :
    statements.Completes kernel (.llseek fPos offset whence .start) kernel
      ⟨Result.of (aesdLlseek kernel.dev fPos offset whence).1,
        (aesdLlseek kernel.dev fPos offset whence).2⟩ := by
  refine .next rfl ((completes_total_iff ..).mpr ?_)
  rw [aesdLlseek]
  generalize sizeLoop kernel.dev.circularBuffer maxWriteOperationsSupported
    kernel.dev.circularBuffer.outOffs 0 = totalSize
  have hcheck : ∀ newPos, statements.Completes kernel
      (.llseek fPos offset whence (.check totalSize newPos)) kernel
      ⟨Result.of (if newPos < 0 ∨ toU64 newPos > totalSize then (-einval, fPos)
          else (newPos, newPos)).1,
        (if newPos < 0 ∨ toU64 newPos > totalSize then (-einval, fPos)
          else (newPos, newPos)).2⟩ := by
    intro newPos
    by_cases hbad : newPos < 0 ∨ toU64 newPos > totalSize
    · rw [if_pos hbad]
      exact .next (if_pos hbad) (completes_leave _ _ _)
    · rw [if_neg hbad]
      exact .next (if_neg hbad) (.next rfl (completes_leave _ _ _))
  by_cases hset : whence = seekSet
  · simp only [if_pos hset]
    exact .next (if_pos hset) (hcheck _)
  · by_cases hcur : whence = seekCur
    · simp only [if_neg hset, if_pos hcur]
      exact .next ((if_neg hset).trans (if_pos hcur)) (hcheck _)
    · by_cases hend : whence = seekEnd
      · simp only [if_neg hset, if_neg hcur, if_pos hend]
        exact .next ((if_neg hset).trans ((if_neg hcur).trans (if_pos hend))) (hcheck _)
      · simp only [if_neg hset, if_neg hcur, if_neg hend]
        exact .next ((if_neg hset).trans ((if_neg hcur).trans (if_neg hend)))
          (completes_leave _ _ _)

/-- `aesd_ioctl` takes the mutex only for a request it knows and could copy. -/
theorem enterCall_ioctl_eq_inl {file cmd : ℕ} {arg : Option AesdSeekto} {fPos : ℤ}
    {start : Place} (henter : enterCall ⟨.ioctl file cmd arg, fPos⟩ = .inl start) :
    ¬ iocType cmd ≠ aesdIocMagic ∧ ¬ iocNr cmd > aesdcharIocMaxnr ∧ cmd = aesdcharIocseekto ∧
      ∃ seekto, arg = some seekto ∧ start = .ioctl fPos seekto .start := by
  simp only [enterCall] at henter
  by_cases htype : iocType cmd ≠ aesdIocMagic
  · simp only [if_pos htype, reduceCtorEq] at henter
  by_cases hnr : iocNr cmd > aesdcharIocMaxnr
  · simp only [if_neg htype, if_pos hnr, reduceCtorEq] at henter
  by_cases hcmd : cmd = aesdcharIocseekto
  · simp only [if_neg htype, if_neg hnr, if_pos hcmd] at henter
    cases arg with
    | none => exact absurd henter (by simp)
    | some seekto => exact ⟨htype, hnr, hcmd, seekto, rfl, (Sum.inl.inj henter).symm⟩
  · simp only [if_neg htype, if_neg hnr, if_neg hcmd, reduceCtorEq] at henter

/-- Where it does not, it has returned an error and changed nothing. -/
theorem aesdIoctl_of_enterCall {file cmd : ℕ} {arg : Option AesdSeekto} {fPos : ℤ}
    {result : Return} (henter : enterCall ⟨.ioctl file cmd arg, fPos⟩ = .inr result)
    (dev : AesdDev) :
    ∃ ret, aesdIoctl dev fPos cmd arg = (ret, fPos) ∧ result = ⟨Result.of ret, fPos⟩ := by
  simp only [enterCall] at henter
  simp only [aesdIoctl]
  by_cases htype : iocType cmd ≠ aesdIocMagic
  · rw [if_pos htype] at henter ⊢
    exact ⟨-enotty, rfl, (Sum.inr.inj henter).symm⟩
  by_cases hnr : iocNr cmd > aesdcharIocMaxnr
  · rw [if_neg htype, if_pos hnr] at henter ⊢
    exact ⟨-enotty, rfl, (Sum.inr.inj henter).symm⟩
  by_cases hcmd : cmd = aesdcharIocseekto
  · rw [if_neg htype, if_neg hnr, if_pos hcmd] at henter ⊢
    cases arg with
    | none => exact ⟨-efault, rfl, (Sum.inr.inj henter).symm⟩
    | some seekto => exact absurd henter (by simp)
  · rw [if_neg htype, if_neg hnr, if_neg hcmd] at henter ⊢
    exact ⟨-enotty, rfl, (Sum.inr.inj henter).symm⟩

theorem completes_ioctl {file cmd : ℕ} {arg : Option AesdSeekto} {fPos : ℤ} {start : Place}
    (henter : enterCall ⟨.ioctl file cmd arg, fPos⟩ = .inl start) (kernel : Kernel) :
    statements.Completes kernel start kernel
      ⟨Result.of (aesdIoctl kernel.dev fPos cmd arg).1,
        (aesdIoctl kernel.dev fPos cmd arg).2⟩ := by
  obtain ⟨htype, hnr, hcmd, seekto, rfl, rfl⟩ := enterCall_ioctl_eq_inl henter
  rw [aesdIoctl]
  simp only [if_neg htype, if_neg hnr, if_pos hcmd]
  refine .next rfl ((completes_count_iff ..).mpr ?_)
  by_cases hbad : seekto.writeCmd.toNat ≥ countLoop kernel.dev.circularBuffer
        maxWriteOperationsSupported kernel.dev.circularBuffer.outOffs 0 ∨
      (kernel.dev.circularBuffer.slot seekto.writeCmd.toNat).size ≤
        seekto.writeCmdOffset.toNat
  · simp only [if_pos hbad]
    exact .next (if_pos hbad) (completes_leave _ _ _)
  · simp only [if_neg hbad]
    refine .next (if_neg hbad) ((completes_sum_iff ..).mpr ?_)
    exact .next rfl (completes_leave _ _ _)

/-- Run without interruption, an operation that does not fault does in one piece what it is defined
to do. -/
theorem completes_operation {operation : Operation} {start : Place}
    (henter : enterCall operation = .inl start) (hsound : ¬ operation.call.Faults kernel) :
    statements.Completes kernel start (operations.next kernel operation)
      (operations.emit kernel operation) := by
  obtain ⟨call, fPos⟩ := operation
  cases call with
  | write file call =>
    obtain rfl := Sum.inl.inj henter
    exact completes_write fPos hsound
  | read file count copied =>
    obtain rfl := Sum.inl.inj henter
    exact completes_read kernel fPos count copied
  | llseek file offset whence =>
    obtain rfl := Sum.inl.inj henter
    exact completes_llseek kernel fPos offset whence
  | ioctl file cmd arg => exact completes_ioctl henter kernel

theorem not_completes_of_faults {operation : Operation} {start : Place}
    (henter : enterCall operation = .inl start) (hfaults : operation.call.Faults kernel)
    (kernel' : Kernel) (result : Return) :
    ¬ statements.Completes kernel start kernel' result := by
  obtain ⟨call, fPos⟩ := operation
  cases call with
  | write file call =>
    obtain rfl := Sum.inl.inj henter
    exact not_completes_write fPos hfaults.1 hfaults.2 kernel' result
  | read file count copied => exact hfaults.elim
  | llseek file offset whence => exact hfaults.elim
  | ioctl file cmd arg => exact hfaults.elim

/-- So an operation comes to its end exactly if it does not fault. -/
theorem exists_completes_iff {operation : Operation} {start : Place}
    (henter : enterCall operation = .inl start) (kernel : Kernel) :
    (∃ kernel' result, statements.Completes kernel start kernel' result) ↔
      ¬ operation.call.Faults kernel := by
  constructor
  · rintro ⟨kernel', result, hcompletes⟩ hfaults
    exact not_completes_of_faults henter hfaults kernel' result hcompletes
  · exact fun hsound ↦ ⟨_, _, completes_operation henter hsound⟩

/-- A call that faults does so under the mutex. -/
theorem exists_enterCall_of_faults {operation : Operation}
    (hfaults : operation.call.Faults kernel) : ∃ start, enterCall operation = .inl start := by
  obtain ⟨call, fPos⟩ := operation
  cases call with
  | write file call => exact ⟨_, rfl⟩
  | read file count copied => exact hfaults.elim
  | llseek file offset whence => exact hfaults.elim
  | ioctl file cmd arg => exact hfaults.elim

theorem statements_whole : statements.Whole operations := by
  refine .of_exists (fun kernel operation result henter ↦ ?_)
    fun kernel operation start henter ↦ ?_
  · obtain ⟨call, fPos⟩ := operation
    cases call with
    | write file call => exact absurd henter Sum.inl_ne_inr
    | read file count copied => exact absurd henter Sum.inl_ne_inr
    | llseek file offset whence => exact absurd henter Sum.inl_ne_inr
    | ioctl file cmd arg =>
      obtain ⟨ret, hioctl, rfl⟩ := aesdIoctl_of_enterCall henter kernel.dev
      simp only [operations, hioctl]
  · by_cases hfaults : operation.call.Faults kernel
    · exact Or.inr fun kernel' result ↦ not_completes_of_faults henter hfaults kernel' result
    · exact Or.inl (completes_operation henter hfaults)

/-! ### Every return has the unlock in front of it -/

theorem readStatement_goesOn (kernel : Kernel) (fPos : ℤ) (count : ℕ) (copied : Bool)
    (statement : ReadStatement) :
    ∃ place, (readStatement kernel fPos count copied statement).2 = .goesOn place := by
  fun_cases readStatement kernel fPos count copied statement <;> exact ⟨_, rfl⟩

theorem writeStatement_goesOn (kernel : Kernel) (fPos : ℤ) (call : WriteCall)
    (statement : WriteStatement) :
    ∃ place, (writeStatement kernel fPos call statement).2 = .goesOn place := by
  fun_cases writeStatement kernel fPos call statement <;> exact ⟨_, rfl⟩

theorem llseekStatement_goesOn (kernel : Kernel) (fPos : ℤ) (offset : Int64) (whence : ℤ)
    (statement : LlseekStatement) :
    ∃ place, (llseekStatement kernel fPos offset whence statement).2 = .goesOn place := by
  fun_cases llseekStatement kernel fPos offset whence statement <;> exact ⟨_, rfl⟩

theorem ioctlStatement_goesOn (kernel : Kernel) (fPos : ℤ) (seekto : AesdSeekto)
    (statement : IoctlStatement) :
    ∃ place, (ioctlStatement kernel fPos seekto statement).2 = .goesOn place := by
  fun_cases ioctlStatement kernel fPos seekto statement <;> exact ⟨_, rfl⟩

theorem statements_ne_forgets (kernel : Kernel) (place : Place) (kernel' : Kernel)
    (result : Return) : statements.step kernel place ≠ (kernel', .forgets result) := by
  have hgoes : ∀ {step : Kernel × CriticalSection.Outcome Place Return},
      (∃ next, step.2 = .goesOn next) → step ≠ (kernel', .forgets result) := by
    rintro step ⟨next, hnext⟩ rfl
    exact absurd hnext (by simp)
  cases place with
  | read fPos count copied statement => exact hgoes (readStatement_goesOn ..)
  | write fPos call statement => exact hgoes (writeStatement_goesOn ..)
  | llseek fPos offset whence statement => exact hgoes (llseekStatement_goesOn ..)
  | ioctl fPos seekto statement => exact hgoes (ioctlStatement_goesOn ..)
  | leave result fPos =>
    intro hforgets
    exact absurd (congrArg Prod.snd hforgets) (by simp [statements])

end Whole

end Aesd.Driver
