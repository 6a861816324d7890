import Aesd.Foundation.CString
import Aesd.Foundation.Heap
import Mathlib.Algebra.Ring.Nat

/-!
# The kernel services the driver calls

Allocation, copying from user memory and string search as the driver sees them. What the kernel
is free to decide is an argument: whether an allocation is served, what a grown block holds
beyond its old contents, how many bytes of a user buffer cannot be copied, and what a string
search reports when it runs past the end of its block.
-/

namespace Aesd.Driver

open Foundation

/-- The error numbers the driver returns negated. -/
def enomem : ℤ := 12
def efault : ℤ := 14
def einval : ℤ := 22
def enotty : ℤ := 25

/-- No configuration of the kernel serves a larger block (`KMALLOC_MAX_SIZE` is smaller on all
of them); a smaller request may be refused as well. -/
def kmallocLimit : ℕ := 2 ^ 40

/-- `kzalloc`: a fresh block of zeros, or NULL. For a count of 0 the kernel returns ZERO_SIZE_PTR
instead, which is no block and not NULL; a write that gets it never returns, and is modelled where
calls may not return. -/
def kzalloc (heap : Heap UInt8) (served : Bool) (count : ℕ) : Heap UInt8 × Option ℕ :=
  if served && count ≤ kmallocLimit then
    (heap.alloc (List.replicate count 0), some heap.next)
  else (heap, none)

/-- `krealloc`: the old block is released and one with its contents returned, or NULL is returned
and the old block stays. The bytes past the old contents are whatever memory held there. -/
def krealloc (heap : Heap UInt8) (served : Bool) (filler : ℕ → UInt8) (pointer : Option ℕ)
    (count : ℕ) : Heap UInt8 × Option ℕ :=
  if served && count ≤ kmallocLimit then
    ((heap.free pointer).alloc (Heap.resize (heap.read pointer) count filler), some heap.next)
  else (heap, none)

/-- The bytes `copy_from_user` stores: the copied part of the buffer, and zeros for the `remain`
bytes it could not copy. -/
def copiedBytes (buf : List UInt8) (remain : ℕ) : List UInt8 :=
  buf.take (buf.length - remain) ++ List.replicate remain 0

def copyFromUser (heap : Heap UInt8) (block offset : ℕ) (buf : List UInt8) (remain : ℕ) :
    Heap UInt8 :=
  heap.store block offset (copiedBytes buf remain)

abbrev newline : UInt8 := 10

abbrev nul : UInt8 := 0

/-- Whether `strchr(block, '\n')` finds something; a search that leaves the block reports
`beyond`. -/
def strchrNewline (beyond : Bool) (block : List UInt8) : Bool :=
  (search nul newline block).answer beyond

@[simp]
theorem length_copiedBytes {buf : List UInt8} {remain : ℕ} (h : remain ≤ buf.length) :
    (copiedBytes buf remain).length = buf.length := by
  simp only [copiedBytes, List.length_append, List.length_take, List.length_replicate]
  omega

@[simp]
theorem copiedBytes_zero (buf : List UInt8) : copiedBytes buf 0 = buf := by simp [copiedBytes]

theorem strchrNewline_iff (beyond : Bool) (block : List UInt8) :
    strchrNewline beyond block = true ↔
      newline ∈ stringOf nul block ∨ (newline ∉ block ∧ nul ∉ block ∧ beyond = true) :=
  answer_search_iff (by decide) beyond block

end Aesd.Driver
