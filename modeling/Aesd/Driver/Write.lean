import Aesd.Driver.Device

/-!
# What one write does

The specification of `aesd_write`, from which every invariant of the device is derived. A write
whose allocation is refused only clears the pointer of the pending entry. A write that is served
moves the pending bytes to a fresh block, the accepted part of its buffer behind them and zeros
behind these, and then either hands the block to the ring or keeps it pending.

`Sound` relates the ring, the pending entry and the heap: each entry ever added lies in a live
block of its own, long enough for its size, and so does the pending entry unless it has lost its
block. Every operation keeps it, whatever the kernel decides.
-/

namespace Aesd.Driver

open Foundation

/-- The bytes of an entry: the first `size` ones behind its pointer. -/
def entryBytes (heap : Heap UInt8) (entry : BufferEntry) : List UInt8 :=
  (heap.read entry.buffptr).take entry.size

def pendingBytes (kernel : Kernel) : List UInt8 := entryBytes kernel.heap kernel.dev.entry

/-- The allocation of the call is served. Both branches of `aesd_write` ask for the pending size
plus the count. -/
def Served (call : WriteCall) (kernel : Kernel) : Prop :=
  call.served = true ∧ kernel.dev.entry.size + call.buf.length ≤ kmallocLimit

instance (call : WriteCall) (kernel : Kernel) : Decidable (Served call kernel) :=
  inferInstanceAs (Decidable (_ ∧ _))

def WriteCall.accepted (call : WriteCall) : ℕ := call.buf.length - call.remain

/-- What the block of a served call holds below the old size. -/
def keptBytes (call : WriteCall) (kernel : Kernel) : List UInt8 :=
  if kernel.dev.entry.size = 0 then []
  else (Heap.resize (kernel.heap.read kernel.dev.entry.buffptr)
    (kernel.dev.entry.size + call.buf.length) call.filler).take kernel.dev.entry.size

/-- What the block of a served call holds when the newline search starts. -/
def writtenBlock (call : WriteCall) (kernel : Kernel) : List UInt8 :=
  keptBytes call kernel ++ copiedBytes call.buf (min call.remain call.buf.length)

/-- The pending entry of a served call when the newline search starts. -/
def writtenEntry (call : WriteCall) (kernel : Kernel) : BufferEntry :=
  ⟨some kernel.heap.next, kernel.dev.entry.size + call.accepted⟩

/-- The block a served call releases: the pending one, unless the pending size is zero. -/
def releasedBlock (kernel : Kernel) : Option ℕ :=
  if kernel.dev.entry.size = 0 then none else kernel.dev.entry.buffptr

/-- The heap of a served call when the newline search starts. -/
def writtenHeap (call : WriteCall) (kernel : Kernel) : Heap UInt8 :=
  copyFromUser
    ((kernel.heap.free (releasedBlock kernel)).alloc
      (if kernel.dev.entry.size = 0 then List.replicate call.buf.length 0
        else Heap.resize (kernel.heap.read kernel.dev.entry.buffptr)
          (kernel.dev.entry.size + call.buf.length) call.filler))
    kernel.heap.next kernel.dev.entry.size call.buf (min call.remain call.buf.length)

/-! ## The specification -/

section Specification

variable {newlineFound : List UInt8 → Bool} {call : WriteCall} {kernel : Kernel}

theorem length_keptBytes (call : WriteCall) (kernel : Kernel) :
    (keptBytes call kernel).length = kernel.dev.entry.size := by
  unfold keptBytes
  split
  · rename_i hzero
    simp [hzero]
  · rw [List.length_take, Heap.length_resize]
    omega

theorem live_writtenHeap_iff (call : WriteCall) (kernel : Kernel) (id : ℕ) :
    (writtenHeap call kernel).Live id ↔
      id = kernel.heap.next ∨ (releasedBlock kernel ≠ some id ∧ kernel.heap.Live id) := by
  rw [writtenHeap, copyFromUser, Heap.live_store_iff, Heap.live_alloc_iff, Heap.live_free_iff,
    Heap.next_free]

/-- A served call changes no block but the one it releases. -/
theorem read_writtenHeap_of_live (call : WriteCall) {id : ℕ} (hlive : kernel.heap.Live id)
    (hkept : releasedBlock kernel ≠ some id) :
    (writtenHeap call kernel).read (some id) = kernel.heap.read (some id) := by
  have hlt := hlive.lt_next
  rw [writtenHeap, copyFromUser, Heap.read_store_of_ne _ _ _ (Nat.ne_of_lt hlt),
    Heap.read_alloc_of_lt _ _ (by rwa [Heap.next_free]), Heap.read_free_of_ne _ hkept]

theorem read_writtenHeap_next (call : WriteCall) (kernel : Kernel) :
    (writtenHeap call kernel).read (some kernel.heap.next) = writtenBlock call kernel := by
  have hlength : (copiedBytes call.buf (min call.remain call.buf.length)).length =
      call.buf.length := length_copiedBytes (Nat.min_le_right _ _)
  have hnext : kernel.heap.next = (kernel.heap.free (releasedBlock kernel)).next := rfl
  rw [writtenHeap, copyFromUser, Heap.read_store_self, hnext, Heap.read_alloc_self,
    Heap.splice_to_end, writtenBlock, keptBytes]
  · split <;> simp_all
  · rw [hlength]
    split
    · rename_i hzero
      simp [hzero]
    · rw [Heap.length_resize]
  · rw [Heap.live_alloc_iff]
    exact Or.inl rfl

theorem sub_min_eq_accepted (call : WriteCall) :
    (if min call.remain call.buf.length > 0 then call.buf.length - min call.remain call.buf.length
      else call.buf.length) = call.accepted := by
  unfold WriteCall.accepted
  split <;> omega

/-- What `aesd_write` gets from a refused allocation, in either of its branches. -/
theorem allocation_of_not_served (h : ¬ Served call kernel) :
    (if kernel.dev.entry.size = 0 then kzalloc kernel.heap call.served call.buf.length
      else krealloc kernel.heap call.served call.filler kernel.dev.entry.buffptr
        (kernel.dev.entry.size + call.buf.length)) = (kernel.heap, none) := by
  have hrefused : (call.served && decide
      (kernel.dev.entry.size + call.buf.length ≤ kmallocLimit)) = false := by
    rw [← Bool.not_eq_true, Bool.and_eq_true, decide_eq_true_eq]
    exact h
  unfold kzalloc krealloc
  by_cases hzero : kernel.dev.entry.size = 0
  · rw [hzero, Nat.zero_add] at hrefused
    simp only [hzero, if_true, hrefused, Bool.false_eq_true, if_false]
  · simp only [hzero, if_false, hrefused, Bool.false_eq_true]

/-- What it gets from a served one. -/
theorem allocation_of_served (h : Served call kernel) :
    (if kernel.dev.entry.size = 0 then kzalloc kernel.heap call.served call.buf.length
      else krealloc kernel.heap call.served call.filler kernel.dev.entry.buffptr
        (kernel.dev.entry.size + call.buf.length)) =
      ((kernel.heap.free (releasedBlock kernel)).alloc
        (if kernel.dev.entry.size = 0 then List.replicate call.buf.length 0
          else Heap.resize (kernel.heap.read kernel.dev.entry.buffptr)
            (kernel.dev.entry.size + call.buf.length) call.filler), some kernel.heap.next) := by
  have hserved : (call.served && decide
      (kernel.dev.entry.size + call.buf.length ≤ kmallocLimit)) = true := by
    rw [Bool.and_eq_true, decide_eq_true_eq]
    exact h
  have hfree : kernel.heap.free none = kernel.heap := by
    simp [Heap.free]
  unfold kzalloc krealloc
  by_cases hzero : kernel.dev.entry.size = 0
  · rw [hzero, Nat.zero_add] at hserved
    simp only [hzero, if_true, hserved, releasedBlock, hfree]
  · simp only [hzero, if_false, hserved, if_true, releasedBlock]

/-- A refused call clears the pointer of the pending entry and changes nothing else. -/
theorem aesdWriteWith_of_not_served (h : ¬ Served call kernel) :
    aesdWriteWith newlineFound call kernel =
      ({ kernel with dev := { kernel.dev with entry := ⟨none, kernel.dev.entry.size⟩ } },
        Result.of (-enomem)) := by
  simp only [aesdWriteWith, allocation_of_not_served h]

/-- A served call ends with the written block in the ring or pending, as the search decides. -/
theorem aesdWriteWith_of_served (h : Served call kernel) :
    aesdWriteWith newlineFound call kernel =
      if newlineFound (writtenBlock call kernel) then
        ({ heap := writtenHeap call kernel
           dev := { kernel.dev with
             circularBuffer := aesdCircularBufferAddEntry kernel.dev.circularBuffer
               (writtenEntry call kernel)
             entry := ⟨none, 0⟩ } },
          ⟨call.accepted, [], some (entryBytes (writtenHeap call kernel)
            (writtenEntry call kernel))⟩)
      else
        ({ heap := writtenHeap call kernel
           dev := { kernel.dev with entry := writtenEntry call kernel } },
          Result.of call.accepted) := by
  rw [← read_writtenHeap_next]
  simp only [aesdWriteWith, allocation_of_served h, sub_min_eq_accepted]
  rfl

/-- What a served call leaves pending, or commits: the kept bytes and the accepted ones. -/
theorem entryBytes_writtenEntry (call : WriteCall) (kernel : Kernel) :
    entryBytes (writtenHeap call kernel) (writtenEntry call kernel) =
      keptBytes call kernel ++ call.buf.take call.accepted := by
  have haccepted : call.buf.length - min call.remain call.buf.length = call.accepted := by
    unfold WriteCall.accepted
    omega
  rw [entryBytes, writtenEntry, read_writtenHeap_next, writtenBlock, copiedBytes, haccepted,
    ← List.append_assoc, List.take_left']
  rw [List.length_append, length_keptBytes, List.length_take]
  dsimp only [WriteCall.accepted]
  omega

end Specification

/-! ## The invariant of the device -/

/-- The ring holds the last of `added`, and every entry added or pending owns a live block long
enough for its size. A pending entry that lost its block has a null pointer. -/
structure Sound (kernel : Kernel) (added : List BufferEntry) : Prop where
  ring : kernel.dev.circularBuffer.Holds added
  addedLive : ∀ entry ∈ added, ∃ block, entry.buffptr = some block ∧ kernel.heap.Live block ∧
    entry.size ≤ (kernel.heap.read (some block)).length
  addedSize : ∀ entry ∈ added, entry.size ≤ kmallocLimit
  distinct : added.Pairwise fun first second ↦ first.buffptr ≠ second.buffptr
  pendingLive : ∀ block, kernel.dev.entry.buffptr = some block → kernel.heap.Live block ∧
    kernel.dev.entry.size ≤ (kernel.heap.read (some block)).length
  pendingSize : kernel.dev.entry.size ≤ kmallocLimit
  apart : ∀ entry ∈ added, entry.buffptr ≠ kernel.dev.entry.buffptr

namespace Sound

variable {newlineFound : List UInt8 → Bool} {call : WriteCall} {kernel : Kernel}
  {added : List BufferEntry}

theorem loaded : Sound Kernel.loaded [] where
  ring := CircularBuffer.holds_init
  addedLive := by simp
  addedSize := by simp
  distinct := List.Pairwise.nil
  pendingLive := fun _ hpointer ↦ absurd hpointer (by simp [Kernel.loaded, aesdInitModule,
    aesdSetupCdev, AesdDev.zeroed, BufferEntry.zero])
  pendingSize := Nat.zero_le _
  apart := by simp

/-- The block of an added entry is not the one a served call releases. -/
theorem releasedBlock_ne (h : Sound kernel added) {entry : BufferEntry} (hentry : entry ∈ added)
    {block : ℕ} (hblock : entry.buffptr = some block) : releasedBlock kernel ≠ some block := by
  unfold releasedBlock
  split
  · exact (Option.some_ne_none block).symm
  · intro hpending
    exact h.apart entry hentry (hblock.trans hpending.symm)

theorem entryBytes_length (h : Sound kernel added) {entry : BufferEntry} (hentry : entry ∈ added) :
    (entryBytes kernel.heap entry).length = entry.size := by
  obtain ⟨block, hblock, -, hlength⟩ := h.addedLive entry hentry
  rw [entryBytes, hblock, List.length_take, Nat.min_eq_left hlength]

/-- A served call leaves the blocks of all added entries alone. -/
theorem addedLive_writtenHeap (h : Sound kernel added) (call : WriteCall) {entry : BufferEntry}
    (hentry : entry ∈ added) :
    ∃ block, entry.buffptr = some block ∧ (writtenHeap call kernel).Live block ∧
      block < kernel.heap.next ∧
      (writtenHeap call kernel).read (some block) = kernel.heap.read (some block) := by
  obtain ⟨block, hblock, hlive, -⟩ := h.addedLive entry hentry
  have hkept := h.releasedBlock_ne hentry hblock
  exact ⟨block, hblock, (live_writtenHeap_iff call kernel block).mpr (Or.inr ⟨hkept, hlive⟩),
    hlive.lt_next, read_writtenHeap_of_live call hlive hkept⟩

theorem entryBytes_writtenHeap (h : Sound kernel added) (call : WriteCall) {entry : BufferEntry}
    (hentry : entry ∈ added) :
    entryBytes (writtenHeap call kernel) entry = entryBytes kernel.heap entry := by
  obtain ⟨block, hblock, -, -, hread⟩ := h.addedLive_writtenHeap call hentry
  rw [entryBytes, entryBytes, hblock, hread]

theorem writtenEntry_le (call : WriteCall) (kernel : Kernel) :
    (writtenEntry call kernel).size ≤
      ((writtenHeap call kernel).read (some kernel.heap.next)).length := by
  rw [read_writtenHeap_next, writtenBlock, List.length_append, length_keptBytes,
    length_copiedBytes (Nat.min_le_right _ _), writtenEntry]
  dsimp only [WriteCall.accepted]
  omega

theorem writtenEntry_size_le (h : Served call kernel) :
    (writtenEntry call kernel).size ≤ kmallocLimit := by
  have hrequest := h.2
  dsimp only [writtenEntry, WriteCall.accepted]
  omega

/-- Every block of an added entry is older than the block of the written entry. -/
theorem buffptr_ne_next (h : Sound kernel added) {entry : BufferEntry} (hentry : entry ∈ added) :
    entry.buffptr ≠ some kernel.heap.next := by
  obtain ⟨block, hblock, hlive, -⟩ := h.addedLive entry hentry
  rw [hblock]
  intro heq
  exact absurd hlive.lt_next (by simp_all)

theorem refused (h : Sound kernel added) :
    Sound { kernel with dev := { kernel.dev with entry := ⟨none, kernel.dev.entry.size⟩ } }
      added where
  ring := h.ring
  addedLive := h.addedLive
  addedSize := h.addedSize
  distinct := h.distinct
  pendingLive := fun _ hpointer ↦ absurd hpointer (by simp)
  pendingSize := h.pendingSize
  apart := by
    intro entry hentry
    obtain ⟨block, hblock, -⟩ := h.addedLive entry hentry
    simp [hblock]

/-- A served call that commits nothing keeps the invariant. -/
theorem pending (h : Sound kernel added) (hserved : Served call kernel) :
    Sound { heap := writtenHeap call kernel
            dev := { kernel.dev with entry := writtenEntry call kernel } } added where
  ring := h.ring
  addedLive := by
    intro entry hentry
    obtain ⟨block, hblock, hlive, -, hread⟩ := h.addedLive_writtenHeap call hentry
    obtain ⟨block', hblock', -, hlength⟩ := h.addedLive entry hentry
    obtain rfl : block = block' := Option.some_injective _ (hblock.symm.trans hblock')
    exact ⟨block, hblock, hlive, by rw [hread]; exact hlength⟩
  addedSize := h.addedSize
  distinct := h.distinct
  pendingLive := by
    intro block hblock
    obtain rfl : kernel.heap.next = block := Option.some_injective _ hblock
    exact ⟨(live_writtenHeap_iff call kernel _).mpr (Or.inl rfl), writtenEntry_le call kernel⟩
  pendingSize := writtenEntry_size_le hserved
  apart := fun entry hentry ↦ h.buffptr_ne_next hentry

/-- A served call that commits keeps the invariant, the written entry being added last. -/
theorem committed (h : Sound kernel added) (hserved : Served call kernel) :
    Sound { heap := writtenHeap call kernel
            dev := { kernel.dev with
              circularBuffer := aesdCircularBufferAddEntry kernel.dev.circularBuffer
                (writtenEntry call kernel)
              entry := ⟨none, 0⟩ } } (added ++ [writtenEntry call kernel]) where
  ring := CircularBuffer.Holds.addEntry h.ring _
  addedLive := by
    intro entry hentry
    rcases List.mem_append.mp hentry with hold | hnew
    · exact (h.pending hserved).addedLive entry hold
    · obtain rfl := List.mem_singleton.mp hnew
      exact ⟨_, rfl, (live_writtenHeap_iff call kernel _).mpr (Or.inl rfl),
        writtenEntry_le call kernel⟩
  addedSize := by
    intro entry hentry
    rcases List.mem_append.mp hentry with hold | hnew
    · exact h.addedSize entry hold
    · obtain rfl := List.mem_singleton.mp hnew
      exact writtenEntry_size_le hserved
  distinct := by
    refine List.pairwise_append.mpr ⟨h.distinct, List.pairwise_singleton _ _, ?_⟩
    intro entry hentry last hlast
    obtain rfl := List.mem_singleton.mp hlast
    exact h.buffptr_ne_next hentry
  pendingLive := fun _ hpointer ↦ absurd hpointer (by simp)
  pendingSize := Nat.zero_le _
  apart := by
    intro entry hentry
    rcases List.mem_append.mp hentry with hold | hnew
    · obtain ⟨block, hblock, -⟩ := h.addedLive entry hold
      simp [hblock]
    · obtain rfl := List.mem_singleton.mp hnew
      simp [writtenEntry]

end Sound

end Aesd.Driver
