import Aesd.Driver.Faults
import Aesd.Driver.Ownership
import Aesd.Foundation.Inventory

/-!
# The account of the kernel blocks

No operation of the driver releases a block for good: `krealloc` moves one, and everything else
that stops referring to a block leaves it live. So the live blocks of a run can be listed, one
for each command ever committed, the pending one, and those the writes abandoned, a write that dies
under the mutex included. This is what is still allocated when the module is gone. The loop that the header of the ring documents for its
release frees what the slots refer to, each block once, and leaves the rest.
-/

namespace Aesd.Driver

open Foundation

/-- The block that a write stops referring to without releasing it: a refused allocation clears
the pointer, and the first write of a command overwrites it. -/
def abandonedBlock (call : WriteCall) (kernel : Kernel) : Option ℕ :=
  if Served call kernel ∧ kernel.dev.entry.size ≠ 0 then none else kernel.dev.entry.buffptr

def Call.abandons (system : System) : Call → List ℕ
  | .write _ call => (abandonedBlock call system.kernel).toList
  | _ => []

/-- What a call abandons when it gets to the mutex, also if it faults then. -/
def Guarded.abandons (guarded : Guarded) (call : Call) : List ℕ :=
  if guarded.held then [] else call.abandons guarded.system

def abandoned (guarded : Guarded) (calls : List Call) : List ℕ :=
  driver.gather Guarded.abandons guarded calls

/-- The log, the block of each of its commands and the abandoned blocks account for the heap. -/
structure Accounted (kernel : Kernel) (added : List BufferEntry) (blocks abandoned : List ℕ) :
    Prop where
  sound : Sound kernel added
  blocks_eq : added.map BufferEntry.buffptr = blocks.map some
  inventory : kernel.heap.Inventory (blocks ++ (kernel.dev.entry.buffptr.toList ++ abandoned))

theorem Accounted.loaded : Accounted Kernel.loaded [] [] [] where
  sound := Sound.loaded
  blocks_eq := rfl
  inventory := Heap.Inventory.empty

/-! ## What one write does to the account -/

section Write

variable {call : WriteCall} {kernel : Kernel} {added : List BufferEntry}
  {blocks abandoned : List ℕ}

theorem abandonedBlock_of_not_served (h : ¬ Served call kernel) :
    abandonedBlock call kernel = kernel.dev.entry.buffptr :=
  if_neg fun hboth ↦ h hboth.1

/-- A served write releases the pending block or abandons it. -/
theorem released_append_abandoned (h : Served call kernel) :
    (releasedBlock kernel).toList ++ (abandonedBlock call kernel).toList =
      kernel.dev.entry.buffptr.toList := by
  unfold releasedBlock abandonedBlock
  by_cases hzero : kernel.dev.entry.size = 0
  · rw [if_pos hzero, if_neg fun hboth ↦ hboth.2 hzero]
    rfl
  · rw [if_neg hzero, if_pos ⟨h, hzero⟩]
    exact List.append_nil _

/-- The written block takes the place of the released one. -/
theorem inventory_writtenHeap {ids : List ℕ}
    (h : kernel.heap.Inventory ((releasedBlock kernel).toList ++ ids)) (call : WriteCall) :
    (writtenHeap call kernel).Inventory (kernel.heap.next :: ids) :=
  (h.free.alloc _).store _ _ _

theorem Accounted.writtenHeap (h : Accounted kernel added blocks abandoned)
    (hserved : Served call kernel) :
    (writtenHeap call kernel).Inventory
      (kernel.heap.next :: (blocks ++ (abandoned ++ (abandonedBlock call kernel).toList))) := by
  apply inventory_writtenHeap
  apply h.inventory.perm
  rw [← released_append_abandoned hserved]
  calc
    (blocks ++ ((releasedBlock kernel).toList ++ (abandonedBlock call kernel).toList ++
        abandoned)).Perm
        ((releasedBlock kernel).toList ++ (abandonedBlock call kernel).toList ++ abandoned ++
          blocks) := List.perm_append_comm
    _ = (releasedBlock kernel).toList ++
        ((abandonedBlock call kernel).toList ++ abandoned ++ blocks) := by
      simp only [List.append_assoc]
    List.Perm _ ((releasedBlock kernel).toList ++
        (blocks ++ (abandoned ++ (abandonedBlock call kernel).toList))) := by
      apply List.Perm.append_left
      exact List.perm_append_comm.trans (List.perm_append_comm.append_left blocks)

/-- The pending block is abandoned once the entry refers to none. -/
theorem Accounted.detached (h : Accounted kernel added blocks abandoned) :
    Accounted { kernel with dev := { kernel.dev with entry := ⟨none, kernel.dev.entry.size⟩ } }
      added blocks (abandoned ++ kernel.dev.entry.buffptr.toList) where
  sound := h.sound.refused
  blocks_eq := h.blocks_eq
  inventory := h.inventory.perm (List.perm_append_comm.append_left blocks)

theorem Accounted.pending (h : Accounted kernel added blocks abandoned)
    (hserved : Served call kernel) :
    Accounted { heap := Driver.writtenHeap call kernel
                dev := { kernel.dev with entry := writtenEntry call kernel } }
      added blocks (abandoned ++ (abandonedBlock call kernel).toList) where
  sound := h.sound.pending hserved
  blocks_eq := h.blocks_eq
  inventory := (h.writtenHeap hserved).perm List.perm_middle.symm

theorem Accounted.committed (h : Accounted kernel added blocks abandoned)
    (hserved : Served call kernel) :
    Accounted { heap := Driver.writtenHeap call kernel
                dev := { kernel.dev with
                  circularBuffer := aesdCircularBufferAddEntry kernel.dev.circularBuffer
                    (writtenEntry call kernel)
                  entry := ⟨none, 0⟩ } }
      (added ++ [writtenEntry call kernel]) (blocks ++ [kernel.heap.next])
      (abandoned ++ (abandonedBlock call kernel).toList) where
  sound := h.sound.committed hserved
  blocks_eq := by
    rw [List.map_append, List.map_append, h.blocks_eq]
    rfl
  inventory := by
    apply (h.writtenHeap hserved).perm
    rw [List.append_assoc]
    exact List.perm_middle.symm

/-- What one write enters into the account; the entries there were keep their bytes. -/
theorem Accounted.write (h : Accounted kernel added blocks abandoned)
    (newlineFound : List UInt8 → Bool) (call : WriteCall) :
    ∃ more newBlocks, Accounted (aesdWriteWith newlineFound call kernel).1 (added ++ more)
        (blocks ++ newBlocks) (abandoned ++ (abandonedBlock call kernel).toList) ∧
      (added ++ more).map (entryBytes (aesdWriteWith newlineFound call kernel).1.heap) =
        added.map (entryBytes kernel.heap) ++
          (aesdWriteWith newlineFound call kernel).2.committed.toList := by
  by_cases hserved : Served call kernel
  · have hbytes : added.map (entryBytes (Driver.writtenHeap call kernel)) =
        added.map (entryBytes kernel.heap) :=
      List.map_congr_left fun entry hentry ↦ h.sound.entryBytes_writtenHeap call hentry
    rw [aesdWriteWith_of_served hserved]
    by_cases hfound : newlineFound (writtenBlock call kernel) = true
    · rw [if_pos hfound]
      refine ⟨_, _, h.committed hserved, ?_⟩
      rw [List.map_append, hbytes]
      rfl
    · rw [if_neg hfound]
      have hpending := h.pending hserved
      rw [← List.append_nil added, ← List.append_nil blocks] at hpending
      refine ⟨[], [], hpending, ?_⟩
      rw [List.append_nil, hbytes]
      exact (List.append_nil _).symm
  · rw [aesdWriteWith_of_not_served hserved]
    have hrefused := h.detached
    rw [← abandonedBlock_of_not_served hserved, ← List.append_nil added,
      ← List.append_nil blocks] at hrefused
    refine ⟨[], [], hrefused, ?_⟩
    rw [List.append_nil]
    exact (List.append_nil _).symm

end Write

/-! ## Runs -/

/-- The log has these commands, in blocks that are accounted for with the abandoned ones. -/
def Kept (kernel : Kernel) (commands : List (List UInt8)) (abandoned : List ℕ) : Prop :=
  ∃ added blocks, Accounted kernel added blocks abandoned ∧
    added.map (entryBytes kernel.heap) = commands

section Steps

variable {commands : List (List UInt8)} {abandoned : List ℕ}

theorem Kept.loaded : Kept Guarded.loaded.system.kernel [] [] := ⟨[], [], Accounted.loaded, rfl⟩

/-- No other call touches a block. -/
theorem Kept.next {system : System} (h : Kept system.kernel commands abandoned) (call : Call) :
    Kept (device.next system call).kernel
      (commands ++ (device.emit system call).committed.toList)
      (abandoned ++ call.abandons system) := by
  cases call with
  | write file call =>
    obtain ⟨added, blocks, haccount, rfl⟩ := h
    obtain ⟨more, newBlocks, hnext, hbytes⟩ := haccount.write (strchrNewline call.beyond) call
    exact ⟨_, _, hnext, hbytes⟩
  | read file count copied =>
    rw [device_emit_read, committed_aesdRead]
    exact (List.append_nil commands).symm ▸ (List.append_nil abandoned).symm ▸ h
  | llseek file offset whence =>
    exact (List.append_nil commands).symm ▸ (List.append_nil abandoned).symm ▸ h
  | ioctl file cmd arg =>
    exact (List.append_nil commands).symm ▸ (List.append_nil abandoned).symm ▸ h

theorem abandons_of_faults {system : System} {call : Call}
    (hfaults : call.Faults system.kernel) :
    call.abandons system = system.kernel.dev.entry.buffptr.toList := by
  cases call with
  | write file call =>
    have habandoned : abandonedBlock call system.kernel = system.kernel.dev.entry.buffptr :=
      if_neg fun hboth ↦ hboth.2 hfaults.2
    exact congrArg Option.toList habandoned
  | read file count copied => exact hfaults.elim
  | llseek file offset whence => exact hfaults.elim
  | ioctl file cmd arg => exact hfaults.elim

theorem abandons_of_refused {call : Call} (hrefused : call.refused = true) (system : System) :
    (device.emit system call).committed = none ∧ call.abandons system = [] := by
  cases call with
  | write file call => exact absurd hrefused Bool.false_ne_true
  | read file count copied => exact absurd hrefused Bool.false_ne_true
  | llseek file offset whence => exact absurd hrefused Bool.false_ne_true
  | ioctl file cmd arg => exact ⟨rfl, rfl⟩

/-- A call that faults leaves its account, and one that waits for ever leaves it alone. -/
theorem Kept.driver_next {guarded : Guarded} (h : Kept guarded.system.kernel commands abandoned)
    (call : Call) :
    Kept (driver.next guarded call).system.kernel
      (commands ++ ((driver.emit guarded call).bind Result.committed).toList)
      (abandoned ++ guarded.abandons call) := by
  rw [Machine.next, Machine.emit, driver_step_eq, Guarded.abandons]
  by_cases hrefused : call.refused = true
  · obtain ⟨hcommitted, habandons⟩ := abandons_of_refused hrefused guarded.system
    rw [if_pos hrefused, habandons, ite_self, List.append_nil, Option.bind_some, hcommitted]
    exact (List.append_nil commands).symm ▸ h
  · rw [if_neg hrefused]
    by_cases hheld : guarded.held = true
    · rw [if_pos hheld, if_pos hheld]
      exact (List.append_nil commands).symm ▸ (List.append_nil abandoned).symm ▸ h
    · rw [if_neg hheld, if_neg hheld]
      by_cases hfaults : call.Faults guarded.system.kernel
      · obtain ⟨added, blocks, haccount, rfl⟩ := h
        rw [if_pos hfaults, abandons_of_faults hfaults]
        exact ⟨added, blocks, haccount.detached, (List.append_nil _).symm⟩
      · rw [if_neg hfaults]
        exact h.next call

theorem kept_run (calls : List Call) :
    Kept (driver.run Guarded.loaded calls).system.kernel (Guarded.loaded.commits calls)
      (Driver.abandoned Guarded.loaded calls) :=
  Machine.collect_gather_run (fun (guarded : Guarded) ↦ Kept guarded.system.kernel)
    (fun (_ : Call) (answer : Option Result) ↦ (answer.bind Result.committed).toList)
    Guarded.abandons (fun _ _ _ call h _ ↦ h.driver_next call) Kept.loaded
    (Machine.meets_of_forall (fun _ _ ↦ trivial) _ calls)

end Steps

/-- The block at this index of the account has the command of this index of the log. -/
theorem Accounted.forall₂_blocks {kernel : Kernel} {added : List BufferEntry}
    {blocks abandoned : List ℕ} (h : Accounted kernel added blocks abandoned) :
    List.Forall₂ (fun block command ↦ command <+: kernel.heap.read (some block)) blocks
      (added.map (entryBytes kernel.heap)) := by
  have hprefix : ∀ entry, entryBytes kernel.heap entry <+: kernel.heap.read entry.buffptr :=
    fun entry ↦ List.take_prefix _ _
  have hentries : List.Forall₂ (fun pointer command ↦ command <+: kernel.heap.read pointer)
      (added.map BufferEntry.buffptr) (added.map (entryBytes kernel.heap)) := by
    rw [List.forall₂_map_left_iff, List.forall₂_map_right_iff, List.forall₂_same]
    exact fun entry _ ↦ hprefix entry
  rw [h.blocks_eq, List.forall₂_map_left_iff] at hentries
  exact hentries

/-- **What is left when the module is gone.** After every run and the unload, the live blocks are
one for each command ever committed, with its bytes, the pending block and the blocks the writes
abandoned; no two of them are the same. -/
theorem live_blocks_accounted (calls : List Call) :
    ∃ blocks,
      List.Forall₂ (fun block command ↦
          command <+: (aesdCleanupModule (driver.run Guarded.loaded calls).system.kernel).heap.read
            (some block)) blocks (Guarded.loaded.commits calls) ∧
        (aesdCleanupModule (driver.run Guarded.loaded calls).system.kernel).heap.Inventory
          (blocks ++ ((driver.run Guarded.loaded calls).system.kernel.dev.entry.buffptr.toList ++
            abandoned Guarded.loaded calls)) := by
  obtain ⟨added, blocks, haccount, hcommands⟩ := kept_run calls
  refine ⟨blocks, ?_, haccount.inventory⟩
  rw [← hcommands]
  exact haccount.forall₂_blocks

/-! ## The documented release -/

def freeEntry (heap : Heap UInt8) (entry : BufferEntry) : Option (Heap UInt8) :=
  heap.release entry.buffptr

/-- The loop visits the slots in the order of the array. -/
theorem foreachLoop_freeEntry (buffer : CircularBuffer) {steps index : ℕ} (heap : Heap UInt8)
    (hindex : index + steps ≤ maxWriteOperationsSupported) :
    foreachLoop freeEntry buffer steps index heap =
      heap.releaseAll ((walk maxWriteOperationsSupported buffer.slot steps index).map
        BufferEntry.buffptr) := by
  induction steps generalizing index heap with
  | zero => rfl
  | succ steps ih =>
    have hrest : ∀ heap, foreachLoop freeEntry buffer steps (index + 1) heap =
        heap.releaseAll ((walk maxWriteOperationsSupported buffer.slot steps
          ((index + 1) % maxWriteOperationsSupported)).map BufferEntry.buffptr) := by
      intro heap
      cases steps with
      | zero => rfl
      | succ steps =>
        rw [Nat.mod_eq_of_lt (by omega)]
        exact ih heap (by omega)
    rw [foreachLoop, walk, List.map_cons, Heap.releaseAll, freeEntry]
    exact congrArg _ (funext hrest)

/-- The blocks the slots refer to are those of the held commands. -/
theorem Accounted.slots_perm {kernel : Kernel} {added : List BufferEntry}
    {blocks abandoned : List ℕ} (h : Accounted kernel added blocks abandoned) :
    ((walk maxWriteOperationsSupported kernel.dev.circularBuffer.slot maxWriteOperationsSupported
        0).map BufferEntry.buffptr).reduceOption.Perm
      (window maxWriteOperationsSupported blocks) := by
  have hblocks : (CircularBuffer.held added).map BufferEntry.buffptr =
      (window maxWriteOperationsSupported blocks).map some := by
    rw [map_window, map_window, h.blocks_eq]
  have hslots : ((walk maxWriteOperationsSupported kernel.dev.circularBuffer.slot
      maxWriteOperationsSupported kernel.dev.circularBuffer.outOffs).map
        BufferEntry.buffptr).reduceOption = window maxWriteOperationsSupported blocks := by
    have hblank : BufferEntry.zero.buffptr = none := rfl
    rw [h.sound.ring.walk_eq, List.map_append, hblocks, List.map_replicate, hblank,
      List.reduceOption_append, List.reduceOption_replicate_none, List.append_nil,
      List.reduceOption, List.filterMap_map]
    exact List.filterMap_some
  rw [← hslots]
  exact ((walk_perm _ (by decide) h.sound.ring.outOffs_lt).map _).filterMap _

/-- **The documented release.** After every run the loop of the header frees each block the ring
refers to, and none twice. The blocks of evicted commands, the pending block and the abandoned
blocks stay; so none stays exactly when the ring never evicted a command, no block is pending and
none was abandoned. -/
theorem foreach_frees_held (calls : List Call) :
    ∃ blocks left,
      List.Forall₂ (fun block command ↦
          command <+: (driver.run Guarded.loaded calls).system.kernel.heap.read (some block)) blocks
        (Guarded.loaded.commits calls) ∧
      aesdCircularBufferForeach freeEntry
          (driver.run Guarded.loaded calls).system.kernel.dev.circularBuffer
          (aesdCleanupModule (driver.run Guarded.loaded calls).system.kernel).heap = some left ∧
      left.Inventory (evicted maxWriteOperationsSupported blocks ++
        ((driver.run Guarded.loaded calls).system.kernel.dev.entry.buffptr.toList ++
          abandoned Guarded.loaded calls)) ∧
      ((∀ id, ¬ left.Live id) ↔
        (Guarded.loaded.commits calls).length ≤ maxWriteOperationsSupported ∧
          (driver.run Guarded.loaded calls).system.kernel.dev.entry.buffptr = none ∧
          abandoned Guarded.loaded calls = []) := by
  obtain ⟨added, blocks, haccount, hcommands⟩ := kept_run calls
  generalize (driver.run Guarded.loaded calls).system.kernel = kernel at *
  have hsplit : kernel.heap.Inventory
      (((walk maxWriteOperationsSupported kernel.dev.circularBuffer.slot
          maxWriteOperationsSupported 0).map BufferEntry.buffptr).reduceOption ++
        (evicted maxWriteOperationsSupported blocks ++
          (kernel.dev.entry.buffptr.toList ++ abandoned Guarded.loaded calls))) := by
    apply haccount.inventory.perm
    calc
      (blocks ++ (kernel.dev.entry.buffptr.toList ++ abandoned Guarded.loaded calls)).Perm
          (window maxWriteOperationsSupported blocks ++
              evicted maxWriteOperationsSupported blocks ++
            (kernel.dev.entry.buffptr.toList ++ abandoned Guarded.loaded calls)) := by
        apply List.Perm.append_right
        have hblocks := evicted_append_window maxWriteOperationsSupported blocks
        nth_rewrite 1 [← hblocks]
        exact List.perm_append_comm
      List.Perm _ _ := by
        rw [List.append_assoc]
        exact haccount.slots_perm.symm.append_right _
  obtain ⟨left, hleft, hinventory⟩ := hsplit.releaseAll
  have hlength : blocks.length = (Guarded.loaded.commits calls).length := by
    rw [← hcommands]
    exact haccount.forall₂_blocks.length_eq
  refine ⟨blocks, left, hcommands ▸ haccount.forall₂_blocks, ?_, hinventory, ?_⟩
  · rw [← hleft]
    exact foreachLoop_freeEntry _ _ (Nat.le_of_eq (Nat.zero_add _))
  · rw [← hinventory.eq_nil_iff, List.append_eq_nil_iff, List.append_eq_nil_iff,
      evicted_eq_nil_iff, hlength, Option.toList_eq_nil_iff]

end Aesd.Driver
