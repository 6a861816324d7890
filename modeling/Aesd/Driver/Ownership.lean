import Aesd.Driver.CommandLog

/-!
# Who owns the blocks

Every block `aesd_write` obtains is first referred to by the pending entry and then, once its
command is committed, by a slot of the ring. No block is ever referred to from two places. A
block is lost in three ways: a refused allocation clears the pointer of the pending entry, a
first write overwrites the pointer a fully faulted write left behind, and a commit to a full ring
overwrites the oldest slot. Unloading the module releases nothing.
-/

namespace Aesd.Driver

open Foundation

/-- The entries that refer to blocks: the pending one and those of the ring. -/
def entryAt (dev : AesdDev) : Option (Fin maxWriteOperationsSupported) → BufferEntry
  | none => dev.entry
  | some slot => dev.circularBuffer.entry slot

/-- Every live block is referred to from exactly one place. -/
def Owned (kernel : Kernel) : Prop :=
  ∀ block, kernel.heap.Live block → ∃! place, (entryAt kernel.dev place).buffptr = some block

def Unallocated (kernel : Kernel) : Prop := ∀ block, ¬ kernel.heap.Live block

/-! ## No block is referred to twice -/

section Unique

variable {kernel kernel' : Kernel} {added : List BufferEntry}

theorem slot_eq_entry (buffer : CircularBuffer) (slot : Fin maxWriteOperationsSupported) :
    buffer.slot slot = buffer.entry slot := by
  rw [CircularBuffer.slot, Fin.ofNat_val_eq_self]

/-- A slot that refers to a block holds an added entry. -/
theorem Sound.exists_added (h : Sound kernel added) {slot : Fin maxWriteOperationsSupported}
    {block : ℕ} (hblock : (kernel.dev.circularBuffer.entry slot).buffptr = some block) :
    ∃ index, ∃ hindex : index < added.length, index % maxWriteOperationsSupported = slot ∧
      added[index].buffptr = some block := by
  rw [← slot_eq_entry] at hblock
  rcases Represents.slot_cases h.ring slot.isLt with ⟨index, hindex, hmod, -, heq⟩ | ⟨-, hzero⟩
  · exact ⟨index, hindex, hmod, heq ▸ hblock⟩
  · rw [hzero] at hblock
    exact absurd hblock.symm (Option.some_ne_none block)

theorem Sound.index_unique (h : Sound kernel added) {first second : ℕ}
    (hfirst : first < added.length) (hsecond : second < added.length)
    (heq : added[first].buffptr = added[second].buffptr) : first = second := by
  have hdistinct := List.pairwise_iff_getElem.mp h.distinct
  rcases Nat.lt_trichotomy first second with hlt | heq' | hlt
  · exact absurd heq (hdistinct first second hfirst hsecond hlt)
  · exact heq'
  · exact absurd heq.symm (hdistinct second first hsecond hfirst hlt)

/-- The slots and the pending entry refer to different blocks. -/
theorem Sound.place_unique (h : Sound kernel added)
    {first second : Option (Fin maxWriteOperationsSupported)} {block : ℕ}
    (hfirst : (entryAt kernel.dev first).buffptr = some block)
    (hsecond : (entryAt kernel.dev second).buffptr = some block) : first = second := by
  have hpending : ∀ slot, (kernel.dev.circularBuffer.entry slot).buffptr = some block →
      kernel.dev.entry.buffptr ≠ some block := by
    intro slot hslot hentry
    obtain ⟨index, hindex, -, hblock⟩ := h.exists_added hslot
    exact h.apart _ (List.getElem_mem hindex) (hblock.trans hentry.symm)
  match first, second with
  | none, none => rfl
  | none, some slot => exact absurd hfirst (hpending slot hsecond)
  | some slot, none => exact absurd hsecond (hpending slot hfirst)
  | some slot, some slot' =>
    obtain ⟨index, hindex, hmod, hblock⟩ := h.exists_added hfirst
    obtain ⟨index', hindex', hmod', hblock'⟩ := h.exists_added hsecond
    obtain rfl := h.index_unique hindex hindex' (hblock.trans hblock'.symm)
    exact congrArg some (Fin.ext (hmod.symm.trans hmod'))

/-- So a state is owned as soon as every live block is referred to. -/
theorem Sound.owned (h : Sound kernel added)
    (hreferred : ∀ block, kernel.heap.Live block →
      ∃ place, (entryAt kernel.dev place).buffptr = some block) : Owned kernel := by
  intro block hlive
  obtain ⟨place, hplace⟩ := hreferred block hlive
  exact ⟨place, hplace, fun other hother ↦ h.place_unique hother hplace⟩

/-- A block that stays live is lost when its place refers to it no longer and no other place is
made to. -/
theorem Sound.false_of_lost (h : Sound kernel added) (howned : Owned kernel')
    {place : Option (Fin maxWriteOperationsSupported)} {block : ℕ}
    (hplace : (entryAt kernel.dev place).buffptr = some block)
    (hlive : kernel'.heap.Live block)
    (hmoved : ∀ other, (entryAt kernel'.dev other).buffptr = some block →
      other ≠ place ∧ (entryAt kernel.dev other).buffptr = some block) : False := by
  obtain ⟨other, hother, -⟩ := howned block hlive
  obtain ⟨hne, hold⟩ := hmoved other hother
  exact hne (h.place_unique hold hplace)

end Unique

/-! ## What one write does to the owners -/

section Write

variable {newlineFound : List UInt8 → Bool} {call : WriteCall} {kernel : Kernel}
  {added : List BufferEntry}

/-- The write leaves no block behind: a refused one finds no pending block, one that starts a
command finds none either, and one that completes a command finds a free slot. -/
structure LosesNoBlock (newlineFound : List UInt8 → Bool) (call : WriteCall) (kernel : Kernel) :
    Prop where
  refused : ¬ Served call kernel → kernel.dev.entry.buffptr = none
  starts : Served call kernel → kernel.dev.entry.size = 0 → kernel.dev.entry.buffptr = none
  commits : Served call kernel → newlineFound (writtenBlock call kernel) = true →
    kernel.dev.circularBuffer.full = false

/-- If every block is owned after a write under which the pending block, if there is one, stays
live and slots alone can refer to it that did before, then there was none. -/
theorem Sound.pending_eq_none {kernel' : Kernel} (h : Sound kernel added) (howned : Owned kernel')
    (hlost : ∀ block, kernel.dev.entry.buffptr = some block → kernel'.heap.Live block ∧
      ∀ other, (entryAt kernel'.dev other).buffptr = some block →
        ∃ slot, other = some slot ∧ (kernel.dev.circularBuffer.entry slot).buffptr = some block) :
    kernel.dev.entry.buffptr = none := by
  by_contra hpointer
  obtain ⟨block, hblock⟩ := Option.ne_none_iff_exists'.mp hpointer
  obtain ⟨hlive, hslots⟩ := hlost block hblock
  have hplace : (entryAt kernel.dev none).buffptr = some block := hblock
  apply h.false_of_lost howned hplace hlive
  intro other hother
  obtain ⟨slot, rfl, hold⟩ := hslots other hother
  exact ⟨Option.some_ne_none slot, hold⟩

theorem Sound.owned_refused_iff (h : Sound kernel added) (howned : Owned kernel) :
    Owned { kernel with dev := { kernel.dev with entry := ⟨none, kernel.dev.entry.size⟩ } } ↔
      kernel.dev.entry.buffptr = none := by
  constructor
  · intro hnext
    apply h.pending_eq_none hnext
    intro block hblock
    refine ⟨(h.pendingLive block hblock).1, fun other hother ↦ ?_⟩
    cases other with
    | none => exact absurd hother.symm (Option.some_ne_none block)
    | some slot => exact ⟨slot, rfl, hother⟩
  · intro hpointer
    rw [← hpointer]
    exact howned

/-- The pending block of a write that starts a command is not released. -/
theorem Sound.live_pending_of_starts (h : Sound kernel added) (call : WriteCall)
    (hzero : kernel.dev.entry.size = 0) {block : ℕ}
    (hblock : kernel.dev.entry.buffptr = some block) :
    (writtenHeap call kernel).Live block ∧ block ≠ kernel.heap.next := by
  have hlive := (h.pendingLive block hblock).1
  refine ⟨(live_writtenHeap_iff call kernel block).mpr (Or.inr ⟨?_, hlive⟩),
    Nat.ne_of_lt hlive.lt_next⟩
  rw [releasedBlock, if_pos hzero]
  exact (Option.some_ne_none block).symm

/-- A block that was pending is released, unless the write starts a command. -/
theorem buffptr_ne_of_kept (hstarts : kernel.dev.entry.size = 0 → kernel.dev.entry.buffptr = none)
    {block : ℕ} (hkept : releasedBlock kernel ≠ some block) :
    kernel.dev.entry.buffptr ≠ some block := by
  unfold releasedBlock at hkept
  split at hkept
  · rename_i hzero
    rw [hstarts hzero]
    exact (Option.some_ne_none block).symm
  · exact hkept

theorem Sound.owned_pending_iff (h : Sound kernel added) (howned : Owned kernel)
    (hserved : Served call kernel) :
    Owned { heap := writtenHeap call kernel
            dev := { kernel.dev with entry := writtenEntry call kernel } } ↔
      (kernel.dev.entry.size = 0 → kernel.dev.entry.buffptr = none) := by
  constructor
  · intro hnext hzero
    apply h.pending_eq_none hnext
    intro block hblock
    obtain ⟨hlive, hne⟩ := h.live_pending_of_starts call hzero hblock
    refine ⟨hlive, fun other hother ↦ ?_⟩
    cases other with
    | none => exact absurd (Option.some_injective _ hother).symm hne
    | some slot => exact ⟨slot, rfl, hother⟩
  · intro hstarts
    refine (h.pending hserved).owned fun block hlive ↦ ?_
    rcases (live_writtenHeap_iff call kernel block).mp hlive with rfl | ⟨hkept, hold⟩
    · exact ⟨none, rfl⟩
    · obtain ⟨place, hplace, -⟩ := howned block hold
      cases place with
      | none => exact absurd hplace (buffptr_ne_of_kept hstarts hkept)
      | some slot => exact ⟨some slot, hplace⟩

theorem entryAt_addEntry (dev : AesdDev) (entry : BufferEntry)
    (slot : Fin maxWriteOperationsSupported) :
    (aesdCircularBufferAddEntry dev.circularBuffer entry).entry slot =
      if slot = Fin.ofNat maxWriteOperationsSupported dev.circularBuffer.inOffs then entry
      else dev.circularBuffer.entry slot := by
  simp only [aesdCircularBufferAddEntry, Function.update_apply]

/-- The slot written next is free exactly in a ring that is not full. -/
theorem Sound.inOffs_slot (h : Sound kernel added) :
    (kernel.dev.circularBuffer.full = false →
      kernel.dev.circularBuffer.slot kernel.dev.circularBuffer.inOffs = BufferEntry.zero) ∧
    (kernel.dev.circularBuffer.full = true →
      kernel.dev.circularBuffer.slot kernel.dev.circularBuffer.inOffs ∈ added) := by
  have hring := h.ring
  rw [hring.full_eq, decide_eq_false_iff_not, decide_eq_true_iff]
  constructor
  · intro hroom
    apply hring.untouched _ hring.inOffs_lt
    rw [hring.inOffset_eq, Nat.mod_eq_of_lt (Nat.not_le.mp hroom)]
  · intro hfull
    rcases Represents.slot_cases hring hring.inOffs_lt with ⟨index, hindex, -, -, heq⟩ | ⟨hle, -⟩
    · rw [heq]
      exact List.getElem_mem hindex
    · have hlt := hring.inOffs_lt
      exact absurd (hfull.trans hle) (Nat.not_le.mpr hlt)

/-- After a commit what refers to an old block is a slot other than the one written. -/
theorem exists_slot_of_committed {dev : AesdDev} {entry : BufferEntry} {block : ℕ}
    (hne : entry.buffptr ≠ some block) {other : Option (Fin maxWriteOperationsSupported)}
    (hother : (entryAt { dev with
        circularBuffer := aesdCircularBufferAddEntry dev.circularBuffer entry
        entry := ⟨none, 0⟩ } other).buffptr = some block) :
    ∃ slot, other = some slot ∧
      slot ≠ Fin.ofNat maxWriteOperationsSupported dev.circularBuffer.inOffs ∧
      (dev.circularBuffer.entry slot).buffptr = some block := by
  cases other with
  | none => exact absurd hother.symm (Option.some_ne_none block)
  | some slot =>
    simp only [entryAt, entryAt_addEntry] at hother
    split at hother
    · exact absurd hother hne
    · next hslot => exact ⟨slot, rfl, hslot, hother⟩

theorem writtenEntry_buffptr_ne {block : ℕ} (hne : block ≠ kernel.heap.next) :
    (writtenEntry call kernel).buffptr ≠ some block :=
  fun hpointer ↦ hne (Option.some_injective _ hpointer).symm

/-- A commit to a full ring loses the block of the oldest slot. -/
theorem Sound.full_eq_false (h : Sound kernel added)
    (howned : Owned { heap := writtenHeap call kernel
                      dev := { kernel.dev with
                        circularBuffer := aesdCircularBufferAddEntry kernel.dev.circularBuffer
                          (writtenEntry call kernel)
                        entry := ⟨none, 0⟩ } }) :
    kernel.dev.circularBuffer.full = false := by
  by_contra hfull
  have hadded := h.inOffs_slot.2 (Bool.not_eq_false _ ▸ hfull)
  obtain ⟨block, hblock, hlive, hlt, -⟩ := h.addedLive_writtenHeap call hadded
  have hplace : (entryAt kernel.dev (some (Fin.ofNat maxWriteOperationsSupported
      kernel.dev.circularBuffer.inOffs))).buffptr = some block := hblock
  apply h.false_of_lost howned hplace hlive
  intro other hother
  obtain ⟨slot, rfl, hslot, hold⟩ :=
    exists_slot_of_committed (writtenEntry_buffptr_ne (Nat.ne_of_lt hlt)) hother
  exact ⟨fun heq ↦ hslot (Option.some_injective _ heq), hold⟩

/-- A commit to a ring with room leaves every block referred to. -/
theorem Sound.exists_place_of_committed (h : Sound kernel added) (howned : Owned kernel)
    (hstarts : kernel.dev.entry.size = 0 → kernel.dev.entry.buffptr = none)
    (hroom : kernel.dev.circularBuffer.full = false) {block : ℕ}
    (hlive : (writtenHeap call kernel).Live block) :
    ∃ place, (entryAt { kernel.dev with
        circularBuffer := aesdCircularBufferAddEntry kernel.dev.circularBuffer
          (writtenEntry call kernel)
        entry := ⟨none, 0⟩ } place).buffptr = some block := by
  rcases (live_writtenHeap_iff call kernel block).mp hlive with rfl | ⟨hkept, hold⟩
  · refine ⟨some (Fin.ofNat maxWriteOperationsSupported kernel.dev.circularBuffer.inOffs), ?_⟩
    simp only [entryAt, entryAt_addEntry, if_true]
    rfl
  · obtain ⟨place, hplace, -⟩ := howned block hold
    cases place with
    | none => exact absurd hplace (buffptr_ne_of_kept hstarts hkept)
    | some slot =>
      have hslot : slot ≠
          Fin.ofNat maxWriteOperationsSupported kernel.dev.circularBuffer.inOffs := by
        rintro rfl
        have hfree := h.inOffs_slot.1 hroom
        simp only [CircularBuffer.slot] at hfree
        simp only [entryAt, hfree] at hplace
        exact absurd hplace.symm (Option.some_ne_none block)
      refine ⟨some slot, ?_⟩
      simp only [entryAt, entryAt_addEntry, if_neg hslot]
      exact hplace

theorem Sound.owned_committed_iff (h : Sound kernel added) (howned : Owned kernel)
    (hserved : Served call kernel) :
    Owned { heap := writtenHeap call kernel
            dev := { kernel.dev with
              circularBuffer := aesdCircularBufferAddEntry kernel.dev.circularBuffer
                (writtenEntry call kernel)
              entry := ⟨none, 0⟩ } } ↔
      (kernel.dev.entry.size = 0 → kernel.dev.entry.buffptr = none) ∧
        kernel.dev.circularBuffer.full = false := by
  constructor
  · intro hnext
    refine ⟨fun hzero ↦ ?_, h.full_eq_false hnext⟩
    apply h.pending_eq_none hnext
    intro block hblock
    obtain ⟨hlive, hne⟩ := h.live_pending_of_starts call hzero hblock
    refine ⟨hlive, fun other hother ↦ ?_⟩
    obtain ⟨slot, hslot, -, hold⟩ :=
      exists_slot_of_committed (writtenEntry_buffptr_ne hne) hother
    exact ⟨slot, hslot, hold⟩
  · rintro ⟨hstarts, hroom⟩
    exact (h.committed hserved).owned fun block hlive ↦
      h.exists_place_of_committed howned hstarts hroom hlive

/-- A write keeps every block owned exactly when it loses none. -/
theorem Sound.owned_write_iff (h : Sound kernel added) (howned : Owned kernel)
    (newlineFound : List UInt8 → Bool) (call : WriteCall) :
    Owned (aesdWriteWith newlineFound call kernel).1 ↔ LosesNoBlock newlineFound call kernel := by
  by_cases hserved : Served call kernel
  · rw [aesdWriteWith_of_served hserved]
    by_cases hfound : newlineFound (writtenBlock call kernel) = true
    · rw [if_pos hfound, h.owned_committed_iff howned hserved]
      exact ⟨fun hboth ↦ ⟨absurd hserved, fun _ ↦ hboth.1, fun _ _ ↦ hboth.2⟩,
        fun hkeeps ↦ ⟨hkeeps.starts hserved, hkeeps.commits hserved hfound⟩⟩
    · rw [if_neg hfound, h.owned_pending_iff howned hserved]
      exact ⟨fun hstarts ↦ ⟨absurd hserved, fun _ ↦ hstarts, fun _ hyes ↦ absurd hyes hfound⟩,
        fun hkeeps ↦ hkeeps.starts hserved⟩
  · rw [aesdWriteWith_of_not_served hserved, h.owned_refused_iff howned]
    exact ⟨fun hpointer ↦ ⟨fun _ ↦ hpointer, fun hyes ↦ absurd hyes hserved,
      fun hyes ↦ absurd hyes hserved⟩, fun hkeeps ↦ hkeeps.refused hserved⟩

/-- A refused write allocates nothing, and a served one leaves a live block. -/
theorem unallocated_write_iff (newlineFound : List UInt8 → Bool) (call : WriteCall)
    (kernel : Kernel) :
    Unallocated (aesdWriteWith newlineFound call kernel).1 ↔
      Unallocated kernel ∧ ¬ Served call kernel := by
  by_cases hserved : Served call kernel
  · rw [aesdWriteWith_of_served hserved]
    have hlive : (writtenHeap call kernel).Live kernel.heap.next :=
      (live_writtenHeap_iff call kernel _).mpr (Or.inl rfl)
    constructor
    · intro hnone
      refine absurd hlive ?_
      split at hnone
      · exact hnone kernel.heap.next
      · exact hnone kernel.heap.next
    · rintro ⟨-, hrefused⟩
      exact absurd hserved hrefused
  · rw [aesdWriteWith_of_not_served hserved]
    exact ⟨fun hnone ↦ ⟨hnone, hserved⟩, fun hboth ↦ hboth.1⟩

end Write

/-! ## Runs -/

def Call.LosesNoBlock (system : System) : Call → Prop
  | .write _ call => Driver.LosesNoBlock (strchrNewline call.beyond) call system.kernel
  | _ => True

def Call.AllocatesNothing (system : System) : Call → Prop
  | .write _ call => ¬ Served call system.kernel
  | _ => True

/-- **Exact condition of ownership.** In every run of the device each live block is referred to
from exactly one place throughout if and only if no write of the run loses a block; and no block
is live after the module is unloaded if and only if no write was ever given one. -/
theorem blocks_owned_iff (calls : List Call) :
    (device.Always (fun system ↦ Owned system.kernel) System.loaded calls ↔
      device.Meets Call.LosesNoBlock System.loaded calls) ∧
    (Unallocated (aesdCleanupModule (device.run System.loaded calls).kernel) ↔
      device.Meets Call.AllocatesNothing System.loaded calls) := by
  have hloaded : Unallocated System.loaded.kernel := Heap.not_live_empty
  have hkeep : ∀ system call, (∃ commands, Stores system.kernel commands) →
      ∃ commands, Stores (device.next system call).kernel commands := by
    rintro system call ⟨commands, hstores⟩
    exact ⟨_, hstores.next call⟩
  constructor
  · apply Machine.always_iff_meets fun system call h _ ↦ hkeep system call h
    · rintro system call ⟨commands, added, hsound, -⟩ howned
      cases call with
      | write file call => exact hsound.owned_write_iff howned _ call
      | read file count copied => exact ⟨fun _ ↦ trivial, fun _ ↦ howned⟩
      | llseek file offset whence => exact ⟨fun _ ↦ trivial, fun _ ↦ howned⟩
      | ioctl file cmd arg => exact ⟨fun _ ↦ trivial, fun _ ↦ howned⟩
    · exact ⟨[], Stores.loaded⟩
    · exact fun block hlive ↦ absurd hlive (hloaded block)
  · have hstep : ∀ system call, Unallocated (device.next system call).kernel ↔
        Unallocated system.kernel ∧ call.AllocatesNothing system := by
      intro system call
      cases call with
      | write file call => exact unallocated_write_iff _ call system.kernel
      | read file count copied => exact ⟨fun hnone ↦ ⟨hnone, trivial⟩, fun hboth ↦ hboth.1⟩
      | llseek file offset whence => exact ⟨fun hnone ↦ ⟨hnone, trivial⟩, fun hboth ↦ hboth.1⟩
      | ioctl file cmd arg => exact ⟨fun hnone ↦ ⟨hnone, trivial⟩, fun hboth ↦ hboth.1⟩
    calc
      Unallocated (aesdCleanupModule (device.run System.loaded calls).kernel) ↔
          device.Always (fun system ↦ Unallocated system.kernel) System.loaded calls :=
        (Machine.always_iff_last (fun system call hnext ↦ ((hstep system call).mp hnext).1)
          System.loaded calls).symm
      _ ↔ device.Meets Call.AllocatesNothing System.loaded calls :=
        Machine.always_iff_meets (fun system call h _ ↦ hkeep system call h)
          (fun system call _ hnone ↦ ⟨fun hnext ↦ ((hstep system call).mp hnext).2,
            fun hrefused ↦ (hstep system call).mpr ⟨hnone, hrefused⟩⟩)
          ⟨[], Stores.loaded⟩ hloaded calls

def elevenCalls : List Call := List.replicate 11 (.write 0 (.complete [newline]))

/-- The eleventh commit overwrites the slot of block 0, which nothing refers to any more; and it
stays live when the module is unloaded. -/
theorem eleventh_commit_loses_block :
    ¬ device.Always (fun system ↦ Owned system.kernel) System.loaded elevenCalls ∧
      ¬ Unallocated (aesdCleanupModule (device.run System.loaded elevenCalls).kernel) := by
  have hlive : (device.run System.loaded elevenCalls).kernel.heap.Live 0 := by decide +kernel
  have hnowhere : ∀ place, (entryAt (device.run System.loaded elevenCalls).kernel.dev
      place).buffptr ≠ some 0 := by
    rw [Option.forall]
    decide +kernel
  constructor
  · intro halways
    obtain ⟨place, hplace, -⟩ := halways.last 0 hlive
    exact hnowhere place hplace
  · exact fun hnone ↦ hnone 0 hlive

end Aesd.Driver
