import Aesd.Driver.Account

/-!
# The module from load to load

The device exists between `aesd_init_module` and `aesd_cleanup_module`, and files are open on it
in between. The kernel decides when each function of the module runs; what it promises is a
condition on the steps of a run. The files of one load share one log, which the next load starts
afresh. The blocks of all loads stay: `memset` forgets the pending one, and the ring of the load
before with it. A mutex that a write died with stays locked until a load initialises it.
-/

namespace Aesd.Driver

open Foundation

/-- The module and what the kernel keeps of it. -/
structure Host extends Guarded where
  /-- whether the device number is registered -/
  region : Bool
  /-- whether the module is loaded -/
  loaded : Bool
  /-- the files open on the device -/
  opened : List ℕ

/-- What the kernel calls the module for. -/
inductive HostCall where
  /-- the load, with the results of `alloc_chrdev_region` and `cdev_add` -/
  | init (region err : ℤ)
  | cleanup
  | opens (file : ℕ)
  | releases (file : ℕ)
  | operates (call : Call)

/-- `aesd_open`: a new file starts at position 0. -/
def aesdOpen (system : System) (file : ℕ) : System × ℤ :=
  ({ system with fPos := Function.update system.fPos file 0 }, 0)

def aesdRelease (system : System) : System × ℤ := (system, 0)

/-- The device number after `aesd_init_module`: `alloc_chrdev_region` registers it, and it is given
back when `aesd_setup_cdev` fails. -/
def numberAfterInit (number : Bool) (dev : AesdDev) (region err : ℤ) : Bool :=
  if region < 0 then number else (aesdInitModule dev region err).2 == 0

/-- The mutex after `aesd_init_module`: `aesd_setup_cdev` initialises it, whatever has become of it
in the load before. -/
def heldAfterInit (held : Bool) (region : ℤ) : Bool := if region < 0 then held else false

/-- The module under the kernel. A load that returns an error leaves no module. An operation that
does not return has no result. -/
def lifecycle : Machine Host HostCall (Option Result) where
  step host
    | .init region err =>
      let (dev, result) := aesdInitModule host.system.kernel.dev region err
      ({ host with
          system := { host.system with kernel := { host.system.kernel with dev := dev } }
          held := heldAfterInit host.held region
          region := numberAfterInit host.region host.system.kernel.dev region err
          loaded := result == 0 },
        some (Result.of result))
    | .cleanup =>
      ({ host with
          system := { host.system with kernel := aesdCleanupModule host.system.kernel }
          region := false
          loaded := false },
        some (Result.of 0))
    | .opens file =>
      let (system, ret) := aesdOpen host.system file
      ({ host with system := system, opened := file :: host.opened }, some (Result.of ret))
    | .releases file =>
      let (system, ret) := aesdRelease host.system
      ({ host with system := system, opened := host.opened.erase file }, some (Result.of ret))
    | .operates call =>
      let (guarded, answer) := driver.step host.toGuarded call
      ({ host with toGuarded := guarded }, answer)

/-- What the kernel promises: a module is loaded once at a time and unloaded while no file holds
it, a file is opened on a registered device only, and operations are called on open files. -/
def Promised (host : Host) : HostCall → Prop
  | .init region err => host.loaded = false ∧ region ≤ 0 ∧ err ≤ 0
  | .cleanup => host.loaded = true ∧ host.opened = []
  | .opens file => host.system.kernel.dev.cdev = true ∧ file ∉ host.opened
  | .releases file => file ∈ host.opened
  | .operates call => call.file ∈ host.opened

def Host.fresh : Host where
  system := ⟨⟨Heap.empty, AesdDev.zeroed⟩, fun _ ↦ 0⟩
  held := false
  region := false
  loaded := false
  opened := []

/-! ## What a run says -/

/-- What a step enters into the log: a load that succeeds, or a committed command. -/
def HostCall.logs : HostCall → Option Result → List (Option (List UInt8))
  | .init _ _, answer => if answer.map Result.ret = some 0 then [none] else []
  | _, answer => (answer.bind Result.committed).toList.map some

def history (events : List HostCall) : List (Option (List UInt8)) :=
  lifecycle.collect HostCall.logs Host.fresh events

def sinceLoad (log : List (Option (List UInt8))) : List (List UInt8) :=
  log.foldl (fun commands entry ↦ entry.elim [] fun command ↦ commands ++ [command]) []

/-- What a step forgets: the write may abandon the pending block, and `memset` does. -/
def HostCall.forgets (host : Host) : HostCall → List ℕ
  | .init region _ =>
    if region < 0 then [] else host.system.kernel.dev.entry.buffptr.toList
  | .operates call => host.toGuarded.abandons call
  | _ => []

/-- The blocks the pending entry of a load came to forget in the run. -/
def forgotten (events : List HostCall) : List ℕ :=
  lifecycle.gather HostCall.forgets Host.fresh events

/-- The parts of the host agree on whether there is a device. -/
structure Host.Consistent (host : Host) : Prop where
  region_eq : host.region = host.loaded
  cdev_eq : host.system.kernel.dev.cdev = host.loaded
  opened_nodup : host.opened.Nodup
  opened_eq_nil : host.loaded = false → host.opened = []

/-! ## The parts of the host agree -/

section Consistent

variable {host : Host}

theorem aesdInitModule_of_refused (dev : AesdDev) {region : ℤ} (err : ℤ) (h : region < 0) :
    aesdInitModule dev region err = (dev, region) := if_pos h

theorem aesdInitModule_of_registered (dev : AesdDev) {region : ℤ} (err : ℤ) (h : ¬ region < 0) :
    aesdInitModule dev region err = ({ AesdDev.zeroed with cdev := err == 0 }, err) := if_neg h

theorem Host.Consistent.fresh : Host.fresh.Consistent where
  region_eq := rfl
  cdev_eq := rfl
  opened_nodup := List.nodup_nil
  opened_eq_nil := fun _ ↦ rfl

/-- The load fails as a whole: where `cdev_add` fails the device number is given back. -/
theorem Host.Consistent.init (h : host.Consistent) {region : ℤ} (err : ℤ)
    (hunloaded : host.loaded = false) :
    (lifecycle.next host (.init region err)).Consistent := by
  have hopened := h.opened_eq_nil hunloaded
  by_cases hregion : region < 0
  · have hne : (region == 0) = false := beq_eq_false_iff_ne.mpr (Int.ne_of_lt hregion)
    have hinit := aesdInitModule_of_refused host.system.kernel.dev err hregion
    have hnext : lifecycle.next host (.init region err) = { host with loaded := false } := by
      simp only [Machine.next, lifecycle, hinit, hne, numberAfterInit, heldAfterInit,
        if_pos hregion]
    rw [hnext, ← hunloaded]
    exact h
  · have hinit := aesdInitModule_of_registered host.system.kernel.dev err hregion
    have hnumber : numberAfterInit host.region host.system.kernel.dev region err = (err == 0) := by
      rw [numberAfterInit, if_neg hregion, hinit]
    constructor
    · simp only [Machine.next, lifecycle, hnumber, hinit]
    · simp only [Machine.next, lifecycle, hinit]
    · exact h.opened_nodup
    · exact fun _ ↦ hopened

theorem cdev_device_next (system : System) (call : Call) :
    (device.next system call).kernel.dev.cdev = system.kernel.dev.cdev := by
  cases call with
  | write file call =>
    rw [device_next_write, aesdWrite]
    by_cases hserved : Served call system.kernel
    · rw [aesdWriteWith_of_served hserved]
      split
      · rfl
      · rfl
    · rw [aesdWriteWith_of_not_served hserved]
  | read file count copied => rfl
  | llseek file offset whence => rfl
  | ioctl file cmd arg => rfl

theorem cdev_driver_next (guarded : Guarded) (call : Call) :
    (driver.next guarded call).system.kernel.dev.cdev = guarded.system.kernel.dev.cdev := by
  rw [Machine.next, driver_step_eq]
  split
  · rfl
  · split
    · rfl
    · split
      · rfl
      · exact cdev_device_next guarded.system call

theorem Host.Consistent.next (h : host.Consistent) {event : HostCall}
    (hpromised : Promised host event) : (lifecycle.next host event).Consistent := by
  cases event with
  | init region err => exact h.init err hpromised.1
  | cleanup =>
    exact ⟨rfl, rfl, h.opened_nodup, fun _ ↦ hpromised.2⟩
  | opens file =>
    obtain ⟨hcdev, hnew⟩ := hpromised
    refine ⟨h.region_eq, h.cdev_eq, List.nodup_cons.mpr ⟨hnew, h.opened_nodup⟩, ?_⟩
    intro hunloaded
    have hloaded : host.loaded = true := h.cdev_eq.symm.trans hcdev
    exact absurd (hloaded.symm.trans hunloaded) (by decide)
  | releases file =>
    refine ⟨h.region_eq, h.cdev_eq, h.opened_nodup.erase file, fun hunloaded ↦ ?_⟩
    change host.opened.erase file = []
    rw [h.opened_eq_nil hunloaded, List.erase_nil]
  | operates call =>
    exact ⟨h.region_eq, (cdev_driver_next host.toGuarded call).trans h.cdev_eq, h.opened_nodup,
      h.opened_eq_nil⟩

end Consistent

/-! ## The blocks of all loads -/

abbrev Retains (heap : Heap UInt8) (block : ℕ) (command : List UInt8) : Prop :=
  command <+: heap.read (some block)

/-- Commands stay where they are in blocks that are left alone. -/
theorem forall₂_retains_of_read {heap heap' : Heap UInt8} {blocks : List ℕ}
    {commands : List (List UInt8)} (h : List.Forall₂ (Retains heap) blocks commands)
    (hread : ∀ block ∈ blocks, heap'.read (some block) = heap.read (some block)) :
    List.Forall₂ (Retains heap') blocks commands := by
  induction h with
  | nil => exact List.Forall₂.nil
  | @cons block command blocks commands hblock _ ih =>
    rw [List.forall_mem_cons] at hread
    refine List.Forall₂.cons ?_ (ih hread.2)
    unfold Retains
    rw [hread.1]
    exact hblock

section Account

variable {kernel : Kernel} {added : List BufferEntry} {blocks abandoned : List ℕ}

theorem heap_aesdWriteWith (newlineFound : List UInt8 → Bool) (call : WriteCall)
    (kernel : Kernel) :
    (aesdWriteWith newlineFound call kernel).1.heap =
      if Served call kernel then writtenHeap call kernel else kernel.heap := by
  by_cases hserved : Served call kernel
  · rw [aesdWriteWith_of_served hserved, if_pos hserved]
    split
    · rfl
    · rfl
  · rw [aesdWriteWith_of_not_served hserved, if_neg hserved]

/-- A write leaves the abandoned blocks alone. -/
theorem Accounted.read_write (h : Accounted kernel added blocks abandoned)
    (newlineFound : List UInt8 → Bool) (call : WriteCall) {block : ℕ} (hblock : block ∈ abandoned) :
    (aesdWriteWith newlineFound call kernel).1.heap.read (some block) =
      kernel.heap.read (some block) := by
  rw [heap_aesdWriteWith]
  split
  · apply read_writtenHeap_of_live
    · apply (h.inventory.live_iff block).mpr
      exact List.mem_append_right _ (List.mem_append_right _ hblock)
    · unfold releasedBlock
      split
      · exact (Option.some_ne_none block).symm
      · intro hpending
        have hapart := (List.nodup_append.mp (List.nodup_append.mp h.inventory.nodup).2.1).2.2
        exact hapart block (Option.mem_toList.mpr hpending) block hblock rfl
  · rfl

/-- Registering the device or not is nothing to the account. -/
theorem Accounted.cleanup (h : Accounted kernel added blocks abandoned) :
    Accounted (aesdCleanupModule kernel) added blocks abandoned where
  sound := ⟨h.sound.ring, h.sound.addedLive, h.sound.addedSize, h.sound.distinct,
    h.sound.pendingLive, h.sound.pendingSize, h.sound.apart⟩
  blocks_eq := h.blocks_eq
  inventory := h.inventory

/-- Clearing the device turns all its blocks into abandoned ones. -/
theorem Accounted.zeroed (h : Accounted kernel added blocks abandoned) (cdev : Bool) :
    Accounted ⟨kernel.heap, { AesdDev.zeroed with cdev := cdev }⟩ [] []
      (blocks ++ (kernel.dev.entry.buffptr.toList ++ abandoned)) where
  sound :=
    { ring := CircularBuffer.holds_init
      addedLive := fun _ hentry ↦ absurd hentry List.not_mem_nil
      addedSize := fun _ hentry ↦ absurd hentry List.not_mem_nil
      distinct := List.Pairwise.nil
      pendingLive := fun block hpointer ↦ absurd hpointer.symm (Option.some_ne_none block)
      pendingSize := Nat.zero_le _
      apart := fun _ hentry ↦ absurd hentry List.not_mem_nil }
  blocks_eq := rfl
  inventory := h.inventory

end Account

/-! ## The log and the account of a run -/

theorem sinceLoad_load (log : List (Option (List UInt8))) : sinceLoad (log ++ [none]) = [] := by
  rw [sinceLoad, List.foldl_append]
  rfl

theorem sinceLoad_committed (log : List (Option (List UInt8))) (committed : Option (List UInt8)) :
    sinceLoad (log ++ committed.toList.map some) = sinceLoad log ++ committed.toList := by
  cases committed with
  | none => simp only [Option.toList_none, List.map_nil, List.append_nil]
  | some command =>
    rw [sinceLoad, List.foldl_append]
    rfl

theorem reduceOption_committed (committed : Option (List UInt8)) :
    (committed.toList.map some).reduceOption = committed.toList := by
  cases committed with
  | none => rfl
  | some command => rfl

/-- The commands of the present load are in the ring and those of the loads before in the blocks
`earlier`; a module that is loaded has the log since its load. -/
structure Host.Ledger (host : Host) (log : List (Option (List UInt8))) (lost : List ℕ)
    (added : List BufferEntry) (blocks earlier : List ℕ) (old : List (List UInt8)) : Prop where
  account : Accounted host.system.kernel added blocks (earlier ++ lost)
  retained : List.Forall₂ (Retains host.system.kernel.heap) earlier old
  sinceLoad_eq : host.loaded = true →
    added.map (entryBytes host.system.kernel.heap) = sinceLoad log
  commands_eq : log.reduceOption = old ++ added.map (entryBytes host.system.kernel.heap)

/-- The parts of the host agree, and some ledger accounts for the log and the forgotten blocks. -/
structure Host.Kept (host : Host) (log : List (Option (List UInt8))) (lost : List ℕ) : Prop where
  consistent : host.Consistent
  ledger : ∃ added blocks earlier old, host.Ledger log lost added blocks earlier old

namespace Host

variable {host : Host} {log : List (Option (List UInt8))} {lost blocks earlier : List ℕ}
  {added : List BufferEntry} {old : List (List UInt8)}

theorem Kept.fresh : Host.fresh.Kept [] [] where
  consistent := Consistent.fresh
  ledger :=
    ⟨[], [], [], [], Accounted.loaded.zeroed false, List.Forall₂.nil, fun _ ↦ rfl, rfl⟩

theorem Ledger.idle (h : host.Ledger log lost added blocks earlier old) {host' : Host}
    (hkernel : host'.system.kernel = host.system.kernel) (hloaded : host'.loaded = host.loaded) :
    host'.Ledger (log ++ []) (lost ++ []) added blocks earlier old := by
  rw [List.append_nil, List.append_nil]
  constructor
  · rw [hkernel]
    exact h.account
  · rw [hkernel]
    exact h.retained
  · rw [hkernel, hloaded]
    exact h.sinceLoad_eq
  · rw [hkernel]
    exact h.commands_eq

/-- After `memset` the commands of the ring are those of an earlier load. -/
theorem Ledger.zeroed (h : host.Ledger log lost added blocks earlier old) {host' : Host}
    {cdev : Bool}
    (hkernel : host'.system.kernel =
      ⟨host.system.kernel.heap, { AesdDev.zeroed with cdev := cdev }⟩)
    {entries : List (Option (List UInt8))} (hentries : entries.reduceOption = [])
    (hload : host'.loaded = true → sinceLoad (log ++ entries) = []) :
    host'.Ledger (log ++ entries) (lost ++ host.system.kernel.dev.entry.buffptr.toList) [] []
      (earlier ++ blocks) (old ++ added.map (entryBytes host.system.kernel.heap)) := by
  constructor
  · rw [hkernel]
    have hzeroed := h.account.zeroed cdev
    refine ⟨hzeroed.sound, rfl, hzeroed.inventory.perm ?_⟩
    calc
      (blocks ++ (host.system.kernel.dev.entry.buffptr.toList ++ (earlier ++ lost))).Perm
          (host.system.kernel.dev.entry.buffptr.toList ++ (earlier ++ lost) ++ blocks) :=
        List.perm_append_comm
      List.Perm _ (earlier ++ lost ++ host.system.kernel.dev.entry.buffptr.toList ++ blocks) :=
        List.perm_append_comm.append_right blocks
      _ = earlier ++ (lost ++ host.system.kernel.dev.entry.buffptr.toList ++ blocks) := by
        simp only [List.append_assoc]
      List.Perm _ (earlier ++
          (blocks ++ (lost ++ host.system.kernel.dev.entry.buffptr.toList))) :=
        List.perm_append_comm.append_left earlier
      _ = earlier ++ blocks ++ (lost ++ host.system.kernel.dev.entry.buffptr.toList) :=
        (List.append_assoc _ _ _).symm
  · rw [hkernel]
    exact List.rel_append h.retained h.account.forall₂_blocks
  · exact fun hloaded ↦ (hload hloaded).symm
  · rw [List.reduceOption_append, h.commands_eq, hentries, List.append_nil]
    exact (List.append_nil _).symm

/-- A write adds to the ring what it commits, and to the forgotten blocks what it abandons. -/
theorem Ledger.write (h : host.Ledger log lost added blocks earlier old)
    (newlineFound : List UInt8 → Bool) (call : WriteCall) {host' : Host}
    (hkernel : host'.system.kernel = (aesdWriteWith newlineFound call host.system.kernel).1)
    (hloaded : host'.loaded = host.loaded) :
    ∃ added' blocks', host'.Ledger
      (log ++ (aesdWriteWith newlineFound call host.system.kernel).2.committed.toList.map some)
      (lost ++ (abandonedBlock call host.system.kernel).toList) added' blocks' earlier old := by
  obtain ⟨more, newBlocks, haccount, hbytes⟩ := h.account.write newlineFound call
  refine ⟨added ++ more, blocks ++ newBlocks, ?_⟩
  constructor
  · rw [hkernel, ← List.append_assoc]
    exact haccount
  · rw [hkernel]
    apply forall₂_retains_of_read h.retained
    intro block hblock
    exact h.account.read_write newlineFound call (List.mem_append_left _ hblock)
  · intro hyes
    rw [hkernel, hbytes, sinceLoad_committed, h.sinceLoad_eq (hloaded.symm.trans hyes)]
  · rw [hkernel, hbytes, List.reduceOption_append, h.commands_eq, reduceOption_committed,
      List.append_assoc]

theorem Kept.init (h : host.Kept log lost) {region err : ℤ}
    (hpromised : Promised host (.init region err)) :
    (lifecycle.next host (.init region err)).Kept
      (log ++ HostCall.logs (.init region err) (lifecycle.emit host (.init region err)))
      (lost ++ HostCall.forgets host (.init region err)) := by
  refine ⟨h.consistent.next hpromised, ?_⟩
  obtain ⟨added, blocks, earlier, old, hledger⟩ := h.ledger
  by_cases hregion : region < 0
  · have hinit := aesdInitModule_of_refused host.system.kernel.dev err hregion
    have hresult : (lifecycle.emit host (.init region err)).map Result.ret = some region := by
      simp only [Machine.emit, lifecycle, hinit, Result.of, Option.map_some]
    have hfails : some region ≠ some 0 := fun hzero ↦ Int.ne_of_lt hregion (Option.some.inj hzero)
    rw [HostCall.logs, hresult, if_neg hfails, HostCall.forgets, if_pos hregion]
    refine ⟨added, blocks, earlier, old, hledger.idle ?_ ?_⟩
    · simp only [Machine.next, lifecycle, hinit]
    · simp only [Machine.next, lifecycle, hinit]
      rw [hpromised.1]
      exact beq_eq_false_iff_ne.mpr (Int.ne_of_lt hregion)
  · have hinit := aesdInitModule_of_registered host.system.kernel.dev err hregion
    have hresult : (lifecycle.emit host (.init region err)).map Result.ret = some err := by
      simp only [Machine.emit, lifecycle, hinit, Result.of, Option.map_some]
    have hkernel : (lifecycle.next host (.init region err)).system.kernel =
        ⟨host.system.kernel.heap, { AesdDev.zeroed with cdev := err == 0 }⟩ := by
      simp only [Machine.next, lifecycle, hinit]
    rw [HostCall.logs, hresult, HostCall.forgets, if_neg hregion]
    refine ⟨[], [], _, _, hledger.zeroed hkernel ?_ ?_⟩
    · split
      · rfl
      · rfl
    · intro hloaded
      simp only [Machine.next, lifecycle, hinit, beq_iff_eq] at hloaded
      rw [if_pos (congrArg some hloaded)]
      exact sinceLoad_load log

theorem Ledger.device_next (h : host.Ledger log lost added blocks earlier old) (call : Call)
    {host' : Host} (hkernel : host'.system.kernel = (device.next host.system call).kernel)
    (hloaded : host'.loaded = host.loaded) :
    ∃ added' blocks', host'.Ledger
      (log ++ (device.emit host.system call).committed.toList.map some)
      (lost ++ call.abandons host.system) added' blocks' earlier old := by
  cases call with
  | write file call => exact h.write (strchrNewline call.beyond) call hkernel hloaded
  | read file count copied =>
    rw [device_emit_read, committed_aesdRead]
    exact ⟨added, blocks, h.idle hkernel hloaded⟩
  | llseek file offset whence => exact ⟨added, blocks, h.idle hkernel hloaded⟩
  | ioctl file cmd arg => exact ⟨added, blocks, h.idle hkernel hloaded⟩

theorem Ledger.faulted (h : host.Ledger log lost added blocks earlier old) {host' : Host}
    (hkernel : host'.system.kernel = host.system.faulted.kernel)
    (hloaded : host'.loaded = host.loaded) :
    host'.Ledger (log ++ []) (lost ++ host.system.kernel.dev.entry.buffptr.toList) added blocks
      earlier old := by
  rw [List.append_nil]
  constructor
  · rw [hkernel, ← List.append_assoc]
    exact h.account.detached
  · rw [hkernel]
    exact h.retained
  · rw [hkernel, hloaded]
    exact h.sinceLoad_eq
  · rw [hkernel]
    exact h.commands_eq

theorem Kept.operates (h : host.Kept log lost) {call : Call}
    (hpromised : Promised host (.operates call)) :
    (lifecycle.next host (.operates call)).Kept
      (log ++ ((driver.emit host.toGuarded call).bind Result.committed).toList.map some)
      (lost ++ host.toGuarded.abandons call) := by
  refine ⟨h.consistent.next hpromised, ?_⟩
  obtain ⟨added, blocks, earlier, old, hledger⟩ := h.ledger
  have hsystem : (lifecycle.next host (.operates call)).system =
      (driver.step host.toGuarded call).1.system := rfl
  rw [driver_step_eq] at hsystem
  rw [Machine.emit, driver_step_eq, Guarded.abandons]
  by_cases hrefused : call.refused = true
  · obtain ⟨hcommitted, habandons⟩ := abandons_of_refused hrefused host.system
    rw [if_pos hrefused] at hsystem
    rw [if_pos hrefused, habandons, ite_self, Option.bind_some, hcommitted]
    exact ⟨added, blocks, earlier, old, hledger.idle (congrArg System.kernel hsystem) rfl⟩
  · rw [if_neg hrefused] at hsystem ⊢
    by_cases hheld : host.held = true
    · rw [if_pos hheld] at hsystem
      rw [if_pos hheld, if_pos hheld]
      exact ⟨added, blocks, earlier, old, hledger.idle (congrArg System.kernel hsystem) rfl⟩
    · rw [if_neg hheld] at hsystem
      rw [if_neg hheld, if_neg hheld]
      by_cases hfaults : call.Faults host.system.kernel
      · rw [if_pos hfaults] at hsystem
        rw [if_pos hfaults, abandons_of_faults hfaults]
        exact ⟨added, blocks, earlier, old, hledger.faulted (congrArg System.kernel hsystem) rfl⟩
      · rw [if_neg hfaults] at hsystem
        rw [if_neg hfaults]
        obtain ⟨added', blocks', hnext⟩ :=
          hledger.device_next call (congrArg System.kernel hsystem) rfl
        exact ⟨added', blocks', earlier, old, hnext⟩

theorem Kept.next (h : host.Kept log lost) {event : HostCall} (hpromised : Promised host event) :
    (lifecycle.next host event).Kept (log ++ event.logs (lifecycle.emit host event))
      (lost ++ event.forgets host) := by
  cases event with
  | init region err => exact h.init hpromised
  | cleanup =>
    refine ⟨h.consistent.next hpromised, ?_⟩
    obtain ⟨added, blocks, earlier, old, hledger⟩ := h.ledger
    refine ⟨added, blocks, earlier, old, ?_⟩
    have hlogs : HostCall.logs .cleanup (lifecycle.emit host .cleanup) = [] := rfl
    have hforgets : HostCall.forgets host .cleanup = [] := rfl
    rw [hlogs, hforgets, List.append_nil, List.append_nil]
    exact ⟨hledger.account.cleanup, hledger.retained,
      fun hloaded ↦ absurd hloaded Bool.false_ne_true, hledger.commands_eq⟩
  | opens file =>
    obtain ⟨added, blocks, earlier, old, hledger⟩ := h.ledger
    exact ⟨h.consistent.next hpromised, added, blocks, earlier, old, hledger.idle rfl rfl⟩
  | releases file =>
    obtain ⟨added, blocks, earlier, old, hledger⟩ := h.ledger
    exact ⟨h.consistent.next hpromised, added, blocks, earlier, old, hledger.idle rfl rfl⟩
  | operates call => exact h.operates hpromised

theorem kept_run {events : List HostCall} (hpromised : lifecycle.Meets Promised fresh events) :
    (lifecycle.run fresh events).Kept (history events) (forgotten events) :=
  Machine.collect_gather_run Kept HostCall.logs HostCall.forgets
    (fun _ _ _ _ h hstep ↦ h.next hstep) Kept.fresh hpromised

end Host

/-- **The module over all its loads.** Whenever the kernel loads and unloads the module, opens and
releases files and calls operations on them, the device number is registered exactly while the
module is loaded, and so is the device, and no file is open on a module that is gone. A loaded
module implements the log of the commands since its load. The live blocks are one for each command
committed in any load, with its bytes, the pending block and the forgotten ones. -/
theorem loads_accounted {events : List HostCall}
    (hpromised : lifecycle.Meets Promised Host.fresh events) :
    (lifecycle.run Host.fresh events).Consistent ∧
      ((lifecycle.run Host.fresh events).loaded = true →
        Stores (lifecycle.run Host.fresh events).system.kernel (sinceLoad (history events))) ∧
      ∃ blocks,
        List.Forall₂ (fun block command ↦
            command <+: (lifecycle.run Host.fresh events).system.kernel.heap.read (some block))
          blocks (history events).reduceOption ∧
        (lifecycle.run Host.fresh events).system.kernel.heap.Inventory
          (blocks ++
            ((lifecycle.run Host.fresh events).system.kernel.dev.entry.buffptr.toList ++
              forgotten events)) := by
  obtain ⟨hconsistent, added, blocks, earlier, old, hledger⟩ := Host.kept_run hpromised
  refine ⟨hconsistent, ?_, earlier ++ blocks, ?_, ?_⟩
  · intro hloaded
    exact ⟨added, hledger.account.sound, hledger.sinceLoad_eq hloaded⟩
  · rw [hledger.commands_eq]
    exact List.rel_append hledger.retained hledger.account.forall₂_blocks
  · apply hledger.account.inventory.perm
    generalize (lifecycle.run Host.fresh events).system.kernel.dev.entry.buffptr.toList = pending
    calc
      (blocks ++ (pending ++ (earlier ++ forgotten events))).Perm
          (blocks ++ (earlier ++ (pending ++ forgotten events))) := by
        apply List.Perm.append_left
        rw [← List.append_assoc, ← List.append_assoc]
        exact List.perm_append_comm.append_right _
      List.Perm _ (earlier ++ blocks ++ (pending ++ forgotten events)) := by
        rw [← List.append_assoc]
        exact List.perm_append_comm.append_right _

/-- A load whose `cdev_add` fails, and three that succeed. The first leaves a command and another
pending, in the second a write dies with the mutex held, in the third a command is written. -/
def threeLoads : List HostCall :=
  [.init 0 (-16), .init 0 0, .opens 3, .operates (.write 3 (.complete [97, newline])),
    .operates (.write 3 (.complete [98])), .releases 3, .cleanup,
    .init 0 0, .opens 3, .operates (.write 3 (.complete [])), .releases 3, .cleanup,
    .init 0 0, .opens 3, .operates (.write 3 (.complete [99, newline]))]

/-- The last load has the last command only, and the blocks of the other one and of what was pending
are left. -/
theorem loads_accounted_three :
    (lifecycle.run Host.fresh threeLoads).Consistent ∧
      Stores (lifecycle.run Host.fresh threeLoads).system.kernel [[99, newline]] ∧
      ∃ first second,
        [97, newline] <+:
          (lifecycle.run Host.fresh threeLoads).system.kernel.heap.read (some first) ∧
        [99, newline] <+:
          (lifecycle.run Host.fresh threeLoads).system.kernel.heap.read (some second) ∧
        (lifecycle.run Host.fresh threeLoads).system.kernel.heap.Inventory [first, second, 1] := by
  have hpromised : lifecycle.Meets Promised Host.fresh threeLoads :=
    ⟨⟨rfl, by decide, by decide⟩, ⟨rfl, by decide, by decide⟩, ⟨rfl, List.not_mem_nil⟩,
      List.mem_cons_self, List.mem_cons_self, List.mem_cons_self, ⟨rfl, rfl⟩,
      ⟨rfl, by decide, by decide⟩, ⟨rfl, List.not_mem_nil⟩, List.mem_cons_self,
      List.mem_cons_self, ⟨rfl, rfl⟩,
      ⟨rfl, by decide, by decide⟩, ⟨rfl, List.not_mem_nil⟩, List.mem_cons_self, trivial⟩
  have hhistory : history threeLoads =
      [none, some [97, newline], none, none, some [99, newline]] := by decide +kernel
  have hforgotten : forgotten threeLoads = [1] := by decide +kernel
  obtain ⟨hconsistent, hstores, blocks, hblocks, hinventory⟩ := loads_accounted hpromised
  rw [hhistory] at hstores hblocks
  rw [hforgotten] at hinventory
  obtain ⟨first, rest, hfirst, hrest, rfl⟩ := List.forall₂_cons_right_iff.mp hblocks
  obtain ⟨second, left, hsecond, hleft, rfl⟩ := List.forall₂_cons_right_iff.mp hrest
  obtain rfl := List.forall₂_nil_right_iff.mp hleft
  have hloaded : (lifecycle.run Host.fresh threeLoads).loaded = true := by decide +kernel
  exact ⟨hconsistent, hstores hloaded, first, second, hfirst, hsecond, hinventory⟩

end Aesd.Driver
