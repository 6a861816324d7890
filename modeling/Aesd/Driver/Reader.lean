import Aesd.Driver.Read

/-!
# A file that is only read

The position of a file counts from the first byte still held, and a commit to a full ring moves
this first byte on. A file that is never sought therefore gets every committed byte at most once
and in order, whatever the other files do; what it misses is one byte for every evicted byte, and
nothing as long as nothing is evicted.
-/

namespace Aesd.Driver

open Foundation

def Call.readsFrom (file : ℕ) : Call → Bool
  | .read other _ _ => other == file
  | _ => false

def Call.NeverSeeks (file : ℕ) : Call → Prop
  | .llseek other _ _ => other ≠ file
  | .ioctl other _ _ => other ≠ file
  | _ => True

instance (file : ℕ) (call : Call) : Decidable (call.NeverSeeks file) :=
  match call with
  | .llseek other _ _ => inferInstanceAs (Decidable (other ≠ file))
  | .ioctl other _ _ => inferInstanceAs (Decidable (other ≠ file))
  | .write _ _ => isTrue trivial
  | .read _ _ _ => isTrue trivial

def delivered (file : ℕ) (system : System) (calls : List Call) : List UInt8 :=
  device.collect (fun call result ↦ if call.readsFrom file then result.data else []) system calls

/-- A file that has been given these bytes of the log stands behind them. -/
structure Reading (file : ℕ) (system : System) (commands : List (List UInt8))
    (seen : List UInt8) : Prop where
  stores : Stores system.kernel commands
  position_eq : system.fPos file = seen.length
  inRange : seen.length < 2 ^ 63
  sublist : seen.Sublist (commands.flatten.take (evictedBytes commands + seen.length))

theorem evictedBytes_mono (commands more : List (List UInt8)) :
    evictedBytes commands ≤ evictedBytes (commands ++ more) := by
  have hless : commands.length - maxWriteOperationsSupported ≤
      (commands ++ more).length - maxWriteOperationsSupported := by
    rw [List.length_append]
    omega
  calc
    evictedBytes commands = startOf commands (commands.length - maxWriteOperationsSupported) := rfl
    _ = startOf (commands ++ more) (commands.length - maxWriteOperationsSupported) := by
      rw [startOf, startOf, List.take_append_of_le_length (Nat.sub_le _ _)]
    _ ≤ startOf (commands ++ more)
        ((commands ++ more).length - maxWriteOperationsSupported) := startOf_mono _ hless
    _ = evictedBytes (commands ++ more) := rfl

section Step

variable {file : ℕ} {system : System} {commands : List (List UInt8)} {seen : List UInt8}

/-- A read that cannot copy delivers nothing and stays where it is. -/
theorem aesdRead_uncopied (kernel : Kernel) (count : ℕ) (fPos : ℤ) :
    (aesdRead kernel count false fPos).1.data = [] ∧
      (aesdRead kernel count false fPos).2 = fPos := by
  unfold aesdRead
  split
  · exact ⟨rfl, rfl⟩
  · exact ⟨rfl, rfl⟩

theorem Reading.read (h : Reading file system commands seen) (count : ℕ) (copied : Bool) :
    ∃ piece, (aesdRead system.kernel count copied (system.fPos file)).1.data = piece ∧
      Reading file (device.next system (.read file count copied)) commands (seen ++ piece) := by
  rw [device_next_read]
  cases copied with
  | false =>
    obtain ⟨hdata, hfPos⟩ := aesdRead_uncopied system.kernel count (system.fPos file)
    refine ⟨[], hdata, ?_⟩
    rw [List.append_nil, hfPos, Function.update_eq_self]
    exact h
  | true =>
    have hreads := h.stores.readsStream h.inRange count
    obtain ⟨piece, hread, hpiece, -, -⟩ := h.stores.aesdRead_eq h.inRange count
    have hbound := h.stores.length_content_lt
    have hfits := hpiece.length_le
    have hdata := hreads.data
    rw [hread] at hdata
    dsimp only at hdata
    rw [List.length_drop] at hfits
    rw [h.position_eq, hread]
    refine ⟨piece, rfl, h.stores, ?_, ?_, ?_⟩
    · rw [List.length_append]
      exact Function.update_self ..
    · have hinRange := h.inRange
      rw [List.length_append]
      omega
    · rw [List.length_append, ← Nat.add_assoc, List.take_add]
      exact h.sublist.append (hdata ▸ List.Sublist.refl _)

theorem Reading.write (h : Reading file system commands seen) (other : ℕ) (call : WriteCall) :
    Reading file (device.next system (.write other call))
      (commands ++ (device.emit system (.write other call)).committed.toList) seen where
  stores := h.stores.next (.write other call)
  position_eq := h.position_eq
  inRange := h.inRange
  sublist := by
    have hmore := evictedBytes_mono commands
      (device.emit system (.write other call)).committed.toList
    have hlonger : commands.flatten.take (evictedBytes commands + seen.length) <+:
        (commands ++ (device.emit system (.write other call)).committed.toList).flatten.take
          (evictedBytes (commands ++
            (device.emit system (.write other call)).committed.toList) + seen.length) := by
      rw [List.flatten_append, List.take_append]
      exact (List.take_prefix_take_left (Nat.add_le_add_right hmore _)).trans
        (List.prefix_append _ _)
    exact h.sublist.trans hlonger.sublist

theorem Reading.other (h : Reading file system commands seen) {other : ℕ} (hne : other ≠ file)
    (fPos : ℤ) :
    Reading file { system with fPos := Function.update system.fPos other fPos } commands seen where
  stores := h.stores
  position_eq := (Function.update_of_ne hne.symm _ _).trans h.position_eq
  inRange := h.inRange
  sublist := h.sublist

/-- Every call but a seek of the file itself keeps it reading. -/
theorem Reading.next (h : Reading file system commands seen) {call : Call}
    (hcall : call.NeverSeeks file) :
    Reading file (device.next system call)
      (commands ++ (device.emit system call).committed.toList)
      (seen ++ if call.readsFrom file then (device.emit system call).data else []) := by
  cases call with
  | write other call =>
    change Reading file _ _ (seen ++ [])
    rw [List.append_nil]
    exact h.write other call
  | read other count copied =>
    rw [device_emit_read, committed_aesdRead, Option.toList_none, List.append_nil]
    by_cases hsame : other = file
    · obtain ⟨piece, hpiece, hnext⟩ := h.read count copied
      subst hsame
      rw [Call.readsFrom, beq_self_eq_true, if_pos rfl, hpiece]
      exact hnext
    · rw [Call.readsFrom, beq_false_of_ne hsame, if_neg Bool.false_ne_true, List.append_nil]
      exact h.other hsame _
  | llseek other offset whence =>
    change Reading file _ (commands ++ []) (seen ++ [])
    rw [List.append_nil, List.append_nil]
    exact h.other hcall _
  | ioctl other cmd arg =>
    change Reading file _ (commands ++ []) (seen ++ [])
    rw [List.append_nil, List.append_nil]
    exact h.other hcall _

end Step

theorem Reading.run {file : ℕ} {system : System} {commands : List (List UInt8)}
    {seen : List UInt8} (h : Reading file system commands seen) {calls : List Call}
    (hcalls : ∀ call ∈ calls, call.NeverSeeks file) :
    Reading file (device.run system calls) (commands ++ commits system calls)
      (seen ++ delivered file system calls) := by
  induction calls generalizing system commands seen with
  | nil =>
    rw [commits, delivered, Machine.collect_nil, Machine.collect_nil, List.append_nil,
      List.append_nil]
    exact h
  | cons call rest ih =>
    rw [List.forall_mem_cons] at hcalls
    have hrest := ih (h.next hcalls.1) hcalls.2
    rw [List.append_assoc, List.append_assoc] at hrest
    exact hrest

theorem Reading.loaded (file : ℕ) : Reading file System.loaded [] [] where
  stores := Stores.loaded
  position_eq := rfl
  inRange := by decide
  sublist := List.Sublist.refl _

/-- **A reader gets the log once and in order.** In every run in which a file is never sought, what
its reads have returned so far are bytes of the committed commands in their order, none of them
twice; the file has come past as many more bytes as were evicted, and has got all of them if none
was. -/
theorem reader_gets_stream_once (calls : List Call) (file : ℕ)
    (hcalls : ∀ call ∈ calls, call.NeverSeeks file) :
    (device.run System.loaded calls).fPos file = (delivered file System.loaded calls).length ∧
    (delivered file System.loaded calls).Sublist
      ((commits System.loaded calls).flatten.take
        (evictedBytes (commits System.loaded calls) +
          (delivered file System.loaded calls).length)) ∧
    (evictedBytes (commits System.loaded calls) = 0 →
      delivered file System.loaded calls <+: (commits System.loaded calls).flatten) := by
  have h := (Reading.loaded file).run hcalls
  rw [List.nil_append, List.nil_append] at h
  refine ⟨h.position_eq, h.sublist, fun hnone ↦ ?_⟩
  have hsublist := h.sublist
  rw [hnone, Nat.zero_add] at hsublist
  have hwhole := hsublist.eq_of_length_le (List.length_take_le _ _)
  rw [hwhole]
  exact List.take_prefix _ _

/-- Two files read what one of them has written. -/
theorem reader_gets_stream_once_two :
    delivered 1 System.loaded [.write 0 (.complete [97, newline]), .read 1 1 true,
        .read 2 9 true, .read 1 9 true] <+:
      (commits System.loaded [.write 0 (.complete [97, newline]), .read 1 1 true,
        .read 2 9 true, .read 1 9 true]).flatten :=
  (reader_gets_stream_once _ 1 (by decide)).2.2 (by decide +kernel)

end Aesd.Driver
