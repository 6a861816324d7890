import Aesd.Driver.Statements

/-!
# Calls that never return

Calls made one after the other, each once the one before it has returned or never will. A write of
no bytes with no bytes pending never does: `kzalloc` of no bytes gives ZERO_SIZE_PTR, the search for
a newline behind it faults, and the thread dies with `dev->mtx` held. From then on a call that needs
the mutex waits for ever, and only requests that are turned down in front of it are still answered.
-/

namespace Aesd.Driver

open Foundation

/-- The system, and whether a thread has died with `dev->mtx` held. -/
structure Guarded where
  system : System
  held : Bool

/-- What a thread leaves that dies in the search: the pending entry refers to no block. -/
def System.faulted (system : System) : System :=
  { system with kernel := system.kernel.setEntry ⟨none, system.kernel.dev.entry.size⟩ }

/-- The driver under calls made one after the other. A call without an answer does not return. -/
def driver : Machine Guarded Call (Option Result) where
  step guarded call :=
    match enterCall ⟨call, guarded.system.fPos call.file⟩ with
    | .inr returned => (guarded, some returned.result)
    | .inl _ =>
      if guarded.held then (guarded, none)
      else if call.Faults guarded.system.kernel then (⟨guarded.system.faulted, true⟩, none)
      else
        let (system, result) := device.step guarded.system call
        (⟨system, false⟩, some result)

def Guarded.loaded : Guarded := ⟨System.loaded, false⟩

def Guarded.commits (guarded : Guarded) (calls : List Call) : List (List UInt8) :=
  driver.collect (fun _ answer ↦ (answer.bind Result.committed).toList) guarded calls

/-- The request is turned down in front of the mutex. -/
def Call.refused : Call → Bool
  | .ioctl _ cmd arg => cmd != aesdcharIocseekto || arg.isNone
  | _ => false

theorem isRight_enterCall (operation : Operation) :
    (enterCall operation).isRight = operation.call.refused := by
  obtain ⟨call, fPos⟩ := operation
  cases call with
  | write file call => rfl
  | read file count copied => rfl
  | llseek file offset whence => rfl
  | ioctl file cmd arg =>
    by_cases hcmd : cmd = aesdcharIocseekto
    · subst hcmd
      cases arg with
      | none => rfl
      | some seekto => rfl
    · have henter : enterCall ⟨.ioctl file cmd arg, fPos⟩ = .inr ⟨Result.of (-enotty), fPos⟩ := by
        simp only [enterCall, if_neg hcmd, ite_self]
      simp only [henter, Sum.isRight_inr, Call.refused, bne_iff_ne.mpr hcmd, Bool.true_or]

theorem device_step_of_enterCall {system : System} {call : Call} {returned : Return}
    (henter : enterCall ⟨call, system.fPos call.file⟩ = .inr returned) :
    device.step system call = (system, returned.result) := by
  cases call with
  | write file call => exact absurd henter Sum.inl_ne_inr
  | read file count copied => exact absurd henter Sum.inl_ne_inr
  | llseek file offset whence => exact absurd henter Sum.inl_ne_inr
  | ioctl file cmd arg =>
    obtain ⟨ret, hioctl, rfl⟩ := aesdIoctl_of_enterCall henter system.kernel.dev
    rw [Call.file] at hioctl
    simp only [device, hioctl, Function.update_eq_self]

theorem driver_step_eq (guarded : Guarded) (call : Call) :
    driver.step guarded call =
      if call.refused then (guarded, some (device.emit guarded.system call))
      else if guarded.held then (guarded, none)
      else if call.Faults guarded.system.kernel then (⟨guarded.system.faulted, true⟩, none)
      else (⟨device.next guarded.system call, false⟩, some (device.emit guarded.system call)) := by
  have hright := isRight_enterCall ⟨call, guarded.system.fPos call.file⟩
  simp only [driver]
  cases henter : enterCall ⟨call, guarded.system.fPos call.file⟩ with
  | inr returned =>
    have hrefused : call.refused = true := by
      rw [← hright, henter]
      rfl
    rw [if_pos hrefused, Machine.emit, device_step_of_enterCall henter]
  | inl start =>
    have hrefused : call.refused ≠ true := by
      rw [← hright, henter]
      exact Bool.false_ne_true
    rw [if_neg hrefused]
    rfl

/-- A call is left without an answer exactly if it waits for a mutex that is never released, or
takes it and does not come to its end. -/
theorem driver_emit_eq_none_iff (guarded : Guarded) (call : Call) :
    driver.emit guarded call = none ↔
      ∃ start, enterCall ⟨call, guarded.system.fPos call.file⟩ = .inl start ∧
        (guarded.held = true ∨
          ¬ ∃ kernel result, statements.Completes guarded.system.kernel start kernel result) := by
  cases henter : enterCall ⟨call, guarded.system.fPos call.file⟩ with
  | inr returned =>
    have hemit : driver.emit guarded call = some returned.result := by
      simp only [Machine.emit, driver, henter]
    simp only [hemit, reduceCtorEq, false_and, exists_false]
  | inl start =>
    simp only [Sum.inl.injEq, exists_eq_left', exists_completes_iff henter, not_not]
    by_cases hheld : guarded.held = true
    · simp only [Machine.emit, driver, henter, hheld, if_true, true_or]
    · by_cases hfaults : call.Faults guarded.system.kernel
      · simp only [Machine.emit, driver, henter, hheld, hfaults, if_true, or_true,
          Bool.false_eq_true, if_false]
      · simp only [Machine.emit, driver, henter, hheld, hfaults, if_false, or_self, reduceCtorEq,
          Bool.false_eq_true]

end Aesd.Driver
