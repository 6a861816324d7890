import Aesd.Driver.Statements
import Aesd.Foundation.LockProgress

/-!
# Concurrent calls

Any number of threads call the driver, and the scheduler runs their statements in any order that
`dev->mtx` allows. A thread stands for one call at the position it is given, so a process that makes
one call after another is several threads, each scheduled once the one before it has returned, and
two threads that share an open file may be given the same position.
-/

namespace Aesd.Driver

open Foundation

variable {Thread : Type*} [DecidableEq Thread]

def scheduled (calls : Thread → Operation) (kernel : Kernel) (schedule : List Thread) :
    Contention Thread Kernel Place Return :=
  (statements.contend calls).run (CriticalSection.waiting kernel) schedule

/-- The threads that have taken `dev->mtx`, in the order in which they took it. -/
def mtxOrder (calls : Thread → Operation) (kernel : Kernel) (schedule : List Thread) :
    List Thread :=
  statements.lockOrder calls (CriticalSection.waiting kernel) schedule

theorem scheduled_serial (calls : Thread → Operation) (kernel : Kernel) (schedule : List Thread) :
    statements.Serial operations calls kernel (scheduled calls kernel schedule)
      (mtxOrder calls kernel schedule) :=
  CriticalSection.contend_serial statements_whole calls kernel schedule

theorem scheduled_holderInside (calls : Thread → Operation) (kernel : Kernel)
    (schedule : List Thread) : CriticalSection.HolderInside (scheduled calls kernel schedule) :=
  (CriticalSection.HolderInside.waiting kernel).run statements_ne_forgets schedule

/-- **Concurrent calls take turns.** At the positions they are given, their results and the
positions they leave are those of the same calls made one after the other in the order in which they
took the mutex, and this order only ever grows at its end. -/
theorem calls_take_turns (calls : Thread → Operation) (kernel : Kernel)
    (schedule later : List Thread) :
    CriticalSection.InTurn operations calls kernel (scheduled calls kernel schedule)
        (mtxOrder calls kernel schedule) ∧
      mtxOrder calls kernel schedule <+: mtxOrder calls kernel (schedule ++ later) :=
  ⟨(scheduled_serial calls kernel schedule).inTurn statements_whole,
    CriticalSection.lockOrder_prefix ..⟩

/-- In whatever order the calls are made, none of them faults at its turn. -/
def NeverFault (calls : Thread → Operation) (kernel : Kernel) : Prop :=
  ∀ before thread, (before ++ [thread]).Nodup →
    ¬ (calls thread).call.Faults (operations.run kernel (before.map calls))

omit [DecidableEq Thread] in
theorem endsInTurn_iff_neverFault (calls : Thread → Operation) (kernel : Kernel) :
    CriticalSection.EndsInTurn statements operations calls kernel ↔ NeverFault calls kernel := by
  constructor
  · intro hends before thread hnodup hfaults
    obtain ⟨start, henter⟩ := exists_enterCall_of_faults hfaults
    exact (exists_completes_iff henter _).mp (hends before thread start hnodup henter) hfaults
  · intro hnever before thread start hnodup henter
    exact (exists_completes_iff henter _).mpr (hnever before thread hnodup)

/-- **When concurrent calls can always return.** Wherever a schedule has led, it can go on so that
any given calls return and the mutex is free behind them, exactly if no call can come to its turn as
a write of no bytes that finds none pending: no other call keeps the mutex. -/
theorem calls_can_always_return_iff (calls : Thread → Operation) (kernel : Kernel) :
    (∀ schedule threads : List Thread, ∃ later,
        (scheduled calls kernel (schedule ++ later)).holder = none ∧
          ∀ thread ∈ threads, ∃ result,
            (scheduled calls kernel (schedule ++ later)).phase thread = .returned result) ↔
      NeverFault calls kernel :=
  (CriticalSection.always_returns_iff_endsInTurn statements_whole calls kernel).trans
    (endsInTurn_iff_neverFault calls kernel)

end Aesd.Driver
