import Aesd.Foundation.LockProgress
import Aesd.Server.Calls

/-!
# Concurrent connections

The workers of any number of connections, their calls in any order that the mutex of the server
allows.
-/

namespace Aesd.Server

open Foundation Driver

/-! ## One worker -/

def Worker.Enters (worker : Worker) : Prop :=
  worker.ostreamOpens = true ∧ worker.bufferAllocated = true

/-- Some `recv` of the worker returns 0. -/
def Worker.HangsUp (worker : Worker) : Prop :=
  ∃ round ∈ worker.rounds, round.recv.bytesRecieved = 0

/-- A worker in front of its first `recv`. -/
def Worker.working (worker : Worker) : Working :=
  ⟨if worker.sendfdOpens then some 0 else none, worker.garbage, worker.rounds,
    [.acquired .ostream, .acquired .buffer]
      ++ (if worker.sendfdOpens then [.acquired .sendfd] else []) ++ [.acquired .mutex], .recv⟩

theorem enterText_of_enters {worker : Worker} (h : worker.Enters) :
    workerCalls.enter worker = .inl worker.working := by
  simp only [workerCalls, enterText, h.1, h.2, reduceCtorEq, if_false, Worker.working]

/-- A worker that does not get to the mutex does nothing to the device. -/
theorem exists_enterText_of_not_enters {worker : Worker} (h : ¬ worker.Enters) :
    ∃ events, workerCalls.enter worker = .inr events ∧
      ∀ kernel, recieveText worker kernel = (kernel, events) := by
  by_cases hostream : worker.ostreamOpens = true
  · have hbuffer : worker.bufferAllocated = false :=
      Bool.eq_false_iff.mpr fun hallocated ↦ h ⟨hostream, hallocated⟩
    refine ⟨[.acquired .ostream], ?_, fun kernel ↦ ?_⟩
    · simp only [workerCalls, enterText, hostream, hbuffer, reduceCtorEq, if_true, if_false]
    · simp only [recieveText, hostream, hbuffer, reduceCtorEq, if_true, if_false]
  · have hclosed : worker.ostreamOpens = false := Bool.eq_false_iff.mpr hostream
    refine ⟨[], ?_, fun kernel ↦ ?_⟩
    · simp only [workerCalls, enterText, hclosed, if_true]
    · simp only [recieveText, hclosed, if_true]

/-- The receive loop is left at the first `recv` that returns 0, and at no other. -/
theorem running_run_eq_false_iff {session : Session} (hrunning : session.running = true)
    (rounds : List Round) :
    (receiver.run session rounds).running = false ↔
      ∃ round ∈ rounds, round.recv.bytesRecieved = 0 := by
  induction rounds generalizing session with
  | nil => simp [hrunning]
  | cons round rounds ih =>
    have hnext : (receiver.next session round).running =
        decide (0 < round.recv.bytesRecieved) := by
      have hstep : receiver.step session round = receiveRound session round := if_pos hrunning
      rw [Machine.next, hstep, running_receiveRound]
    rw [Machine.run_cons, List.exists_mem_cons_iff]
    by_cases hzero : round.recv.bytesRecieved = 0
    · have hstopped : (receiver.next session round).running = false := by
        rw [hnext, decide_eq_false (by omega)]
      rw [(receiver_stopped hstopped rounds).1]
      exact iff_of_true hstopped (Or.inl hzero)
    · have hmore : (receiver.next session round).running = true := by
        rw [hnext, decide_eq_true (by omega)]
      rw [ih hmore, or_iff_right hzero]

/-- Where a worker completes its calls it has done what `recieveText` says. -/
theorem completes_working_iff {worker : Worker} (henters : worker.Enters)
    {kernel kernel' : Kernel} {events : List Event} :
    workerCalls.Completes kernel worker.working kernel' events ↔
      worker.HangsUp ∧ recieveText worker kernel = (kernel', events) := by
  have hsession : (⟨kernel, worker.working.sendfd, worker.working.buffer, true⟩ : Session) =
    worker.enter kernel := rfl
  have htext : (receiver.run (worker.enter kernel) worker.rounds).running = false →
      recieveText worker kernel =
        ((receiver.run (worker.enter kernel) worker.rounds).kernel, worker.working.events ++
          (receiver.outputs (worker.enter kernel) worker.rounds).flatten ++
          leaveText (receiver.run (worker.enter kernel) worker.rounds).sendfd) := by
    intro hleft
    simp only [recieveText, henters.1, henters.2, reduceCtorEq, if_false, hleft, Worker.working]
  rw [completes_rounds_iff worker.rounds rfl rfl, hsession,
    running_run_eq_false_iff (worker.enter_ready kernel).running]
  refine and_congr_right fun hhangs ↦ ?_
  rw [htext ((running_run_eq_false_iff (worker.enter_ready kernel).running _).mpr hhangs),
    Prod.mk.injEq]
  exact and_congr eq_comm eq_comm

theorem workerCalls_whole : workerCalls.Whole server where
  returns := by
    intro kernel worker events henter
    have hnot : ¬ worker.Enters := fun h ↦
      absurd ((enterText_of_enters h).symm.trans henter) Sum.inl_ne_inr
    obtain ⟨events', henter', htext⟩ := exists_enterText_of_not_enters hnot
    obtain rfl := Sum.inr.inj (henter'.symm.trans henter)
    exact htext kernel
  completes := by
    intro kernel worker start kernel' events henter hcompletes
    by_cases henters : worker.Enters
    · obtain rfl := Sum.inl.inj ((enterText_of_enters henters).symm.trans henter)
      exact ((completes_working_iff henters).mp hcompletes).2
    · obtain ⟨events', henter', -⟩ := exists_enterText_of_not_enters henters
      exact absurd (henter.symm.trans henter') Sum.inl_ne_inr

/-! ## Many workers -/

variable {Thread : Type*} [DecidableEq Thread]

def attended (workers : Thread → Worker) (kernel : Kernel) (schedule : List Thread) :
    Contention Thread Kernel Working (List Event) :=
  (workerCalls.contend workers).run (CriticalSection.waiting kernel) schedule

def eventsSoFar : Phase Working (List Event) → List Event
  | .waiting => []
  | .inside working => working.events
  | .returned events => events

theorem attended_append (workers : Thread → Worker) (kernel : Kernel)
    (schedule later : List Thread) :
    attended workers kernel (schedule ++ later) =
      (workerCalls.contend workers).run (attended workers kernel schedule) later :=
  Machine.run_append ..

/-- The workers that have taken the mutex of the server, in the order in which they took it. -/
def mutexOrder (workers : Thread → Worker) (kernel : Kernel) (schedule : List Thread) :
    List Thread :=
  workerCalls.lockOrder workers (CriticalSection.waiting kernel) schedule

theorem attended_serial (workers : Thread → Worker) (kernel : Kernel) (schedule : List Thread) :
    workerCalls.Serial server workers kernel (attended workers kernel schedule)
      (mutexOrder workers kernel schedule) :=
  CriticalSection.contend_serial workerCalls_whole workers kernel schedule

/-- **Concurrent connections take turns.** The traces of the workers and the device they leave are
those of the same connections made one after the other in the order in which their workers took
the mutex, and this order only ever grows at its end. -/
theorem workers_take_turns (workers : Thread → Worker) (kernel : Kernel)
    (schedule later : List Thread) :
    CriticalSection.InTurn server workers kernel (attended workers kernel schedule)
        (mutexOrder workers kernel schedule) ∧
      mutexOrder workers kernel schedule <+: mutexOrder workers kernel (schedule ++ later) :=
  ⟨(attended_serial workers kernel schedule).inTurn workerCalls_whole,
    CriticalSection.lockOrder_prefix ..⟩

theorem ends_of_hangsUp {worker : Worker} (h : worker.Enters → worker.HangsUp) :
    workerCalls.Ends worker := by
  intro kernel start henter
  by_cases henters : worker.Enters
  · obtain rfl := Sum.inl.inj ((enterText_of_enters henters).symm.trans henter)
    exact ⟨_, _, (completes_working_iff henters).mpr ⟨h henters, rfl⟩⟩
  · obtain ⟨events, henter', -⟩ := exists_enterText_of_not_enters henters
    exact absurd (henter.symm.trans henter') Sum.inl_ne_inr

/-- No worker returns with the mutex held. -/
theorem workerCall_ne_forgets (kernel : Kernel) (working : Working) (kernel' : Kernel)
    (events : List Event) :
    workerCalls.step kernel working ≠ (kernel', .forgets events) := by
  change workerCall kernel working ≠ _
  fun_cases workerCall kernel working <;> simp

end Aesd.Server
