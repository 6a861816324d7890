import Aesd.Server.Schedule

/-!
# Where the server may be stopped

A signal, or a crash of the process, stops all workers wherever they are. The device stays as the
worker under the mutex has left it. That worker is at some place of some round, but a round touches
the device once at most, so what is left is always the work of whole rounds.
-/

namespace Aesd.Server

open Foundation Driver

/-! ## How far a worker has come -/

section Reached

variable {worker : Worker} {since now now' : Kernel} {working working' : Working} {round : Round}

/-- The round of a call in front of which the device is as the round leaves it. -/
def WorkerCall.settled : WorkerCall → Option Round
  | .recv => none
  | .sscanf _ => none
  | .savetofile _ => none
  | .ioctl round _ => some round
  | .read round _ _ _ => some round
  | .strchr round => some round
  | .fread round _ _ _ => some round
  | .again round => some round

def Worker.session (worker : Worker) (since : Kernel) (rounds : List Round) : Session :=
  receiver.run (worker.enter since) rounds

/-- A worker that began with the device `since` has done these rounds, and what is left of the one
under way does not touch the device or is still to come. -/
inductive Reached (worker : Worker) (since now : Kernel) (working : Working) : Prop where
  | between (done : List Round) (hcall : working.call = .recv)
      (hrounds : worker.rounds = done ++ working.rounds)
      (hrunning : (worker.session since done).running = true)
      (hkernel : now = (worker.session since done).kernel)
      (hbuffer : working.buffer = (worker.session since done).buffer)
  | unsaved (done : List Round) (round : Round)
      (hcall : working.call = .sscanf round ∨
        working.call = .savetofile round ∧ sscanfSeekto working.string = none)
      (hrounds : worker.rounds = done ++ round :: working.rounds)
      (hrunning : (worker.session since done).running = true)
      (hkernel : now = (worker.session since done).kernel)
      (hbuffer : working.buffer = round.buffer (worker.session since done).buffer)
  | settled (done : List Round) (round : Round) (hcall : working.call.settled = some round)
      (hrounds : worker.rounds = done ++ round :: working.rounds)
      (hrunning : (worker.session since (done ++ [round])).running =
        decide (0 < round.recv.bytesRecieved))
      (hkernel : now = (worker.session since (done ++ [round])).kernel)
      (hbuffer : working.buffer = (worker.session since (done ++ [round])).buffer)

theorem Worker.session_concat (worker : Worker) (since : Kernel) (done : List Round)
    (round : Round) :
    worker.session since (done ++ [round]) =
      receiver.next (worker.session since done) round := by
  rw [session, session, Machine.run_append, Machine.run_cons, Machine.run_nil]

theorem Reached.start (worker : Worker) (since : Kernel) :
    Reached worker since since worker.working :=
  .between [] rfl rfl rfl rfl rfl

/-- What a round that is no request leaves, apart from its reply. -/
theorem receiver_next_of_none {session : Session} (hrunning : session.running = true)
    (hscan : sscanfSeekto (round.string session) = none) :
    (receiver.next session round).kernel = round.saved session ∧
      (receiver.next session round).buffer = round.buffer session.buffer ∧
      (receiver.next session round).running = decide (0 < round.recv.bytesRecieved) := by
  by_cases hnewline : newline ∈ round.string session
  · rw [Machine.next, receiver_step_of_newline hrunning hscan hnewline]
    exact ⟨rfl, rfl, rfl⟩
  · rw [Machine.next, receiver_step_of_none hrunning hscan hnewline]
    exact ⟨rfl, rfl, rfl⟩

/-- Behind the one access to the device a round leaves it alone. -/
theorem workerCall_of_settled (hcall : working.call.settled = some round)
    (hstep : workerCall now working = (now', .goesOn working')) :
    now' = now ∧ working'.buffer = working.buffer ∧ working'.rounds = working.rounds ∧
      (working'.call.settled = some round ∨
        working'.call = .recv ∧ 0 < round.recv.bytesRecieved) := by
  revert hstep
  fun_cases workerCall now working <;> intro hstep <;> cases hstep <;>
    simp_all [WorkerCall.settled, Working.go]

theorem Reached.recv {done : List Round} (hcall : working.call = .recv)
    (hrounds : worker.rounds = done ++ working.rounds)
    (hrunning : (worker.session since done).running = true)
    (hkernel : now = (worker.session since done).kernel)
    (hbuffer : working.buffer = (worker.session since done).buffer)
    (hstep : workerCall now working = (now', .goesOn working')) :
    Reached worker since now' working' := by
  cases hrest : working.rounds with
  | nil =>
    have hwaits : workerCall now working = (now, .goesOn working) := by
      simp only [workerCall, hcall, hrest]
    cases hwaits.symm.trans hstep
    exact .between done hcall hrounds hrunning hkernel hbuffer
  | cons round rest =>
    have hrecieves : workerCall now working =
        (now, .goesOn ({ working with
            buffer := round.buffer working.buffer, rounds := rest }.go (.sscanf round)
          [.terminated round.recv.bytesRecieved])) := by
      simp only [workerCall, hcall, hrest]
    cases hrecieves.symm.trans hstep
    exact .unsaved done round (Or.inl rfl) (hrest ▸ hrounds) hrunning hkernel
      (congrArg round.buffer hbuffer)

/-- A string that is a request settles its round, and any other is to be saved. -/
theorem Reached.sscanf {done : List Round} (hcall : working.call = .sscanf round)
    (hrounds : worker.rounds = done ++ round :: working.rounds)
    (hrunning : (worker.session since done).running = true)
    (hkernel : now = (worker.session since done).kernel)
    (hbuffer : working.buffer = round.buffer (worker.session since done).buffer)
    (hstep : workerCall now working = (now', .goesOn working')) :
    Reached worker since now' working' := by
  have hstring : working.string = round.string (worker.session since done) := by
    rw [Working.string, hbuffer, Round.string]
  cases hscan : sscanfSeekto working.string with
  | none =>
    have hsaves : workerCall now working = (now, .goesOn (working.go (.savetofile round) [])) := by
      simp only [workerCall, hcall, hscan]
    cases hsaves.symm.trans hstep
    exact .unsaved done round (Or.inr ⟨rfl, hscan⟩) hrounds hrunning hkernel hbuffer
  | some seekto =>
    have hrequests : workerCall now working =
        (now, .goesOn (working.go (.ioctl round seekto) [])) := by
      simp only [workerCall, hcall, hscan]
    have hround := receiver_step_of_some hrunning (hstring ▸ hscan)
    have hnext : worker.session since (done ++ [round]) =
        (worker.session since done).after round (worker.session since done).kernel
          (worker.session since done).sendfd := by
      rw [Worker.session_concat, Machine.next, hround]
    cases hrequests.symm.trans hstep
    exact .settled done round rfl hrounds (by rw [hnext]; rfl) (by rw [hnext]; exact hkernel)
      (by rw [hnext]; exact hbuffer)

/-- Saving the string settles the round. -/
theorem Reached.savetofile {done : List Round} (hcall : working.call = .savetofile round)
    (hscan : sscanfSeekto working.string = none)
    (hrounds : worker.rounds = done ++ round :: working.rounds)
    (hrunning : (worker.session since done).running = true)
    (hkernel : now = (worker.session since done).kernel)
    (hbuffer : working.buffer = round.buffer (worker.session since done).buffer)
    (hstep : workerCall now working = (now', .goesOn working')) :
    Reached worker since now' working' := by
  have hstring : working.string = round.string (worker.session since done) := by
    rw [Working.string, hbuffer, Round.string]
  have hsaves : workerCall now working =
      ((Server.savetofile round working.string now).1,
        .goesOn (working.go (.strchr round) (Server.savetofile round working.string now).2)) := by
    simp only [workerCall, hcall]
  obtain ⟨hsaved, hbuffer', hrunning'⟩ := receiver_next_of_none hrunning (hstring ▸ hscan)
  rw [← Worker.session_concat] at hsaved hbuffer' hrunning'
  cases hsaves.symm.trans hstep
  refine .settled done round rfl hrounds hrunning' ?_ (hbuffer.trans hbuffer'.symm)
  rw [hsaved, Round.saved, ← hstring, ← hkernel]

/-- Every call of a worker keeps track of its rounds. -/
theorem Reached.next (h : Reached worker since now working)
    (hstep : workerCall now working = (now', .goesOn working')) :
    Reached worker since now' working' := by
  cases h with
  | between done hcall hrounds hrunning hkernel hbuffer =>
    exact .recv hcall hrounds hrunning hkernel hbuffer hstep
  | unsaved done round hcall hrounds hrunning hkernel hbuffer =>
    cases hcall with
    | inl hcall => exact .sscanf hcall hrounds hrunning hkernel hbuffer hstep
    | inr hboth => exact .savetofile hboth.1 hboth.2 hrounds hrunning hkernel hbuffer hstep
  | settled done round hcall hrounds hrunning hkernel hbuffer =>
    obtain ⟨rfl, hbuffer', hrounds', hcall' | ⟨hcall', hmore⟩⟩ :=
      workerCall_of_settled hcall hstep
    · exact .settled done round hcall' (hrounds' ▸ hrounds) hrunning hkernel
        (hbuffer'.trans hbuffer)
    · refine .between (done ++ [round]) hcall' ?_ (hrunning.trans (decide_eq_true hmore)) hkernel
        (hbuffer'.trans hbuffer)
      rw [hrounds, hrounds', List.append_assoc, List.singleton_append]

/-- Whatever call comes next, the device is as whole rounds leave it. -/
theorem Reached.exists_rounds (h : Reached worker since now working) :
    ∃ rounds, rounds <+: worker.rounds ∧ now = (worker.session since rounds).kernel := by
  cases h with
  | between done hcall hrounds hrunning hkernel hbuffer =>
    exact ⟨done, ⟨_, hrounds.symm⟩, hkernel⟩
  | unsaved done round hcall hrounds hrunning hkernel hbuffer =>
    exact ⟨done, ⟨_, hrounds.symm⟩, hkernel⟩
  | settled done round hcall hrounds hrunning hkernel hbuffer =>
    refine ⟨done ++ [round], ⟨working.rounds, ?_⟩, hkernel⟩
    rw [hrounds, List.append_assoc, List.singleton_append]

end Reached

/-! ## Stopping all workers -/

/-- The same connections, but for the last one, which may have been cut off behind some of its
rounds. -/
def CutOff (workers short : List Worker) : Prop :=
  short = workers ∨ ∃ before worker rounds, workers = before ++ [worker] ∧
    rounds <+: worker.rounds ∧ short = before ++ [{ worker with rounds := rounds }]

variable {Thread : Type*} [DecidableEq Thread]

theorem recieveText_upTo {worker : Worker} (henters : worker.Enters) (kernel : Kernel)
    (rounds : List Round) :
    (recieveText { worker with rounds := rounds } kernel).1 =
      (worker.session kernel rounds).kernel := by
  simp only [recieveText, henters.1, henters.2, reduceCtorEq, if_false]
  rfl

/-- While a worker is under the mutex the device is as some of its rounds leave it. -/
theorem shared_of_inside {workers : Thread → Worker} {kernel : Kernel} {schedule : List Thread}
    {thread : Thread} {place : Working}
    (hplace : (attended workers kernel schedule).phase thread = .inside place) :
    ∃ before rounds, mutexOrder workers kernel schedule = before ++ [thread] ∧
      (workers thread).Enters ∧ rounds <+: (workers thread).rounds ∧
      (attended workers kernel schedule).shared =
        ((workers thread).session (server.run kernel (before.map workers)) rounds).kernel := by
  have hstart : ∀ worker since start, workerCalls.enter worker = .inl start →
      worker.Enters ∧ Reached worker since since start := by
    intro worker since start henter
    by_cases henters : worker.Enters
    · obtain rfl := Sum.inl.inj ((enterText_of_enters henters).symm.trans henter)
      exact ⟨henters, .start worker since⟩
    · obtain ⟨events, henter', -⟩ := exists_enterText_of_not_enters henters
      exact absurd (henter.symm.trans henter') Sum.inl_ne_inr
  have hunderway := CriticalSection.underway_run workerCalls_whole
    (fun worker since now working ↦ worker.Enters ∧ Reached worker since now working) hstart
    (fun _ _ _ _ _ _ hreached hstep ↦ ⟨hreached.1, hreached.2.next hstep⟩)
    workers kernel schedule
  obtain ⟨before, horder, henters, hreached⟩ := hunderway thread place hplace
  obtain ⟨rounds, hrounds, hkernel⟩ := hreached.exists_rounds
  exact ⟨before, rounds, horder, henters, hrounds, hkernel⟩

/-- Whoever holds the mutex is under it. -/
theorem exists_inside_of_holder {workers : Thread → Worker} {kernel : Kernel}
    {schedule : List Thread} {thread : Thread}
    (hholder : (attended workers kernel schedule).holder = some thread) :
    ∃ place, (attended workers kernel schedule).phase thread = .inside place :=
  (CriticalSection.HolderInside.waiting kernel).run workerCall_ne_forgets schedule thread hholder

/-- **Stopping leaves whole rounds.** Wherever a schedule has led, the device is as the connections
that took the mutex leave it one after the other, the last of them perhaps cut off between two of
its rounds: no chunk is saved in part, none twice, and none behind a later one. -/
theorem stopped_between_rounds (workers : Thread → Worker) (kernel : Kernel)
    (schedule : List Thread) :
    ∃ short, CutOff ((mutexOrder workers kernel schedule).map workers) short ∧
      (attended workers kernel schedule).shared = server.run kernel short := by
  have hserial := attended_serial workers kernel schedule
  cases hholder : (attended workers kernel schedule).holder with
  | none => exact ⟨_, Or.inl rfl, (hserial.free hholder).1⟩
  | some thread =>
    obtain ⟨place, hplace⟩ := exists_inside_of_holder hholder
    obtain ⟨before, rounds, horder, henters, hrounds, hkernel⟩ := shared_of_inside hplace
    refine ⟨before.map workers ++ [{ workers thread with rounds := rounds }],
      Or.inr ⟨before.map workers, workers thread, rounds, ?_, hrounds, rfl⟩, ?_⟩
    · exact (congrArg (List.map workers) horder).trans (List.map_append ..)
    · rw [Machine.run_append, Machine.run_cons, Machine.run_nil, server_next,
        recieveText_upTo henters]
      exact hkernel

end Aesd.Server
