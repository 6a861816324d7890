import Aesd.Server.Schedule

/-!
# Who can still be served

A worker holds the mutex of the server while it waits for its client, so a client that stays keeps
all others waiting. And a worker whose reply stream could not be opened ends the process, with all
connections, when it comes to reply or to close that stream.
-/

namespace Aesd.Server

open Foundation Driver

/-- The process has not ended: no worker has come to use a stream that could not be opened. -/
def Alive {Thread : Type*} (state : Contention Thread Kernel Working (List Event)) : Prop :=
  ∀ thread, .nullStream ∉ eventsSoFar (state.phase thread)

/-! ## The use of the reply stream -/

def WorkerCall.isFread : WorkerCall → Bool
  | .fread .. => true
  | _ => false

/-- What is known of the reply stream of a worker under the mutex. -/
structure Working.Streams (worker : Worker) (working : Working) : Prop where
  enters : worker.Enters
  sendfd_iff : working.sendfd = none ↔ worker.sendfdOpens = false
  fread : working.call.isFread = true → working.sendfd ≠ none
  null : .nullStream ∈ working.events → worker.sendfdOpens = false

section Streams

variable {worker : Worker} {working working' : Working} {kernel kernel' : Kernel}

theorem nullStream_notMem_working (worker : Worker) : .nullStream ∉ worker.working.events := by
  unfold Worker.working
  split <;> simp

theorem Working.Streams.start (henters : worker.Enters) : worker.working.Streams worker where
  enters := henters
  sendfd_iff := by
    unfold Worker.working
    cases worker.sendfdOpens <;> simp
  fread := fun hfread ↦ absurd hfread Bool.false_ne_true
  null := fun hnull ↦ absurd hnull (nullStream_notMem_working worker)

/-- Only the loop of `sendfile` moves the reply stream. -/
theorem sendfd_of_goesOn (hstep : workerCall kernel working = (kernel', .goesOn working')) :
    working'.sendfd = working.sendfd ∨
      working.call.isFread = true ∧ working'.sendfd ≠ none := by
  revert hstep
  fun_cases workerCall kernel working <;> intro hstep <;> cases hstep <;>
    simp_all [Working.go, WorkerCall.isFread]

/-- It is entered with a stream that is open. -/
theorem isFread_of_goesOn (hstep : workerCall kernel working = (kernel', .goesOn working'))
    (hfread : working'.call.isFread = true) :
    working.call.isFread = true ∨ working.sendfd ≠ none ∧ working'.sendfd = working.sendfd := by
  revert hstep
  fun_cases workerCall kernel working <;> intro hstep <;> cases hstep <;>
    simp_all [Working.go, WorkerCall.isFread]

/-- A stream that could not be opened is used by a worker that has none. -/
theorem nullStream_of_goesOn (hstep : workerCall kernel working = (kernel', .goesOn working'))
    (hmem : .nullStream ∈ working'.events) :
    .nullStream ∈ working.events ∨ working.sendfd = none := by
  by_cases hsaves : ∃ round, working.call = .savetofile round
  · obtain ⟨round, hcall⟩ := hsaves
    simp only [workerCall, hcall, Prod.mk.injEq, CriticalSection.Outcome.goesOn.injEq] at hstep
    obtain ⟨-, rfl⟩ := hstep
    rcases List.mem_append.mp hmem with hbefore | hsaved
    · exact Or.inl hbefore
    · exact absurd (forall_mem_savetofile _ _ _ _ hsaved) Bool.false_ne_true
  · revert hstep
    fun_cases workerCall kernel working <;> intro hstep <;> cases hstep <;>
      simp_all [Working.go]

/-- The worker knows its reply stream over every call. -/
theorem Working.Streams.goesOn (h : working.Streams worker)
    (hstep : workerCall kernel working = (kernel', .goesOn working')) :
    working'.Streams worker where
  enters := h.enters
  sendfd_iff := by
    rcases sendfd_of_goesOn hstep with hsame | ⟨hfread, hopen⟩
    · rw [hsame]
      exact h.sendfd_iff
    · exact iff_of_false hopen fun hclosed ↦ h.fread hfread (h.sendfd_iff.mpr hclosed)
  fread := by
    intro hfread
    rcases sendfd_of_goesOn hstep with hsame | ⟨-, hopen⟩
    · rcases isFread_of_goesOn hstep hfread with hbefore | ⟨hopen, -⟩
      · exact hsame ▸ h.fread hbefore
      · exact hsame ▸ hopen
    · exact hopen
  null := by
    intro hmem
    rcases nullStream_of_goesOn hstep hmem with hbefore | hnone
    · exact h.null hbefore
    · exact h.sendfd_iff.mp hnone

/-- A worker that leaves closes its reply stream, or what it takes for it. -/
theorem Working.Streams.releases (h : working.Streams worker) {events : List Event}
    (hstep : workerCall kernel working = (kernel', .releases events)) :
    .nullStream ∈ events ↔ worker.sendfdOpens = false := by
  have hleaves : events = working.events ++ leaveText working.sendfd := by
    revert hstep
    fun_cases workerCall kernel working <;> intro hstep <;> cases hstep
    rfl
  have hclose : .nullStream ∈ leaveText working.sendfd ↔ working.sendfd = none := by
    unfold leaveText
    split <;> simp_all
  rw [hleaves, List.mem_append, hclose, h.sendfd_iff]
  exact or_iff_right_of_imp h.null

end Streams

def StreamKnown (worker : Worker) : Phase Working (List Event) → Prop
  | .waiting => True
  | .inside working => working.Streams worker
  | .returned events => .nullStream ∈ events ↔ worker.Enters ∧ worker.sendfdOpens = false

theorem keeps_streamKnown : CriticalSection.Keeps workerCalls StreamKnown where
  waits := fun _ ↦ trivial
  returns := by
    intro worker events henter
    have hnot : ¬ worker.Enters := fun h ↦
      absurd ((enterText_of_enters h).symm.trans henter) Sum.inl_ne_inr
    refine iff_of_false ?_ fun hboth ↦ hnot hboth.1
    simp only [workerCalls, enterText] at henter
    split at henter
    · rw [← Sum.inr.inj henter]
      exact List.not_mem_nil
    · split at henter
      · rw [← Sum.inr.inj henter]
        decide
      · exact absurd henter Sum.inl_ne_inr
  starts := by
    intro worker start henter
    by_cases henters : worker.Enters
    · obtain rfl := Sum.inl.inj ((enterText_of_enters henters).symm.trans henter)
      exact .start henters
    · obtain ⟨events, henter', -⟩ := exists_enterText_of_not_enters henters
      exact absurd (henter.symm.trans henter') Sum.inl_ne_inr
  goesOn := fun _ _ _ _ _ h hstep ↦ h.goesOn hstep
  releases := fun _ _ _ _ _ h hstep ↦
    (h.releases hstep).trans (and_iff_right h.enters).symm
  forgets := fun _ _ _ _ _ _ hstep ↦ absurd hstep (workerCall_ne_forgets _ _ _ _)

/-! ## Many workers -/

section Attended

variable {Thread : Type*} [DecidableEq Thread] {workers : Thread → Worker} {kernel : Kernel}

theorem streamKnown_attended (workers : Thread → Worker) (kernel : Kernel)
    (schedule : List Thread) (thread : Thread) :
    StreamKnown (workers thread) ((attended workers kernel schedule).phase thread) :=
  keeps_streamKnown.run workers kernel schedule thread

/-- Only a worker without a reply stream ends the process. -/
theorem alive_of_opens
    (hopens : ∀ thread, (workers thread).Enters → (workers thread).sendfdOpens = true)
    (schedule : List Thread) : Alive (attended workers kernel schedule) := by
  intro thread hnull
  have hknown := streamKnown_attended workers kernel schedule thread
  cases hphase : (attended workers kernel schedule).phase thread with
  | waiting =>
    rw [hphase] at hnull
    exact absurd hnull List.not_mem_nil
  | inside working =>
    rw [hphase] at hnull hknown
    exact absurd (hopens thread hknown.enters) (Bool.eq_false_iff.mp (hknown.null hnull))
  | returned events =>
    rw [hphase] at hnull hknown
    obtain ⟨henters, hclosed⟩ := hknown.mp hnull
    exact absurd (hopens thread henters) (Bool.eq_false_iff.mp hclosed)

/-- A worker that has only taken the mutex has used no stream. -/
theorem alive_of_takes {thread : Thread} (henters : (workers thread).Enters) :
    Alive (attended workers kernel [thread]) := by
  have htakes : attended workers kernel [thread] = _ :=
    CriticalSection.next_of_takes rfl (enterText_of_enters henters) rfl
  rw [htakes]
  intro other
  by_cases hsame : other = thread
  · subst hsame
    simp only [Function.update_self]
    exact nullStream_notMem_working _
  · simp only [Function.update_of_ne hsame]
    exact List.not_mem_nil

/-- A worker that does not get to the mutex returns by itself, and uses no stream. -/
theorem exists_returned_of_leaves {thread : Thread} (hleaves : ¬ (workers thread).Enters)
    {schedule : List Thread} (halive : Alive (attended workers kernel schedule)) :
    ∃ later events, Alive (attended workers kernel (schedule ++ later)) ∧
      (attended workers kernel (schedule ++ later)).phase thread = .returned events := by
  obtain ⟨events, henter, -⟩ := exists_enterText_of_not_enters hleaves
  obtain ⟨later, hothers, last, hreturned⟩ :=
    (attended_serial workers kernel schedule).exists_returned_of_not_entered henter
  rw [← attended_append] at hreturned hothers
  refine ⟨later, last, fun other ↦ ?_, hreturned⟩
  by_cases hsame : other = thread
  · have hknown := streamKnown_attended workers kernel (schedule ++ later) thread
    rw [hreturned] at hknown
    rw [hsame, hreturned]
    exact fun hnull ↦ hleaves (hknown.mp hnull).1
  · rw [hothers other hsame]
    exact halive other

/-- A worker whose client stays takes the mutex first, and nobody who needs it returns. -/
theorem not_returned_behind {workers : Thread → Worker} {kernel : Kernel} {thread other : Thread}
    (hneeds : (workers thread).Enters) (henters : (workers other).Enters)
    (hstays : ¬ (workers other).HangsUp) (later : List Thread) (events : List Event) :
    (attended workers kernel ([other] ++ later)).phase thread ≠ .returned events := by
  intro hreturned
  have hserial := (CriticalSection.Serial.waiting workerCalls server workers kernel).takes rfl
    (enterText_of_enters henters) rfl
  have hnext : (workerCalls.contend workers).next (CriticalSection.waiting kernel) other = _ :=
    CriticalSection.next_of_takes rfl (enterText_of_enters henters) rfl
  have hendless : ∀ kernel' events', ¬ workerCalls.Completes
      (server.run kernel ([].map workers)) (workers other).working kernel' events' :=
    fun _ _ hcompletes ↦ hstays ((completes_working_iff henters).mp hcompletes).1
  by_cases hsame : thread = other
  · obtain ⟨hholder, -⟩ := hserial.run_of_endless workerCalls_whole rfl
      (enterText_of_enters henters) hendless later
    have hinside : CriticalSection.HolderInside (attended workers kernel ([other] ++ later)) :=
      (CriticalSection.HolderInside.waiting kernel).run workerCall_ne_forgets _
    obtain ⟨place, hplace⟩ := hinside other
      (by rwa [attended, Machine.run_append, Machine.run_cons, Machine.run_nil, hnext])
    rw [hsame] at hreturned
    exact absurd (hreturned.symm.trans hplace) (by simp)
  · have hwaits := hserial.waits_of_endless workerCalls_whole rfl (enterText_of_enters henters)
      hendless (by simpa using hsame) (enterText_of_enters hneeds) later
    rw [attended, Machine.run_append, Machine.run_cons, Machine.run_nil, hnext] at hreturned
    exact absurd (hreturned.symm.trans hwaits) (by simp)

/-- A worker without a reply stream that takes the mutex first ends the process before anybody who
needs the mutex returns. -/
theorem not_alive_behind {thread other : Thread} (hneeds : (workers thread).Enters)
    (henters : (workers other).Enters) (hclosed : (workers other).sendfdOpens = false)
    {later : List Thread} {events : List Event}
    (hreturned : (attended workers kernel ([other] ++ later)).phase thread = .returned events) :
    ¬ Alive (attended workers kernel ([other] ++ later)) := by
  have hserial := attended_serial workers kernel ([other] ++ later)
  have htakes : (workerCalls.contend workers).emit (CriticalSection.waiting kernel) other =
      some other := by
    simp only [Machine.emit, CriticalSection.contend, CriticalSection.advance,
      CriticalSection.waiting, enterText_of_enters henters, if_true]
  obtain ⟨rest, horder⟩ : ∃ rest,
      mutexOrder workers kernel ([other] ++ later) = [] ++ other :: rest := by
    rw [mutexOrder, CriticalSection.lockOrder, List.singleton_append, Machine.collect_cons, htakes]
    exact ⟨_, rfl⟩
  have hmem : thread ∈ other :: rest := by
    by_contra hnot
    rcases hserial.others thread (horder ▸ hnot) with hwaiting | ⟨last, -, henter⟩
    · exact absurd (hwaiting.symm.trans hreturned) (by simp)
    · exact absurd ((enterText_of_enters hneeds).symm.trans henter) Sum.inl_ne_inr
  have hended : ∃ last, (attended workers kernel ([other] ++ later)).phase other =
      .returned last := by
    rcases hserial.of_split horder with hlast | ⟨rfl, -⟩
    · exact ⟨_, hlast⟩
    · exact ⟨events, List.mem_singleton.mp hmem ▸ hreturned⟩
  obtain ⟨last, hlast⟩ := hended
  have hknown := streamKnown_attended workers kernel ([other] ++ later) other
  rw [hlast] at hknown
  intro halive
  refine halive other ?_
  rw [hlast]
  exact hknown.mpr ⟨henters, hclosed⟩

/-- **Who can always be served.** As long as the process has not ended, a connection that needs the
mutex can be brought to its end, without ending the process, exactly if every client whose worker
gets to the mutex hangs up in the end and every such worker could open its reply stream; the others
need only their own worker. -/
theorem can_always_return_iff (workers : Thread → Worker) (kernel : Kernel) (thread : Thread) :
    (∀ schedule, Alive (attended workers kernel schedule) →
      ∃ later events, Alive (attended workers kernel (schedule ++ later)) ∧
        (attended workers kernel (schedule ++ later)).phase thread = .returned events) ↔
      ¬ (workers thread).Enters ∨ ∀ other, (workers other).Enters →
        (workers other).HangsUp ∧ (workers other).sendfdOpens = true := by
  constructor
  · intro hreturns
    by_contra hnot
    rw [not_or, not_not, not_forall] at hnot
    obtain ⟨hneeds, other, hother⟩ := hnot
    obtain ⟨henters, hfails⟩ := Classical.not_imp.mp hother
    obtain ⟨later, events, halive, hreturned⟩ := hreturns [other] (alive_of_takes henters)
    by_cases hhangs : (workers other).HangsUp
    · have hclosed : (workers other).sendfdOpens = false :=
        Bool.eq_false_iff.mpr fun hopens ↦ hfails ⟨hhangs, hopens⟩
      exact not_alive_behind hneeds henters hclosed hreturned halive
    · exact not_returned_behind hneeds henters hhangs later events hreturned
  · rintro (hleaves | hall) schedule halive
    · exact exists_returned_of_leaves hleaves halive
    · have hends : ∀ other, workerCalls.Ends (workers other) := fun other ↦
        ends_of_hangsUp fun henters ↦ (hall other henters).1
      obtain ⟨later, -, hreturned⟩ :=
        (attended_serial workers kernel schedule).exists_all_returned workerCalls_whole
          (.of_ends hends) [thread]
      obtain ⟨events, hlast⟩ := hreturned thread (List.mem_singleton_self thread)
      refine ⟨later, events, alive_of_opens (fun other henters ↦ (hall other henters).2) _, ?_⟩
      rwa [attended_append]

end Attended

end Aesd.Server
