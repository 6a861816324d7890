import Aesd.Server.Cleanup
import Aesd.Server.Schedule

/-!
# What the connections leave behind

The account of everything the workers take and give back, over any number of concurrent connections
and whatever their calls return. A worker that gets through gives back all but the send buffers of
its short replies. One that turns back in front of the mutex leaves its socket open and its node
allocated, and its output stream open if it had come so far. Left aside are replies behind a short
one, which stdio may begin with what it has read ahead.
-/

namespace Aesd.Server

open Foundation Driver

/-- Of so many of the resource the events leave so many out. -/
abbrev Resource.Settled (resource : Resource) (events : List Event) (found left : ℕ) : Prop :=
  Settles (Event.takes resource) (Event.gives resource) events found left

/-! ## Short replies -/

def Event.isShort : Event → Bool
  | .sent _ complete => !complete
  | _ => false

/-- The round answers from the reply stream, and a send of the answer comes back short. -/
def shortReply (session : Session) (round : Round) : Bool :=
  session.running && (sscanfSeekto (round.string session)).isNone &&
    decide (newline ∈ round.string session) &&
    (sendfile (round.saved session) round session.sendfd).2.any Event.isShort

def asksReply (session : Session) (round : Round) : Bool :=
  session.running && (sscanfSeekto (round.string session)).isNone &&
    decide (newline ∈ round.string session)

theorem asksReply_of_shortReply {session : Session} {round : Round}
    (h : shortReply session round = true) : asksReply session round = true :=
  (Bool.and_eq_true_iff.mp h).1

/-- Behind a short answer the rounds ask for no other one, which would begin with what stdio had
read ahead. -/
def ShortIsLast (session : Session) : List Round → Prop
  | [] => True
  | round :: rest =>
    (shortReply session round = true →
      receiver.Meets (fun now later ↦ asksReply now later = false)
        (receiver.next session round) rest) ∧
      ShortIsLast (receiver.next session round) rest

def someShort (session : Session) (rounds : List Round) : Bool :=
  (receiver.gather (fun now round ↦ [shortReply now round]) session rounds).any id

def shortReplies (session : Session) (rounds : List Round) : ℕ :=
  (receiver.gather (fun now round ↦ [(shortReply now round).toNat]) session rounds).sum

theorem shortReplies_cons (session : Session) (round : Round) (rest : List Round) :
    shortReplies session (round :: rest) =
      (shortReply session round).toNat + shortReplies (receiver.next session round) rest := by
  rw [shortReplies, Machine.gather_cons, List.sum_append, List.sum_singleton]
  rfl

theorem shortReplies_eq_zero {session : Session} {rounds : List Round}
    (h : receiver.Meets (fun now later ↦ asksReply now later = false) session rounds) :
    shortReplies session rounds = 0 := by
  induction rounds generalizing session with
  | nil => rfl
  | cons round rest ih =>
    have hquiet : shortReply session round = false :=
      Bool.eq_false_iff.mpr fun hshort ↦
        Bool.eq_false_iff.mp h.1 (asksReply_of_shortReply hshort)
    rw [shortReplies_cons, hquiet, ih h.2]
    rfl

/-- So at most one answer comes back short. -/
theorem ShortIsLast.shortReplies_eq {session : Session} {rounds : List Round}
    (h : ShortIsLast session rounds) :
    shortReplies session rounds = (someShort session rounds).toNat := by
  induction rounds generalizing session with
  | nil => rfl
  | cons round rest ih =>
    have hsome : someShort session (round :: rest) =
        (shortReply session round || someShort (receiver.next session round) rest) := by
      rw [someShort, Machine.gather_cons, List.any_append]
      simp only [List.any_cons, List.any_nil, Bool.or_false, id]
      rfl
    rw [shortReplies_cons, hsome]
    cases hshort : shortReply session round with
    | true =>
      rw [shortReplies_eq_zero (h.1 hshort)]
      rfl
    | false =>
      rw [ih h.2, Bool.false_or]
      exact Nat.zero_add _

/-- Send buffers are kept, and nothing else. -/
def Resource.kept (resource : Resource) (buffers : ℕ) : ℕ :=
  if resource = .sendBuffer then buffers else 0

theorem Resource.kept_zero (resource : Resource) : resource.kept 0 = 0 := ite_self 0

theorem Resource.kept_add (resource : Resource) (first second : ℕ) :
    resource.kept (first + second) = resource.kept first + resource.kept second := by
  unfold Resource.kept
  split <;> rfl

/-- A relay ends because nothing comes exactly if no send comes back short. -/
theorem any_relay {read : ℕ → ℤ → List UInt8 × ℤ} {around : Event → List Event}
    (haround : ∀ bytes complete, (around (.sent bytes complete)).any Event.isShort = !complete)
    (sends : ℕ → Bool) (steps k : ℕ) (fPos : ℤ) :
    (relay read around sends steps k fPos).1.any Event.isShort =
      !(relay read around sends steps k fPos).2.2 := by
  induction steps generalizing k fPos with
  | zero => rfl
  | succ steps ih =>
    simp only [relay]
    split
    · rfl
    · split
      · simp only [List.any_append, haround, Bool.not_true, Bool.false_or]
        exact ih (k + 1) _
      · exact haround _ _

/-- The send buffer is given back behind a relay that ends because nothing comes. -/
theorem kept_around {resource : Resource} {events : List Event} {ended : Bool}
    (hevents : resource.Left events 0) (hshort : events.any Event.isShort = !ended) :
    resource.Left
      (.acquired .sendBuffer :: events ++ if ended then [.released .sendBuffer] else [])
      (resource.kept ((Event.acquired .sendBuffer :: events ++
        if ended then [Event.released .sendBuffer] else []).any Event.isShort).toNat) := by
  cases ended with
  | true =>
    have hnone : (Event.acquired .sendBuffer :: events ++ [Event.released .sendBuffer]).any
        Event.isShort = false := by
      simpa [Event.isShort] using hshort
    rw [if_pos rfl, hnone, Bool.toNat_false, resource.kept_zero]
    exact left_enclosed resource .sendBuffer hevents
  | false =>
    have hone : (Event.acquired .sendBuffer :: events).any Event.isShort = true := by
      simpa [Event.isShort] using hshort
    rw [if_neg Bool.false_ne_true, List.append_nil, hone, Bool.toNat_true]
    by_cases hbuffer : resource = .sendBuffer
    · rw [Resource.kept, if_pos hbuffer]
      exact hevents.taken (decide_eq_true hbuffer.symm)
    · rw [Resource.kept, if_neg hbuffer]
      exact hevents.skip (decide_eq_false (Ne.symm hbuffer)) rfl

def replyRelay (kernel : Kernel) (round : Round) (fPos : ℤ) : List Event × ℤ × Bool :=
  relay (replyPiece kernel round) (fun send ↦ [.acquired .sendmutex, send, .released .sendmutex])
    round.sends (relaySteps kernel) 0 fPos

theorem sendfile_events (kernel : Kernel) (round : Round) (fPos : ℤ) :
    (sendfile kernel round (some fPos)).2 =
      .acquired .sendBuffer :: (replyRelay kernel round fPos).1 ++
        if (replyRelay kernel round fPos).2.2 then [.released .sendBuffer] else [] := rfl

/-- A reply keeps its buffer exactly if a send comes back short. -/
theorem kept_sendfile (resource : Resource) (kernel : Kernel) (round : Round)
    (sendfd : Option ℤ) :
    resource.Left (sendfile kernel round sendfd).2
      (resource.kept ((sendfile kernel round sendfd).2.any Event.isShort).toNat) := by
  cases sendfd with
  | none =>
    have hnull : resource.Left [.nullStream] 0 := Adds.nil.skip rfl rfl
    exact resource.kept_zero.symm ▸ left_enclosed resource .sendBuffer hnull
  | some fPos =>
    have hrelay : resource.Left (replyRelay kernel round fPos).1 0 :=
      left_relay resource (fun bytes complete ↦
        left_enclosed resource .sendmutex (left_sent resource bytes complete)) _ _ _ _
    have hshort : (replyRelay kernel round fPos).1.any Event.isShort =
        !(replyRelay kernel round fPos).2.2 :=
      any_relay (fun bytes complete ↦ by simp [Event.isShort]) _ _ _ _
    rw [sendfile_events]
    exact kept_around hrelay hshort

/-- A round keeps a send buffer if its reply is short, and nothing else. -/
theorem kept_emit (resource : Resource) (session : Session) (round : Round) :
    resource.Left (receiver.emit session round)
      (resource.kept (shortReply session round).toNat) := by
  cases hrunning : session.running with
  | false =>
    have hemit : receiver.emit session round = [] := by
      simp only [Machine.emit, receiver, hrunning, Bool.false_eq_true, if_false]
    rw [hemit, shortReply, hrunning, Bool.false_and, Bool.false_and, Bool.false_and,
      Bool.toNat_false, resource.kept_zero]
    exact Adds.nil
  | true =>
    have hseen : ∀ {events : List Event} {left : ℕ}, resource.Left events left →
        resource.Left (.terminated round.recv.bytesRecieved :: events) left :=
      fun hevents ↦ hevents.skip rfl rfl
    have hsave := left_savetofile resource round (round.string session) session.kernel
    unfold Machine.emit shortReply
    cases hscan : sscanfSeekto (round.string session) with
    | some seekto =>
      rw [receiver_step_of_some hrunning hscan]
      simp only [Option.isNone_some, Bool.and_false, Bool.false_and, Bool.toNat_false,
        resource.kept_zero]
      exact hseen (left_seekReply resource session.kernel round seekto)
    | none =>
      by_cases hnewline : newline ∈ round.string session
      · rw [receiver_step_of_newline hrunning hscan hnewline]
        simp only [hrunning, Option.isNone_none, decide_eq_true hnewline, Bool.and_true,
          Bool.true_and]
        have hsent := (hseen hsave).append
          (kept_sendfile resource (round.saved session) round session.sendfd)
        rwa [Nat.zero_add] at hsent
      · rw [receiver_step_of_none hrunning hscan hnewline]
        simp only [decide_eq_false hnewline, Bool.and_false, Bool.false_and, Bool.toNat_false,
          resource.kept_zero]
        exact hseen hsave

/-! ## One connection -/

/-- What a worker finds when it is started: its socket and its node. -/
def Resource.found : Resource → ℕ
  | .istream => 1
  | .params => 1
  | _ => 0

/-- What a worker leaves when it has returned. -/
def Worker.leaves (worker : Worker) (kernel : Kernel) (resource : Resource) : ℕ :=
  if worker.ostreamOpens = false then resource.found
  else if worker.bufferAllocated = false then
    resource.found + if resource = .ostream then 1 else 0
  else resource.kept (someShort (worker.enter kernel) worker.rounds).toNat

/-- The rounds of a worker keep the send buffers of its short replies. -/
theorem kept_outputs (resource : Resource) (session : Session) (rounds : List Round) :
    resource.Left (receiver.outputs session rounds).flatten
      (resource.kept (shortReplies session rounds)) := by
  induction rounds generalizing session with
  | nil => exact resource.kept_zero.symm ▸ Adds.nil
  | cons round rest ih =>
    rw [Machine.outputs_cons, List.flatten_cons, shortReplies_cons, resource.kept_add]
    exact (kept_emit resource session round).append (ih _)

theorem sendfd_eq_none_iff (session : Session) (rounds : List Round) :
    (receiver.run session rounds).sendfd = none ↔ session.sendfd = none := by
  have hsendfile : ∀ kernel round sendfd, (sendfile kernel round sendfd).1 = none ↔
      sendfd = none := by
    intro kernel round sendfd
    cases sendfd with
    | none => exact Iff.rfl
    | some fPos => exact iff_of_false (Option.some_ne_none _) (Option.some_ne_none _)
  have hstep : ∀ now round, (now.sendfd = none ↔ session.sendfd = none) →
      ((receiver.next now round).sendfd = none ↔ session.sendfd = none) := by
    intro now round hnow
    rw [← hnow]
    cases hrunning : now.running with
    | false => simp only [Machine.next, receiver, hrunning, Bool.false_eq_true, if_false]
    | true =>
      unfold Machine.next
      cases hscan : sscanfSeekto (round.string now) with
      | some seekto =>
        rw [receiver_step_of_some hrunning hscan]
        exact Iff.rfl
      | none =>
        by_cases hnewline : newline ∈ round.string now
        · rw [receiver_step_of_newline hrunning hscan hnewline]
          exact hsendfile _ _ _
        · rw [receiver_step_of_none hrunning hscan hnewline]
          exact Iff.rfl
  exact Machine.invariant_run hstep Iff.rfl rounds

/-- Behind the loop everything is given back that was found, or taken in front of it. -/
theorem settles_leaveText (worker : Worker) {sendfd : Option ℤ}
    (hsendfd : sendfd = none ↔ worker.sendfdOpens = false) (resource : Resource) :
    resource.Settled (leaveText sendfd)
      (resource.found + worker.working.events.countP (Event.takes resource)) 0 := by
  intro out
  unfold Worker.working
  cases hopens : worker.sendfdOpens with
  | false =>
    obtain rfl := hsendfd.mpr hopens
    cases resource <;> rfl
  | true =>
    obtain ⟨fPos, rfl⟩ := Option.ne_none_iff_exists'.mp
      fun hnone ↦ Bool.noConfusion (hopens.symm.trans (hsendfd.mp hnone))
    cases resource <;> rfl

/-- **What a connection leaves.** -/
theorem settles_recieveText {worker : Worker} (hhangs : worker.Enters → worker.HangsUp)
    {kernel : Kernel} (hlast : ShortIsLast (worker.enter kernel) worker.rounds)
    (resource : Resource) :
    resource.Settled (recieveText worker kernel).2 resource.found
      (worker.leaves kernel resource) := by
  unfold Worker.leaves
  split
  · rename_i hostream
    have htrace : (recieveText worker kernel).2 = [] := by
      simp only [recieveText, hostream, if_true]
    rw [htrace]
    exact Settles.nil _
  · rename_i hostream
    split
    · rename_i hbuffer
      have htrace : (recieveText worker kernel).2 = [.acquired .ostream] := by
        rw [recieveText, if_neg hostream, if_pos hbuffer]
      have htaken : resource.Left [.acquired .ostream] (if resource = .ostream then 1 else 0) := by
        by_cases hresource : resource = .ostream
        · rw [if_pos hresource]
          exact Adds.nil.taken (decide_eq_true hresource.symm)
        · rw [if_neg hresource]
          exact Adds.nil.skip (decide_eq_false (Ne.symm hresource)) rfl
      rw [htrace]
      exact (Settles.of_adds htaken).beside resource.found
    · rename_i hbuffer
      have henters : worker.Enters :=
        ⟨Bool.eq_true_of_not_eq_false hostream, Bool.eq_true_of_not_eq_false hbuffer⟩
      have hleft : (receiver.run (worker.enter kernel) worker.rounds).running = false :=
        (running_run_eq_false_iff rfl worker.rounds).mpr (hhangs henters)
      have hsendfd : (receiver.run (worker.enter kernel) worker.rounds).sendfd = none ↔
          worker.sendfdOpens = false :=
        (sendfd_eq_none_iff _ _).trans (worker.enter_sendfd_iff kernel)
      have htrace : (recieveText worker kernel).2 = worker.working.events ++
          (receiver.outputs (worker.enter kernel) worker.rounds).flatten ++
          leaveText (receiver.run (worker.enter kernel) worker.rounds).sendfd := by
        simp only [recieveText, if_neg hostream, if_neg hbuffer, hleft, Bool.false_eq_true,
          if_false, Worker.working]
      have hopening : resource.Left worker.working.events
          (worker.working.events.countP (Event.takes resource)) := by
        apply Adds.of_takes
        unfold Worker.working
        split <;> simp [Event.gives]
      have hloop := hopening.append (kept_outputs resource (worker.enter kernel) worker.rounds)
      have hgiven := (settles_leaveText worker hsendfd resource).beside
        (resource.kept (shortReplies (worker.enter kernel) worker.rounds))
      rw [htrace, ← hlast.shortReplies_eq]
      refine Settles.append ((Settles.of_adds hloop).beside resource.found) ?_
      rwa [← Nat.add_assoc, Nat.add_comm _ (resource.kept _)]

/-! ## All connections -/

variable {Thread : Type*} [DecidableEq Thread]

/-- The device when a worker has its turn: the connections before it in the order have been made. -/
def deviceAt (workers : Thread → Worker) (kernel : Kernel) (order : List Thread)
    (thread : Thread) : Kernel :=
  server.run kernel ((order.takeWhile (· ≠ thread)).map workers)

theorem deviceAt_of_split {workers : Thread → Worker} {kernel : Kernel}
    {before after : List Thread} {thread : Thread}
    (hnodup : (before ++ thread :: after).Nodup) :
    deviceAt workers kernel (before ++ thread :: after) thread =
      server.run kernel (before.map workers) := by
  have hbefore : ∀ other ∈ before, decide (other ≠ thread) = true := by
    intro other hother
    refine decide_eq_true fun hsame ↦ ?_
    exact (List.nodup_append.mp hnodup).2.2 other hother thread List.mem_cons_self hsame
  rw [deviceAt, List.takeWhile_append_of_pos hbefore,
    List.takeWhile_cons_of_neg (by simp), List.append_nil]

/-- A worker that has returned from under the mutex has been left by its client. -/
theorem hangsUp_of_returned {workers : Thread → Worker} {kernel : Kernel}
    {schedule : List Thread} {thread : Thread} {events : List Event}
    (hreturned : (attended workers kernel schedule).phase thread = .returned events)
    (henters : (workers thread).Enters) : (workers thread).HangsUp := by
  obtain ⟨since, shared, hcompletes⟩ :=
    CriticalSection.completed_run workerCalls_whole workerCall_ne_forgets workers kernel schedule
      thread events _ hreturned (enterText_of_enters henters)
  exact ((completes_working_iff henters).mp hcompletes).1

/-- What a worker has left that has returned under some schedule. -/
theorem settles_returned {workers : Thread → Worker} {kernel : Kernel} {schedule : List Thread}
    {thread : Thread} {events : List Event}
    (hreturned : (attended workers kernel schedule).phase thread = .returned events)
    (hlast : ShortIsLast ((workers thread).enter
        (deviceAt workers kernel (mutexOrder workers kernel schedule) thread))
      (workers thread).rounds)
    (resource : Resource) :
    resource.Settled events resource.found
      ((workers thread).leaves
        (deviceAt workers kernel (mutexOrder workers kernel schedule) thread) resource) := by
  have hserial := attended_serial workers kernel schedule
  have hhangs : (workers thread).Enters → (workers thread).HangsUp :=
    hangsUp_of_returned hreturned
  by_cases hmem : thread ∈ mutexOrder workers kernel schedule
  · obtain ⟨before, after, horder⟩ := List.append_of_mem hmem
    have hdevice : deviceAt workers kernel (mutexOrder workers kernel schedule) thread =
        server.run kernel (before.map workers) := by
      rw [horder]
      exact deviceAt_of_split (horder ▸ hserial.nodup)
    rw [hserial.result_eq horder (ends_of_hangsUp hhangs) hreturned, ← hdevice, server_emit]
    exact settles_recieveText hhangs hlast resource
  · rcases hserial.others thread hmem with hwaiting | ⟨result, hresult, henter⟩
    · exact absurd (hwaiting.symm.trans hreturned) (by simp)
    · obtain rfl := Phase.returned.inj (hresult.symm.trans hreturned)
      have hwhole : (recieveText (workers thread)
          (deviceAt workers kernel (mutexOrder workers kernel schedule) thread)).2 = result :=
        congrArg Prod.snd (workerCalls_whole.returns _ _ _ henter)
      exact hwhole ▸ settles_recieveText hhangs hlast resource

def hasReturned : Phase Working (List Event) → Bool
  | .returned _ => true
  | _ => false

theorem eq_returned {phase : Phase Working (List Event)} (h : hasReturned phase = true) :
    phase = .returned (eventsSoFar phase) := by
  cases phase with
  | waiting => exact absurd h Bool.false_ne_true
  | inside working => exact absurd h Bool.false_ne_true
  | returned events => rfl

/-- **What the connections leave behind.** Let no worker be asked for a reply from its reply stream
behind one that came back short. Then under any schedule, whatever else its calls return, the
workers that have returned have given back all they took, and the sockets and nodes they were
started with, but for these: the socket and the node of each worker that could not open its output
stream or allocate its buffer, the output stream where it was the buffer, and the send buffer of
each worker with a short reply. Nothing was given back that was not out. -/
theorem connections_accounted {workers : Thread → Worker} {kernel : Kernel}
    {schedule threads : List Thread}
    (hreturned : ∀ thread ∈ threads,
      hasReturned ((attended workers kernel schedule).phase thread) = true)
    (hlast : ∀ thread ∈ threads, ShortIsLast ((workers thread).enter
        (deviceAt workers kernel (mutexOrder workers kernel schedule) thread))
      (workers thread).rounds)
    (resource : Resource) :
    ledger (Event.takes resource) (Event.gives resource) (threads.length * resource.found)
        (threads.flatMap fun thread ↦
          eventsSoFar ((attended workers kernel schedule).phase thread)) =
      some (threads.map fun thread ↦ (workers thread).leaves
        (deviceAt workers kernel (mutexOrder workers kernel schedule) thread) resource).sum := by
  have hall : resource.Settled
      (threads.flatMap fun thread ↦ eventsSoFar ((attended workers kernel schedule).phase thread))
      (threads.map fun _ ↦ resource.found).sum
      (threads.map fun thread ↦ (workers thread).leaves
        (deviceAt workers kernel (mutexOrder workers kernel schedule) thread) resource).sum :=
    Settles.flatMap fun thread hthread ↦
      settles_returned (eq_returned (hreturned thread hthread)) (hlast thread hthread) resource
  have hfound : (threads.map fun _ ↦ resource.found).sum = threads.length * resource.found := by
    rw [List.map_const', List.sum_replicate_nat]
  simpa only [hfound, Nat.zero_add] using hall 0

/-- One worker whose second reply is short, with data behind it, and one that gets no buffer. -/
def leavers : Bool → Worker
  | false => { Worker.smooth [] with
      rounds := [.smooth (.data [97, newline]),
        { Round.smooth (.data [98, newline]) with sends := fun _ ↦ false }, .smooth (.data [99]),
        .smooth .closed] }
  | true => { Worker.smooth [] with bufferAllocated := false }

def leaversTurns : List Bool := true :: List.replicate 40 false

theorem connections_accounted_two :
    [Resource.ostream, .istream, .sendBuffer, .buffer, .mutex].map (fun resource ↦
      ledger (Event.takes resource) (Event.gives resource) ([false, true].length * resource.found)
        ([false, true].flatMap fun thread ↦
          eventsSoFar ((attended leavers Kernel.loaded leaversTurns).phase thread))) =
      [some 1, some 1, some 1, some 0, some 0] := by
  have hreturned : ∀ thread ∈ [false, true],
      hasReturned ((attended leavers Kernel.loaded leaversTurns).phase thread) = true := by
    decide +kernel
  have horder : mutexOrder leavers Kernel.loaded leaversTurns = [false] := by decide +kernel
  have hlast : ∀ thread ∈ [false, true], ShortIsLast ((leavers thread).enter
      (deviceAt leavers Kernel.loaded (mutexOrder leavers Kernel.loaded leaversTurns) thread))
      (leavers thread).rounds := by
    rw [horder]
    simp only [List.forall_mem_cons, List.not_mem_nil, false_implies, implies_true, and_true]
    constructor
    · refine ⟨fun hshort ↦ absurd hshort (by decide +kernel), fun _ ↦ ⟨?_, ?_, trivial⟩,
        fun hshort ↦ absurd hshort (by decide +kernel),
        fun hshort ↦ absurd hshort (by decide +kernel), trivial⟩
      · decide +kernel
      · decide +kernel
    · exact ⟨fun _ ↦ trivial, trivial⟩
  have haccount := fun resource ↦ connections_accounted hreturned hlast resource
  simp only [List.map_cons, List.map_nil, haccount]
  decide +kernel

end Aesd.Server
