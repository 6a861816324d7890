import Aesd.Server.Resources

/-!
# What a worker has given back when it returns

`recieve_text` has one way out that gives back everything, behind the receive loop, and two in front
of it that give back nothing. The theorem of this file says for which results of its calls
everything is given back: both early returns are avoided, the reply stream could be opened, and no
send of a reply came back short.
-/

namespace Aesd.Server

open Foundation Driver

/-! ## The receive loop -/

section Loop

variable {session : Session} {round : Round}

/-- The device of the session is one of the driver, and the reply stream is at a file position. -/
structure Session.Serving (session : Session) : Prop where
  stores : ∃ commands, Stores session.kernel commands
  inRange : ∀ fPos, session.sendfd = some fPos → InRange fPos

/-- If the round sends a reply from the reply stream, its sends are complete. -/
def RepliesSent (session : Session) (round : Round) : Prop :=
  sscanfSeekto (round.string session) = none → newline ∈ round.string session →
    ∀ fPos, session.sendfd = some fPos →
      AllSent (replyPiece (round.saved session) round) round.sends fPos

def Round.Continues (round : Round) : Prop := 0 < round.recv.bytesRecieved

theorem stores_savetofile {kernel : Kernel} (h : ∃ commands, Stores kernel commands)
    (round : Round) (string : List UInt8) :
    ∃ commands, Stores (savetofile round string kernel).1 commands := by
  obtain ⟨commands, hstores⟩ := h
  unfold savetofile
  split
  · exact ⟨_, hstores.aesdWrite _⟩
  · exact ⟨commands, hstores⟩

theorem inRange_relay {read : ℕ → ℤ → List UInt8 × ℤ}
    (hread : ∀ k fPos, InRange fPos → InRange (read k fPos).2) (around : Event → List Event)
    (sends : ℕ → Bool) (steps k : ℕ) {fPos : ℤ} (hfPos : InRange fPos) :
    InRange (relay read around sends steps k fPos).2.1 := by
  induction steps generalizing k fPos with
  | zero => exact hfPos
  | succ steps ih =>
    have hnext := hread k fPos hfPos
    simp only [relay]
    split
    · exact hnext
    · split
      · exact ih _ hnext
      · exact hnext

/-- A reply leaves the reply stream at a file position, and as open as it was. -/
theorem inRange_sendfile {kernel : Kernel} (h : ∃ commands, Stores kernel commands) (round : Round)
    {sendfd : Option ℤ} (hsendfd : ∀ fPos, sendfd = some fPos → InRange fPos) :
    (∀ fPos, (sendfile kernel round sendfd).1 = some fPos → InRange fPos) ∧
      ((sendfile kernel round sendfd).1 = none ↔ sendfd = none) := by
  obtain ⟨commands, hstores⟩ := h
  cases sendfd with
  | none => exact ⟨fun fPos hfPos ↦ absurd hfPos.symm (Option.some_ne_none fPos), Iff.rfl⟩
  | some start =>
    refine ⟨fun fPos hfPos ↦ ?_, ?_⟩
    · have hlast := inRange_relay (fun k fPos hfPos ↦ inRange_fread hstores (round.copied k)
        maxBuffer maxBuffer hfPos) (fun send ↦ [.acquired .sendmutex, send, .released .sendmutex])
        round.sends (relaySteps kernel) 0 (hsendfd start rfl)
      exact Option.some.inj hfPos ▸ hlast
    · exact ⟨fun hnone ↦ absurd hnone (Option.some_ne_none _),
        fun hnone ↦ absurd hnone (Option.some_ne_none _)⟩

/-- A round keeps the session serving, and its reply stream as open as it was. -/
theorem Session.Serving.next (h : session.Serving) (hrunning : session.running = true)
    (round : Round) :
    (receiver.next session round).Serving ∧
      (receiver.next session round).running = decide (0 < round.recv.bytesRecieved) ∧
      ((receiver.next session round).sendfd = none ↔ session.sendfd = none) := by
  have hsaved : ∃ commands, Stores (round.saved session) commands :=
    stores_savetofile h.stores round _
  unfold Machine.next
  cases hscan : sscanfSeekto (round.string session) with
  | some seekto =>
    rw [receiver_step_of_some hrunning hscan]
    exact ⟨⟨h.stores, h.inRange⟩, rfl, Iff.rfl⟩
  | none =>
    by_cases hnewline : newline ∈ round.string session
    · obtain ⟨hrange, hopen⟩ := inRange_sendfile hsaved round h.inRange
      rw [receiver_step_of_newline hrunning hscan hnewline]
      exact ⟨⟨hsaved, hrange⟩, rfl, hopen⟩
    · rw [receiver_step_of_none hrunning hscan hnewline]
      exact ⟨⟨hsaved, h.inRange⟩, rfl, Iff.rfl⟩

/-- With the reply stream open, a round keeps the send buffer if a send of its reply comes back
short, and nothing else. -/
theorem Session.Serving.left_emit (h : session.Serving) (hrunning : session.running = true)
    {start : ℤ} (hopen : session.sendfd = some start) (resource : Resource) (round : Round) :
    ∃ left, resource.Left (receiver.emit session round) left ∧
      (left = 0 ↔ (resource = .sendBuffer → RepliesSent session round)) := by
  have hseen : ∀ {events : List Event} {left : ℕ}, resource.Left events left →
      resource.Left (.terminated round.recv.bytesRecieved :: events) left :=
    fun hevents ↦ hevents.skip rfl rfl
  have hsave := left_savetofile resource round (round.string session) session.kernel
  unfold Machine.emit
  cases hscan : sscanfSeekto (round.string session) with
  | some seekto =>
    rw [receiver_step_of_some hrunning hscan]
    refine ⟨0, hseen (left_seekReply resource session.kernel round seekto), fun _ _ hnone ↦ ?_,
      fun _ ↦ rfl⟩
    exact absurd (hscan.symm.trans hnone) (Option.some_ne_none seekto)
  | none =>
    by_cases hnewline : newline ∈ round.string session
    · obtain ⟨commands, hstores⟩ := stores_savetofile h.stores round (round.string session)
      obtain ⟨left, hleft, hzero⟩ :=
        left_sendfile hstores resource round (h.inRange start hopen)
      have hsent : RepliesSent session round ↔
          AllSent (replyPiece (round.saved session) round) round.sends start := by
        constructor
        · exact fun hall ↦ hall hscan hnewline start hopen
        · intro hall _ _ fPos hfPos
          exact Option.some.inj (hopen.symm.trans hfPos) ▸ hall
      rw [receiver_step_of_newline hrunning hscan hnewline, hopen]
      refine ⟨0 + left, (hseen hsave).append hleft, ?_⟩
      rw [Nat.zero_add, hzero, hsent]
      exact Iff.rfl
    · rw [receiver_step_of_none hrunning hscan hnewline]
      exact ⟨0, hseen hsave, fun _ _ _ hyes ↦ absurd hyes hnewline, fun _ ↦ rfl⟩

/-- With the reply stream open no operation is applied to a stream that is not. -/
theorem nullStream_notMem_emit (hrunning : session.running = true) {start : ℤ}
    (hopen : session.sendfd = some start) (round : Round) :
    .nullStream ∉ receiver.emit session round := by
  have hsave : .nullStream ∉ (savetofile round (round.string session) session.kernel).2 :=
    fun hmem ↦ Bool.false_ne_true (forall_mem_savetofile _ _ _ _ hmem)
  have hseen : ∀ {events : List Event}, .nullStream ∉ events →
      .nullStream ∉ Event.terminated round.recv.bytesRecieved :: events := by
    intro events hevents hmem
    rcases List.mem_cons.mp hmem with heq | hlater
    · exact Event.noConfusion heq
    · exact hevents hlater
  unfold Machine.emit
  cases hscan : sscanfSeekto (round.string session) with
  | some seekto =>
    rw [receiver_step_of_some hrunning hscan]
    exact hseen fun hmem ↦ Bool.false_ne_true (forall_mem_seekReply _ _ _ _ hmem)
  | none =>
    by_cases hnewline : newline ∈ round.string session
    · rw [receiver_step_of_newline hrunning hscan hnewline, hopen, List.cons_append]
      apply hseen
      rw [List.mem_append, not_or]
      exact ⟨hsave, fun hmem ↦ Bool.false_ne_true (forall_mem_sendfile _ _ _ _ hmem)⟩
    · rw [receiver_step_of_none hrunning hscan hnewline]
      exact hseen hsave

/-- As long as `recv` does not return 0 the loop goes on. -/
theorem Session.Serving.run (h : session.Serving) (hrunning : session.running = true)
    {rounds : List Round} (hcontinues : ∀ round ∈ rounds, round.Continues) :
    (receiver.run session rounds).Serving ∧ (receiver.run session rounds).running = true ∧
      ((receiver.run session rounds).sendfd = none ↔ session.sendfd = none) := by
  induction rounds generalizing session with
  | nil => exact ⟨h, hrunning, Iff.rfl⟩
  | cons round rest ih =>
    rw [List.forall_mem_cons] at hcontinues
    obtain ⟨hserving, hstill, hopen⟩ := h.next hrunning round
    obtain ⟨hlast, hruns, hends⟩ :=
      ih hserving (hstill.trans (decide_eq_true hcontinues.1)) hcontinues.2
    exact ⟨hlast, hruns, hends.trans hopen⟩

/-- With the reply stream open, the rounds of the loop keep a send buffer for each round in which a
send of a reply came back short, and nothing else, and touch no other stream. -/
theorem Session.Serving.left_outputs (h : session.Serving) (hrunning : session.running = true)
    (hopen : session.sendfd ≠ none) {rounds : List Round}
    (hcontinues : ∀ round ∈ rounds, round.Continues) (resource : Resource) :
    (∃ left, resource.Left (receiver.outputs session rounds).flatten left ∧
        (left = 0 ↔ (resource = .sendBuffer → receiver.Meets RepliesSent session rounds))) ∧
      .nullStream ∉ (receiver.outputs session rounds).flatten := by
  induction rounds generalizing session with
  | nil => exact ⟨⟨0, Adds.nil, fun _ _ ↦ trivial, fun _ ↦ rfl⟩, List.not_mem_nil⟩
  | cons round rest ih =>
    rw [List.forall_mem_cons] at hcontinues
    obtain ⟨start, hstart⟩ := Option.ne_none_iff_exists'.mp hopen
    obtain ⟨hserving, hstill, hsame⟩ := h.next hrunning round
    obtain ⟨first, hfirst, hfirst_zero⟩ := h.left_emit hrunning hstart resource round
    have hnull := nullStream_notMem_emit hrunning hstart round
    obtain ⟨⟨later, hlater, hlater_zero⟩, hnull_later⟩ :=
      ih hserving (hstill.trans (decide_eq_true hcontinues.1)) (fun hnone ↦ hopen (hsame.mp hnone))
        hcontinues.2
    rw [Machine.outputs_cons, List.flatten_cons]
    constructor
    · refine ⟨first + later, hfirst.append hlater, ?_⟩
      rw [Nat.add_eq_zero_iff, hfirst_zero, hlater_zero, ← imp_and]
      exact Iff.rfl
    · rw [List.mem_append, not_or]
      exact ⟨hnull, hnull_later⟩

end Loop

/-! ## The whole worker -/

/-- Nothing is left behind: every mutex, stream, descriptor and buffer taken has been given back
once, the socket, which was open before, has been closed once, no operation was applied to a
stream that could not be opened, and the connection is marked done. -/
structure LeavesClean (events : List Event) : Prop where
  mutexes : ∀ lock ∈ [Resource.mutex, .filemutex, .sendmutex],
    ledger (Event.takes lock) (Event.gives lock) 0 events = some 0
  streams : ∀ stream ∈ [Resource.ostream, .sendfd, .deviceFd],
    ledger (Event.takes stream) (Event.gives stream) 0 events = some 0
  buffers : ∀ block ∈ [Resource.buffer, .sendBuffer],
    ledger (Event.takes block) (Event.gives block) 0 events = some 0
  socket : ledger (Event.takes .istream) (Event.gives .istream) 1 events = some 0
  noNull : .nullStream ∉ events
  marked : .done ∈ events

/-- The calls in front of the receive loop all succeed. -/
structure Worker.Opens (worker : Worker) : Prop where
  ostream : worker.ostreamOpens = true
  buffer : worker.bufferAllocated = true
  sendfd : worker.sendfdOpens = true

def opening : List Event :=
  [.acquired .ostream, .acquired .buffer, .acquired .sendfd, .acquired .mutex]

/-- What is out at the end is what was out before, what was taken in front of the loop and what the
loop left, less what is given back behind it. -/
theorem ledger_opened {resource : Resource} {loop : List Event} {left : ℕ}
    (hloop : resource.Left loop left) (out : ℕ) (sendfd : Option ℤ) :
    ledger (Event.takes resource) (Event.gives resource) out
        (opening ++ loop ++ leaveText sendfd) =
      ledger (Event.takes resource) (Event.gives resource)
        (out + (opening.countP (Event.takes resource) + left)) (leaveText sendfd) := by
  have hopened : resource.Left opening (opening.countP (Event.takes resource)) :=
    Adds.of_takes (by simp [opening, Event.gives])
  exact (hopened.append hloop).ledger_append out _

/-- A worker whose calls in front of the loop succeed leaves what its loop leaves. -/
theorem opened_leavesClean_iff {loop : List Event} (last : ℤ)
    (hloop : ∀ resource : Resource, resource ≠ .sendBuffer → resource.Left loop 0) {left : ℕ}
    (hbuffer : Resource.sendBuffer.Left loop left) (hnull : .nullStream ∉ loop) :
    LeavesClean (opening ++ loop ++ leaveText (some last)) ↔ left = 0 := by
  have hsend : ledger (Event.takes .sendBuffer) (Event.gives .sendBuffer) 0
      (opening ++ loop ++ leaveText (some last)) = some left := by
    have hcount : opening.countP (Event.takes .sendBuffer) = 0 := rfl
    rw [ledger_opened hbuffer, hcount, Nat.zero_add, Nat.zero_add]
    rfl
  have hback : ∀ (resource : Resource) (out : ℕ), resource ≠ .sendBuffer →
      ledger (Event.takes resource) (Event.gives resource) out
          (opening ++ loop ++ leaveText (some last)) =
        ledger (Event.takes resource) (Event.gives resource)
          (out + opening.countP (Event.takes resource)) (leaveText (some last)) :=
    fun resource out hresource ↦ ledger_opened (hloop resource hresource) out (some last)
  constructor
  · intro hclean
    have hzero := hclean.buffers .sendBuffer (by simp)
    exact Option.some.inj (hsend.symm.trans hzero)
  · rintro rfl
    refine ⟨?_, ?_, ?_, ?_, ?_, ?_⟩
    · simp only [List.forall_mem_cons]
      exact ⟨(hback _ _ (by decide)).trans rfl, (hback _ _ (by decide)).trans rfl,
        (hback _ _ (by decide)).trans rfl, by simp⟩
    · simp only [List.forall_mem_cons]
      exact ⟨(hback _ _ (by decide)).trans rfl, (hback _ _ (by decide)).trans rfl,
        (hback _ _ (by decide)).trans rfl, by simp⟩
    · simp only [List.forall_mem_cons]
      exact ⟨(hback _ _ (by decide)).trans rfl, hsend, by simp⟩
    · exact (hback _ _ (by decide)).trans rfl
    · simp [opening, leaveText, hnull]
    · simp [leaveText]

theorem Worker.enter_serving {kernel : Kernel} {commands : List (List UInt8)}
    (h : Stores kernel commands) (worker : Worker) : (worker.enter kernel).Serving where
  stores := ⟨commands, h⟩
  inRange := by
    intro fPos hfPos
    unfold Worker.enter at hfPos
    split at hfPos
    · exact Option.some.inj hfPos ▸ inRange_zero
    · exact absurd hfPos.symm (Option.some_ne_none fPos)

theorem Worker.enter_sendfd_iff (worker : Worker) (kernel : Kernel) :
    (worker.enter kernel).sendfd = none ↔ worker.sendfdOpens = false := by
  unfold Worker.enter
  cases worker.sendfdOpens <;> simp

/-- A worker that leaves everything clean has opened everything in front of the loop. -/
theorem LeavesClean.opens {kernel : Kernel} {worker : Worker} {before after : List Round}
    {stop : Round} (h : LeavesClean (recieveText worker kernel).2)
    (hrounds : worker.rounds = before ++ stop :: after) (hstop : stop.recv = .closed)
    (hserving : (worker.enter kernel).Serving) (hbefore : ∀ round ∈ before, round.Continues) :
    worker.Opens := by
  have hostream : worker.ostreamOpens = true := by
    by_contra hfails
    have hmarked := h.marked
    simp [recieveText, Bool.eq_false_of_not_eq_true hfails] at hmarked
  have hbuffer : worker.bufferAllocated = true := by
    by_contra hfails
    have hmarked := h.marked
    simp [recieveText, hostream, Bool.eq_false_of_not_eq_true hfails] at hmarked
  refine ⟨hostream, hbuffer, ?_⟩
  by_contra hfails
  obtain ⟨-, hrunning, hsame⟩ := hserving.run rfl hbefore
  have hnone := hsame.mpr
    ((worker.enter_sendfd_iff kernel).mpr (Bool.eq_false_of_not_eq_true hfails))
  have hnull := h.noNull
  rw [trace_recieveText hostream hbuffer hrounds hstop hrunning, hnone] at hnull
  exact hnull (List.mem_append_right _ (by simp [leaveText]))

/-- The trace of a worker that has opened everything and leaves the loop. -/
theorem Worker.Opens.trace_recieveText {kernel : Kernel} {worker : Worker}
    {before after : List Round} {stop : Round} (hopens : worker.Opens)
    (hrounds : worker.rounds = before ++ stop :: after) (hstop : stop.recv = .closed)
    (hrunning : (receiver.run (worker.enter kernel) before).running = true) {last : ℤ}
    (hlast : (receiver.run (worker.enter kernel) before).sendfd = some last) :
    (recieveText worker kernel).2 =
      opening ++ ((receiver.outputs (worker.enter kernel) before).flatten ++ closingEvents) ++
        leaveText (some last) := by
  rw [Server.trace_recieveText hopens.ostream hopens.buffer hrounds hstop hrunning, hopens.sendfd,
    hlast]
  rfl

/-- A worker that has opened everything leaves everything clean if no send of a reply came back
short. -/
theorem Worker.Opens.clean_iff_repliesSent {kernel : Kernel} {worker : Worker}
    {before after : List Round} {stop : Round} (hopens : worker.Opens)
    (hrounds : worker.rounds = before ++ stop :: after) (hstop : stop.recv = .closed)
    (hserving : (worker.enter kernel).Serving) (hbefore : ∀ round ∈ before, round.Continues) :
    LeavesClean (recieveText worker kernel).2 ↔
      receiver.Meets RepliesSent (worker.enter kernel) before := by
  obtain ⟨-, hrunning, hsame⟩ := hserving.run rfl hbefore
  have hopen : (worker.enter kernel).sendfd ≠ none := by
    rw [Ne, worker.enter_sendfd_iff, hopens.sendfd]
    exact Bool.true_eq_false.mp
  obtain ⟨last, hlast⟩ := Option.ne_none_iff_exists'.mp fun hnone ↦ hopen (hsame.mp hnone)
  have hloop := fun resource ↦ hserving.left_outputs rfl hopen hbefore resource
  have hclosing : ∀ resource : Resource, resource.Left closingEvents 0 :=
    fun resource ↦ (left_enclosed resource .filemutex Adds.nil).skip rfl rfl
  obtain ⟨⟨left, hleft, hzero⟩, hnull⟩ := hloop .sendBuffer
  have hothers : ∀ resource : Resource, resource ≠ .sendBuffer →
      resource.Left ((receiver.outputs (worker.enter kernel) before).flatten ++ closingEvents)
        0 := by
    intro resource hresource
    obtain ⟨⟨none_left, hnone_left, hnone_zero⟩, -⟩ := hloop resource
    obtain rfl := hnone_zero.mpr fun hsend ↦ absurd hsend hresource
    exact hnone_left.append (hclosing resource)
  have hquiet : .nullStream ∉
      (receiver.outputs (worker.enter kernel) before).flatten ++ closingEvents := by
    rw [List.mem_append, not_or]
    exact ⟨hnull, by simp [closingEvents]⟩
  rw [hopens.trace_recieveText hrounds hstop hrunning hlast,
    opened_leavesClean_iff last hothers (hleft.append (hclosing .sendBuffer)) hquiet,
    Nat.add_zero, hzero]
  exact ⟨fun hmeets ↦ hmeets rfl, fun hmeets _ ↦ hmeets⟩

/-- **Exact condition of a clean return.** For every reachable device and every worker whose
connection ends with `recv` returning 0, whatever its other calls return: everything is given back
when `recieve_text` returns if and only if the output stream, the buffer and the reply stream could
all be obtained and no send of a reply from the reply stream came back short. -/
theorem leavesClean_iff (calls : List Call) (worker : Worker) (before : List Round) (stop : Round)
    (after : List Round) (hrounds : worker.rounds = before ++ stop :: after)
    (hbefore : ∀ round ∈ before, round.Continues) (hstop : stop.recv = .closed) :
    LeavesClean (recieveText worker (device.run System.loaded calls).kernel).2 ↔
      worker.Opens ∧
        receiver.Meets RepliesSent (worker.enter (device.run System.loaded calls).kernel)
          before := by
  have hserving := worker.enter_serving (stores_run calls)
  constructor
  · intro hclean
    have hopens := hclean.opens hrounds hstop hserving hbefore
    exact ⟨hopens, (hopens.clean_iff_repliesSent hrounds hstop hserving hbefore).mp hclean⟩
  · rintro ⟨hopens, hmeets⟩
    exact (hopens.clean_iff_repliesSent hrounds hstop hserving hbefore).mpr hmeets

/-- A worker that makes a request, saves data without a newline and sends one reply in full. -/
theorem leavesClean_iff_sample :
    LeavesClean (recieveText (.smooth sampleChunks)
      (device.run System.loaded sampleCalls).kernel).2 := by
  refine (leavesClean_iff sampleCalls (.smooth sampleChunks)
    (sampleChunks.map fun chunk ↦ .smooth (.data chunk)) (.smooth .closed) [] rfl ?_ rfl).mpr
    ⟨⟨rfl, rfl, rfl⟩, ?_⟩
  · have hnonempty : ∀ chunk ∈ sampleChunks, 0 < chunk.length := by decide
    intro round hround
    obtain ⟨chunk, hchunk, rfl⟩ := List.mem_map.mp hround
    exact hnonempty chunk hchunk
  · exact ⟨fun _ _ _ _ _ _ ↦ rfl, fun _ _ _ _ _ _ ↦ rfl, fun _ _ _ _ _ _ ↦ rfl, trivial⟩

def shortSend : Worker :=
  { Worker.smooth [] with
    rounds := [{ Round.smooth (.data [97, newline]) with sends := fun _ ↦ false },
      .smooth .closed] }

/-- A worker that cannot open its output stream closes no socket and marks nothing, one that cannot
open the reply stream closes a stream it does not have, and one whose send comes back short
keeps the send buffer. -/
theorem failing_workers_leave_something :
    ¬ LeavesClean (recieveText { Worker.smooth [] with ostreamOpens := false }
        Kernel.loaded).2 ∧
      ¬ LeavesClean (recieveText { Worker.smooth [] with sendfdOpens := false }
        Kernel.loaded).2 ∧
      ¬ LeavesClean (recieveText shortSend Kernel.loaded).2 := by
  refine ⟨fun hclean ↦ ?_, fun hclean ↦ ?_, fun hclean ↦ ?_⟩
  · exact absurd hclean.marked (by decide +kernel)
  · exact absurd hclean.noNull (by decide +kernel)
  · exact absurd (hclean.buffers .sendBuffer (by decide)) (by decide +kernel)

end Aesd.Server
