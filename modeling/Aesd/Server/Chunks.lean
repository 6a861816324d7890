import Aesd.Server.Session

/-!
# Handling one chunk after the other

The receive loop without its buffer. What a round of the loop does depends on the chunk that arrived
and not on what the buffer held before: the terminating NUL hides the rest. So as long as chunks
arrive, the loop is the machine that handles each of them, once and in order.
-/

namespace Aesd.Server

open Foundation Driver

/-! ## What shows in the trace -/

section Traces

/-- What `savetofile` does. -/
def Event.isSave : Event → Bool
  | .acquired .filemutex => true
  | .released .filemutex => true
  | .written _ _ => true
  | _ => false

/-- What `sendfile` does on an open stream. -/
def Event.isReply : Event → Bool
  | .acquired .sendBuffer => true
  | .released .sendBuffer => true
  | .acquired .sendmutex => true
  | .released .sendmutex => true
  | .sent _ _ => true
  | _ => false

/-- What a seek request does. -/
def Event.isSeek : Event → Bool
  | .acquired .deviceFd => true
  | .released .deviceFd => true
  | .requested _ _ => true
  | .sent _ _ => true
  | _ => false

/-- A relay does nothing but what is done around its sends. -/
theorem forall_mem_relay {read : ℕ → ℤ → List UInt8 × ℤ} {around : Event → List Event}
    {good : Event → Prop}
    (haround : ∀ bytes complete, ∀ event ∈ around (.sent bytes complete), good event)
    (sends : ℕ → Bool) (steps k : ℕ) (fPos : ℤ) :
    ∀ event ∈ (relay read around sends steps k fPos).1, good event := by
  induction steps generalizing k fPos with
  | zero => exact fun event hevent ↦ absurd hevent List.not_mem_nil
  | succ steps ih =>
    simp only [relay]
    split
    · exact fun event hevent ↦ absurd hevent List.not_mem_nil
    · split
      · exact List.forall_mem_append.mpr ⟨haround _ _, ih _ _⟩
      · exact haround _ _

variable (kernel : Kernel) (round : Round)

theorem forall_mem_savetofile (string : List UInt8) :
    ∀ event ∈ (savetofile round string kernel).2, event.isSave = true := by
  unfold savetofile
  split <;> simp [Event.isSave]

theorem forall_mem_sendfile (fPos : ℤ) :
    ∀ event ∈ (sendfile kernel round (some fPos)).2, event.isReply = true := by
  have hrelay : ∀ event ∈ (relay
      (fun k fPos ↦ fread kernel (round.copied k) maxBuffer maxBuffer fPos)
      (fun send ↦ [.acquired .sendmutex, send, .released .sendmutex]) round.sends
      (relaySteps kernel) 0 fPos).1, event.isReply = true :=
    forall_mem_relay (by simp [Event.isReply]) _ _ _ _
  simp only [sendfile, List.cons_append, List.forall_mem_cons, List.forall_mem_append]
  refine ⟨rfl, hrelay, ?_⟩
  split <;> simp [Event.isReply]

theorem forall_mem_seekReply (seekto : AesdSeekto) :
    ∀ event ∈ seekReply kernel round seekto, event.isSeek = true := by
  have hrelay : ∀ fPos, ∀ event ∈ (relay (fun k fPos ↦
        ((aesdRead kernel maxBuffer (round.copied k) fPos).1.data,
          (aesdRead kernel maxBuffer (round.copied k) fPos).2))
      (fun send ↦ [send]) round.sends (relaySteps kernel) 0 fPos).1, event.isSeek = true :=
    fun fPos ↦ forall_mem_relay (by simp [Event.isSeek]) _ _ _ _
  unfold seekReply
  split
  · dsimp only
    split
    · simp [Event.isSeek]
    · simp only [List.forall_mem_append]
      exact ⟨⟨by simp [Event.isSeek], hrelay _⟩, by simp [Event.isSeek]⟩
  · simp

end Traces

/-! ## Chunks -/

/-- The seek request a chunk is taken for, which `sscanf` looks for in front of the first NUL. -/
def seekRequest (chunk : List UInt8) : Option AesdSeekto := sscanfSeekto (stringOf nul chunk)

/-- The body of the receive loop for a chunk; the state is the device and the position of the reply
stream. -/
def handleChunk (round : Round) (chunk : List UInt8) (state : Kernel × Option ℤ) :
    (Kernel × Option ℤ) × List Event :=
  match seekRequest chunk with
  | some seekto => (state, seekReply state.1 round seekto)
  | none =>
    let (kernel, saved) := savetofile round (stringOf nul chunk) state.1
    if newline ∈ stringOf nul chunk then
      let (sendfd, replied) := sendfile kernel round state.2
      ((kernel, sendfd), saved ++ replied)
    else ((kernel, state.2), saved)

/-- Every result of `recv` that is a chunk is handled once, and no other result is. -/
def handler : Machine (Kernel × Option ℤ) Round (List Event) where
  step state round :=
    match round.recv with
    | .data chunk => handleChunk round chunk state
    | _ => (state, [])

def Round.Arrives (round : Round) : Prop := ∃ chunk, round.Delivers chunk

variable {session : Session} {round : Round} {chunk : List UInt8}

theorem handler_step (h : round.recv = .data chunk) (state : Kernel × Option ℤ) :
    handler.step state round = handleChunk round chunk state := by
  simp only [handler, h]

def Session.handled (session : Session) (round : Round) : Session where
  kernel := (handler.next (session.kernel, session.sendfd) round).1
  sendfd := (handler.next (session.kernel, session.sendfd) round).2
  buffer := round.buffer session.buffer
  running := true

/-- A round of the loop in which a chunk arrives handles this chunk. -/
theorem receiver_step_of_delivers (hready : session.Ready) (h : round.Delivers chunk) :
    receiver.step session round =
      (session.handled round, .terminated round.recv.bytesRecieved ::
        handler.emit (session.kernel, session.sendfd) round) := by
  have hstring := h.stringOf_buffer hready.allocated
  have hpos := h.bytesRecieved_pos
  simp only [Session.handled, Machine.next, Machine.emit, handler_step h.recv_eq, handleChunk,
    seekRequest, receiver, hready.running, if_true, receiveRound, hstring, hpos, decide_true]
  cases hscan : sscanfSeekto (stringOf nul chunk) with
  | some seekto => simp only
  | none =>
    by_cases hnewline : newline ∈ stringOf nul chunk
    · simp only [if_pos hnewline, List.cons_append]
    · simp only [if_neg hnewline]

theorem receiver_next_of_delivers (hready : session.Ready) (h : round.Delivers chunk) :
    receiver.next session round = session.handled round :=
  congrArg Prod.fst (receiver_step_of_delivers hready h)

theorem receiver_emit_of_delivers (hready : session.Ready) (h : round.Delivers chunk) :
    receiver.emit session round = .terminated round.recv.bytesRecieved ::
      handler.emit (session.kernel, session.sendfd) round :=
  congrArg Prod.snd (receiver_step_of_delivers hready h)

theorem Session.handled_ready (hready : session.Ready) (h : round.Delivers chunk) :
    (session.handled round).Ready :=
  ⟨rfl, h.length_buffer hready.allocated⟩

theorem Session.Ready.next (hready : session.Ready) (h : round.Delivers chunk) :
    (receiver.next session round).Ready := by
  rw [receiver_next_of_delivers hready h]
  exact Session.handled_ready hready h

/-- **As long as chunks arrive the loop handles them.** The loop is still running then, and its
rounds have done what handling the chunks does, each in its own round. -/
theorem receiver_handles {rounds : List Round} (harrives : ∀ round ∈ rounds, round.Arrives)
    {session : Session} (hready : session.Ready) :
    (receiver.run session rounds).Ready ∧
      ((receiver.run session rounds).kernel, (receiver.run session rounds).sendfd) =
        handler.run (session.kernel, session.sendfd) rounds ∧
      receiver.outputs session rounds =
        List.zipWith (fun round events ↦ .terminated round.recv.bytesRecieved :: events) rounds
          (handler.outputs (session.kernel, session.sendfd) rounds) := by
  induction rounds generalizing session with
  | nil => exact ⟨hready, rfl, rfl⟩
  | cons round rest ih =>
    rw [List.forall_mem_cons] at harrives
    obtain ⟨⟨chunk, hdelivers⟩, hrest⟩ := harrives
    obtain ⟨hlast, hstate, houtputs⟩ := ih hrest (Session.handled_ready hready hdelivers)
    rw [Machine.run_cons, Machine.run_cons, Machine.outputs_cons, Machine.outputs_cons,
      List.zipWith_cons_cons, receiver_next_of_delivers hready hdelivers,
      receiver_emit_of_delivers hready hdelivers]
    exact ⟨hlast, hstate, congrArg _ houtputs⟩

theorem receiver_stopped (hstopped : session.running = false) (rounds : List Round) :
    receiver.run session rounds = session ∧
      receiver.outputs session rounds = List.replicate rounds.length [] := by
  have hstep : ∀ round, receiver.step session round = (session, []) := by
    intro round
    simp only [receiver, hstopped, Bool.false_eq_true, if_false]
  induction rounds with
  | nil => exact ⟨rfl, rfl⟩
  | cons round rest ih =>
    have hnext : receiver.next session round = session := congrArg Prod.fst (hstep round)
    have hemit : receiver.emit session round = [] := congrArg Prod.snd (hstep round)
    rw [Machine.run_cons, Machine.outputs_cons, hnext, hemit]
    exact ⟨ih.1, congrArg _ ih.2⟩

/-- What a round does in which `recv` returns 0. -/
def closingEvents : List Event := [.terminated 0, .acquired .filemutex, .released .filemutex]

/-- The first result 0 of `recv` ends the loop, and nothing is done behind it. -/
theorem receiver_ends {before : List Round} {stop : Round} (hstop : stop.recv = .closed)
    (hrunning : (receiver.run session before).running = true) (after : List Round) :
    (receiver.run session (before ++ stop :: after)).running = false ∧
      (receiver.run session (before ++ stop :: after)).kernel =
        (receiver.run session before).kernel ∧
      (receiver.run session (before ++ stop :: after)).sendfd =
        (receiver.run session before).sendfd ∧
      receiver.outputs session (before ++ stop :: after) =
        receiver.outputs session before ++ closingEvents :: List.replicate after.length [] := by
  have hstep := receiver_step_of_closed hrunning hstop
  have hnext : receiver.next (receiver.run session before) stop = _ := congrArg Prod.fst hstep
  have hemit : receiver.emit (receiver.run session before) stop = closingEvents :=
    congrArg Prod.snd hstep
  have hstopped : (receiver.next (receiver.run session before) stop).running = false := by
    rw [hnext]
  obtain ⟨hlast, houtputs⟩ := receiver_stopped hstopped after
  rw [Machine.run_append, Machine.outputs_append, Machine.run_cons, Machine.outputs_cons, hemit,
    hlast, houtputs, hnext]
  exact ⟨rfl, rfl, rfl, rfl⟩

/-- The trace of a worker that enters the loop and leaves it at a result 0 of `recv`. -/
theorem trace_recieveText {worker : Worker} (hostream : worker.ostreamOpens = true)
    (hbuffer : worker.bufferAllocated = true) {before after : List Round} {stop : Round}
    (hrounds : worker.rounds = before ++ stop :: after) (hstop : stop.recv = .closed)
    {kernel : Kernel} (hrunning : (receiver.run (worker.enter kernel) before).running = true) :
    (recieveText worker kernel).2 =
      [.acquired .ostream, .acquired .buffer] ++
        (if worker.sendfdOpens then [.acquired .sendfd] else []) ++ [.acquired .mutex] ++
        ((receiver.outputs (worker.enter kernel) before).flatten ++ closingEvents) ++
        leaveText (receiver.run (worker.enter kernel) before).sendfd := by
  obtain ⟨hleft, -, hsendfd, houtputs⟩ := receiver_ends hstop hrunning after
  have hnothing : (List.replicate after.length ([] : List Event)).flatten = [] :=
    List.flatten_replicate_nil
  simp only [recieveText, hostream, hbuffer, Bool.true_eq_false, if_false, hrounds, hleft,
    hsendfd, houtputs, List.flatten_append, List.flatten_cons, hnothing, List.append_nil,
    Bool.false_eq_true]

end Aesd.Server
