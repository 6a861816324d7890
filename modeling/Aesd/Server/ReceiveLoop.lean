import Aesd.Server.Handling

/-!
# How the receive loop ends

`bytes_recieved` is a `size_t`. The result 0 of `recv` ends the loop; the result -1 is the largest
`size_t`, as an index far outside of the buffer and as a condition true. So the loop does what it is
to do where the first result that is not positive is 0, and nowhere else; and before it comes to
that result, no chunk may ask for a reply from a stream that could not be opened.
-/

namespace Aesd.Server

open Foundation Driver

section Traces

variable {session : Session} {round : Round}

def Event.isHandling (event : Event) : Bool :=
  event.isSave || event.isReply || event.isSeek || event == .nullStream

theorem forall_mem_handleChunk (round : Round) (chunk : List UInt8) (state : Kernel × Option ℤ) :
    ∀ event ∈ (handleChunk round chunk state).2, event.isHandling = true := by
  have hsave : ∀ event ∈ (savetofile round (stringOf nul chunk) state.1).2,
      event.isHandling = true := by
    intro event hevent
    simp only [Event.isHandling, forall_mem_savetofile _ _ _ _ hevent, Bool.true_or]
  have hreply : ∀ kernel, ∀ event ∈ (sendfile kernel round state.2).2, event.isHandling = true := by
    intro kernel event hevent
    cases hsendfd : state.2 with
    | none =>
      rw [hsendfd] at hevent
      simp only [sendfile, List.mem_cons, List.not_mem_nil, or_false] at hevent
      rcases hevent with rfl | rfl | rfl <;> rfl
    | some fPos =>
      rw [hsendfd] at hevent
      simp only [Event.isHandling, forall_mem_sendfile _ _ _ _ hevent, Bool.or_true, Bool.true_or]
  unfold handleChunk
  cases seekRequest chunk with
  | some seekto =>
    intro event hevent
    simp only [Event.isHandling, forall_mem_seekReply _ _ _ _ hevent, Bool.or_true, Bool.true_or]
  | none =>
    dsimp only
    split
    · exact List.forall_mem_append.mpr ⟨hsave, hreply _⟩
    · exact hsave

theorem forall_mem_handler (state : Kernel × Option ℤ) (round : Round) :
    ∀ event ∈ handler.emit state round, event.isHandling = true := by
  unfold Machine.emit handler
  dsimp only
  split
  · exact forall_mem_handleChunk _ _ _
  · exact fun event hevent ↦ absurd hevent List.not_mem_nil

/-- While chunks arrive, a terminating NUL is stored behind each of them, and nothing else is done
than to handle them. -/
theorem mem_outputs {rounds : List Round} (harrives : ∀ round ∈ rounds, round.Arrives)
    {session : Session} (hready : session.Ready) {event : Event}
    (hevent : event ∈ (receiver.outputs session rounds).flatten) :
    (∃ round ∈ rounds, event = .terminated round.recv.bytesRecieved) ∨
      event.isHandling = true := by
  induction rounds generalizing session with
  | nil => exact absurd hevent List.not_mem_nil
  | cons round rest ih =>
    rw [List.forall_mem_cons] at harrives
    obtain ⟨⟨chunk, hdelivers⟩, hrest⟩ := harrives
    rw [Machine.outputs_cons, List.flatten_cons, receiver_next_of_delivers hready hdelivers,
      receiver_emit_of_delivers hready hdelivers] at hevent
    rcases List.mem_append.mp hevent with hfirst | hlater
    · rcases List.mem_cons.mp hfirst with hstored | hhandled
      · exact Or.inl ⟨round, List.mem_cons_self, hstored⟩
      · exact Or.inr (forall_mem_handler _ _ _ hhandled)
    · rcases ih hrest (Session.handled_ready hready hdelivers) hlater with hstored | hhandled
      · obtain ⟨other, hother, heq⟩ := hstored
        exact Or.inl ⟨other, List.mem_cons_of_mem _ hother, heq⟩
      · exact Or.inr hhandled

/-- Every round of the loop stores its NUL. -/
theorem terminated_mem_emit (hrunning : session.running = true) (round : Round) :
    .terminated round.recv.bytesRecieved ∈ receiver.emit session round := by
  simp only [Machine.emit, receiver, hrunning, if_true, receiveRound]
  split
  · exact List.mem_cons_self
  · split
    · exact List.mem_append_left _ List.mem_cons_self
    · exact List.mem_cons_self

/-- Handling a chunk neither takes nor releases the mutex of the connection, and stores no
terminating NUL. -/
theorem quiet_of_isHandling {event : Event} (h : event.isHandling = true) :
    Event.takes .mutex event = false ∧ Event.gives .mutex event = false ∧
      ∀ index, event ≠ .terminated index := by
  cases event with
  | acquired resource =>
    refine ⟨?_, rfl, fun _ heq ↦ Event.noConfusion heq⟩
    cases resource <;> first | rfl | exact absurd h (by decide)
  | released resource =>
    refine ⟨rfl, ?_, fun _ heq ↦ Event.noConfusion heq⟩
    cases resource <;> first | rfl | exact absurd h (by decide)
  | terminated index => exact absurd h Bool.false_ne_true
  | requested seekto ret => exact ⟨rfl, rfl, fun _ heq ↦ Event.noConfusion heq⟩
  | written bytes result => exact ⟨rfl, rfl, fun _ heq ↦ Event.noConfusion heq⟩
  | sent bytes complete => exact ⟨rfl, rfl, fun _ heq ↦ Event.noConfusion heq⟩
  | nullStream => exact ⟨rfl, rfl, fun _ heq ↦ Event.noConfusion heq⟩
  | done => exact absurd h Bool.false_ne_true

/-- The rounds in which chunks arrive leave the mutex of the connection as it is. -/
theorem left_mutex_outputs {rounds : List Round} (harrives : ∀ round ∈ rounds, round.Arrives)
    (hready : session.Ready) :
    Resource.mutex.Left (receiver.outputs session rounds).flatten 0 := by
  have hquiet : ∀ event ∈ (receiver.outputs session rounds).flatten,
      Event.takes .mutex event = false ∧ Event.gives .mutex event = false := by
    intro event hevent
    rcases mem_outputs harrives hready hevent with hstored | hhandled
    · obtain ⟨round, -, rfl⟩ := hstored
      exact ⟨rfl, rfl⟩
    · have hquiet := quiet_of_isHandling hhandled
      exact ⟨hquiet.1, hquiet.2.1⟩
  have hcount : (receiver.outputs session rounds).flatten.countP (Event.takes .mutex) = 0 := by
    rw [List.countP_eq_zero]
    exact fun event hevent ↦ ne_true_of_eq_false (hquiet event hevent).1
  exact hcount ▸ Adds.of_takes fun event hevent ↦ (hquiet event hevent).2

end Traces

/-! ## The results of `recv` -/

def Event.isEffect : Event → Bool
  | .requested _ _ => true
  | .written _ _ => true
  | .sent _ _ => true
  | _ => false

/-- What the receive loop is to do with the results of `recv`, chunks, then one result that is not
positive, then anything: handle each chunk once, in its own round, with replies that follow the
content; do nothing about the result that is not positive and whatever is behind it; be left at that
result and release the mutex; and store the terminating NULs inside the buffer. -/
structure LoopsOrderly (worker : Worker) (kernel : Kernel) (positives : List Round)
    (stop : Round) (after : List Round) : Prop where
  handles : receiver.Meets HandlesOnce (worker.enter kernel) positives
  replies : RepliesFollow (worker.enter kernel) positives
  quiet : ∀ events ∈ receiver.outputs (receiver.run (worker.enter kernel) positives)
    (stop :: after), ∀ event ∈ events, event.isEffect = false
  leaves : (receiver.run (worker.enter kernel) (positives ++ [stop])).running = false
  unlocks : ledger (Event.takes .mutex) (Event.gives .mutex) 0
    (performed (recieveText worker kernel).2) = some 0
  stores : ∀ index, .terminated index ∈ (recieveText worker kernel).2 → index ≤ maxBuffer

section Stop

variable {worker : Worker} {kernel : Kernel} {positives after : List Round} {stop : Round}

/-- A worker that leaves the loop at a result 0 releases the mutex of the connection, if it has not
used a stream it does not have. -/
theorem unlocks_of_closed (hostream : worker.ostreamOpens = true)
    (hbuffer : worker.bufferAllocated = true) (hrounds : worker.rounds = positives ++ stop :: after)
    (hpositives : ∀ round ∈ positives, round.Arrives) (hclosed : stop.recv = .closed)
    (hquiet : .nullStream ∉ (receiver.outputs (worker.enter kernel) positives).flatten) :
    ledger (Event.takes .mutex) (Event.gives .mutex) 0
      (performed (recieveText worker kernel).2) = some 0 := by
  have hready := worker.enter_ready kernel
  have hrunning := (receiver_handles hpositives hready).1.running
  have hentry : Resource.mutex.Left ([.acquired .ostream, .acquired .buffer] ++
      (if worker.sendfdOpens then [.acquired .sendfd] else []) ++ [.acquired .mutex]) 1 := by
    cases worker.sendfdOpens with
    | true => exact (((Adds.nil.taken rfl).skip rfl rfl).skip rfl rfl).skip rfl rfl
    | false => exact ((Adds.nil.taken rfl).skip rfl rfl).skip rfl rfl
  have hloop : Resource.mutex.Left
      ((receiver.outputs (worker.enter kernel) positives).flatten ++ closingEvents) 0 :=
    (left_mutex_outputs hpositives hready).append
      ((left_enclosed .mutex .filemutex Adds.nil).skip rfl rfl)
  have hbefore : .nullStream ∉ [.acquired .ostream, .acquired .buffer] ++
      (if worker.sendfdOpens then [.acquired .sendfd] else []) ++ [.acquired .mutex] ++
      ((receiver.outputs (worker.enter kernel) positives).flatten ++ closingEvents) := by
    cases worker.sendfdOpens <;> simp [closingEvents, hquiet]
  rw [trace_recieveText hostream hbuffer hrounds hclosed hrunning, performed_append hbefore,
    (hentry.append hloop).ledger_append]
  cases (receiver.run (worker.enter kernel) positives).sendfd <;> rfl

/-- And it has stored its terminating NULs inside the buffer. -/
theorem stores_of_closed (hostream : worker.ostreamOpens = true)
    (hbuffer : worker.bufferAllocated = true) (hrounds : worker.rounds = positives ++ stop :: after)
    (hpositives : ∀ round ∈ positives, round.Arrives) (hclosed : stop.recv = .closed) {index : ℕ}
    (hindex : .terminated index ∈ (recieveText worker kernel).2) : index ≤ maxBuffer := by
  have hready := worker.enter_ready kernel
  have hrunning := (receiver_handles hpositives hready).1.running
  rw [trace_recieveText hostream hbuffer hrounds hclosed hrunning] at hindex
  have hstored : .terminated index ∈
        (receiver.outputs (worker.enter kernel) positives).flatten ∨
      .terminated index ∈ closingEvents := by
    cases hopens : worker.sendfdOpens <;>
      cases hsendfd : (receiver.run (worker.enter kernel) positives).sendfd <;>
      simpa [hopens, hsendfd, leaveText] using hindex
  rcases hstored with hchunk | hclosing
  · rcases mem_outputs hpositives hready hchunk with hstored | hhandled
    · obtain ⟨round, hround, heq⟩ := hstored
      obtain ⟨chunk, hdelivers⟩ := hpositives round hround
      rw [Event.terminated.inj heq, hdelivers.bytesRecieved_eq]
      exact hdelivers.fits
    · exact absurd rfl ((quiet_of_isHandling hhandled).2.2 index)
  · have hzero : index = 0 := by simpa [closingEvents] using hclosing
    exact hzero ▸ Nat.zero_le maxBuffer

/-- A result -1 makes it store the NUL far outside of the buffer. -/
theorem terminated_mem_of_failed (hostream : worker.ostreamOpens = true)
    (hbuffer : worker.bufferAllocated = true) (hrounds : worker.rounds = positives ++ stop :: after)
    (hpositives : ∀ round ∈ positives, round.Arrives) (hfailed : stop.recv = .failed) :
    .terminated (toU64 (-1)) ∈ (recieveText worker kernel).2 := by
  have hready := (receiver_handles hpositives (worker.enter_ready kernel)).1
  have hstored := terminated_mem_emit hready.running stop
  rw [hfailed, Recv.bytesRecieved] at hstored
  simp only [recieveText, hostream, hbuffer, Bool.true_eq_false, if_false, hrounds,
    Machine.outputs_append, Machine.outputs_cons, List.flatten_append, List.flatten_cons,
    List.mem_append, hstored, or_true, true_or]

end Stop

/-- **Exact condition of an orderly loop.** For every device, every worker in the receive loop and
every sequence of chunks, then a result of `recv` that is 0 or -1, then anything: the loop does what
it is to do if and only if that result is 0, and the reply stream is open or no chunk asks for a
reply. -/
theorem loopsOrderly_iff (calls : List Call) (worker : Worker)
    (hostream : worker.ostreamOpens = true) (hbuffer : worker.bufferAllocated = true)
    (positives : List Round) (stop : Round) (after : List Round)
    (hrounds : worker.rounds = positives ++ stop :: after)
    (hpositives : ∀ round ∈ positives, round.Arrives)
    (hstop : stop.recv = .closed ∨ stop.recv = .failed) :
    LoopsOrderly worker (device.run System.loaded calls).kernel positives stop after ↔
      stop.recv = .closed ∧ (worker.sendfdOpens = true ∨
        ∀ round ∈ positives, ∀ chunk, round.recv = .data chunk → ¬ AsksReply chunk) := by
  have hready := worker.enter_ready (device.run System.loaded calls).kernel
  have hserving := worker.enter_serving (stores_run calls)
  have hhandles := meets_handlesOnce_iff hready hserving hpositives
  rw [worker.enter_sendfd_iff, ← Bool.not_eq_true, imp_iff_or_not, not_not, or_comm] at hhandles
  rw [← hhandles]
  constructor
  · intro horderly
    refine ⟨hstop.resolve_right fun hfailed ↦ ?_, horderly.handles⟩
    have hindex := horderly.stores _
      (terminated_mem_of_failed hostream hbuffer hrounds hpositives hfailed)
    exact absurd hindex (by decide)
  · rintro ⟨hclosed, honce⟩
    have hrunning := (receiver_handles hpositives hready).1.running
    have hstep := receiver_step_of_closed hrunning hclosed
    have hemit : receiver.emit (receiver.run
        (worker.enter (device.run System.loaded calls).kernel) positives) stop = closingEvents :=
      congrArg Prod.snd hstep
    have hleft : (receiver.next (receiver.run
        (worker.enter (device.run System.loaded calls).kernel) positives) stop).running = false :=
      congrArg (Session.running ∘ Prod.fst) hstep
    refine ⟨honce, repliesFollow_of_handlesOnce hready hserving hpositives honce, ?_, ?_, ?_, ?_⟩
    · rw [Machine.outputs_cons, List.forall_mem_cons, hemit, (receiver_stopped hleft after).2]
      refine ⟨by simp [closingEvents, Event.isEffect], fun events hevents ↦ ?_⟩
      rw [List.eq_of_mem_replicate hevents]
      exact fun event hevent ↦ absurd hevent List.not_mem_nil
    · rw [Machine.run_append]
      exact hleft
    · exact unlocks_of_closed hostream hbuffer hrounds hpositives hclosed
        (nullStream_notMem_of_handlesOnce hpositives honce)
    · exact fun index ↦ stores_of_closed hostream hbuffer hrounds hpositives hclosed

theorem arrives_smooth {chunks : List (List UInt8)}
    (h : ∀ chunk ∈ chunks, chunk ≠ [] ∧ chunk.length ≤ maxBuffer) :
    ∀ round ∈ chunks.map fun chunk ↦ Round.smooth (.data chunk), round.Arrives := by
  intro round hround
  obtain ⟨chunk, hchunk, rfl⟩ := List.mem_map.mp hround
  exact ⟨chunk, rfl, (h chunk hchunk).1, (h chunk hchunk).2⟩

/-- A device that holds two commands, and a worker that receives a seek request, data without a
newline, data with one, and then the end of the stream. -/
theorem loopsOrderly_sample :
    LoopsOrderly (.smooth sampleChunks) (device.run System.loaded sampleCalls).kernel
      (sampleChunks.map fun chunk ↦ .smooth (.data chunk)) (.smooth .closed) [] :=
  (loopsOrderly_iff sampleCalls (.smooth sampleChunks) rfl rfl
    (sampleChunks.map fun chunk ↦ .smooth (.data chunk)) (.smooth .closed) [] rfl
    (arrives_smooth (by decide)) (Or.inl rfl)).mpr ⟨rfl, Or.inl rfl⟩

/-- A worker that receives one line, and then an error, and then the end of the stream. -/
def resetWorker : Worker :=
  { Worker.smooth [] with
    rounds := [.smooth (.data [97, newline]), .smooth .failed, .smooth .closed] }

/-- After the error the line is still in the buffer: it is written to the device again. -/
theorem reset_is_not_orderly :
    ¬ LoopsOrderly resetWorker (device.run System.loaded []).kernel
        [.smooth (.data [97, newline])] (.smooth .failed) [.smooth .closed] ∧
      (receiver.run (resetWorker.enter (device.run System.loaded []).kernel)
        [.smooth (.data [97, newline]), .smooth .failed]).running = true ∧
      writtenChunks (recieveText resetWorker (device.run System.loaded []).kernel).2 =
        [[97, newline], [97, newline]] := by
  refine ⟨fun horderly ↦ ?_, by decide +kernel, by decide +kernel⟩
  exact absurd horderly.leaves (by decide +kernel)

end Aesd.Server
