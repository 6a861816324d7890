import Aesd.Server.Handling

/-!
# Which bytes reach the device

A chunk has a length, but `sscanf`, `fputs` and `strchr` take it for a string. What is behind its
first NUL is dropped without a sign: `fputs` succeeds, and a newline there calls for no reply. The
theorem of this file says that nothing is lost, and every line answered, exactly when no chunk that
is data has a NUL, and the reply stream is open or no chunk that is data has a newline.
-/

namespace Aesd.Server

open Foundation Driver

section Delivery

variable {session : Session} {round : Round} {chunk : List UInt8}

def savedChunks (chunks : List (List UInt8)) : List (List UInt8) :=
  chunks.filter fun chunk ↦ (seekRequest chunk).isNone

/-- If the round brings data with a newline, `sendfile` is called on a reply stream that is open. -/
def GivesReply (session : Session) (round : Round) : Prop :=
  ∀ chunk, round.recv = .data chunk → seekRequest chunk = none → newline ∈ chunk →
    session.sendfd ≠ none ∧ .acquired .sendBuffer ∈ receiver.emit session round

theorem flatten_writtenChunks_savetofile (hfputs : round.fputs = true) (string : List UInt8)
    (kernel : Kernel) :
    (writtenChunks (savetofile round string kernel).2).flatten = string := by
  by_cases hempty : string = []
  · simp [savetofile, hempty, writtenChunks]
  · rw [savetofile_eq hfputs hempty]
    exact List.append_nil string

/-- Of a chunk that is data, the part in front of its first NUL is written. -/
theorem flatten_writtenChunks_handler (hdelivers : round.Delivers chunk)
    (hfputs : round.fputs = true) (state : Kernel × Option ℤ) :
    (writtenChunks (handler.emit state round)).flatten =
      ((savedChunks [chunk]).map (stringOf nul)).flatten := by
  have hsaved := flatten_writtenChunks_savetofile hfputs (stringOf nul chunk) state.1
  rw [Machine.emit, handler_step hdelivers.recv_eq, handleChunk]
  cases hseek : seekRequest chunk with
  | some seekto => simp [savedChunks, hseek, writtenChunks_seekReply]
  | none =>
    have hdata : savedChunks [chunk] = [chunk] := by simp [savedChunks, hseek]
    dsimp only
    rw [hdata, List.map_singleton, List.flatten_singleton]
    split
    · rw [writtenChunks_append, writtenChunks_sendfile, List.append_nil, hsaved]
    · exact hsaved

theorem savedChunks_cons (chunk : List UInt8) (rest : List (List UInt8)) :
    savedChunks (chunk :: rest) = savedChunks [chunk] ++ savedChunks rest :=
  List.filter_append [chunk] rest

/-- What the rounds write of the chunks they bring. -/
theorem flatten_writtenChunks_outputs {rounds : List Round} {chunks : List (List UInt8)}
    (hdelivers : List.Forall₂ Round.Delivers rounds chunks)
    (hfputs : ∀ round ∈ rounds, round.fputs = true) {session : Session} (hready : session.Ready) :
    (writtenChunks (receiver.outputs session rounds).flatten).flatten =
      ((savedChunks chunks).map (stringOf nul)).flatten := by
  induction hdelivers generalizing session with
  | nil => rfl
  | @cons round chunk rounds chunks hfirst _ ih =>
    rw [List.forall_mem_cons] at hfputs
    have hround := flatten_writtenChunks_handler hfirst hfputs.1 (session.kernel, session.sendfd)
    have hterminated : ∀ events, writtenChunks (.terminated round.recv.bytesRecieved :: events) =
        writtenChunks events := fun _ ↦ rfl
    rw [Machine.outputs_cons, List.flatten_cons, receiver_next_of_delivers hready hfirst,
      receiver_emit_of_delivers hready hfirst, writtenChunks_append, hterminated,
      List.flatten_append, hround, ih hfputs.2 (Session.handled_ready hready hfirst),
      savedChunks_cons chunk chunks, List.map_append, List.flatten_append]

/-- A round that brings data without a NUL answers, if there is a stream to answer from. -/
theorem answers_of_delivers (hready : session.Ready) (hdelivers : round.Delivers chunk)
    (hnul : seekRequest chunk = none → nul ∉ chunk)
    (hopen : seekRequest chunk = none → newline ∈ chunk → session.sendfd ≠ none) :
    GivesReply session round := by
  intro other hother hseek hnewline
  obtain rfl : chunk = other := Recv.data.inj (hdelivers.recv_eq.symm.trans hother)
  have hstring : newline ∈ stringOf nul chunk := by
    rw [stringOf_eq_self (hnul hseek)]
    exact hnewline
  obtain ⟨fPos, hfPos⟩ := Option.ne_none_iff_exists'.mp (hopen hseek hnewline)
  exact (handles_of_line hready hdelivers hseek hstring hfPos).replies ⟨hseek, hstring⟩

def NoLines (chunks : List (List UInt8)) : Prop := ∀ chunk ∈ savedChunks chunks, newline ∉ chunk

theorem noLines_cons (chunk : List UInt8) (rest : List (List UInt8)) :
    NoLines (chunk :: rest) ↔ (seekRequest chunk = none → newline ∉ chunk) ∧ NoLines rest := by
  rw [NoLines, savedChunks_cons, List.forall_mem_append]
  refine and_congr_left fun _ ↦ ?_
  cases hseek : seekRequest chunk with
  | none => simp [savedChunks, hseek]
  | some seekto => simp [savedChunks, hseek]

/-- Data without NULs is answered if there is a stream to answer from, or nothing to answer. -/
theorem meets_answers {rounds : List Round} {chunks : List (List UInt8)}
    (hdelivers : List.Forall₂ Round.Delivers rounds chunks)
    (hnul : ∀ chunk ∈ savedChunks chunks, nul ∉ chunk) {session : Session}
    (hready : session.Ready) (hserving : session.Serving)
    (hopen : session.sendfd ≠ none ∨ NoLines chunks) :
    receiver.Meets GivesReply session rounds := by
  induction hdelivers generalizing session with
  | nil => trivial
  | @cons round chunk rounds chunks hfirst _ ih =>
    rw [savedChunks_cons, List.forall_mem_append] at hnul
    rw [noLines_cons] at hopen
    obtain ⟨hserving', -, hsame⟩ := hserving.next hready.running round
    refine ⟨answers_of_delivers hready hfirst (fun hseek ↦ ?_) fun hseek hnewline ↦ ?_, ?_⟩
    · exact hnul.1 chunk (by simp [savedChunks, hseek])
    · exact hopen.resolve_right fun hquiet ↦ hquiet.1 hseek hnewline
    · refine ih hnul.2 (hready.next hfirst) hserving' (hopen.imp (fun hsome hnone ↦ ?_) And.right)
      exact hsome (hsame.mp hnone)

/-- Where every line is answered there is a stream, or there are no lines. -/
theorem noLines_of_meets {rounds : List Round} {chunks : List (List UInt8)}
    (hdelivers : List.Forall₂ Round.Delivers rounds chunks) {session : Session}
    (hready : session.Ready) (hserving : session.Serving) (hnone : session.sendfd = none)
    (hmeets : receiver.Meets GivesReply session rounds) : NoLines chunks := by
  induction hdelivers generalizing session with
  | nil => exact fun chunk hchunk ↦ absurd hchunk List.not_mem_nil
  | @cons round chunk rounds chunks hfirst _ ih =>
    obtain ⟨hserving', -, hsame⟩ := hserving.next hready.running round
    rw [noLines_cons]
    refine ⟨fun hseek hnewline ↦ ?_, ih (hready.next hfirst) hserving' (hsame.mpr hnone) hmeets.2⟩
    exact (hmeets.1 chunk hfirst.recv_eq hseek hnewline).1 hnone

theorem arrives_of_forall₂ {rounds : List Round} {chunks : List (List UInt8)}
    (hdelivers : List.Forall₂ Round.Delivers rounds chunks) :
    ∀ round ∈ rounds, round.Arrives := by
  induction hdelivers with
  | nil => exact fun round hround ↦ absurd hround List.not_mem_nil
  | cons hfirst _ ih => exact List.forall_mem_cons.mpr ⟨⟨_, hfirst⟩, ih⟩

theorem noReplies_of_noLines {rounds : List Round} {chunks : List (List UInt8)}
    (hdelivers : List.Forall₂ Round.Delivers rounds chunks) (hquiet : NoLines chunks) :
    ∀ round ∈ rounds, ∀ chunk, round.recv = .data chunk → ¬ AsksReply chunk := by
  induction hdelivers with
  | nil => exact fun round hround ↦ absurd hround List.not_mem_nil
  | @cons round chunk rounds chunks hfirst _ ih =>
    rw [noLines_cons] at hquiet
    refine List.forall_mem_cons.mpr ⟨fun other hother hasks ↦ ?_, ih hquiet.2⟩
    obtain rfl := Recv.data.inj (hfirst.recv_eq.symm.trans hother)
    exact hquiet.1 hasks.1 (mem_of_mem_stringOf hasks.2)

/-- What a worker has written when it returns, as far as it gets, is what its rounds write. -/
theorem writtenChunks_performed {worker : Worker} {kernel : Kernel} {rounds after : List Round}
    {stop : Round} (hostream : worker.ostreamOpens = true)
    (hbuffer : worker.bufferAllocated = true) (hrounds : worker.rounds = rounds ++ stop :: after)
    (hstop : stop.recv = .closed)
    (hrunning : (receiver.run (worker.enter kernel) rounds).running = true)
    (hquiet : .nullStream ∉ (receiver.outputs (worker.enter kernel) rounds).flatten) :
    writtenChunks (performed (recieveText worker kernel).2) =
      writtenChunks (receiver.outputs (worker.enter kernel) rounds).flatten := by
  have hbefore : .nullStream ∉ [.acquired .ostream, .acquired .buffer] ++
      (if worker.sendfdOpens then [.acquired .sendfd] else []) ++ [.acquired .mutex] ++
      ((receiver.outputs (worker.enter kernel) rounds).flatten ++ closingEvents) := by
    cases worker.sendfdOpens <;> simp [closingEvents, hquiet]
  have hentry : writtenChunks (if worker.sendfdOpens then [.acquired .sendfd] else []) = [] := by
    cases worker.sendfdOpens <;> rfl
  have hclosing : writtenChunks closingEvents = [] := rfl
  have hleave : ∀ sendfd, writtenChunks (performed (leaveText sendfd)) = [] := by
    intro sendfd
    cases sendfd <;> rfl
  rw [trace_recieveText hostream hbuffer hrounds hstop hrunning, performed_append hbefore]
  simp only [writtenChunks_append, hentry, hclosing, hleave, List.append_nil]
  rfl

end Delivery

/-- **Exact condition of complete delivery.** For every device, every worker for which `fputs`
succeeds and every sequence of chunks it receives before the end of the stream: the bytes written
to the device are the data chunks, one after the other, every data chunk with a newline is answered,
and the answers follow the content, if and only if no data chunk has a NUL, and the reply stream is
open or no data chunk has a newline. -/
theorem delivers_all_iff (calls : List Call) (worker : Worker)
    (hostream : worker.ostreamOpens = true) (hbuffer : worker.bufferAllocated = true)
    (rounds : List Round) (stop : Round) (after : List Round) (chunks : List (List UInt8))
    (hrounds : worker.rounds = rounds ++ stop :: after)
    (hdelivers : List.Forall₂ Round.Delivers rounds chunks) (hstop : stop.recv = .closed)
    (hfputs : ∀ round ∈ rounds, round.fputs = true) :
    ((writtenChunks (performed
          (recieveText worker (device.run System.loaded calls).kernel).2)).flatten =
        (savedChunks chunks).flatten ∧
      receiver.Meets GivesReply (worker.enter (device.run System.loaded calls).kernel) rounds ∧
      RepliesFollow (worker.enter (device.run System.loaded calls).kernel) rounds) ↔
      (∀ chunk ∈ savedChunks chunks, nul ∉ chunk) ∧
        (worker.sendfdOpens = true ∨ ∀ chunk ∈ savedChunks chunks, newline ∉ chunk) := by
  have hready := worker.enter_ready (device.run System.loaded calls).kernel
  have hserving := worker.enter_serving (stores_run calls)
  have harrives := arrives_of_forall₂ hdelivers
  have hrunning := (receiver_handles harrives hready).1.running
  have hopens : worker.sendfdOpens = true ↔
      (worker.enter (device.run System.loaded calls).kernel).sendfd ≠ none := by
    rw [Ne, worker.enter_sendfd_iff, Bool.not_eq_false]
  have hhandles : (worker.sendfdOpens = true ∨ NoLines chunks) → receiver.Meets HandlesOnce
      (worker.enter (device.run System.loaded calls).kernel) rounds := fun hopen ↦
    (meets_handlesOnce_iff hready hserving harrives).mpr fun hnone ↦
      noReplies_of_noLines hdelivers (hopen.resolve_left fun hyes ↦ hopens.mp hyes hnone)
  have hwritten : (worker.sendfdOpens = true ∨ NoLines chunks) →
      (writtenChunks (performed
          (recieveText worker (device.run System.loaded calls).kernel).2)).flatten =
        ((savedChunks chunks).map (stringOf nul)).flatten := by
    intro hopen
    rw [writtenChunks_performed hostream hbuffer hrounds hstop hrunning
      (nullStream_notMem_of_handlesOnce harrives (hhandles hopen))]
    exact flatten_writtenChunks_outputs hdelivers hfputs hready
  constructor
  · rintro ⟨hall, hmeets, -⟩
    have hopen : worker.sendfdOpens = true ∨ NoLines chunks := by
      rw [hopens, or_iff_not_imp_left, not_not]
      exact fun hnone ↦ noLines_of_meets hdelivers hready hserving hnone hmeets
    rw [hwritten hopen, flatten_map_stringOf_eq_iff] at hall
    exact ⟨hall, hopen⟩
  · rintro ⟨hnul, hopen⟩
    rw [hwritten hopen, flatten_map_stringOf_eq_iff]
    exact ⟨hnul, meets_answers hdelivers hnul hready hserving (hopen.imp_left hopens.mp),
      repliesFollow_of_handlesOnce hready hserving harrives (hhandles hopen)⟩

/-- Behind a seek request, data without a newline and data with one are delivered and answered. -/
theorem delivers_all_sample :
    (writtenChunks (performed (recieveText (.smooth sampleChunks)
        (device.run System.loaded sampleCalls).kernel).2)).flatten =
      (savedChunks sampleChunks).flatten ∧
    receiver.Meets GivesReply
      ((Worker.smooth sampleChunks).enter (device.run System.loaded sampleCalls).kernel)
      (sampleChunks.map fun chunk ↦ .smooth (.data chunk)) ∧
    RepliesFollow
      ((Worker.smooth sampleChunks).enter (device.run System.loaded sampleCalls).kernel)
      (sampleChunks.map fun chunk ↦ .smooth (.data chunk)) := by
  refine (delivers_all_iff sampleCalls (.smooth sampleChunks) rfl rfl
    (sampleChunks.map fun chunk ↦ .smooth (.data chunk)) (.smooth .closed) [] sampleChunks rfl ?_
    rfl ?_).mpr ⟨by decide, Or.inl rfl⟩
  · rw [List.forall₂_map_left_iff, List.forall₂_same]
    have hfits : ∀ chunk ∈ sampleChunks, chunk ≠ [] ∧ chunk.length ≤ maxBuffer := by decide
    exact fun chunk hchunk ↦ ⟨rfl, (hfits chunk hchunk).1, (hfits chunk hchunk).2⟩
  · intro round hround
    obtain ⟨chunk, -, rfl⟩ := List.mem_map.mp hround
    rfl

/-- Of a chunk with a NUL in the middle the rest is dropped, and its newline with it. -/
theorem behind_nul_is_dropped :
    ¬ ((writtenChunks (performed (recieveText (.smooth [[97, nul, 98, newline]])
            (device.run System.loaded []).kernel).2)).flatten =
          (savedChunks [[97, nul, 98, newline]]).flatten ∧
        receiver.Meets GivesReply
          ((Worker.smooth [[97, nul, 98, newline]]).enter (device.run System.loaded []).kernel)
          [.smooth (.data [97, nul, 98, newline])] ∧
        RepliesFollow
          ((Worker.smooth [[97, nul, 98, newline]]).enter (device.run System.loaded []).kernel)
          [.smooth (.data [97, nul, 98, newline])]) ∧
      .acquired .sendBuffer ∉
        (recieveText (.smooth [[97, nul, 98, newline]])
          (device.run System.loaded []).kernel).2 := by
  constructor
  · rintro ⟨hdelivered, -⟩
    exact absurd hdelivered (by decide +kernel)
  · decide +kernel

end Aesd.Server
