import Aesd.Foundation.Sources
import Aesd.Server.Conversation

/-!
# One connection after the other

A worker holds the mutex of the server from before its first `recv` until its loop is left, so
connections reach the device one after the other, in the order in which their workers obtain the
mutex. What one of them leaves pending, though, lies in the device and not in the connection: the
next one writes behind it. A command is then made of the bytes of two clients exactly when a
connection that stopped inside a line is followed by one that ends a line.
-/

namespace Aesd.Server

open Foundation Driver

/-- The server: each step is a whole connection, the next one to obtain the mutex. -/
def server : Machine Kernel Worker (List Event) where
  step kernel worker := recieveText worker kernel

@[simp]
theorem server_next (kernel : Kernel) (worker : Worker) :
    server.next kernel worker = (recieveText worker kernel).1 := rfl

@[simp]
theorem server_emit (kernel : Kernel) (worker : Worker) :
    server.emit kernel worker = (recieveText worker kernel).2 := rfl

/-! ## Who sent the bytes of a command -/

/-- The bytes written to the device, each with the number of the connection that sent it. -/
def origins (traces : List (List Event)) : List (UInt8 × ℕ) :=
  (taggedFrom 0 (traces.map writtenChunks)).flatten

/-- The committed entries are consecutive pieces of the written bytes, and each piece comes from
one connection. -/
def SingleSource (traces : List (List Event)) : Prop :=
  ∃ pieces : List (List (UInt8 × ℕ)), pieces.flatten <+: origins traces ∧
    pieces.map (List.map Prod.fst) = traces.flatMap committedEntries ∧
    ∀ piece ∈ pieces, FromOneSource piece

/-! ## What a connection hands to the device -/

/-- The chunk of a round that is handed to the device, if any: not a seek request, and not a chunk
`fputs` fails on. -/
def Round.handed (round : Round) : List (List UInt8) :=
  match round.recv with
  | .data chunk => if (sscanfSeekto chunk).isNone && round.fputs then [chunk] else []
  | _ => []

def Worker.handed (worker : Worker) : List (List UInt8) :=
  if worker.ostreamOpens && worker.bufferAllocated then worker.rounds.flatMap Round.handed else []

/-- The device serves every write of the worker, and no search for a newline runs past the end of
its block and reports one there. -/
structure Worker.Served (worker : Worker) (kernel : Kernel) : Prop where
  noneRefused : NoneRefused (recieveText worker kernel).2
  overran : ∀ round ∈ worker.rounds, round.beyond = false

theorem ne_nil_of_mem_handed {rounds : List Round} {chunks : List (List UInt8)}
    (hcarries : List.Forall₂ Round.Carries rounds chunks) :
    ∀ handed ∈ rounds.flatMap Round.handed, handed ≠ [] := by
  induction hcarries with
  | nil => exact fun handed hmem ↦ absurd hmem List.not_mem_nil
  | @cons round chunk rounds chunks hcarry _ ih =>
    rw [List.flatMap_cons, List.forall_mem_append]
    refine ⟨fun handed hmem ↦ ?_, ih⟩
    simp only [Round.handed, hcarry.recv_eq] at hmem
    split at hmem
    · exact List.mem_singleton.mp hmem ▸ hcarry.nonempty
    · exact absurd hmem List.not_mem_nil

theorem Worker.Receives.ne_nil {worker : Worker} {chunks : List (List UInt8)}
    (h : worker.Receives chunks) : ∀ handed ∈ worker.handed, handed ≠ [] := by
  obtain ⟨rounds, last, hrounds, hcarries, hclosed⟩ := h
  have hlast : last.handed = [] := by
    rw [Round.handed, hclosed]
  rw [Worker.handed]
  split
  · rw [hrounds, List.flatMap_append, List.flatMap_singleton, hlast, List.append_nil]
    exact ne_nil_of_mem_handed hcarries
  · exact fun handed hmem ↦ absurd hmem List.not_mem_nil

/-- A trace that writes these chunks and commits these entries. -/
structure Commits (events : List Event) (chunks entries : List (List UInt8)) : Prop where
  written : writtenChunks events = chunks
  committed : committedEntries events = entries

theorem Commits.append {first second : List Event}
    {chunks chunks' entries entries' : List (List UInt8)}
    (hfirst : Commits first chunks entries) (hsecond : Commits second chunks' entries') :
    Commits (first ++ second) (chunks ++ chunks') (entries ++ entries') where
  written := (List.filterMap_append ..).trans (congrArg₂ _ hfirst.written hsecond.written)
  committed := (List.filterMap_append ..).trans (congrArg₂ _ hfirst.committed hsecond.committed)

/-- Only what is done to the device matters. -/
theorem commits_of_deviceTrace {events : List Event} {chunks entries : List (List UInt8)}
    (h : Commits (deviceTrace events) chunks entries) : Commits events chunks entries where
  written := (writtenChunks_deviceTrace events).symm.trans h.written
  committed := (committedEntries_deviceTrace events).symm.trans h.committed

theorem committedEntries_written (bytes : List UInt8) (result : Result) :
    committedEntries [.written bytes result] = result.committed.toList := by
  cases hcommitted : result.committed <;> simp [committedEntries, hcommitted]

theorem commits_seekReply (kernel : Kernel) (round : Round) (seekto : AesdSeekto) :
    Commits (deviceTrace (seekReply kernel round seekto)) [] [] := by
  cases hopens : round.deviceOpens with
  | true =>
    rw [deviceTrace_seekReply hopens]
    exact ⟨rfl, rfl⟩
  | false =>
    simp only [seekReply, hopens, Bool.false_eq_true, if_false]
    exact ⟨rfl, rfl⟩

/-! ## Cutting across connections -/

section Run

variable {kernel : Kernel} {commands : List (List UInt8)} {pending : List UInt8}

/-- One round writes and commits what cutting its chunk behind the pending bytes gives. -/
theorem round_cuts {session : Session} (h : Open session.kernel commands pending)
    (hready : session.Ready) {round : Round} {chunk : List UInt8} (hcarries : round.Carries chunk)
    (hoverran : round.beyond = false) (hnone : NoneRefused (receiver.emit session round)) :
    (receiver.next session round).Ready ∧
      Commits (receiver.emit session round) round.handed
        (cutAfter isNewline pending round.handed).1 ∧
      Open (receiver.next session round).kernel
        (commands ++ (cutAfter isNewline pending round.handed).1)
        (cutAfter isNewline pending round.handed).2 := by
  cases hscan : sscanfSeekto chunk with
  | some seekto =>
    have hhanded : round.handed = [] := by
      simp only [Round.handed, hcarries.recv_eq, hscan, Option.isNone_some, Bool.false_and,
        Bool.false_eq_true, if_false]
    obtain ⟨hnext, hkernel, -, htrace⟩ := receiver_seek hready hcarries hscan
    refine ⟨hnext, ?_, hkernel ▸ h.of_eq_nil hhanded⟩
    rw [hhanded]
    exact commits_of_deviceTrace (htrace ▸ commits_seekReply session.kernel round seekto)
  | none =>
    cases hfputs : round.fputs with
    | false =>
      have hhanded : round.handed = [] := by
        simp only [Round.handed, hcarries.recv_eq, hfputs, Bool.and_false, Bool.false_eq_true,
          if_false]
      obtain ⟨hnext, hkernel, htrace⟩ := receiver_unsaved hready hcarries hscan hfputs
      refine ⟨hnext, ?_, hkernel ▸ h.of_eq_nil hhanded⟩
      rw [hhanded]
      exact commits_of_deviceTrace (htrace ▸ ⟨rfl, rfl⟩)
    | true =>
      have hhanded : round.handed = [chunk] := by
        simp only [Round.handed, hcarries.recv_eq, hscan, hfputs, Option.isNone_none, Bool.and_self,
          if_true]
      obtain ⟨hnext, hkernel, htrace, -⟩ := receiver_data hready hcarries hscan hfputs
      have hserved := served_of_noneRefused htrace hnone
      have hcomplete : (round.writeCall chunk).Complete := ⟨rfl, hoverran⟩
      have hwrite := h.write hcarries.noNul hcomplete hserved
      rw [show (round.writeCall chunk).buf = chunk from rfl] at hwrite
      obtain ⟨hcommitted, hopen⟩ := hwrite
      rw [hhanded]
      refine ⟨hnext, commits_of_deviceTrace ?_, hkernel ▸ hopen⟩
      rw [htrace]
      exact ⟨rfl, (committedEntries_written chunk _).trans hcommitted⟩

/-- The rounds of a connection before the end of its stream. -/
theorem rounds_cut {rounds : List Round} {chunks : List (List UInt8)}
    (hcarries : List.Forall₂ Round.Carries rounds chunks)
    (hoverran : ∀ round ∈ rounds, round.beyond = false) {session : Session}
    (h : Open session.kernel commands pending) (hready : session.Ready)
    (hnone : NoneRefused (receiver.outputs session rounds).flatten) :
    (receiver.run session rounds).Ready ∧
      Commits (receiver.outputs session rounds).flatten (rounds.flatMap Round.handed)
        (cutAfter isNewline pending (rounds.flatMap Round.handed)).1 ∧
      Open (receiver.run session rounds).kernel
        (commands ++ (cutAfter isNewline pending (rounds.flatMap Round.handed)).1)
        (cutAfter isNewline pending (rounds.flatMap Round.handed)).2 := by
  induction hcarries generalizing session commands pending with
  | nil =>
    rw [List.flatMap_nil, cutAfter_nil, List.append_nil]
    exact ⟨hready, ⟨rfl, rfl⟩, h⟩
  | @cons round chunk rounds chunks hcarry _ ih =>
    rw [List.forall_mem_cons] at hoverran
    obtain ⟨hnext, hcommits, hopen⟩ := round_cuts h hready hcarry hoverran.1
      fun bytes result hmem ↦ hnone bytes result (List.mem_append_left _ hmem)
    obtain ⟨hlast, hcommits', hopen'⟩ := ih hoverran.2 hopen hnext
      fun bytes result hmem ↦ hnone bytes result (List.mem_append_right _ hmem)
    rw [List.flatMap_cons, cutAfter_append]
    rw [List.append_assoc] at hopen'
    exact ⟨hlast, hcommits.append hcommits', hopen'⟩

theorem recieveText_cuts (h : Open kernel commands pending) {worker : Worker}
    {chunks : List (List UInt8)} (hreceives : worker.Receives chunks)
    (hserved : worker.Served kernel) :
    Commits (recieveText worker kernel).2 worker.handed
        (cutAfter isNewline pending worker.handed).1 ∧
      Open (recieveText worker kernel).1 (commands ++ (cutAfter isNewline pending worker.handed).1)
        (cutAfter isNewline pending worker.handed).2 := by
  cases hostream : worker.ostreamOpens with
  | false =>
    have hhanded : worker.handed = [] := by
      rw [Worker.handed, hostream, Bool.false_and, if_neg Bool.false_ne_true]
    have htext : recieveText worker kernel = (kernel, []) := by
      rw [recieveText, if_pos hostream]
    rw [htext]
    exact ⟨hhanded ▸ ⟨rfl, rfl⟩, h.of_eq_nil hhanded⟩
  | true =>
    cases hbuffer : worker.bufferAllocated with
    | false =>
      have hhanded : worker.handed = [] := by
        rw [Worker.handed, hbuffer, Bool.and_false, if_neg Bool.false_ne_true]
      have htext : recieveText worker kernel = (kernel, [.acquired .ostream]) := by
        rw [recieveText, if_neg (ne_false_of_eq_true hostream), if_pos hbuffer]
      rw [htext]
      exact ⟨hhanded ▸ ⟨rfl, rfl⟩, h.of_eq_nil hhanded⟩
    | true =>
      obtain ⟨rounds, last, hrounds, hcarries, hclosed⟩ := hreceives
      have hoverran : ∀ round ∈ rounds, round.beyond = false := fun round hround ↦
        hserved.overran round (hrounds ▸ List.mem_append_left _ hround)
      have hnone := noneRefused_rounds hostream hbuffer hrounds hserved.noneRefused
      have hlast : last.handed = [] := by
        rw [Round.handed, hclosed]
      have hhanded : worker.handed = rounds.flatMap Round.handed := by
        rw [Worker.handed, hostream, hbuffer, Bool.and_self, if_pos rfl, hrounds,
          List.flatMap_append, List.flatMap_singleton, hlast, List.append_nil]
      have hopened : Open (worker.enter kernel).kernel commands pending := h
      obtain ⟨hready, hcommits, hopen⟩ :=
        rounds_cut hcarries hoverran hopened (worker.enter_ready kernel) hnone
      obtain ⟨hkernel, htrace⟩ := recieveText_rounds hostream hbuffer hrounds hclosed hready
      rw [hhanded, hkernel]
      refine ⟨commits_of_deviceTrace ?_, hopen⟩
      rw [htrace]
      exact ⟨(writtenChunks_deviceTrace _).trans hcommits.written,
        (committedEntries_deviceTrace _).trans hcommits.committed⟩

/-- Any sequence of connections: what they write are the chunks they hand over, and what they
commit are these chunks cut as if they came from one connection. -/
theorem server_cuts {workers : List Worker} (h : Open kernel commands pending)
    (hreceives : ∀ worker ∈ workers, ∃ chunks, worker.Receives chunks)
    (hserved : server.Meets (fun kernel worker ↦ worker.Served kernel) kernel workers) :
    (server.outputs kernel workers).map writtenChunks = workers.map Worker.handed ∧
      (server.outputs kernel workers).flatMap committedEntries =
        (cutAfter isNewline pending (workers.map Worker.handed).flatten).1 := by
  induction workers generalizing kernel commands pending with
  | nil => exact ⟨rfl, rfl⟩
  | cons worker rest ih =>
    rw [List.forall_mem_cons] at hreceives
    obtain ⟨⟨chunks, hworker⟩, hrest⟩ := hreceives
    obtain ⟨hcommits, hopen⟩ := recieveText_cuts h hworker hserved.1
    obtain ⟨hwritten, hcommitted⟩ := ih hopen hrest hserved.2
    constructor
    · rw [Machine.outputs_cons, server_next, server_emit, List.map_cons, List.map_cons, hwritten,
        hcommits.written]
    · rw [Machine.outputs_cons, server_next, server_emit, List.flatMap_cons, hcommitted,
        hcommits.committed, List.map_cons, List.flatten_cons, cutAfter_append]

end Run

/-- **Exactly when commands keep to one client.** After every run of the device that leaves nothing
pending, let any connections obtain the mutex in any order, receive data without NUL bytes and run
to completion, with every write served. All committed entries come from one connection each if and
only if no connection whose last chunk handed to the device has no newline comes before one that
hands over a newline. -/
theorem singleSource_iff (calls : List Call)
    (hnothing : (device.run System.loaded calls).kernel.dev.entry.size = 0) (workers : List Worker)
    (hreceives : ∀ worker ∈ workers, ∃ chunks, worker.Receives chunks)
    (hserved : server.Meets (fun kernel worker ↦ worker.Served kernel)
      (device.run System.loaded calls).kernel workers) :
    SingleSource (server.outputs (device.run System.loaded calls).kernel workers) ↔
      workers.Pairwise fun earlier later ↦
        ¬ (EndsOpen isNewline earlier.handed ∧ Closes isNewline later.handed) := by
  have hopen : Open (device.run System.loaded calls).kernel (commits System.loaded calls) [] := by
    refine ⟨⟨stores_run calls, Or.inl hnothing, ?_⟩, List.not_mem_nil, List.not_mem_nil⟩
    rw [pendingBytes, entryBytes, hnothing, List.take_zero]
  obtain ⟨hwritten, hcommitted⟩ := server_cuts hopen hreceives hserved
  have hne : ∀ handed ∈ workers.map Worker.handed, ∀ chunk ∈ handed, chunk ≠ [] := by
    rw [List.forall_mem_map]
    intro worker hworker
    obtain ⟨chunks, hchunks⟩ := hreceives worker hworker
    exact hchunks.ne_nil
  unfold SingleSource origins
  rw [hwritten, exists_pieces_iff_groups hcommitted,
    fromOneSource_taggedFrom_iff hne 0 (fun x hx ↦ absurd hx List.not_mem_nil), List.pairwise_map]
  exact and_iff_right fun hopened ↦ absurd rfl hopened

/-- A connection that sends a whole line and then one that sends half of one. -/
def orderlyWorkers : List Worker := [.smooth [[97, newline]], .smooth [[98]]]

theorem singleSource_iff_orderly :
    SingleSource (server.outputs (device.run System.loaded []).kernel orderlyWorkers) := by
  have hreceives : ∀ worker ∈ orderlyWorkers, ∃ chunks, worker.Receives chunks := by
    simp only [orderlyWorkers, List.forall_mem_cons]
    exact ⟨⟨_, receives_smooth (by decide)⟩, ⟨_, receives_smooth (by decide)⟩,
      fun _ hmem ↦ absurd hmem List.not_mem_nil⟩
  refine (singleSource_iff [] rfl orderlyWorkers hreceives ?_).mpr ?_
  · exact ⟨⟨by decide +kernel, by decide⟩, ⟨by decide +kernel, by decide⟩, trivial⟩
  · have hfirst : ¬ EndsOpen isNewline (Worker.smooth [[97, newline]]).handed := by
      rintro ⟨last, hlast, hopen⟩
      obtain rfl : [97, newline] = last := Option.some_injective _ hlast
      exact Bool.false_ne_true (hopen.symm.trans (by decide))
    simp only [orderlyWorkers, List.pairwise_cons, List.mem_singleton, List.not_mem_nil,
      false_implies, implies_true, List.Pairwise.nil, and_true]
    exact fun _ _ hboth ↦ hfirst hboth.1

/-- A client that sends "ab" and leaves, and one that sends "c" and a newline, make up one command
together. -/
theorem half_line_joins_next_client :
    (server.outputs (device.run System.loaded []).kernel
        [.smooth [[97, 98]], .smooth [[99, newline]]]).flatMap committedEntries =
      [[97, 98, 99, newline]] ∧
    ¬ SingleSource (server.outputs (device.run System.loaded []).kernel
      [.smooth [[97, 98]], .smooth [[99, newline]]]) := by
  have hcommitted : (server.outputs (device.run System.loaded []).kernel
      [.smooth [[97, 98]], .smooth [[99, newline]]]).flatMap committedEntries =
        [[97, 98, 99, newline]] := by decide +kernel
  refine ⟨hcommitted, ?_⟩
  rintro ⟨pieces, hpieces, hread, hall⟩
  have horigins : origins (server.outputs (device.run System.loaded []).kernel
      [.smooth [[97, 98]], .smooth [[99, newline]]]) =
        [(97, 0), (98, 0), (99, 1), (newline, 1)] := by decide +kernel
  rw [hcommitted, List.map_eq_singleton_iff] at hread
  obtain ⟨piece, rfl, hpiece⟩ := hread
  rw [horigins, List.flatten_singleton] at hpieces
  have hwhole : piece = [(97, 0), (98, 0), (99, 1), (newline, 1)] := by
    apply hpieces.eq_of_length
    exact (List.length_map Prod.fst).symm.trans (congrArg List.length hpiece)
  obtain ⟨source, hsource⟩ := hall piece (List.mem_singleton_self _)
  have hfirst := hsource (97, 0) (by simp [hwhole])
  have hlast := hsource (newline, 1) (by simp [hwhole])
  exact absurd (hfirst.trans hlast.symm) (by decide)

end Aesd.Server
