import Aesd.Server.Conversation

/-!
# How much of a cutting matters

The same bytes reach a worker in chunks that the network chooses, and each chunk is taken by
itself: a seek request cut in two is data, and so is one that does not start its chunk. What a
connection does is settled by the bytes together with two things about the cutting: where the
chunks that are seek requests lie, and where the data chunks that contain a newline end. Anything
else about it does not matter.
-/

namespace Aesd.Server

open Foundation Driver

/-- A place in the stream that a cutting marks: a chunk that is a seek request, or the end of a
data chunk that contains a newline. -/
inductive Mark where
  | seek (start stop : ℕ)
  | line (stop : ℕ)
deriving DecidableEq

/-- The marks of a cutting whose first chunk is at an offset of the stream. -/
def marks : ℕ → List (List UInt8) → List Mark
  | _, [] => []
  | offset, chunk :: rest =>
    if (sscanfSeekto chunk).isSome then
      .seek offset (offset + chunk.length) :: marks (offset + chunk.length) rest
    else if newline ∈ chunk then
      .line (offset + chunk.length) :: marks (offset + chunk.length) rest
    else marks (offset + chunk.length) rest

/-- The outcome of a stream from an offset on, computed from its bytes and the marks. -/
def replay (hidden : Bool) : ℕ → ℕ → List UInt8 → List Mark → List UInt8 → Outcome
  | _, _, pending, [], stream => ⟨[], [], pending ++ stream⟩
  | offset, delivered, pending, .seek start stop :: marks, stream =>
    let data := stream.take (start - offset)
    let rest := stream.drop (start - offset)
    let later := replay hidden stop (delivered + data.length) (pending ++ data) marks
      (rest.drop (stop - start))
    { later with
      requests := (sscanfSeekto (rest.take (stop - start))).toList.map
        (fun seekto ↦ (delivered + data.length, seekto)) ++ later.requests }
  | offset, delivered, pending, .line stop :: marks, stream =>
    let data := stream.take (stop - offset)
    let rest := stream.drop (stop - offset)
    if hidden = false then
      let later := replay hidden stop (delivered + data.length) [] marks rest
      { later with commands := (pending ++ data) :: later.commands }
    else replay hidden stop (delivered + data.length) (pending ++ data) marks rest

/-- The chunks of a cutting have the outcome of the stream and its marks. The bytes `held` since
the last mark belong to chunks that mark nothing. -/
theorem outcome_eq_replay (hidden : Bool) (offset delivered : ℕ) (pending held : List UInt8)
    (chunks : List (List UInt8)) :
    outcome hidden (delivered + held.length) (pending ++ held) chunks =
      replay hidden offset delivered pending (marks (offset + held.length) chunks)
        (held ++ chunks.flatten) := by
  induction chunks generalizing offset delivered pending held with
  | nil => rw [outcome, marks, replay, List.flatten_nil, List.append_nil]
  | cons chunk rest ih =>
    have hjoin : held ++ (chunk :: rest).flatten = held ++ chunk ++ rest.flatten := by
      rw [List.flatten_cons, List.append_assoc]
    have hlength : offset + held.length + chunk.length - offset = (held ++ chunk).length := by
      rw [List.length_append]
      omega
    have hsum : delivered + held.length + chunk.length = delivered + (held ++ chunk).length := by
      rw [List.length_append, Nat.add_assoc]
    cases hscan : sscanfSeekto chunk with
    | some seekto =>
      have hstart : offset + held.length - offset = held.length := by omega
      have hstop : offset + held.length + chunk.length - (offset + held.length) =
          chunk.length := by omega
      have hrest := ih (offset + held.length + chunk.length) (delivered + held.length)
        (pending ++ held) []
      rw [List.length_nil, Nat.add_zero, Nat.add_zero, List.append_nil, List.nil_append] at hrest
      simp only [outcome, hscan, marks, Option.isSome_some, if_true, replay, hstart, hstop,
        List.flatten_cons, List.take_left, List.drop_left, Option.toList_some, List.map_cons,
        List.map_nil, List.singleton_append, hrest]
    | none =>
      by_cases hnewline : newline ∈ chunk
      · have hrest := fun pending ↦ ih (offset + held.length + chunk.length)
          (delivered + (held ++ chunk).length) pending []
        simp only [List.length_nil, Nat.add_zero, List.append_nil, List.nil_append] at hrest
        simp only [outcome, hscan, marks, Option.isSome_none, Bool.false_eq_true, if_false,
          hnewline, and_true, if_true, replay, hlength, hjoin, List.take_left, List.drop_left,
          hsum, hrest, List.append_assoc pending held chunk]
      · have hrest := ih offset delivered pending (held ++ chunk)
        rw [← hsum, ← List.append_assoc, List.length_append, ← Nat.add_assoc] at hrest
        simp only [outcome, hscan, marks, Option.isSome_none, Bool.false_eq_true, if_false,
          hnewline, and_false, hrest, hjoin]

/-- Two cuttings of one stream with the same marks have the same outcome. -/
theorem outcome_congr {first second : List (List UInt8)} (hstream : first.flatten = second.flatten)
    (hmarks : marks 0 first = marks 0 second) (hidden : Bool) (pending : List UInt8) :
    outcome hidden 0 pending first = outcome hidden 0 pending second := by
  have hreplay := fun chunks ↦ outcome_eq_replay hidden 0 0 pending [] chunks
  simp only [List.length_nil, Nat.add_zero, List.append_nil, List.nil_append] at hreplay
  rw [hreplay, hreplay, hstream, hmarks]

/-- **Two cuttings that agree where it matters.** A stream without NUL bytes meets a device after
any run in which the pending command has not lost its block. Two connections without failures that
receive it in different cuttings make the same seek requests at the same places among the data, and
leave the same bytes readable and the same bytes pending, provided the same stretches of the stream
arrive as seek requests and the data chunks that contain a newline end at the same places. -/
theorem same_marks_same_effect (calls : List Call)
    (hattached : Attached (device.run System.loaded calls).kernel) {first second : Worker}
    {firstChunks secondChunks : List (List UInt8)} (hfirst : first.Receives firstChunks)
    (hsecond : second.Receives secondChunks)
    (hfirstSucceeds : first.Succeeds (device.run System.loaded calls).kernel)
    (hsecondSucceeds : second.Succeeds (device.run System.loaded calls).kernel)
    (hstream : firstChunks.flatten = secondChunks.flatten)
    (hmarks : marks 0 firstChunks = marks 0 secondChunks) :
    requestPlaces 0 (recieveText first (device.run System.loaded calls).kernel).2 =
        requestPlaces 0 (recieveText second (device.run System.loaded calls).kernel).2 ∧
      readable (recieveText first (device.run System.loaded calls).kernel).1 =
        readable (recieveText second (device.run System.loaded calls).kernel).1 ∧
      pendingBytes (recieveText first (device.run System.loaded calls).kernel).1 =
        pendingBytes (recieveText second (device.run System.loaded calls).kernel).1 := by
  have hunfinished := run_unfinished calls
  have hleaves : Leaves (device.run System.loaded calls).kernel (commits System.loaded calls)
      (pendingBytes (device.run System.loaded calls).kernel) :=
    ⟨stores_run calls, hattached, rfl⟩
  have hhidden : decide (nul ∈ pendingBytes (device.run System.loaded calls).kernel) = true ↔
      nul ∈ pendingBytes (device.run System.loaded calls).kernel := decide_eq_true_iff
  obtain ⟨hshows, hleft⟩ := recieveText_outcome hfirst hfirstSucceeds hleaves hhidden hunfinished
  obtain ⟨hshows', hleft'⟩ :=
    recieveText_outcome hsecond hsecondSucceeds hleaves hhidden hunfinished
  rw [← outcome_congr hstream hmarks] at hshows' hleft'
  refine ⟨?_, ?_, hleft.pending_eq.trans hleft'.pending_eq.symm⟩
  · rw [← requestPlaces_deviceTrace, hshows.requests, ← hshows'.requests,
      requestPlaces_deviceTrace]
  · rw [readable_eq hleft.stores, readable_eq hleft'.stores]

/-- The stream "ab", newline, "c" in two cuttings that agree at the end of the line. -/
theorem same_marks_same_effect_line :
    readable (recieveText (.smooth [[97], [98, newline], [99]])
        (device.run System.loaded []).kernel).1 =
      readable (recieveText (.smooth [[97, 98, newline], [99]])
        (device.run System.loaded []).kernel).1 := by
  have hfirst : (Worker.smooth [[97], [98, newline], [99]]).Receives
      [[97], [98, newline], [99]] := receives_smooth (by decide)
  have hsecond : (Worker.smooth [[97, 98, newline], [99]]).Receives
      [[97, 98, newline], [99]] := receives_smooth (by decide)
  have hfirstSucceeds : (Worker.smooth [[97], [98, newline], [99]]).Succeeds
      (device.run System.loaded []).kernel := succeeds_smooth (by decide +kernel)
  have hsecondSucceeds : (Worker.smooth [[97, 98, newline], [99]]).Succeeds
      (device.run System.loaded []).kernel := succeeds_smooth (by decide +kernel)
  have hmarks : marks 0 [[97], [98, newline], [99]] = marks 0 [[97, 98, newline], [99]] := by
    decide +kernel
  exact (same_marks_same_effect [] (Or.inl rfl) hfirst hsecond hfirstSucceeds hsecondSucceeds rfl
    hmarks).2.1

/-- A seek request that arrives whole is made; cut in front of its last digit it is data. And of
data that arrives whole the driver commits all, also what is behind its newline; cut there the rest
is pending. -/
theorem cut_request_is_data :
    ([seekKeyword ++ ascii ['0', ',', '0', '\n']].flatten =
        [seekKeyword ++ ascii ['0', ','], ascii ['0', '\n']].flatten ∧
      requestPlaces 0 (recieveText (.smooth [seekKeyword ++ ascii ['0', ',', '0', '\n']])
          (device.run System.loaded []).kernel).2 ≠
        requestPlaces 0 (recieveText (.smooth [seekKeyword ++ ascii ['0', ','], ascii ['0', '\n']])
          (device.run System.loaded []).kernel).2 ∧
      readable (recieveText (.smooth [seekKeyword ++ ascii ['0', ',', '0', '\n']])
          (device.run System.loaded []).kernel).1 ≠
        readable (recieveText (.smooth [seekKeyword ++ ascii ['0', ','], ascii ['0', '\n']])
          (device.run System.loaded []).kernel).1) ∧
    [[97, newline, 98]].flatten = [[97, newline], [98]].flatten ∧
      readable (recieveText (.smooth [[97, newline, 98]]) (device.run System.loaded []).kernel).1 ≠
        readable (recieveText (.smooth [[97, newline], [98]])
          (device.run System.loaded []).kernel).1 ∧
      pendingBytes (recieveText (.smooth [[97, newline, 98]])
          (device.run System.loaded []).kernel).1 ≠
        pendingBytes (recieveText (.smooth [[97, newline], [98]])
          (device.run System.loaded []).kernel).1 := by
  refine ⟨⟨?_, ?_, ?_⟩, ?_, ?_, ?_⟩ <;> decide +kernel

end Aesd.Server
