import Aesd.Driver.Grouping
import Aesd.Driver.Read
import Aesd.Server.Worker

/-!
# What one round of the receive loop does

The specification of `receiveRound`. Reading in pieces, by `fread` or `read`, relays the content
of the device from a position on. A chunk without NUL bytes is looked at as it came: a round either
makes one seek request and leaves the device alone, or writes the chunk to the device and, if it
contains a newline, relays the content from the position of the reply stream on.
-/

namespace Aesd.Server

open Foundation Driver

/-! ## Traces -/

def Event.isDevice : Event → Bool
  | .written _ _ => true
  | .requested _ _ => true
  | _ => false

def deviceTrace (events : List Event) : List Event := events.filter Event.isDevice

def sentBytes (events : List Event) : List UInt8 :=
  events.flatMap fun
    | .sent bytes _ => bytes
    | _ => []

@[simp]
theorem deviceTrace_append (first second : List Event) :
    deviceTrace (first ++ second) = deviceTrace first ++ deviceTrace second :=
  List.filter_append first second

@[simp]
theorem sentBytes_append (first second : List Event) :
    sentBytes (first ++ second) = sentBytes first ++ sentBytes second :=
  List.flatMap_append

/-! ## Relaying the content -/

section Relay

/-- Reading at a position returns a piece of the bytes from there on and moves behind it, and
returns nothing only at the end. -/
def Serves (bytes : List UInt8) (read : ℕ → ℤ → List UInt8 × ℤ) : Prop :=
  ∀ k (position : ℕ), position < 2 ^ 63 →
    ∃ piece, read k position = (piece, ((position + piece.length : ℕ) : ℤ)) ∧
      piece <+: bytes.drop position ∧ (piece = [] → bytes.length ≤ position)

/-- The lock around a send shows in neither projection. -/
structure SendOnly (around : Event → List Event) : Prop where
  device : ∀ bytes complete, deviceTrace (around (.sent bytes complete)) = []
  sent : ∀ bytes complete, sentBytes (around (.sent bytes complete)) = bytes

variable {bytes : List UInt8} {read : ℕ → ℤ → List UInt8 × ℤ} {around : Event → List Event}

/-- Whatever it reads and however much of it is sent, a relay leaves the device alone. -/
theorem deviceTrace_relay (haround : SendOnly around) (sends : ℕ → Bool) (steps k : ℕ)
    (fPos : ℤ) : deviceTrace (relay read around sends steps k fPos).1 = [] := by
  induction steps generalizing k fPos with
  | zero => rfl
  | succ steps ih =>
    simp only [relay]
    split
    · rfl
    · split
      · rw [deviceTrace_append, haround.device, ih, List.append_nil]
      · exact haround.device _ _

/-- A piece of the bytes from a position on, and the bytes behind it, are the bytes from the
position on. -/
theorem piece_append_drop {piece : List UInt8} {position : ℕ}
    (h : piece <+: bytes.drop position) :
    piece ++ bytes.drop (position + piece.length) = bytes.drop position := by
  obtain ⟨rest, hrest⟩ := h
  rw [← List.drop_drop, ← hrest, List.drop_left]

theorem position_add_piece_le {piece : List UInt8} {position : ℕ}
    (h : piece <+: bytes.drop position) (hne : piece ≠ []) :
    position + piece.length ≤ bytes.length ∧ 0 < piece.length := by
  have hlength := h.length_le
  rw [List.length_drop] at hlength
  have hpos := List.length_pos_iff.mpr hne
  omega

/-- **A relay forwards everything.** With enough steps and all sends complete it ends because
nothing comes any more, has sent the bytes from its position on, and stands behind them. -/
theorem relay_eq (hserves : Serves bytes read) (haround : SendOnly around)
    {sends : ℕ → Bool} (hsends : ∀ k, sends k = true) (hbytes : bytes.length < 2 ^ 63)
    {steps : ℕ} (k : ℕ) {position : ℕ} (hposition : position < 2 ^ 63)
    (hsteps : bytes.length < position + steps) :
    ∃ events, relay read around sends steps k position =
        (events, ((max position bytes.length : ℕ) : ℤ), true) ∧
      sentBytes events = bytes.drop position := by
  induction steps generalizing k position with
  | zero =>
    refine ⟨[], ?_, ?_⟩
    · rw [relay, Nat.max_eq_left (by omega)]
    · rw [List.drop_of_length_le (by omega)]
      rfl
  | succ steps ih =>
    obtain ⟨piece, hread, hpiece, hend⟩ := hserves k position hposition
    by_cases hnil : piece = []
    · have hpast := hend hnil
      refine ⟨[], ?_, ?_⟩
      · rw [relay, hread, hnil]
        simp only [if_true, List.length_nil, Nat.add_zero, Nat.max_eq_left hpast]
      · rw [List.drop_of_length_le hpast]
        rfl
    · obtain ⟨hinside, hprogress⟩ := position_add_piece_le hpiece hnil
      have hrest := @ih (k + 1) (position + piece.length) (by omega) (by omega)
      obtain ⟨events, hrelay, hsent⟩ := hrest
      refine ⟨around (.sent piece true) ++ events, ?_, ?_⟩
      · rw [relay, hread]
        simp only [if_neg hnil, hsends k, if_true, hrelay, Nat.max_eq_right hinside,
          Nat.max_eq_right ((Nat.le_add_right position piece.length).trans hinside)]
      · rw [sentBytes_append, haround.sent, hsent, piece_append_drop hpiece]

end Relay

/-! ## Reading the device -/

section Read

variable {kernel : Kernel} {commands : List (List UInt8)}

/-- `fread` returns the next `want` bytes of the content, fewer only at its end. -/
theorem fread_eq (h : Stores kernel commands) {steps want : ℕ} (hsteps : want ≤ steps)
    {position : ℕ} (hposition : position < 2 ^ 63) :
    fread kernel true steps want position =
      (((content commands).drop position).take want,
        ((position + (((content commands).drop position).take want).length : ℕ) : ℤ)) := by
  have hbound := h.length_content_lt
  induction steps generalizing want position with
  | zero =>
    obtain rfl : want = 0 := Nat.le_zero.mp hsteps
    rfl
  | succ steps ih =>
    obtain ⟨piece, hread, hpiece, hle, hend⟩ := h.aesdRead_eq hposition want
    have hnonneg : ¬ ((piece.length : ℕ) : ℤ) < 0 := by omega
    by_cases hnil : piece = []
    · have hnothing : ((content commands).drop position).take want = [] := by
        rcases Nat.eq_zero_or_pos want with hzero | hpos
        · rw [hzero, List.take_zero]
        · rw [List.drop_of_length_le (hend hpos hnil), List.take_nil]
      rw [fread, hread, hnil, hnothing]
      simp
    · obtain ⟨hinside, hprogress⟩ := position_add_piece_le hpiece hnil
      have hrest := @ih (want - piece.length) (by omega) (position + piece.length) (by omega)
      have hsplit := piece_append_drop hpiece
      have htake : ((content commands).drop position).take want =
          piece ++ ((content commands).drop (position + piece.length)).take
            (want - piece.length) := by
        rw [← hsplit, List.take_append, List.take_of_length_le hle]
      rw [fread, hread]
      have hpositive : ¬ ((piece.length : ℕ) : ℤ) ≤ 0 := by omega
      simp only [if_neg hpositive, hrest, htake, List.length_append]
      rw [Nat.add_assoc]

/-- `fread` serves the content as well. -/
theorem serves_fread (h : Stores kernel commands) {copied : ℕ → Bool}
    (hcopied : ∀ k, copied k = true) :
    Serves (content commands) fun k fPos ↦ fread kernel (copied k) maxBuffer maxBuffer fPos := by
  intro k position hposition
  refine ⟨((content commands).drop position).take maxBuffer, ?_, List.take_prefix _ _, ?_⟩
  · simp only [hcopied k, fread_eq h le_rfl hposition]
  · intro hnil
    rw [List.take_eq_nil_iff] at hnil
    rcases hnil with hzero | hpast
    · exact absurd hzero (by decide)
    · exact List.drop_eq_nil_iff.mp hpast

theorem relaySteps_eq (h : Stores kernel commands) :
    relaySteps kernel = (content commands).length + 1 := by
  rw [relaySteps, h.totalSize_eq]

end Read

/-! ## The calls of a round -/

section Calls

variable {kernel : Kernel} {round : Round}

theorem sendOnly_locked :
    SendOnly fun send ↦ [.acquired .sendmutex, send, .released .sendmutex] where
  device := fun _ _ ↦ rfl
  sent := fun bytes _ ↦ List.append_nil bytes

theorem sendOnly_plain : SendOnly fun send ↦ [send] where
  device := fun _ _ ↦ rfl
  sent := fun bytes _ ↦ List.append_nil bytes

theorem deviceTrace_sendfile (kernel : Kernel) (round : Round) (sendfd : Option ℤ) :
    deviceTrace (sendfile kernel round sendfd).2 = [] := by
  cases sendfd with
  | none => rfl
  | some fPos =>
    simp only [sendfile]
    rw [← List.singleton_append, List.append_assoc, deviceTrace_append, deviceTrace_append,
      deviceTrace_relay sendOnly_locked]
    split <;> rfl

/-- A reply sends the content from the position of the reply stream on, which then stands at the
end of the content or where it stood. -/
theorem sendfile_eq {commands : List (List UInt8)} (h : Stores kernel commands)
    (hcopied : ∀ k, round.copied k = true) (hsends : ∀ k, round.sends k = true) {position : ℕ}
    (hposition : position < 2 ^ 63) :
    (sendfile kernel round (some (position : ℤ))).1 =
        some ((max position (content commands).length : ℕ) : ℤ) ∧
      sentBytes (sendfile kernel round (some (position : ℤ))).2 =
        (content commands).drop position := by
  have hbound := h.length_content_lt
  obtain ⟨events, hrelay, hsent⟩ := relay_eq (serves_fread h hcopied) sendOnly_locked hsends
    (by omega) 0 hposition (show (content commands).length < position + relaySteps kernel by
      rw [relaySteps_eq h]
      omega)
  simp only [sendfile, hrelay, if_true]
  refine ⟨trivial, ?_⟩
  rw [← List.singleton_append, sentBytes_append, sentBytes_append, hsent]
  exact List.append_nil _

theorem savetofile_eq (hfputs : round.fputs = true) {string : List UInt8} (hne : string ≠ [])
    (kernel : Kernel) :
    savetofile round string kernel =
      ((aesdWrite (round.writeCall string) kernel).1,
        [.acquired .filemutex, .released .filemutex,
          .written string (aesdWrite (round.writeCall string) kernel).2]) := by
  simp only [savetofile, hfputs, hne, ne_eq, not_false_eq_true, and_self, if_true]

/-- A seek request is made once, and nothing is written. -/
theorem deviceTrace_seekReply (hopens : round.deviceOpens = true) (kernel : Kernel)
    (seekto : AesdSeekto) :
    deviceTrace (seekReply kernel round seekto) =
      [.requested seekto (aesdIoctl kernel.dev 0 aesdcharIocseekto (some seekto)).1] := by
  simp only [seekReply, hopens, if_true]
  split
  · rfl
  · rw [deviceTrace_append, deviceTrace_append, deviceTrace_relay sendOnly_plain]
    rfl

end Calls

/-! ## One round -/

section Round

variable {session : Session} {round : Round} {chunk : List UInt8}

def Round.string (round : Round) (session : Session) : List UInt8 :=
  stringOf nul (round.buffer session.buffer)

def Round.saved (round : Round) (session : Session) : Kernel :=
  (savetofile round (round.string session) session.kernel).1

/-- The session after a round, up to the device and the reply stream. -/
def Session.after (session : Session) (round : Round) (kernel : Kernel) (sendfd : Option ℤ) :
    Session :=
  ⟨kernel, sendfd, round.buffer session.buffer, decide (0 < round.recv.bytesRecieved)⟩

theorem receiver_step_of_some (hrunning : session.running = true) {seekto : AesdSeekto}
    (hscan : sscanfSeekto (round.string session) = some seekto) :
    receiver.step session round =
      (session.after round session.kernel session.sendfd,
        .terminated round.recv.bytesRecieved :: seekReply session.kernel round seekto) := by
  rw [Round.string] at hscan
  simp only [receiver, hrunning, if_true, receiveRound, hscan, Session.after]

theorem receiver_step_of_none (hrunning : session.running = true)
    (hscan : sscanfSeekto (round.string session) = none)
    (hnewline : newline ∉ round.string session) :
    receiver.step session round =
      (session.after round (round.saved session) session.sendfd,
        .terminated round.recv.bytesRecieved ::
          (savetofile round (round.string session) session.kernel).2) := by
  rw [Round.string] at hscan hnewline
  simp only [receiver, hrunning, if_true, receiveRound, hscan, hnewline, if_false, Session.after,
    Round.saved, Round.string]

theorem receiver_step_of_newline (hrunning : session.running = true)
    (hscan : sscanfSeekto (round.string session) = none)
    (hnewline : newline ∈ round.string session) :
    receiver.step session round =
      (session.after round (round.saved session)
          (sendfile (round.saved session) round session.sendfd).1,
        .terminated round.recv.bytesRecieved ::
          (savetofile round (round.string session) session.kernel).2 ++
          (sendfile (round.saved session) round session.sendfd).2) := by
  rw [Round.string] at hscan hnewline
  simp only [receiver, hrunning, if_true, receiveRound, hscan, hnewline, Session.after,
    Round.saved, Round.string]

/-- `recv` returns this chunk. -/
structure Round.Delivers (round : Round) (chunk : List UInt8) : Prop where
  recv_eq : round.recv = .data chunk
  nonempty : chunk ≠ []
  fits : chunk.length ≤ maxBuffer

/-- `recv` returns this chunk, which has no NUL byte. -/
structure Round.Carries (round : Round) (chunk : List UInt8) : Prop where
  recv_eq : round.recv = .data chunk
  nonempty : chunk ≠ []
  fits : chunk.length ≤ maxBuffer
  noNul : nul ∉ chunk

/-- The worker is in the receive loop, with a buffer of the allocated size. -/
structure Session.Ready (session : Session) : Prop where
  running : session.running = true
  allocated : session.buffer.length = maxBuffer + 1

theorem Round.Delivers.bytesRecieved_eq (h : round.Delivers chunk) :
    round.recv.bytesRecieved = chunk.length := by
  rw [h.recv_eq, Recv.bytesRecieved]

theorem Round.Delivers.bytesRecieved_pos (h : round.Delivers chunk) :
    0 < round.recv.bytesRecieved := by
  rw [h.bytesRecieved_eq]
  exact List.length_pos_iff.mpr h.nonempty

/-- The chunk lies in front of its NUL, and behind it what was in the buffer before. -/
theorem Round.Delivers.buffer_eq (h : round.Delivers chunk) {buffer : List UInt8}
    (hbuffer : buffer.length = maxBuffer + 1) :
    round.buffer buffer = chunk ++ nul :: buffer.drop (chunk.length + 1) := by
  have hfits := h.fits
  have hdrop : buffer.drop chunk.length = buffer[chunk.length] :: buffer.drop (chunk.length + 1) :=
    List.drop_eq_getElem_cons (by omega)
  rw [Round.buffer, h.recv_eq, Recv.store, Recv.bytesRecieved,
    List.set_append_right _ _ le_rfl, Nat.sub_self, hdrop, List.set_cons_zero]

theorem Round.Delivers.length_buffer (h : round.Delivers chunk) {buffer : List UInt8}
    (hbuffer : buffer.length = maxBuffer + 1) :
    (round.buffer buffer).length = maxBuffer + 1 := by
  have hfits := h.fits
  rw [h.buffer_eq hbuffer, List.length_append, List.length_cons, List.length_drop]
  omega

/-- The string functions see the chunk up to its first NUL, and nothing of what was in the buffer
before. -/
theorem Round.Delivers.stringOf_buffer (h : round.Delivers chunk) {buffer : List UInt8}
    (hbuffer : buffer.length = maxBuffer + 1) :
    stringOf nul (round.buffer buffer) = stringOf nul chunk := by
  rw [h.buffer_eq hbuffer, stringOf_append_cons]

theorem Round.Carries.delivers (h : round.Carries chunk) : round.Delivers chunk :=
  ⟨h.recv_eq, h.nonempty, h.fits⟩

/-- The string functions see the chunk as it came. -/
theorem Round.Carries.stringOf_buffer (h : round.Carries chunk) {buffer : List UInt8}
    (hbuffer : buffer.length = maxBuffer + 1) : stringOf nul (round.buffer buffer) = chunk := by
  rw [h.delivers.stringOf_buffer hbuffer, stringOf_eq_self h.noNul]

theorem Session.Ready.after (hready : session.Ready) (h : round.Delivers chunk) (kernel : Kernel)
    (sendfd : Option ℤ) : (session.after round kernel sendfd).Ready :=
  ⟨decide_eq_true h.bytesRecieved_pos, h.length_buffer hready.allocated⟩

/-- A chunk that is a seek request leaves the device and the reply stream alone. -/
theorem receiver_seek (hready : session.Ready) (hcarries : round.Carries chunk)
    {seekto : AesdSeekto} (hscan : sscanfSeekto chunk = some seekto) :
    (receiver.next session round).Ready ∧
      (receiver.next session round).kernel = session.kernel ∧
      (receiver.next session round).sendfd = session.sendfd ∧
      deviceTrace (receiver.emit session round) =
        deviceTrace (seekReply session.kernel round seekto) := by
  have hstring : round.string session = chunk := hcarries.stringOf_buffer hready.allocated
  have hstep := receiver_step_of_some hready.running (hstring.symm ▸ hscan)
  simp only [Machine.next, Machine.emit, hstep]
  exact ⟨hready.after hcarries.delivers _ _, rfl, rfl, rfl⟩

/-- Any other chunk is saved, and behind a newline the reply is sent. -/
theorem receiver_saved (hready : session.Ready) (hcarries : round.Carries chunk)
    (hscan : sscanfSeekto chunk = none) {kernel : Kernel} {events : List Event}
    (hsaved : savetofile round chunk session.kernel = (kernel, events)) :
    (receiver.next session round).Ready ∧
      (receiver.next session round).kernel = kernel ∧
      deviceTrace (receiver.emit session round) = deviceTrace events ∧
      (newline ∉ chunk → (receiver.next session round).sendfd = session.sendfd ∧
        sentBytes (receiver.emit session round) = sentBytes events) ∧
      (newline ∈ chunk →
        (receiver.next session round).sendfd = (sendfile kernel round session.sendfd).1 ∧
          sentBytes (receiver.emit session round) =
            sentBytes events ++ sentBytes (sendfile kernel round session.sendfd).2) := by
  have hstring : round.string session = chunk := hcarries.stringOf_buffer hready.allocated
  have hnone : sscanfSeekto (round.string session) = none := hstring.symm ▸ hscan
  have hready' := hready.after hcarries.delivers
  by_cases hnewline : newline ∈ chunk
  · have hstep := receiver_step_of_newline hready.running hnone (hstring.symm ▸ hnewline)
    rw [Round.saved, hstring, hsaved] at hstep
    simp only [Machine.next, Machine.emit, hstep]
    refine ⟨hready' _ _, rfl, ?_, fun hno ↦ absurd hnewline hno, fun _ ↦ ⟨rfl, ?_⟩⟩
    · rw [deviceTrace_append, deviceTrace_sendfile, List.append_nil]
      rfl
    · exact sentBytes_append _ _
  · have hstep := receiver_step_of_none hready.running hnone (hstring.symm ▸ hnewline)
    rw [Round.saved, hstring, hsaved] at hstep
    simp only [Machine.next, Machine.emit, hstep]
    exact ⟨hready' _ _, rfl, rfl, fun _ ↦ ⟨rfl, rfl⟩, fun hyes ↦ absurd hyes hnewline⟩

/-- A chunk that is saved is written to the device, and what is sent is the reply to it. -/
theorem receiver_data (hready : session.Ready) (hcarries : round.Carries chunk)
    (hscan : sscanfSeekto chunk = none) (hfputs : round.fputs = true) :
    (receiver.next session round).Ready ∧
      (receiver.next session round).kernel =
        (aesdWrite (round.writeCall chunk) session.kernel).1 ∧
      deviceTrace (receiver.emit session round) =
        [.written chunk (aesdWrite (round.writeCall chunk) session.kernel).2] ∧
      (newline ∉ chunk → (receiver.next session round).sendfd = session.sendfd ∧
        sentBytes (receiver.emit session round) = []) ∧
      (newline ∈ chunk →
        (receiver.next session round).sendfd =
            (sendfile (aesdWrite (round.writeCall chunk) session.kernel).1 round
              session.sendfd).1 ∧
          sentBytes (receiver.emit session round) =
            sentBytes (sendfile (aesdWrite (round.writeCall chunk) session.kernel).1 round
              session.sendfd).2) :=
  receiver_saved hready hcarries hscan (savetofile_eq hfputs hcarries.nonempty session.kernel)

theorem receiver_unsaved (hready : session.Ready) (hcarries : round.Carries chunk)
    (hscan : sscanfSeekto chunk = none) (hfputs : round.fputs = false) :
    (receiver.next session round).Ready ∧
      (receiver.next session round).kernel = session.kernel ∧
      deviceTrace (receiver.emit session round) = [] := by
  have hsaved : savetofile round chunk session.kernel =
      (session.kernel, [.acquired .filemutex, .released .filemutex]) := by
    simp only [savetofile, hfputs, Bool.false_eq_true, false_and, if_false]
  obtain ⟨hready', hkernel, htrace, -⟩ := receiver_saved hready hcarries hscan hsaved
  exact ⟨hready', hkernel, htrace⟩

/-- The end of the stream: an empty string is saved, and the loop is left. -/
theorem receiver_step_of_closed (hrunning : session.running = true)
    (hclosed : round.recv = .closed) :
    receiver.step session round =
      ({ session with buffer := round.buffer session.buffer, running := false },
        [.terminated 0, .acquired .filemutex, .released .filemutex]) := by
  have hstring : stringOf nul (round.buffer session.buffer) = [] := by
    simp only [Round.buffer, hclosed, Recv.store, Recv.bytesRecieved]
    cases hbuffer : session.buffer with
    | nil => rfl
    | cons byte rest => rw [List.set_cons_zero, stringOf, List.takeWhile_cons_of_neg (by simp)]
  have hscan : sscanfSeekto [] = none := by decide
  simp only [receiver, hrunning, if_true, receiveRound, hstring, hscan, savetofile,
    ne_eq, not_true_eq_false, and_false, if_false, List.not_mem_nil, hclosed,
    Recv.bytesRecieved, lt_self_iff_false, decide_false]

theorem receiver_closed (hready : session.Ready) (hclosed : round.recv = .closed) :
    (receiver.next session round).running = false ∧
      (receiver.next session round).kernel = session.kernel ∧
      deviceTrace (receiver.emit session round) = [] ∧
      sentBytes (receiver.emit session round) = [] := by
  simp only [Machine.next, Machine.emit, receiver_step_of_closed hready.running hclosed]
  exact ⟨trivial, trivial, rfl, rfl⟩

end Round

theorem Worker.enter_ready (worker : Worker) (kernel : Kernel) : (worker.enter kernel).Ready :=
  ⟨rfl, worker.garbage_length⟩

def sampleCalls : List Call :=
  [.write 0 (.complete [120, newline]), .write 0 (.complete [121, newline])]

def sampleChunks : List (List UInt8) :=
  [seekKeyword ++ ascii ['1', ',', '0'], [97], [98, newline]]

end Aesd.Server
