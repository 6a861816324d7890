import Aesd.Server.Cleanup
import Aesd.Server.Conversation
import Aesd.Server.SeekReply

/-!
# What is due to a chunk

The specification of a round that receives something, in terms of the device and the client alone.
A chunk that `sscanf` recognises is one seek request, answered by the content from the position it
set. Any other chunk is written once, as far as its first NUL, and if a newline comes before that,
answered by the content from where the reply stream stands. Whatever the calls of the round return,
nothing else is requested, written or sent.
-/

namespace Aesd.Server

open Foundation Driver

/-! ## Traces of the calls -/

section Calls

variable {kernel : Kernel} {commands : List (List UInt8)} {round : Round}

def requestsMade (events : List Event) : List AesdSeekto :=
  events.filterMap fun
    | .requested seekto _ => some seekto
    | _ => none

@[simp]
theorem requestsMade_append (first second : List Event) :
    requestsMade (first ++ second) = requestsMade first ++ requestsMade second :=
  List.filterMap_append

@[simp]
theorem writtenChunks_append (first second : List Event) :
    writtenChunks (first ++ second) = writtenChunks first ++ writtenChunks second :=
  List.filterMap_append

theorem requestsMade_eq_nil {events : List Event}
    (h : ∀ event ∈ events, event.isSave = true ∨ event.isReply = true) :
    requestsMade events = [] := by
  rw [requestsMade, List.filterMap_eq_nil_iff]
  intro event hevent
  have hkind := h event hevent
  cases event with
  | requested seekto ret => simp [Event.isSave, Event.isReply] at hkind
  | _ => rfl

theorem writtenChunks_eq_nil {events : List Event}
    (h : ∀ event ∈ events, event.isReply = true ∨ event.isSeek = true) :
    writtenChunks events = [] := by
  rw [writtenChunks, List.filterMap_eq_nil_iff]
  intro event hevent
  have hkind := h event hevent
  cases event with
  | written bytes result => simp [Event.isReply, Event.isSeek] at hkind
  | _ => rfl

theorem sentBytes_eq_nil {events : List Event} (h : ∀ event ∈ events, event.isSave = true) :
    sentBytes events = [] := by
  rw [sentBytes, List.flatMap_eq_nil_iff]
  intro event hevent
  have hkind := h event hevent
  cases event with
  | sent bytes complete => exact absurd hkind Bool.false_ne_true
  | _ => rfl

theorem requestsMade_savetofile (round : Round) (string : List UInt8) (kernel : Kernel) :
    requestsMade (savetofile round string kernel).2 = [] :=
  requestsMade_eq_nil fun event hevent ↦ Or.inl (forall_mem_savetofile _ _ _ event hevent)

theorem sentBytes_savetofile (round : Round) (string : List UInt8) (kernel : Kernel) :
    sentBytes (savetofile round string kernel).2 = [] :=
  sentBytes_eq_nil (forall_mem_savetofile _ _ _)

theorem requestsMade_sendfile (kernel : Kernel) (round : Round) (sendfd : Option ℤ) :
    requestsMade (sendfile kernel round sendfd).2 = [] := by
  cases sendfd with
  | none => rfl
  | some fPos =>
    exact requestsMade_eq_nil fun event hevent ↦ Or.inr (forall_mem_sendfile _ _ _ event hevent)

theorem writtenChunks_sendfile (kernel : Kernel) (round : Round) (sendfd : Option ℤ) :
    writtenChunks (sendfile kernel round sendfd).2 = [] := by
  cases sendfd with
  | none => rfl
  | some fPos =>
    exact writtenChunks_eq_nil fun event hevent ↦ Or.inl (forall_mem_sendfile _ _ _ event hevent)

theorem writtenChunks_seekReply (kernel : Kernel) (round : Round) (seekto : AesdSeekto) :
    writtenChunks (seekReply kernel round seekto) = [] :=
  writtenChunks_eq_nil fun event hevent ↦ Or.inr (forall_mem_seekReply _ _ _ event hevent)

theorem requestsMade_seekReply (kernel : Kernel) (round : Round) (seekto : AesdSeekto) :
    requestsMade (seekReply kernel round seekto) = if round.deviceOpens then [seekto] else [] := by
  cases hopens : round.deviceOpens with
  | false => simp only [seekReply, hopens, Bool.false_eq_true, if_false, requestsMade,
      List.filterMap_nil]
  | true =>
    have hdevice : requestsMade (deviceTrace (seekReply kernel round seekto)) =
        requestsMade (seekReply kernel round seekto) := by
      apply filterMap_deviceTrace
      intro event hevent
      cases event <;> first | rfl | exact absurd hevent Bool.true_eq_false.mp
    rw [← hdevice, deviceTrace_seekReply hopens]
    rfl

/-- `savetofile` writes its string once, where `fputs` accepts it and there is anything to flush. -/
theorem writtenChunks_savetofile (round : Round) (string : List UInt8) (kernel : Kernel) :
    writtenChunks (savetofile round string kernel).2 =
      if round.fputs = true ∧ string ≠ [] then [string] else [] := by
  unfold savetofile
  split <;> rfl

/-- What a relay sends, and what is left where it ends, are what was left at its start. -/
theorem sentBytes_relay_append {read : ℕ → ℤ → List UInt8 × ℤ} {left : ℤ → List UInt8}
    {valid : ℤ → Prop} (h : Follows read left valid) {around : Event → List Event}
    (haround : SendOnly around) (sends : ℕ → Bool) (steps k : ℕ) {fPos : ℤ} (hfPos : valid fPos) :
    sentBytes (relay read around sends steps k fPos).1 ++
        left (relay read around sends steps k fPos).2.1 = left fPos := by
  induction steps generalizing k fPos with
  | zero => rfl
  | succ steps ih =>
    have hsplit := h.splits k fPos hfPos
    simp only [relay]
    split
    · next hnil =>
      rw [hsplit, hnil]
      rfl
    · split
      · rw [sentBytes_append, haround.sent, List.append_assoc, ih (k + 1) (h.keeps k fPos hfPos),
          ← hsplit]
      · rw [haround.sent, ← hsplit]

theorem sentBytes_sendfile (kernel : Kernel) (round : Round) (fPos : ℤ) :
    sentBytes (sendfile kernel round (some fPos)).2 =
      sentBytes (relay (replyPiece kernel round)
        (fun send ↦ [.acquired .sendmutex, send, .released .sendmutex]) round.sends
        (relaySteps kernel) 0 fPos).1 := by
  simp only [sendfile]
  rw [← List.singleton_append, sentBytes_append, sentBytes_append]
  split <;> exact List.append_nil _

/-- A reply sends a first part of the content from the position of the reply stream on. -/
theorem sentBytes_sendfile_isPrefix (h : Stores kernel commands) (round : Round) {fPos : ℤ}
    (hfPos : InRange fPos) :
    sentBytes (sendfile kernel round (some fPos)).2 <+: (content commands).drop fPos.toNat := by
  have hrelay := sentBytes_relay_append (follows_replyPiece h round) sendOnly_locked round.sends
    (relaySteps kernel) 0 hfPos
  rw [sentBytes_sendfile]
  exact ⟨_, hrelay⟩

/-- The reads of a seek reply follow the content. -/
theorem follows_seekPiece (h : Stores kernel commands) (copied : ℕ → Bool) :
    Follows (fun k fPos ↦ ((aesdRead kernel maxBuffer (copied k) fPos).1.data,
        (aesdRead kernel maxBuffer (copied k) fPos).2))
      (fun fPos ↦ (content commands).drop fPos.toNat) InRange where
  keeps := fun _ _ hfPos ↦ h.inRange_aesdRead hfPos _ _
  splits := by
    intro k fPos hfPos
    cases copied k with
    | false =>
      have hread : (aesdRead kernel maxBuffer false fPos).1.data = [] ∧
          (aesdRead kernel maxBuffer false fPos).2 = fPos := by
        unfold aesdRead
        split <;> exact ⟨rfl, rfl⟩
      rw [hread.1, hread.2, List.nil_append]
    | true => exact (depletes_readPiece h fun _ ↦ show 0 < maxBuffer by decide).splits k fPos hfPos

/-- The reply to a request that succeeds sends a first part of the content from the position the
request set on, and the reply to one that fails sends nothing. -/
theorem sentBytes_seekReply_isPrefix (h : Stores kernel commands) (round : Round)
    (seekto : AesdSeekto) :
    if round.deviceOpens = true ∧
        0 ≤ (aesdIoctl kernel.dev 0 aesdcharIocseekto (some seekto)).1 then
      sentBytes (seekReply kernel round seekto) <+: (content commands).drop
        (aesdIoctl kernel.dev 0 aesdcharIocseekto (some seekto)).2.toNat
    else sentBytes (seekReply kernel round seekto) = [] := by
  by_cases hopens : round.deviceOpens = true
  · by_cases hret : (aesdIoctl kernel.dev 0 aesdcharIocseekto (some seekto)).1 < 0
    · rw [if_neg fun hboth ↦ Int.not_lt.mpr hboth.2 hret]
      simp only [seekReply, if_pos hopens, if_pos hret]
      rfl
    · rw [if_pos ⟨hopens, Int.not_lt.mp hret⟩]
      have hrelay := sentBytes_relay_append (follows_seekPiece h round.copied) sendOnly_plain
        round.sends (relaySteps kernel) 0
        (h.inRange_aesdIoctl inRange_zero aesdcharIocseekto (some seekto))
      simp only [seekReply, if_pos hopens, if_neg hret]
      rw [sentBytes_append, sentBytes_append,
        show sentBytes [.released .deviceFd] = [] from rfl, List.append_nil]
      exact ⟨_, hrelay⟩
  · rw [if_neg fun hboth ↦ hopens hboth.1]
    simp only [seekReply, if_neg hopens]
    rfl

end Calls

theorem performed_append {events : List Event} (hquiet : .nullStream ∉ events)
    (rest : List Event) : performed (events ++ rest) = events ++ performed rest := by
  have hall : ∀ event ∈ events, decide (event ≠ .nullStream) = true := fun event hevent ↦
    decide_eq_true fun heq ↦ hquiet (heq ▸ hevent)
  exact List.takeWhile_append_of_pos hall

/-! ## One round -/

/-- The round sends what the device it leaves holds from this position on: a first part of it in
any case, and all of it where its reads can copy and its sends are complete. -/
structure SendsFrom (session : Session) (round : Round) (position : ℕ) : Prop where
  part : sentBytes (receiver.emit session round) <+:
    (readable (receiver.next session round).kernel).drop position
  whole : (∀ k, round.copied k = true) → (∀ k, round.sends k = true) →
    sentBytes (receiver.emit session round) =
      (readable (receiver.next session round).kernel).drop position

/-- The chunk is data, with a newline in front of its first NUL. -/
def AsksReply (chunk : List UInt8) : Prop :=
  seekRequest chunk = none ∧ newline ∈ stringOf nul chunk

/-- What a round is to do with a chunk. -/
structure Handles (session : Session) (round : Round) (chunk : List UInt8) : Prop where
  /-- one request, where there is one and the device can be opened -/
  requests : requestsMade (receiver.emit session round) =
    if round.deviceOpens then (seekRequest chunk).toList else []
  /-- one write, where there is data and `fputs` accepts it -/
  writes : writtenChunks (receiver.emit session round) =
    if seekRequest chunk = none ∧ round.fputs = true ∧ stringOf nul chunk ≠ [] then
      [stringOf nul chunk] else []
  device : (receiver.next session round).kernel =
    if seekRequest chunk = none ∧ round.fputs = true ∧ stringOf nul chunk ≠ [] then
      (aesdWrite (round.writeCall (stringOf nul chunk)) session.kernel).1 else session.kernel
  /-- the reply to a request is sent from the position it set -/
  seeks : ∀ seekto, seekRequest chunk = some seekto →
    if round.deviceOpens = true ∧
        0 ≤ (aesdIoctl session.kernel.dev 0 aesdcharIocseekto (some seekto)).1 then
      SendsFrom session round
        (aesdIoctl session.kernel.dev 0 aesdcharIocseekto (some seekto)).2.toNat
    else sentBytes (receiver.emit session round) = []
  /-- the reply to data is asked of a reply stream that is open -/
  replies : AsksReply chunk →
    session.sendfd ≠ none ∧ .acquired .sendBuffer ∈ receiver.emit session round
  silent : seekRequest chunk = none → newline ∉ stringOf nul chunk →
    sentBytes (receiver.emit session round) = []
  noNull : .nullStream ∉ receiver.emit session round

section Round

variable {session : Session} {round : Round} {chunk : List UInt8}

/-- A round that receives a seek request does what it is to do. -/
theorem handles_of_seek (hready : session.Ready) (hserving : session.Serving)
    (hdelivers : round.Delivers chunk) {seekto : AesdSeekto}
    (hseek : seekRequest chunk = some seekto) : Handles session round chunk := by
  obtain ⟨commands, hstores⟩ := hserving.stores
  have hhandled : handler.step (session.kernel, session.sendfd) round =
      ((session.kernel, session.sendfd), seekReply session.kernel round seekto) := by
    rw [handler_step hdelivers.recv_eq, handleChunk, hseek]
  have hemit : receiver.emit session round =
      .terminated round.recv.bytesRecieved :: seekReply session.kernel round seekto := by
    rw [receiver_emit_of_delivers hready hdelivers, Machine.emit, hhandled]
  have hkernel : (receiver.next session round).kernel = session.kernel := by
    rw [receiver_next_of_delivers hready hdelivers, Session.handled, Machine.next, hhandled]
  have hdata : ¬ (seekRequest chunk = none ∧ round.fputs = true ∧ stringOf nul chunk ≠ []) :=
    fun hboth ↦ absurd (hseek.symm.trans hboth.1) (Option.some_ne_none seekto)
  have hsent : sentBytes (receiver.emit session round) =
      sentBytes (seekReply session.kernel round seekto) := by
    rw [hemit]
    rfl
  refine ⟨?_, ?_, ?_, ?_, ?_, ?_, ?_⟩
  · rw [hemit, hseek]
    exact requestsMade_seekReply session.kernel round seekto
  · rw [hemit, if_neg hdata]
    exact writtenChunks_seekReply session.kernel round seekto
  · rw [hkernel, if_neg hdata]
  · intro other hother
    obtain rfl := Option.some.inj (hseek.symm.trans hother)
    have hpart := sentBytes_seekReply_isPrefix hstores round seekto
    by_cases hmade : round.deviceOpens = true ∧
        0 ≤ (aesdIoctl session.kernel.dev 0 aesdcharIocseekto (some seekto)).1
    · rw [if_pos hmade] at hpart ⊢
      rw [← hsent] at hpart
      constructor
      · rw [hkernel, readable_eq hstores]
        exact hpart
      · intro hcopied hsends
        rw [hkernel, readable_eq hstores, hsent]
        exact sentBytes_seekReply hstores hmade.1 hcopied hsends hmade.2
    · rw [if_neg hmade] at hpart ⊢
      exact hsent.trans hpart
  · exact fun hasks ↦ absurd (hseek.symm.trans hasks.1) (Option.some_ne_none seekto)
  · exact fun hnone ↦ absurd (hseek.symm.trans hnone) (Option.some_ne_none seekto)
  · rw [hemit]
    intro hmem
    rcases List.mem_cons.mp hmem with heq | hlater
    · exact Event.noConfusion heq
    · exact Bool.false_ne_true (forall_mem_seekReply _ _ _ _ hlater)

theorem savetofile_kernel (round : Round) (hdata : seekRequest chunk = none) (kernel : Kernel) :
    (savetofile round (stringOf nul chunk) kernel).1 =
      if seekRequest chunk = none ∧ round.fputs = true ∧ stringOf nul chunk ≠ [] then
        (aesdWrite (round.writeCall (stringOf nul chunk)) kernel).1 else kernel := by
  simp only [hdata, true_and, savetofile]
  split <;> rfl

theorem nullStream_notMem_saved (round : Round) (string : List UInt8) (kernel : Kernel) (index : ℕ)
    {replied : List Event} (hreplied : ∀ event ∈ replied, event.isReply = true) :
    .nullStream ∉ Event.terminated index :: (savetofile round string kernel).2 ++ replied := by
  intro hmem
  rcases List.mem_append.mp hmem with hfirst | hreply
  · rcases List.mem_cons.mp hfirst with heq | hsave
    · exact Event.noConfusion heq
    · exact Bool.false_ne_true (forall_mem_savetofile _ _ _ _ hsave)
  · exact Bool.false_ne_true (hreplied _ hreply)

theorem requests_of_data (round : Round) (hdata : seekRequest chunk = none) :
    (if round.deviceOpens = true then (seekRequest chunk).toList else []) = [] := by
  rw [hdata]
  exact ite_self _

/-- A round that receives data with a newline saves it, and answers it if it has a stream to reply
from. -/
theorem receiver_line (hready : session.Ready) (hdelivers : round.Delivers chunk)
    (hdata : seekRequest chunk = none) (hnewline : newline ∈ stringOf nul chunk) {fPos : ℤ}
    (hfPos : session.sendfd = some fPos) :
    (receiver.next session round).kernel =
        (savetofile round (stringOf nul chunk) session.kernel).1 ∧
      receiver.emit session round = .terminated round.recv.bytesRecieved ::
        (savetofile round (stringOf nul chunk) session.kernel).2 ++
          (sendfile (savetofile round (stringOf nul chunk) session.kernel).1 round
            (some fPos)).2 := by
  have hhandled : handler.step (session.kernel, session.sendfd) round =
      (((savetofile round (stringOf nul chunk) session.kernel).1,
          (sendfile (savetofile round (stringOf nul chunk) session.kernel).1 round
            (some fPos)).1),
        (savetofile round (stringOf nul chunk) session.kernel).2 ++
          (sendfile (savetofile round (stringOf nul chunk) session.kernel).1 round
            (some fPos)).2) := by
    simp only [handler_step hdelivers.recv_eq, handleChunk, hdata, if_pos hnewline, hfPos]
  constructor
  · rw [receiver_next_of_delivers hready hdelivers, Session.handled, Machine.next, hhandled]
  · rw [receiver_emit_of_delivers hready hdelivers, Machine.emit, hhandled, List.cons_append]

theorem handles_of_line (hready : session.Ready) (hdelivers : round.Delivers chunk)
    (hdata : seekRequest chunk = none) (hnewline : newline ∈ stringOf nul chunk) {fPos : ℤ}
    (hfPos : session.sendfd = some fPos) : Handles session round chunk := by
  obtain ⟨hkernel, hemit⟩ := receiver_line hready hdelivers hdata hnewline hfPos
  refine ⟨?_, ?_, hkernel.trans (savetofile_kernel round hdata _), fun seekto hsome ↦ ?_,
    fun _ ↦ ⟨hfPos ▸ Option.some_ne_none fPos, ?_⟩, fun _ hno ↦ absurd hnewline hno, ?_⟩
  · rw [requests_of_data round hdata, hemit, requestsMade_append, requestsMade_sendfile,
      List.append_nil]
    exact requestsMade_savetofile _ _ _
  · rw [hemit, writtenChunks_append, writtenChunks_sendfile, List.append_nil]
    simp only [hdata, true_and]
    exact writtenChunks_savetofile _ _ _
  · exact absurd (hsome.symm.trans hdata) (Option.some_ne_none seekto)
  · rw [hemit]
    exact List.mem_append_right _ List.mem_cons_self
  · rw [hemit]
    exact nullStream_notMem_saved _ _ _ _ (forall_mem_sendfile _ _ _)

/-- The answer is the content from where the reply stream stands. -/
theorem sendsFrom_of_line (hready : session.Ready) (hserving : session.Serving)
    (hdelivers : round.Delivers chunk) (hdata : seekRequest chunk = none)
    (hnewline : newline ∈ stringOf nul chunk) {position : ℕ}
    (hfPos : session.sendfd = some (position : ℤ)) : SendsFrom session round position := by
  obtain ⟨commands, hstores⟩ : ∃ commands,
      Stores (savetofile round (stringOf nul chunk) session.kernel).1 commands :=
    stores_savetofile hserving.stores round _
  obtain ⟨hkernel, hemit⟩ := receiver_line hready hdelivers hdata hnewline hfPos
  have hlt := (hserving.inRange _ hfPos).2
  have hsent : sentBytes (receiver.emit session round) =
      sentBytes (sendfile (savetofile round (stringOf nul chunk) session.kernel).1 round
        (some (position : ℤ))).2 := by
    rw [hemit, sentBytes_append, show sentBytes (.terminated round.recv.bytesRecieved ::
      (savetofile round (stringOf nul chunk) session.kernel).2) = [] from
        sentBytes_savetofile _ _ _, List.nil_append]
  constructor
  · rw [hsent, hkernel, readable_eq hstores]
    exact sentBytes_sendfile_isPrefix hstores round (hserving.inRange _ hfPos)
  · intro hcopied hsends
    rw [hsent, hkernel, readable_eq hstores]
    exact (sendfile_eq hstores hcopied hsends (by omega)).2

/-- A round that receives data without a newline does what it is to do. -/
theorem handles_of_open (hready : session.Ready) (hdelivers : round.Delivers chunk)
    (hdata : seekRequest chunk = none) (hnewline : newline ∉ stringOf nul chunk) :
    Handles session round chunk := by
  have hhandled : handler.step (session.kernel, session.sendfd) round =
      (((savetofile round (stringOf nul chunk) session.kernel).1, session.sendfd),
        (savetofile round (stringOf nul chunk) session.kernel).2) := by
    simp only [handler_step hdelivers.recv_eq, handleChunk, hdata, if_neg hnewline]
  have hemit : receiver.emit session round = .terminated round.recv.bytesRecieved ::
      (savetofile round (stringOf nul chunk) session.kernel).2 := by
    rw [receiver_emit_of_delivers hready hdelivers, Machine.emit, hhandled]
  have hkernel : (receiver.next session round).kernel =
      (savetofile round (stringOf nul chunk) session.kernel).1 := by
    rw [receiver_next_of_delivers hready hdelivers, Session.handled, Machine.next, hhandled]
  refine ⟨?_, ?_, hkernel.trans (savetofile_kernel round hdata _), fun seekto hsome ↦ ?_,
    fun hasks ↦ absurd hasks.2 hnewline, fun _ _ ↦ ?_, ?_⟩
  · rw [requests_of_data round hdata, hemit]
    exact requestsMade_savetofile _ _ _
  · rw [hemit]
    simp only [hdata, true_and]
    exact writtenChunks_savetofile _ _ _
  · exact absurd (hsome.symm.trans hdata) (Option.some_ne_none seekto)
  · rw [hemit]
    exact sentBytes_savetofile _ _ _
  · rw [hemit, ← List.append_nil (savetofile round (stringOf nul chunk) session.kernel).2]
    exact nullStream_notMem_saved _ _ _ _ fun event hevent ↦ absurd hevent List.not_mem_nil

/-- A round in which a chunk arrives does with it what it is to do exactly when the chunk asks for
no reply or there is a stream to reply from. -/
theorem handles_iff (hready : session.Ready) (hserving : session.Serving)
    (hdelivers : round.Delivers chunk) :
    Handles session round chunk ↔ (AsksReply chunk → session.sendfd ≠ none) := by
  constructor
  · exact fun h hasks ↦ (h.replies hasks).1
  · intro hopen
    cases hseek : seekRequest chunk with
    | some seekto => exact handles_of_seek hready hserving hdelivers hseek
    | none =>
      by_cases hnewline : newline ∈ stringOf nul chunk
      · obtain ⟨fPos, hfPos⟩ := Option.ne_none_iff_exists'.mp (hopen ⟨hseek, hnewline⟩)
        exact handles_of_line hready hdelivers hseek hnewline hfPos
      · exact handles_of_open hready hdelivers hseek hnewline

end Round

/-! ## Whole sessions -/

def HandlesOnce (session : Session) (round : Round) : Prop :=
  ∀ chunk, round.recv = .data chunk → Handles session round chunk

/-- Each chunk that asks for a reply is answered from where the reply stream stands. Nothing is said
of replies behind one that a short send broke off: they begin with what stdio had read ahead. -/
def RepliesFollow (session : Session) : List Round → Prop
  | [] => True
  | round :: rest =>
    (∀ chunk, round.recv = .data chunk → AsksReply chunk →
      ∃ position : ℕ, session.sendfd = some (position : ℤ) ∧ SendsFrom session round position) ∧
    (RepliesSent session round → RepliesFollow (receiver.next session round) rest)

section Sessions

variable {session : Session} {rounds : List Round}

/-- While chunks arrive, each is handled as it is to be exactly when the reply stream is open or no
chunk asks for a reply. -/
theorem meets_handlesOnce_iff (hready : session.Ready) (hserving : session.Serving)
    (harrives : ∀ round ∈ rounds, round.Arrives) :
    receiver.Meets HandlesOnce session rounds ↔
      (session.sendfd = none →
        ∀ round ∈ rounds, ∀ chunk, round.recv = .data chunk → ¬ AsksReply chunk) := by
  induction rounds generalizing session with
  | nil => exact ⟨fun _ _ round hround ↦ absurd hround List.not_mem_nil, fun _ ↦ trivial⟩
  | cons round rest ih =>
    rw [List.forall_mem_cons] at harrives
    obtain ⟨⟨chunk, hdelivers⟩, hrest⟩ := harrives
    obtain ⟨hserving', -, hsame⟩ := hserving.next hready.running round
    have hhead : HandlesOnce session round ↔ (AsksReply chunk → session.sendfd ≠ none) := by
      rw [← handles_iff hready hserving hdelivers]
      refine ⟨fun hall ↦ hall chunk hdelivers.recv_eq, fun hhandles other hother ↦ ?_⟩
      obtain rfl := Recv.data.inj (hdelivers.recv_eq.symm.trans hother)
      exact hhandles
    rw [Machine.Meets, hhead, ih (hready.next hdelivers) hserving' hrest, hsame]
    simp only [List.forall_mem_cons]
    constructor
    · rintro ⟨hfirst, hlater⟩ hnone
      refine ⟨fun other hother hasks ↦ ?_, hlater hnone⟩
      obtain rfl := Recv.data.inj (hdelivers.recv_eq.symm.trans hother)
      exact hfirst hasks hnone
    · intro hall
      exact ⟨fun hasks hnone ↦ (hall hnone).1 chunk hdelivers.recv_eq hasks,
        fun hnone ↦ (hall hnone).2⟩

/-- Chunks that are handled as they are to be are answered from where the reply stream stands. -/
theorem repliesFollow_of_handlesOnce (hready : session.Ready) (hserving : session.Serving)
    (harrives : ∀ round ∈ rounds, round.Arrives)
    (hhandles : receiver.Meets HandlesOnce session rounds) : RepliesFollow session rounds := by
  induction rounds generalizing session with
  | nil => trivial
  | cons round rest ih =>
    rw [List.forall_mem_cons] at harrives
    obtain ⟨⟨chunk, hdelivers⟩, hrest⟩ := harrives
    obtain ⟨hserving', -, -⟩ := hserving.next hready.running round
    refine ⟨fun other hother hasks ↦ ?_,
      fun _ ↦ ih (hready.next hdelivers) hserving' hrest hhandles.2⟩
    obtain rfl := Recv.data.inj (hdelivers.recv_eq.symm.trans hother)
    obtain ⟨fPos, hfPos⟩ :=
      Option.ne_none_iff_exists'.mp ((hhandles.1 chunk hother).replies hasks).1
    obtain ⟨position, rfl⟩ := Int.eq_ofNat_of_zero_le (hserving.inRange fPos hfPos).1
    exact ⟨position, hfPos, sendsFrom_of_line hready hserving hdelivers hasks.1 hasks.2 hfPos⟩

/-- While every chunk is handled as it is to be, no stream is used that is not open. -/
theorem nullStream_notMem_of_handlesOnce (hpositives : ∀ round ∈ rounds, round.Arrives)
    (hhandles : receiver.Meets HandlesOnce session rounds) :
    .nullStream ∉ (receiver.outputs session rounds).flatten := by
  induction rounds generalizing session with
  | nil => exact List.not_mem_nil
  | cons round rest ih =>
    rw [List.forall_mem_cons] at hpositives
    obtain ⟨⟨chunk, hdelivers⟩, hrest⟩ := hpositives
    rw [Machine.outputs_cons, List.flatten_cons, List.mem_append, not_or]
    exact ⟨(hhandles.1 chunk hdelivers.recv_eq).noNull, ih hrest hhandles.2⟩

end Sessions

end Aesd.Server
