import Aesd.Foundation.CriticalSection
import Aesd.Server.Chunks
import Aesd.Server.Connections

/-!
# The workers call by call

`recieve_text` as threads run it: everything between `pthread_mutex_lock` and
`pthread_mutex_unlock` of the mutex of the server, with one call of the worker, or one piece of a
reply, in each step. A worker whose rounds are used up waits in `recv` for its client, and does so
under the mutex.

Run without interruption a worker does in one piece what `recieveText` says.
-/

namespace Aesd.Server

open Foundation Driver

/-- What a worker does next under the mutex. The loops of the replies carry what is left of
`relaySteps`. -/
inductive WorkerCall where
  | recv
  | sscanf (round : Round)
  /-- `open` and `ioctl` of the seek branch -/
  | ioctl (round : Round) (seekto : AesdSeekto)
  /-- its `read` and `send` -/
  | read (round : Round) (steps k : ℕ) (fPos : ℤ)
  | savetofile (round : Round)
  | strchr (round : Round)
  /-- `fread` and `send` of `sendfile` -/
  | fread (round : Round) (steps k : ℕ) (fPos : ℤ)
  /-- `while(bytes_recieved > 0)` -/
  | again (round : Round)

/-- A worker under the mutex. -/
structure Working where
  sendfd : Option ℤ
  buffer : List UInt8
  /-- what is still to come from `recv` -/
  rounds : List Round
  /-- its trace so far -/
  events : List Event
  call : WorkerCall

/-- The worker goes on with this call, its trace longer by these events. -/
def Working.go (working : Working) (call : WorkerCall) (events : List Event) : Working :=
  { working with events := working.events ++ events, call := call }

def Working.string (working : Working) : List UInt8 := stringOf nul working.buffer

def workerCall (kernel : Kernel) (working : Working) :
    Kernel × CriticalSection.Outcome Working (List Event) :=
  match working.call with
  | .recv =>
    match working.rounds with
    | [] => (kernel, .goesOn working)
    | round :: rounds =>
      (kernel, .goesOn ({ working with buffer := round.buffer working.buffer, rounds := rounds }.go
        (.sscanf round) [.terminated round.recv.bytesRecieved]))
  | .sscanf round =>
    match sscanfSeekto working.string with
    | some seekto => (kernel, .goesOn (working.go (.ioctl round seekto) []))
    | none => (kernel, .goesOn (working.go (.savetofile round) []))
  | .ioctl round seekto =>
    if round.deviceOpens then
      let (ret, fPos) := aesdIoctl kernel.dev 0 aesdcharIocseekto (some seekto)
      if ret < 0 then
        (kernel, .goesOn (working.go (.again round)
          [.acquired .deviceFd, .requested seekto ret, .released .deviceFd]))
      else
        (kernel, .goesOn (working.go (.read round (relaySteps kernel) 0 fPos)
          [.acquired .deviceFd, .requested seekto ret]))
    else (kernel, .goesOn (working.go (.again round) []))
  | .read round 0 _ _ => (kernel, .goesOn (working.go (.again round) [.released .deviceFd]))
  | .read round (steps + 1) k fPos =>
    let (result, fPos) := aesdRead kernel maxBuffer (round.copied k) fPos
    if result.data = [] then
      (kernel, .goesOn (working.go (.again round) [.released .deviceFd]))
    else if round.sends k then
      (kernel, .goesOn (working.go (.read round steps (k + 1) fPos) [.sent result.data true]))
    else
      (kernel, .goesOn (working.go (.again round)
        [.sent result.data false, .released .deviceFd]))
  | .savetofile round =>
    let (kernel, saved) := savetofile round working.string kernel
    (kernel, .goesOn (working.go (.strchr round) saved))
  | .strchr round =>
    if newline ∈ working.string then
      match working.sendfd with
      | none =>
        (kernel, .goesOn (working.go (.again round)
          [.acquired .sendBuffer, .nullStream, .released .sendBuffer]))
      | some fPos =>
        (kernel, .goesOn (working.go (.fread round (relaySteps kernel) 0 fPos)
          [.acquired .sendBuffer]))
    else (kernel, .goesOn (working.go (.again round) []))
  | .fread round 0 _ fPos =>
    (kernel, .goesOn ({ working with sendfd := some fPos }.go (.again round)
      [.released .sendBuffer]))
  | .fread round (steps + 1) k fPos =>
    let (bytes, fPos) := fread kernel (round.copied k) maxBuffer maxBuffer fPos
    if bytes = [] then
      (kernel, .goesOn ({ working with sendfd := some fPos }.go (.again round)
        [.released .sendBuffer]))
    else if round.sends k then
      (kernel, .goesOn (working.go (.fread round steps (k + 1) fPos)
        [.acquired .sendmutex, .sent bytes true, .released .sendmutex]))
    else
      (kernel, .goesOn ({ working with sendfd := some fPos }.go (.again round)
        [.acquired .sendmutex, .sent bytes false, .released .sendmutex]))
  | .again round =>
    if 0 < round.recv.bytesRecieved then (kernel, .goesOn (working.go .recv []))
    else (kernel, .releases (working.events ++ leaveText working.sendfd))

/-- What a worker does before it asks for the mutex. -/
def enterText (worker : Worker) : Working ⊕ List Event :=
  if worker.ostreamOpens = false then .inr []
  else if worker.bufferAllocated = false then .inr [.acquired .ostream]
  else
    .inl ⟨if worker.sendfdOpens then some 0 else none, worker.garbage, worker.rounds,
      [.acquired .ostream, .acquired .buffer]
        ++ (if worker.sendfdOpens then [.acquired .sendfd] else []) ++ [.acquired .mutex], .recv⟩

/-- The code of the workers around and under the mutex. -/
def workerCalls : CriticalSection Kernel Worker Working (List Event) where
  enter := enterText
  step := workerCall

/-! ## One worker without interruption -/

section Whole

variable {kernel kernel' : Kernel} {working : Working} {events' : List Event}

@[simp]
theorem Working.go_go (call call' : WorkerCall) (events events' : List Event) :
    (working.go call events).go call' events' = working.go call' (events ++ events') := by
  simp only [go, List.append_assoc]

/-- The loop of `sendfile` ends where `relay` does. -/
theorem completes_fread_iff (round : Round) {steps k : ℕ} {fPos : ℤ}
    (hcall : working.call = .fread round steps k fPos) {events : List Event} {last : ℤ}
    {ended : Bool}
    (hrelay : relay (fun k fPos ↦ fread kernel (round.copied k) maxBuffer maxBuffer fPos)
      (fun send ↦ [.acquired .sendmutex, send, .released .sendmutex]) round.sends steps k fPos =
        (events, last, ended)) :
    workerCalls.Completes kernel working kernel' events' ↔
      workerCalls.Completes kernel ({ working with sendfd := some last }.go (.again round)
        (events ++ if ended then [Event.released .sendBuffer] else [])) kernel' events' := by
  induction steps generalizing working k fPos events with
  | zero =>
    obtain ⟨rfl, rfl, rfl⟩ : events = [] ∧ last = fPos ∧ ended = true := by
      simpa [relay, eq_comm] using hrelay
    apply CriticalSection.completes_step_iff
    simp only [workerCalls, workerCall, hcall, if_true, List.nil_append]
  | succ steps ih =>
    rcases hread : fread kernel (round.copied k) maxBuffer maxBuffer fPos with ⟨bytes, next⟩
    rw [relay] at hrelay
    simp only [hread] at hrelay
    by_cases hnil : bytes = []
    · simp only [if_pos hnil, Prod.mk.injEq] at hrelay
      obtain ⟨rfl, rfl, rfl⟩ := hrelay
      apply CriticalSection.completes_step_iff
      simp only [workerCalls, workerCall, hcall, hread, if_pos hnil, if_true, List.nil_append]
    · by_cases hsends : round.sends k = true
      · simp only [if_neg hnil, if_pos hsends, Prod.mk.injEq] at hrelay
        obtain ⟨rfl, rfl, rfl⟩ := hrelay
        have hstep : workerCalls.step kernel working =
            (kernel, .goesOn (working.go (.fread round steps (k + 1) next)
              [.acquired .sendmutex, .sent bytes true, .released .sendmutex])) := by
          simp only [workerCalls, workerCall, hcall, hread, if_neg hnil, if_pos hsends]
        rw [CriticalSection.completes_step_iff hstep, ih rfl rfl]
        simp only [Working.go, List.append_assoc]
      · simp only [if_neg hnil, if_neg hsends, Prod.mk.injEq] at hrelay
        obtain ⟨rfl, rfl, rfl⟩ := hrelay
        apply CriticalSection.completes_step_iff
        simp only [workerCalls, workerCall, hcall, hread, if_neg hnil, if_neg hsends,
          Bool.false_eq_true, if_false, List.append_nil]

/-- So does the loop of the seek branch, which closes its descriptor behind it. -/
theorem completes_read_iff (round : Round) {steps k : ℕ} {fPos : ℤ}
    (hcall : working.call = .read round steps k fPos) {events : List Event} {last : ℤ × Bool}
    (hrelay : relay (fun k fPos ↦
        ((aesdRead kernel maxBuffer (round.copied k) fPos).1.data,
          (aesdRead kernel maxBuffer (round.copied k) fPos).2))
      (fun send ↦ [send]) round.sends steps k fPos = (events, last)) :
    workerCalls.Completes kernel working kernel' events' ↔
      workerCalls.Completes kernel
        (working.go (.again round) (events ++ [.released .deviceFd])) kernel' events' := by
  induction steps generalizing working k fPos events with
  | zero =>
    obtain ⟨rfl, -⟩ := Prod.mk.inj hrelay
    apply CriticalSection.completes_step_iff
    simp only [workerCalls, workerCall, hcall, List.nil_append]
  | succ steps ih =>
    rcases hread : aesdRead kernel maxBuffer (round.copied k) fPos with ⟨result, next⟩
    rw [relay] at hrelay
    simp only [hread] at hrelay
    by_cases hnil : result.data = []
    · simp only [if_pos hnil, Prod.mk.injEq] at hrelay
      obtain ⟨rfl, -⟩ := hrelay
      apply CriticalSection.completes_step_iff
      simp only [workerCalls, workerCall, hcall, hread, if_pos hnil, List.nil_append]
    · by_cases hsends : round.sends k = true
      · simp only [if_neg hnil, if_pos hsends, Prod.mk.injEq] at hrelay
        obtain ⟨rfl, hlast⟩ := hrelay
        have hstep : workerCalls.step kernel working =
            (kernel, .goesOn (working.go (.read round steps (k + 1) next)
              [.sent result.data true])) := by
          simp only [workerCalls, workerCall, hcall, hread, if_neg hnil, if_pos hsends]
        rw [CriticalSection.completes_step_iff hstep, ih rfl (Prod.ext rfl hlast), Working.go_go,
          List.append_assoc]
      · simp only [if_neg hnil, if_neg hsends, Prod.mk.injEq] at hrelay
        obtain ⟨rfl, -⟩ := hrelay
        apply CriticalSection.completes_step_iff
        simp only [workerCalls, workerCall, hcall, hread, if_neg hnil, if_neg hsends,
          List.singleton_append]

theorem completes_ioctl_iff {round : Round} {seekto : AesdSeekto}
    (hcall : working.call = .ioctl round seekto) :
    workerCalls.Completes kernel working kernel' events' ↔
      workerCalls.Completes kernel
        (working.go (.again round) (seekReply kernel round seekto)) kernel' events' := by
  by_cases hopens : round.deviceOpens = true
  · rcases hioctl : aesdIoctl kernel.dev 0 aesdcharIocseekto (some seekto) with ⟨ret, fPos⟩
    by_cases hret : ret < 0
    · apply CriticalSection.completes_step_iff
      simp only [workerCalls, workerCall, hcall, hioctl, if_pos hopens, if_pos hret, seekReply]
    · rcases hrelay : relay (fun k fPos ↦
          ((aesdRead kernel maxBuffer (round.copied k) fPos).1.data,
            (aesdRead kernel maxBuffer (round.copied k) fPos).2))
        (fun send ↦ [send]) round.sends (relaySteps kernel) 0 fPos with ⟨events, last⟩
      have hstep : workerCalls.step kernel working =
          (kernel, .goesOn (working.go (.read round (relaySteps kernel) 0 fPos)
            [.acquired .deviceFd, .requested seekto ret])) := by
        simp only [workerCalls, workerCall, hcall, hioctl, if_pos hopens, if_neg hret]
      rw [CriticalSection.completes_step_iff hstep, completes_read_iff round rfl hrelay,
        Working.go_go]
      simp only [seekReply, if_pos hopens, hioctl, if_neg hret, hrelay, List.append_assoc]
  · apply CriticalSection.completes_step_iff
    simp only [workerCalls, workerCall, hcall, if_neg hopens, seekReply]

theorem completes_strchr_iff (working : Working) {round : Round}
    (hcall : working.call = .strchr round) (hnewline : newline ∈ working.string) :
    workerCalls.Completes kernel working kernel' events' ↔
      workerCalls.Completes kernel
        ({ working with sendfd := (sendfile kernel round working.sendfd).1 }.go (.again round)
          (sendfile kernel round working.sendfd).2) kernel' events' := by
  cases hsendfd : working.sendfd with
  | none =>
    apply CriticalSection.completes_step_iff
    simp only [workerCalls, workerCall, hcall, if_pos hnewline, hsendfd, sendfile, Working.go]
  | some fPos =>
    rcases hrelay : relay (fun k fPos ↦ fread kernel (round.copied k) maxBuffer maxBuffer fPos)
      (fun send ↦ [.acquired .sendmutex, send, .released .sendmutex]) round.sends
        (relaySteps kernel) 0 fPos with ⟨events, last, ended⟩
    have hstep : workerCalls.step kernel working =
        (kernel, .goesOn (working.go (.fread round (relaySteps kernel) 0 fPos)
          [.acquired .sendBuffer])) := by
      simp only [workerCalls, workerCall, hcall, if_pos hnewline, hsendfd]
    rw [CriticalSection.completes_step_iff hstep, completes_fread_iff round rfl hrelay]
    simp only [sendfile, hrelay, Working.go, List.append_assoc, List.cons_append,
      List.nil_append]

theorem completes_seek_iff {round : Round} {seekto : AesdSeekto}
    (hcall : working.call = .sscanf round) (hscan : sscanfSeekto working.string = some seekto) :
    workerCalls.Completes kernel working kernel' events' ↔
      workerCalls.Completes kernel
        (working.go (.again round) (seekReply kernel round seekto)) kernel' events' := by
  have hstep : workerCalls.step kernel working =
      (kernel, .goesOn (working.go (.ioctl round seekto) [])) := by
    simp only [workerCalls, workerCall, hcall, hscan]
  rw [CriticalSection.completes_step_iff hstep, completes_ioctl_iff rfl, Working.go_go,
    List.nil_append]

theorem completes_save_iff {round : Round} (hcall : working.call = .sscanf round)
    (hscan : sscanfSeekto working.string = none) :
    workerCalls.Completes kernel working kernel' events' ↔
      workerCalls.Completes (savetofile round working.string kernel).1
        (working.go (.strchr round) (savetofile round working.string kernel).2)
        kernel' events' := by
  have hstep : workerCalls.step kernel working =
      (kernel, .goesOn (working.go (.savetofile round) [])) := by
    simp only [workerCalls, workerCall, hcall, hscan]
  have hsave : workerCalls.step kernel (working.go (.savetofile round) []) =
      ((savetofile round working.string kernel).1,
        .goesOn (working.go (.strchr round) (savetofile round working.string kernel).2)) := by
    have hgo : (working.go (.savetofile round) []).go (.strchr round)
        (savetofile round working.string kernel).2 =
          working.go (.strchr round) (savetofile round working.string kernel).2 := by
      rw [Working.go_go, List.nil_append]
    rw [← hgo]
    rfl
  rw [CriticalSection.completes_step_iff hstep, CriticalSection.completes_step_iff hsave]

theorem completes_answer_iff {round : Round} (hcall : working.call = .sscanf round)
    (hscan : sscanfSeekto working.string = none) (hnewline : newline ∈ working.string)
    {saved replied : List Event} {kernel₁ : Kernel} {sendfd : Option ℤ}
    (hsave : savetofile round working.string kernel = (kernel₁, saved))
    (hreply : sendfile kernel₁ round working.sendfd = (sendfd, replied)) :
    workerCalls.Completes kernel working kernel' events' ↔
      workerCalls.Completes kernel₁
        ({ working with sendfd := sendfd }.go (.again round) (saved ++ replied))
        kernel' events' := by
  have hsame : (working.go (.strchr round) saved).sendfd = working.sendfd := rfl
  rw [completes_save_iff hcall hscan, hsave,
    completes_strchr_iff (working.go (.strchr round) saved) rfl hnewline, hsame, hreply]
  simp only [Working.go, List.append_assoc]

theorem completes_silent_iff {round : Round} (hcall : working.call = .sscanf round)
    (hscan : sscanfSeekto working.string = none) (hnewline : newline ∉ working.string)
    {saved : List Event} {kernel₁ : Kernel}
    (hsave : savetofile round working.string kernel = (kernel₁, saved)) :
    workerCalls.Completes kernel working kernel' events' ↔
      workerCalls.Completes kernel₁ (working.go (.again round) saved) kernel' events' := by
  have hstep : workerCalls.step kernel₁ (working.go (.strchr round) saved) =
      (kernel₁, .goesOn ((working.go (.strchr round) saved).go (.again round) [])) :=
    if_neg hnewline
  rw [completes_save_iff hcall hscan, hsave, CriticalSection.completes_step_iff hstep,
    Working.go_go, List.append_nil]

/-- **A round call by call is `receiveRound`.** -/
theorem completes_round_iff {round : Round} {rounds : List Round} (hcall : working.call = .recv)
    (hrounds : working.rounds = round :: rounds) {session : Session} {events : List Event}
    (hround : receiveRound ⟨kernel, working.sendfd, working.buffer, true⟩ round =
      (session, events)) :
    workerCalls.Completes kernel working kernel' events' ↔
      workerCalls.Completes session.kernel
        ⟨session.sendfd, session.buffer, rounds, working.events ++ events, .again round⟩
        kernel' events' := by
  obtain ⟨recieved, hrecieved⟩ : ∃ recieved : Working, recieved =
      ⟨working.sendfd, round.buffer working.buffer, rounds,
        working.events ++ [.terminated round.recv.bytesRecieved], .sscanf round⟩ := ⟨_, rfl⟩
  have hrecv : workerCalls.step kernel working = (kernel, .goesOn recieved) := by
    simp only [workerCalls, workerCall, hcall, hrounds, hrecieved, Working.go]
  have hstring : stringOf nul (round.buffer working.buffer) = recieved.string := by
    rw [hrecieved, Working.string]
  have hsendfd : working.sendfd = recieved.sendfd := by rw [hrecieved]
  have hnext : recieved.call = .sscanf round := by rw [hrecieved]
  rw [CriticalSection.completes_step_iff hrecv]
  simp only [receiveRound, hstring, hsendfd] at hround
  cases hscan : sscanfSeekto recieved.string with
  | some seekto =>
    simp only [hscan, Prod.mk.injEq] at hround
    obtain ⟨rfl, rfl⟩ := hround
    rw [completes_seek_iff hnext hscan, hrecieved]
    simp only [Working.go, List.append_assoc, List.singleton_append]
  | none =>
    rcases hsave : savetofile round recieved.string kernel with ⟨kernel₁, saved⟩
    simp only [hscan, hsave] at hround
    by_cases hnewline : newline ∈ recieved.string
    · rcases hreply : sendfile kernel₁ round recieved.sendfd with ⟨sendfd, replied⟩
      simp only [if_pos hnewline, hreply, Prod.mk.injEq] at hround
      obtain ⟨rfl, rfl⟩ := hround
      rw [completes_answer_iff hnext hscan hnewline hsave hreply, hrecieved]
      simp only [Working.go, List.append_assoc, List.nil_append, List.cons_append]
    · simp only [if_neg hnewline, Prod.mk.injEq] at hround
      obtain ⟨rfl, rfl⟩ := hround
      rw [completes_silent_iff hnext hscan hnewline hsave, hrecieved]
      simp only [Working.go, List.append_assoc, List.singleton_append]

theorem running_receiveRound (session : Session) (round : Round) :
    (receiveRound session round).1.running = decide (0 < round.recv.bytesRecieved) := by
  simp only [receiveRound]
  split
  · rfl
  · split
    · rfl
    · rfl

/-- **The whole loop call by call is the run of `receiver`**, where the loop is left. -/
theorem completes_rounds_iff (rounds : List Round) (hcall : working.call = .recv)
    (hrounds : working.rounds = rounds) :
    workerCalls.Completes kernel working kernel' events' ↔
      (receiver.run ⟨kernel, working.sendfd, working.buffer, true⟩ rounds).running = false ∧
      kernel' = (receiver.run ⟨kernel, working.sendfd, working.buffer, true⟩ rounds).kernel ∧
      events' = working.events ++
        (receiver.outputs ⟨kernel, working.sendfd, working.buffer, true⟩ rounds).flatten ++
        leaveText (receiver.run ⟨kernel, working.sendfd, working.buffer, true⟩ rounds).sendfd := by
  induction rounds generalizing kernel working with
  | nil =>
    have hwaits : workerCalls.step kernel working = (kernel, .goesOn working) := by
      simp only [workerCalls, workerCall, hcall, hrounds]
    refine iff_of_false (CriticalSection.not_completes_of_waits hwaits) fun h ↦ ?_
    exact absurd h.1 (by simp)
  | cons round rounds ih =>
    rcases hround : receiveRound ⟨kernel, working.sendfd, working.buffer, true⟩ round with
      ⟨session, events⟩
    have hstep : receiver.step ⟨kernel, working.sendfd, working.buffer, true⟩ round =
        (session, events) := hround
    have hnext : receiver.next ⟨kernel, working.sendfd, working.buffer, true⟩ round = session :=
      congrArg Prod.fst hstep
    have hemit : receiver.emit ⟨kernel, working.sendfd, working.buffer, true⟩ round = events :=
      congrArg Prod.snd hstep
    have hrunning : session.running = decide (0 < round.recv.bytesRecieved) :=
      (congrArg (fun result ↦ result.1.running) hround).symm.trans (running_receiveRound _ round)
    rw [Machine.run_cons, Machine.outputs_cons, hnext, hemit, List.flatten_cons,
      completes_round_iff hcall hrounds hround]
    by_cases hmore : 0 < round.recv.bytesRecieved
    · rw [decide_eq_true hmore] at hrunning
      have hagain : workerCalls.step session.kernel ⟨session.sendfd, session.buffer, rounds,
          working.events ++ events, .again round⟩ =
            (session.kernel, .goesOn ⟨session.sendfd, session.buffer, rounds,
              working.events ++ events ++ [], .recv⟩) := if_pos hmore
      have hsession : (⟨session.kernel, session.sendfd, session.buffer, true⟩ : Session) =
          session := by rw [← hrunning]
      rw [CriticalSection.completes_step_iff hagain, List.append_nil, ih rfl rfl, hsession]
      simp only [List.append_assoc]
    · rw [decide_eq_false hmore] at hrunning
      have hleaves : workerCalls.step session.kernel ⟨session.sendfd, session.buffer, rounds,
          working.events ++ events, .again round⟩ =
            (session.kernel, .releases (working.events ++ events ++ leaveText session.sendfd)) :=
        if_neg hmore
      obtain ⟨hrun, houtputs⟩ := receiver_stopped hrunning rounds
      rw [CriticalSection.completes_last_iff hleaves, hrun, houtputs, List.flatten_replicate_nil,
        List.append_nil]
      exact (and_iff_right hrunning).symm

end Whole

end Aesd.Server
