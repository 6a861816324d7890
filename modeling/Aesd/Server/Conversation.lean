import Aesd.Server.Session

/-!
# What a whole connection does to the device

A connection in which no call fails. Seen from the device it is a sequence of chunks, each a seek
request or data; `outcome` computes from the chunks alone where the requests stand among the data,
which commands the data complete and what they leave pending. The chunks are what the rounds of
`recv` happened to return, and the outcome depends on them and not only on the bytes sent.
-/

namespace Aesd.Server

open Foundation Driver

/-! ## Traces -/

/-- The seek requests of a trace, each with the number of bytes written before it. -/
def requestPlaces : ℕ → List Event → List (ℕ × AesdSeekto)
  | _, [] => []
  | delivered, .written bytes _ :: rest => requestPlaces (delivered + bytes.length) rest
  | delivered, .requested seekto _ :: rest => (delivered, seekto) :: requestPlaces delivered rest
  | delivered, _ :: rest => requestPlaces delivered rest

/-- Only what is done to the device matters. -/
theorem requestPlaces_deviceTrace (delivered : ℕ) (events : List Event) :
    requestPlaces delivered (deviceTrace events) = requestPlaces delivered events := by
  induction events generalizing delivered with
  | nil => rfl
  | cons event rest ih =>
    unfold deviceTrace at ih ⊢
    cases event with
    | written bytes result => exact ih (delivered + bytes.length)
    | requested seekto ret => exact congrArg ((delivered, seekto) :: ·) (ih delivered)
    | acquired resource => exact ih delivered
    | released resource => exact ih delivered
    | terminated index => exact ih delivered
    | sent bytes complete => exact ih delivered
    | nullStream => exact ih delivered
    | done => exact ih delivered

def writtenChunks (events : List Event) : List (List UInt8) :=
  events.filterMap fun
    | .written bytes _ => some bytes
    | _ => none

def committedEntries (events : List Event) : List (List UInt8) :=
  events.filterMap fun
    | .written _ result => result.committed
    | _ => none

/-- Both projections look at what is done to the device only. -/
theorem filterMap_deviceTrace {Entry : Type*} {f : Event → Option Entry}
    (hf : ∀ event, event.isDevice = false → f event = none) (events : List Event) :
    (deviceTrace events).filterMap f = events.filterMap f := by
  rw [deviceTrace, List.filterMap_filter]
  congr 1
  funext event
  cases hdevice : event.isDevice with
  | true => rfl
  | false => exact (hf event hdevice).symm

theorem writtenChunks_deviceTrace (events : List Event) :
    writtenChunks (deviceTrace events) = writtenChunks events := by
  apply filterMap_deviceTrace
  intro event hdevice
  cases event <;> first | rfl | exact absurd hdevice Bool.true_eq_false.mp

theorem committedEntries_deviceTrace (events : List Event) :
    committedEntries (deviceTrace events) = committedEntries events := by
  apply filterMap_deviceTrace
  intro event hdevice
  cases event <;> first | rfl | exact absurd hdevice Bool.true_eq_false.mp

/-! ## The outcome of a sequence of chunks -/

/-- What a sequence of chunks does to the device. -/
structure Outcome where
  /-- the seek requests, each with the number of data bytes before it -/
  requests : List (ℕ × AesdSeekto)
  /-- the commands completed -/
  commands : List (List UInt8)
  /-- what is pending in the end -/
  pending : List UInt8

/-- The outcome of chunks that come after `delivered` bytes of data and with `pending` bytes
pending; these may be `hidden` from the search for newlines, and everything behind them, by a NUL
byte. -/
def outcome (hidden : Bool) : ℕ → List UInt8 → List (List UInt8) → Outcome
  | _, pending, [] => ⟨[], [], pending⟩
  | delivered, pending, chunk :: rest =>
    match sscanfSeekto chunk with
    | some seekto =>
      let later := outcome hidden delivered pending rest
      { later with requests := (delivered, seekto) :: later.requests }
    | none =>
      if hidden = false ∧ newline ∈ chunk then
        let later := outcome hidden (delivered + chunk.length) [] rest
        { later with commands := (pending ++ chunk) :: later.commands }
      else outcome hidden (delivered + chunk.length) (pending ++ chunk) rest

def dataChunks (chunks : List (List UInt8)) : List (List UInt8) :=
  chunks.filter fun chunk ↦ (sscanfSeekto chunk).isNone

theorem dataChunks_cons_of_some {chunk : List UInt8} {seekto : AesdSeekto}
    (h : sscanfSeekto chunk = some seekto) (rest : List (List UInt8)) :
    dataChunks (chunk :: rest) = dataChunks rest := by
  simp [dataChunks, h]

theorem dataChunks_cons_of_none {chunk : List UInt8} (h : sscanfSeekto chunk = none)
    (rest : List (List UInt8)) : dataChunks (chunk :: rest) = chunk :: dataChunks rest := by
  simp [dataChunks, h]

/-- What is done to the device in a trace: the requests and the commands of an outcome, and
writes of these chunks. -/
structure Shows (delivered : ℕ) (trace : List Event) (written : List (List UInt8))
    (result : Outcome) : Prop where
  requests : requestPlaces delivered trace = result.requests
  written : writtenChunks trace = written
  committed : committedEntries trace = result.commands

section Shows

variable {delivered : ℕ} {trace : List Event} {written : List (List UInt8)} {later : Outcome}

theorem Shows.requested (h : Shows delivered trace written later) (seekto : AesdSeekto) (ret : ℤ) :
    Shows delivered ([.requested seekto ret] ++ trace) written
      { later with requests := (delivered, seekto) :: later.requests } where
  requests := congrArg ((delivered, seekto) :: ·) h.requests
  written := h.written
  committed := h.committed

variable {bytes command : List UInt8} {result : Result}

theorem Shows.committing (h : Shows (delivered + bytes.length) trace written later)
    (hcommitted : result.committed = some command) :
    Shows delivered ([.written bytes result] ++ trace) (bytes :: written)
      { later with commands := command :: later.commands } where
  requests := h.requests
  written := congrArg (bytes :: ·) h.written
  committed := by
    simp only [committedEntries, List.singleton_append, List.filterMap_cons, hcommitted]
    exact congrArg (command :: ·) h.committed

theorem Shows.keeping (h : Shows (delivered + bytes.length) trace written later)
    (hcommitted : result.committed = none) :
    Shows delivered ([.written bytes result] ++ trace) (bytes :: written) later where
  requests := h.requests
  written := congrArg (bytes :: ·) h.written
  committed := by
    simp only [committedEntries, List.singleton_append, List.filterMap_cons, hcommitted]
    exact h.committed

end Shows

/-! ## Connections -/

/-- None of the calls of the round the device depends on fails, and a search past the end of a
block finds nothing. -/
structure Round.Succeeds (round : Round) : Prop where
  deviceOpens : round.deviceOpens = true
  fputs : round.fputs = true
  overran : round.beyond = false

def NoneRefused (events : List Event) : Prop :=
  ∀ bytes result, .written bytes result ∈ events → result.ret ≠ -enomem

def Event.notRefused : Event → Bool
  | .written _ result => result.ret ≠ -enomem
  | _ => true

instance (events : List Event) : Decidable (NoneRefused events) :=
  decidable_of_iff (∀ event ∈ events, event.notRefused = true) (by
    constructor
    · intro hall bytes result hmem
      simpa [Event.notRefused] using hall _ hmem
    · intro hnone event hmem
      cases event with
      | written bytes result => simpa [Event.notRefused] using hnone bytes result hmem
      | _ => rfl)

section Run

variable {session : Session} {round : Round} {chunk : List UInt8}

/-- A write that shows in the trace and was not refused was served. -/
theorem served_of_noneRefused {events : List Event} {string : List UInt8} {kernel : Kernel}
    (htrace : deviceTrace events =
      [.written string (aesdWrite (round.writeCall string) kernel).2])
    (hnone : NoneRefused events) : Served (round.writeCall string) kernel := by
  by_contra hrefused
  have hmem : Event.written string (aesdWrite (round.writeCall string) kernel).2 ∈ events := by
    apply List.mem_of_mem_filter (p := Event.isDevice)
    change _ ∈ deviceTrace events
    rw [htrace]
    exact List.mem_singleton_self _
  exact hnone _ _ hmem (ret_of_not_served hrefused)

/-- A chunk written behind pending bytes completes a command exactly when it contains a newline
and no NUL byte hides it. -/
theorem newline_mem_pending_append_iff {hidden : Bool} {pending : List UInt8}
    (hhidden : hidden = true ↔ nul ∈ pending) (hunfinished : newline ∉ stringOf nul pending)
    (hnul : nul ∉ chunk) :
    newline ∈ stringOf nul (pending ++ chunk) ↔ hidden = false ∧ newline ∈ chunk := by
  by_cases hpending : nul ∈ pending
  · rw [stringOf_append_of_mem hpending, hhidden.mpr hpending]
    exact ⟨fun hmem ↦ absurd hmem hunfinished, fun hboth ↦ absurd hboth.1 Bool.true_eq_false.mp⟩
  · have hplain : nul ∉ pending ++ chunk := by
      rw [List.mem_append, not_or]
      exact ⟨hpending, hnul⟩
    have hfalse : hidden = false := by
      rw [← Bool.not_eq_true, hhidden]
      exact hpending
    rw [stringOf_eq_self hpending] at hunfinished
    rw [stringOf_eq_self hplain, List.mem_append, or_iff_right hunfinished]
    exact ⟨fun hmem ↦ ⟨hfalse, hmem⟩, fun hboth ↦ hboth.2⟩

/-- The whole of a connection before the end of its stream. -/
theorem run_outcome {rounds : List Round} {chunks : List (List UInt8)}
    (hcarries : List.Forall₂ Round.Carries rounds chunks)
    (hsucceeds : ∀ round ∈ rounds, round.Succeeds) {session : Session} (hready : session.Ready)
    {commands : List (List UInt8)} {pending : List UInt8}
    (hleaves : Leaves session.kernel commands pending) {hidden : Bool}
    (hhidden : hidden = true ↔ nul ∈ pending) (hunfinished : newline ∉ stringOf nul pending)
    (hnone : NoneRefused (receiver.outputs session rounds).flatten) (delivered : ℕ) :
    (receiver.run session rounds).Ready ∧
      Shows delivered (deviceTrace (receiver.outputs session rounds).flatten) (dataChunks chunks)
        (outcome hidden delivered pending chunks) ∧
      Leaves (receiver.run session rounds).kernel
        (commands ++ (outcome hidden delivered pending chunks).commands)
        (outcome hidden delivered pending chunks).pending := by
  induction hcarries generalizing session commands pending delivered with
  | nil =>
    refine ⟨hready, ⟨rfl, rfl, rfl⟩, ?_⟩
    rw [outcome, List.append_nil]
    exact hleaves
  | @cons round chunk rounds chunks hcarry _ ih =>
    rw [List.forall_mem_cons] at hsucceeds
    obtain ⟨hround, hrest⟩ := hsucceeds
    have hnone_first : NoneRefused (receiver.emit session round) :=
      fun bytes result hmem ↦ hnone bytes result (List.mem_append_left _ hmem)
    have hnone_rest : NoneRefused
        (receiver.outputs (receiver.next session round) rounds).flatten :=
      fun bytes result hmem ↦ hnone bytes result (List.mem_append_right _ hmem)
    rw [Machine.run_cons, Machine.outputs_cons, List.flatten_cons, deviceTrace_append]
    cases hscan : sscanfSeekto chunk with
    | some seekto =>
      obtain ⟨hnext, hkernel, -, htrace⟩ := receiver_seek hready hcarry hscan
      rw [deviceTrace_seekReply hround.deviceOpens] at htrace
      obtain ⟨hlast, hshows, hfinal⟩ := ih hrest hnext (hkernel ▸ hleaves) hhidden hunfinished
        hnone_rest delivered
      rw [htrace, dataChunks_cons_of_some hscan]
      simp only [outcome, hscan]
      exact ⟨hlast, hshows.requested _ _, hfinal⟩
    | none =>
      obtain ⟨hnext, hkernel, htrace, -⟩ := receiver_data hready hcarry hscan hround.fputs
      have hserved := served_of_noneRefused htrace hnone_first
      have hcomplete : (round.writeCall chunk).Complete := ⟨rfl, hround.overran⟩
      obtain ⟨hcommits, hkeeps⟩ := hleaves.write hcomplete hserved
      rw [show (round.writeCall chunk).buf = chunk from rfl] at hcommits hkeeps
      rw [← hkernel] at hcommits hkeeps
      rw [htrace, dataChunks_cons_of_none hscan]
      have hfound := newline_mem_pending_append_iff hhidden hunfinished hcarry.noNul
      by_cases hend : hidden = false ∧ newline ∈ chunk
      · -- the chunk completes a command, and the next one starts afresh
        have hfresh : hidden = true ↔ nul ∈ ([] : List UInt8) := by
          rw [hend.1]
          exact ⟨fun hyes ↦ absurd hyes Bool.false_ne_true, fun hmem ↦ absurd hmem List.not_mem_nil⟩
        obtain ⟨hcommitted, hleft⟩ := hcommits (hfound.mpr hend)
        obtain ⟨hlast, hshows, hfinal⟩ := ih hrest hnext hleft hfresh List.not_mem_nil hnone_rest
          (delivered + chunk.length)
        rw [List.append_assoc, List.singleton_append] at hfinal
        simp only [outcome, hscan, if_pos hend]
        exact ⟨hlast, hshows.committing hcommitted, hfinal⟩
      · have hstill : hidden = true ↔ nul ∈ pending ++ chunk := by
          rw [hhidden, List.mem_append, or_iff_left hcarry.noNul]
        have hnotfound := fun hmem ↦ hend (hfound.mp hmem)
        obtain ⟨hcommitted, hleft⟩ := hkeeps hnotfound
        obtain ⟨hlast, hshows, hfinal⟩ := ih hrest hnext hleft hstill hnotfound hnone_rest
          (delivered + chunk.length)
        simp only [outcome, hscan, if_neg hend]
        exact ⟨hlast, hshows.keeping hcommitted, hfinal⟩

end Run

/-- The worker receives these chunks, none with a NUL byte, and then the end of the stream. -/
def Worker.Receives (worker : Worker) (chunks : List (List UInt8)) : Prop :=
  ∃ rounds last, worker.rounds = rounds ++ [last] ∧ List.Forall₂ Round.Carries rounds chunks ∧
    last.recv = .closed

/-- No call of the worker the device depends on fails. -/
structure Worker.Succeeds (worker : Worker) (kernel : Kernel) : Prop where
  ostreamOpens : worker.ostreamOpens = true
  bufferAllocated : worker.bufferAllocated = true
  rounds : ∀ round ∈ worker.rounds, round.Succeeds
  noneRefused : NoneRefused (recieveText worker kernel).2

/-- A worker for which nothing fails receives what it is given. -/
theorem receives_smooth {chunks : List (List UInt8)}
    (h : ∀ chunk ∈ chunks, chunk ≠ [] ∧ chunk.length ≤ maxBuffer ∧ nul ∉ chunk) :
    (Worker.smooth chunks).Receives chunks := by
  refine ⟨_, _, rfl, ?_, rfl⟩
  rw [List.forall₂_map_left_iff, List.forall₂_same]
  intro chunk hchunk
  obtain ⟨hne, hfits, hnul⟩ := h chunk hchunk
  exact ⟨rfl, hne, hfits, hnul⟩

theorem succeeds_smooth {chunks : List (List UInt8)} {kernel : Kernel}
    (h : NoneRefused (recieveText (.smooth chunks) kernel).2) :
    (Worker.smooth chunks).Succeeds kernel where
  ostreamOpens := rfl
  bufferAllocated := rfl
  rounds := by
    intro round hround
    simp only [Worker.smooth, List.mem_append, List.mem_map, List.mem_singleton] at hround
    rcases hround with ⟨chunk, -, rfl⟩ | rfl
    · exact ⟨rfl, rfl, rfl⟩
    · exact ⟨rfl, rfl, rfl⟩
  noneRefused := h

/-- The trace of a worker that enters its loop, as far as the device is concerned. -/
theorem deviceTrace_recieveText {worker : Worker} (hostream : worker.ostreamOpens = true)
    (hbuffer : worker.bufferAllocated = true) (kernel : Kernel) :
    (recieveText worker kernel).1 = (receiver.run (worker.enter kernel) worker.rounds).kernel ∧
      deviceTrace (recieveText worker kernel).2 =
        deviceTrace (receiver.outputs (worker.enter kernel) worker.rounds).flatten := by
  have hleave : ∀ sendfd, deviceTrace (leaveText sendfd) = [] := by
    intro sendfd
    cases sendfd <;> rfl
  have hopen : deviceTrace (if worker.sendfdOpens then [.acquired .sendfd] else []) = [] := by
    split <;> rfl
  simp only [recieveText, hostream, hbuffer, Bool.true_eq_false, if_false]
  refine ⟨trivial, ?_⟩
  simp only [deviceTrace_append, hopen]
  split
  · exact List.append_nil _
  · rw [hleave]
    exact List.append_nil _

/-- A worker whose last round is the end of the stream leaves the device as the rounds before it
did, and has done to it what they did. -/
theorem recieveText_rounds {worker : Worker} {kernel : Kernel} {rounds : List Round} {last : Round}
    (hostream : worker.ostreamOpens = true) (hbuffer : worker.bufferAllocated = true)
    (hrounds : worker.rounds = rounds ++ [last]) (hclosed : last.recv = .closed)
    (hready : (receiver.run (worker.enter kernel) rounds).Ready) :
    (recieveText worker kernel).1 = (receiver.run (worker.enter kernel) rounds).kernel ∧
      deviceTrace (recieveText worker kernel).2 =
        deviceTrace (receiver.outputs (worker.enter kernel) rounds).flatten := by
  obtain ⟨hkernel, htrace⟩ := deviceTrace_recieveText hostream hbuffer kernel
  obtain ⟨-, hsame, hquiet, -⟩ := receiver_closed hready hclosed
  constructor
  · rw [hkernel, hrounds, Machine.run_append, Machine.run_cons, Machine.run_nil, hsame]
  · rw [htrace, hrounds, Machine.outputs_append, List.flatten_append, deviceTrace_append,
      Machine.outputs_cons, Machine.outputs_nil, List.flatten_singleton, hquiet, List.append_nil]

/-- A worker none of whose writes is refused has none refused in its first rounds. -/
theorem noneRefused_rounds {worker : Worker} {kernel : Kernel} {rounds : List Round} {last : Round}
    (hostream : worker.ostreamOpens = true) (hbuffer : worker.bufferAllocated = true)
    (hrounds : worker.rounds = rounds ++ [last])
    (hnone : NoneRefused (recieveText worker kernel).2) :
    NoneRefused (receiver.outputs (worker.enter kernel) rounds).flatten := by
  obtain ⟨-, htrace⟩ := deviceTrace_recieveText hostream hbuffer kernel
  intro bytes result hmem
  apply hnone bytes result
  have hdevice : Event.written bytes result ∈ deviceTrace (recieveText worker kernel).2 := by
    rw [htrace, hrounds, Machine.outputs_append, List.flatten_append, deviceTrace_append]
    exact List.mem_append_left _ (List.mem_filter.mpr ⟨hmem, rfl⟩)
  exact List.mem_of_mem_filter hdevice

/-- **A connection without failures has the outcome of its chunks.** -/
theorem recieveText_outcome {worker : Worker} {chunks : List (List UInt8)} {kernel : Kernel}
    (hreceives : worker.Receives chunks) (hsucceeds : worker.Succeeds kernel)
    {commands : List (List UInt8)} {pending : List UInt8}
    (hleaves : Leaves kernel commands pending) {hidden : Bool}
    (hhidden : hidden = true ↔ nul ∈ pending) (hunfinished : newline ∉ stringOf nul pending) :
    Shows 0 (deviceTrace (recieveText worker kernel).2) (dataChunks chunks)
        (outcome hidden 0 pending chunks) ∧
      Leaves (recieveText worker kernel).1
        (commands ++ (outcome hidden 0 pending chunks).commands)
        (outcome hidden 0 pending chunks).pending := by
  obtain ⟨rounds, last, hrounds, hcarries, hclosed⟩ := hreceives
  have hloop : ∀ round ∈ rounds, round.Succeeds := fun round hround ↦
    hsucceeds.rounds round (hrounds ▸ List.mem_append_left _ hround)
  have hnone := noneRefused_rounds hsucceeds.ostreamOpens hsucceeds.bufferAllocated hrounds
    hsucceeds.noneRefused
  obtain ⟨hready, hshows, hfinal⟩ := run_outcome hcarries hloop (worker.enter_ready kernel) hleaves
    hhidden hunfinished hnone 0
  obtain ⟨hkernel, htrace⟩ := recieveText_rounds hsucceeds.ostreamOpens hsucceeds.bufferAllocated
    hrounds hclosed hready
  rw [hkernel, htrace]
  exact ⟨hshows, hfinal⟩

end Aesd.Server
