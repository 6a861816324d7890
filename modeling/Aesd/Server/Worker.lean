import Aesd.Server.Scan

/-!
# The worker of one connection

`recieve_text` of `aesdsocket_linkedlists.c` with `savetofile` and `sendfile`. The worker opens
the device twice, once to append what it receives and once to read replies, takes the mutex of the
server for the whole connection, and handles each result of `recv` on its own: a chunk `sscanf`
recognises becomes a seek request on a descriptor of its own, anything else is saved and, if it
contains a newline, answered from the reply stream. The reply stream is opened once, so each
answer goes on where the one before ended.

What the calls a worker makes return is its environment. The device itself is the one of the
driver. A worker leaves a trace of what it does to the device, to its client and to the resources
it holds. Standard input and output are modelled by what they pass on: the bytes of one `fputs`
reach the device in one `write` when the stream is flushed, from memory that can be copied, and
`fread` reads from the current position until it has its count or a read returns nothing.

Three things are left out. `fputs` of a full stdio buffer writes before `filemutex` is released,
not behind it. `fread` may have read ahead of what it returns: after a reply that a short send
broke off, the next one starts with what was read then, even if the device has evicted it since.
And two events end the whole process: an operation on a reply stream that could not be opened,
`fread` in `sendfile` or `fclose` at the end, which the trace shows as `nullStream`, and a `send`
to a client that is gone, unless the process ignores `SIGPIPE`. The functions go on behind these
events; `performed` is the part of a trace in front of the first `nullStream`.
-/

namespace Aesd.Server

open Foundation Driver

abbrev maxBuffer : ℕ := 4096

/-- What `recv` returns: some bytes, the end of the stream, or an error. -/
inductive Recv where
  | data (bytes : List UInt8)
  | closed
  | failed
deriving DecidableEq

/-- The value of the `size_t` variable `bytes_recieved`. -/
def Recv.bytesRecieved : Recv → ℕ
  | .data bytes => bytes.length
  | .closed => 0
  | .failed => toU64 (-1)

def Recv.store (buffer : List UInt8) : Recv → List UInt8
  | .data bytes => bytes ++ buffer.drop bytes.length
  | _ => buffer

inductive Resource where
  | mutex | filemutex | sendmutex
  | ostream | sendfd | deviceFd | istream
  | buffer | sendBuffer | params
deriving DecidableEq

/-- One entry of the trace of a worker. -/
inductive Event where
  | acquired (resource : Resource)
  | released (resource : Resource)
  /-- the terminating NUL is stored to this index of the buffer -/
  | terminated (index : ℕ)
  /-- `AESDCHAR_IOCSEEKTO` with this pair, and its return value -/
  | requested (seekto : AesdSeekto) (ret : ℤ)
  /-- `write` of these bytes to the device, and its result -/
  | written (bytes : List UInt8) (result : Result)
  /-- `send` of these bytes to the client, and whether all were sent -/
  | sent (bytes : List UInt8) (complete : Bool)
  /-- an operation on a stream that could not be opened; the process ends -/
  | nullStream
  /-- `params->done` is set -/
  | done
deriving DecidableEq

/-- What the calls of one round of the receive loop return. -/
structure Round where
  recv : Recv
  /-- whether `open` of the device succeeds -/
  deviceOpens : Bool
  /-- whether the `k`-th read of the round can copy to the worker -/
  copied : ℕ → Bool
  /-- whether the `k`-th `send` of the round sends everything -/
  sends : ℕ → Bool
  /-- whether `fputs` succeeds -/
  fputs : Bool
  /-- whether the device serves the allocation of the write -/
  served : Bool
  filler : ℕ → UInt8
  beyond : Bool

def Round.writeCall (round : Round) (string : List UInt8) : WriteCall :=
  ⟨string, round.served, round.filler, 0, round.beyond⟩

/-! ## Saving -/

/-- `savetofile`; its return value is not used. A failed `fputs` passes nothing on, and flushing
an empty string writes nothing. -/
def savetofile (round : Round) (string : List UInt8) (kernel : Kernel) : Kernel × List Event :=
  if round.fputs = true ∧ string ≠ [] then
    let (kernel, result) := aesdWrite (round.writeCall string) kernel
    (kernel, [.acquired .filemutex, .released .filemutex, .written string result])
  else (kernel, [.acquired .filemutex, .released .filemutex])

/-! ## Replying -/

/-- The loop of both replies: read, stop when nothing comes, send, and stop when not everything
was sent. The last component tells whether the loop ended because nothing came. -/
def relay (read : ℕ → ℤ → List UInt8 × ℤ) (around : Event → List Event) (sends : ℕ → Bool) :
    ℕ → ℕ → ℤ → List Event × ℤ × Bool
  | 0, _, fPos => ([], fPos, true)
  | steps + 1, k, fPos =>
    let (bytes, fPos) := read k fPos
    if bytes = [] then ([], fPos, true)
    else if sends k then
      let (events, last, ended) := relay read around sends steps (k + 1) fPos
      (around (.sent bytes true) ++ events, last, ended)
    else (around (.sent bytes false), fPos, false)

/-- More steps than a reply has pieces: each piece has a byte of the content. -/
def relaySteps (kernel : Kernel) : ℕ :=
  sizeLoop kernel.dev.circularBuffer maxWriteOperationsSupported
    kernel.dev.circularBuffer.outOffs 0 + 1

/-- `fread` of `want` bytes from the device, without what stdio reads ahead. -/
def fread (kernel : Kernel) (copied : Bool) : ℕ → ℕ → ℤ → List UInt8 × ℤ
  | 0, _, fPos => ([], fPos)
  | steps + 1, want, fPos =>
    let (result, fPos) := aesdRead kernel want copied fPos
    if result.ret ≤ 0 then ([], fPos)
    else
      let (more, last) := fread kernel copied steps (want - result.data.length) fPos
      (result.data ++ more, last)

/-- `sendfile`: the position it leaves in the reply stream, and its events. The send buffer is not
freed where a send fails. `malloc` returns a block here; `fread` into NULL reads nothing, like a
first read that cannot copy. A reply stream that was not opened ends the process. -/
def sendfile (kernel : Kernel) (round : Round) : Option ℤ → Option ℤ × List Event
  | none => (none, [.acquired .sendBuffer, .nullStream, .released .sendBuffer])
  | some fPos =>
    let (events, last, ended) :=
      relay (fun k fPos ↦ fread kernel (round.copied k) maxBuffer maxBuffer fPos)
        (fun send ↦ [.acquired .sendmutex, send, .released .sendmutex])
        round.sends (relaySteps kernel) 0 fPos
    (some last, .acquired .sendBuffer :: events ++ if ended then [.released .sendBuffer] else [])

/-- The seek branch of the receive loop: the request on a descriptor of its own, and the content
from the position it set. -/
def seekReply (kernel : Kernel) (round : Round) (seekto : AesdSeekto) : List Event :=
  if round.deviceOpens then
    let (ret, fPos) := aesdIoctl kernel.dev 0 aesdcharIocseekto (some seekto)
    if ret < 0 then [.acquired .deviceFd, .requested seekto ret, .released .deviceFd]
    else
      let (events, _) :=
        relay (fun k fPos ↦
            let (result, fPos) := aesdRead kernel maxBuffer (round.copied k) fPos
            (result.data, fPos))
          (fun send ↦ [send]) round.sends (relaySteps kernel) 0 fPos
      [.acquired .deviceFd, .requested seekto ret] ++ events ++ [.released .deviceFd]
  else []

/-! ## The receive loop -/

structure Session where
  kernel : Kernel
  /-- the position of the reply stream, which may not have been opened -/
  sendfd : Option ℤ
  buffer : List UInt8
  /-- the loop has not been left -/
  running : Bool

/-- The buffer when it is looked at. A NUL stored outside of it does not change it. -/
def Round.buffer (round : Round) (buffer : List UInt8) : List UInt8 :=
  (round.recv.store buffer).set round.recv.bytesRecieved nul

def receiveRound (session : Session) (round : Round) : Session × List Event :=
  let buffer := round.buffer session.buffer
  let string := stringOf nul buffer
  let running := decide (0 < round.recv.bytesRecieved)
  match sscanfSeekto string with
  | some seekto =>
    ({ session with buffer := buffer, running := running },
      .terminated round.recv.bytesRecieved :: seekReply session.kernel round seekto)
  | none =>
    let (kernel, saved) := savetofile round string session.kernel
    if newline ∈ string then
      let (sendfd, replied) := sendfile kernel round session.sendfd
      (⟨kernel, sendfd, buffer, running⟩,
        .terminated round.recv.bytesRecieved :: saved ++ replied)
    else
      (⟨kernel, session.sendfd, buffer, running⟩,
        .terminated round.recv.bytesRecieved :: saved)

/-- The receive loop; once left it does nothing more. -/
def receiver : Machine Session Round (List Event) where
  step session round := if session.running then receiveRound session round else (session, [])

/-- What the calls of a worker return. -/
structure Worker where
  ostreamOpens : Bool
  bufferAllocated : Bool
  /-- what the allocated buffer holds at first -/
  garbage : List UInt8
  garbage_length : garbage.length = maxBuffer + 1
  sendfdOpens : Bool
  rounds : List Round

def Worker.enter (worker : Worker) (kernel : Kernel) : Session :=
  ⟨kernel, if worker.sendfdOpens then some 0 else none, worker.garbage, true⟩

/-- What `recieve_text` does behind the receive loop; `fclose(NULL)` ends the process. -/
def leaveText (sendfd : Option ℤ) : List Event :=
  [.released .mutex, .released .buffer,
    if sendfd = none then .nullStream else .released .sendfd,
    .released .istream, .released .ostream, .done, .released .params]

/-- `recieve_text`: the device it leaves, and its trace. Where the rounds end before the loop
does, the worker still waits for the next `recv`. -/
def recieveText (worker : Worker) (kernel : Kernel) : Kernel × List Event :=
  if worker.ostreamOpens = false then (kernel, [])
  else if worker.bufferAllocated = false then (kernel, [.acquired .ostream])
  else
    let session := worker.enter kernel
    let last := receiver.run session worker.rounds
    (last.kernel,
      [.acquired .ostream, .acquired .buffer]
        ++ (if worker.sendfdOpens then [.acquired .sendfd] else [])
        ++ [.acquired .mutex]
        ++ (receiver.outputs session worker.rounds).flatten
        ++ if last.running then [] else leaveText last.sendfd)

/-- What is really done of a trace. -/
def performed (events : List Event) : List Event := events.takeWhile fun event ↦ event ≠ .nullStream

def Round.smooth (recv : Recv) : Round where
  recv := recv
  deviceOpens := true
  copied := fun _ ↦ true
  sends := fun _ ↦ true
  fputs := true
  served := true
  filler := fun _ ↦ 0
  beyond := false

def Worker.smooth (chunks : List (List UInt8)) : Worker where
  ostreamOpens := true
  bufferAllocated := true
  garbage := List.replicate (maxBuffer + 1) nul
  garbage_length := List.length_replicate
  sendfdOpens := true
  rounds := chunks.map (fun chunk ↦ .smooth (.data chunk)) ++ [.smooth .closed]

end Aesd.Server
