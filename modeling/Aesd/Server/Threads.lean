import Aesd.Foundation.Machine
import Aesd.Server.ConnectionList

/-!
# The accept loop and its threads

`main` of `aesdsocket_linkedlists.c` creates a node for each connection, starts a worker on it,
stores the identity of the thread in the node and links it. The worker, `recieve_text`, releases
the node at the end of a connection. Nothing makes one wait for the other, and nothing takes the
node off the list: where the loop and the workers stand when a worker releases its node decides
whether the list, or the loop, is left with a dangling pointer.

A worker is followed here through its accesses to its node only; a step is one of them, or a call
in front of an early return.
-/

namespace Aesd.Server

open Foundation

/-- Where the accept loop stands. -/
inductive AcceptPlace where
  /-- in front of `accept` -/
  | accepting
  /-- in front of `newElement` -/
  | allocating (acceptfd : ℤ)
  /-- in front of the stores to the new node -/
  | filling (acceptfd : ℤ) (newthread : ℕ)
  /-- in front of `pthread_create` -/
  | creating (newthread : ℕ)
  /-- in front of `newthread->pid = thread_id` -/
  | storing (threadId newthread : ℕ)
  /-- in front of `SLIST_INSERT_HEAD` -/
  | inserting (newthread : ℕ)
  /-- in front of `check_completed_threads` -/
  | checking
  /-- a null pointer was followed, and the process is gone -/
  | crashed
deriving DecidableEq

/-- Where a worker stands in `recieve_text`. -/
inductive WorkerPlace where
  /-- in front of `fopen` of the output stream -/
  | entered
  /-- in front of `malloc` of the buffer -/
  | opened
  /-- in front of `fopen` of the reply stream -/
  | buffered
  /-- in front of `pthread_mutex_lock` -/
  | locking
  /-- in front of a round of the receive loop -/
  | receiving
  /-- in front of `pthread_mutex_unlock`, and of the release of the buffer and the reply stream -/
  | unlocking
  /-- in front of `close(params->istream)` -/
  | closing
  /-- in front of `fclose(params->ostream)` -/
  | closingStream
  /-- in front of `params->done = 1` -/
  | marking
  /-- in front of `free(params)` -/
  | freeing
  /-- behind one of the early returns -/
  | returned
  /-- behind `free(params)` -/
  | finished
deriving DecidableEq

/-- The process: memory, the accept loop, the workers by the node they were started on, and the
holder of the mutex. -/
structure Process where
  memory : Memory
  accept : AcceptPlace
  worker : ℕ → Option WorkerPlace
  mutex : Option ℕ

def Process.started : Process where
  memory := ⟨fun _ ↦ none, 0, none, []⟩
  accept := .accepting
  worker := fun _ ↦ none
  mutex := none

/-- What the calls of a step of the accept loop return. -/
structure Answer where
  acceptfd : ℤ
  allocated : Bool
  garbage : Connection
  address : String
  /-- zero or the error number `pthread_create` returns -/
  error : ℕ
  /-- what `thread_id` holds after it -/
  threadId : ℕ

def fileName : String := "/dev/aesdchar"

def Process.go (process : Process) (id : ℕ) (place : WorkerPlace) : Process :=
  { process with worker := Function.update process.worker id (some place) }

@[simp]
theorem Process.worker_go_self (process : Process) (id : ℕ) (place : WorkerPlace) :
    (process.go id place).worker id = some place := Function.update_self ..

theorem Process.worker_go_of_ne (process : Process) {id other : ℕ} (place : WorkerPlace)
    (h : other ≠ id) : (process.go id place).worker other = process.worker other :=
  Function.update_of_ne h _ _

def acceptStep (process : Process) (answer : Answer) : Process :=
  match process.accept with
  | .accepting =>
    if answer.acceptfd = -1 then process
    else { process with accept := .allocating answer.acceptfd }
  | .allocating acceptfd =>
    match newElement process.memory answer.allocated answer.garbage with
    | (memory, some newthread) =>
      { process with memory := memory, accept := .filling acceptfd newthread }
    | (memory, none) => { process with memory := memory, accept := .crashed }
  | .filling acceptfd newthread =>
    { process with
      memory := process.memory.modify newthread fun conn ↦
        { conn with istream := acceptfd, s := answer.address, filename := fileName }
      accept := .creating newthread }
  | .creating newthread =>
    if (answer.error : ℤ) < 0 then
      { process with memory := process.memory.free newthread, accept := .accepting }
    else
      let process := { process with accept := .storing answer.threadId newthread }
      if answer.error = 0 then process.go newthread .entered else process
  | .storing threadId newthread =>
    { process with
      memory := process.memory.modify newthread fun conn ↦ { conn with pid := threadId }
      accept := .inserting newthread }
  | .inserting newthread =>
    { process with memory := slistInsertHead process.memory newthread, accept := .checking }
  | .checking =>
    { process with memory := checkCompletedThreads process.memory, accept := .accepting }
  | .crashed => process

/-- One step of the worker that was started on a node; `succeeds` tells whether the call it stands
in front of succeeds, and at the receive loop whether there is another round. -/
def workerStep (process : Process) (params : ℕ) (succeeds : Bool) : Process :=
  match process.worker params with
  | some .entered =>
    { process with
      memory := (process.memory.touch params).modify params fun conn ↦
        { conn with ostream := succeeds } }.go params (if succeeds then .opened else .returned)
  | some .opened => process.go params (if succeeds then .buffered else .returned)
  | some .buffered => { process with memory := process.memory.touch params }.go params .locking
  | some .locking =>
    if process.mutex = none then { process with mutex := some params }.go params .receiving
    else process
  | some .receiving =>
    -- `recv`, and what follows it, use `istream` and `ostream`
    { process with memory := process.memory.touch params }.go params
      (if succeeds then .receiving else .unlocking)
  | some .unlocking => { process with mutex := none }.go params .closing
  | some .closing =>
    { process with memory := (process.memory.touch params).record (.closed params) }.go params
      .closingStream
  | some .closingStream =>
    { process with memory := (process.memory.touch params).record (.closedStream params) }.go params
      .marking
  | some .marking =>
    { process with
      memory := (process.memory.touch params).modify params fun conn ↦
        { conn with done := 1 } }.go params .freeing
  | some .freeing => { process with memory := process.memory.free params }.go params .finished
  | some .returned => process
  | some .finished => process
  | none => process

inductive Turn where
  | accept (answer : Answer)
  | worker (params : ℕ) (succeeds : Bool)

/-- The process under any schedule. -/
def process : Machine Process Turn Unit where
  step state turn :=
    (if state.accept = .crashed then state
      else
        match turn with
        | .accept answer => acceptStep state answer
        | .worker params succeeds => workerStep state params succeeds, ())

theorem process_next_crashed {state : Process} (h : state.accept = .crashed) (turn : Turn) :
    process.next state turn = state := if_pos h

theorem process_next_accept {state : Process} (h : state.accept ≠ .crashed) (answer : Answer) :
    process.next state (.accept answer) = acceptStep state answer := if_neg h

theorem process_next_worker {state : Process} (h : state.accept ≠ .crashed) (params : ℕ)
    (succeeds : Bool) :
    process.next state (.worker params succeeds) = workerStep state params succeeds := if_neg h

/-! ## What is to hold -/

/-- Every node linked from `head` is allocated, no released node was accessed, and no node was
released, or its descriptor closed, twice. -/
structure Safe (state : Process) : Prop where
  linked : ∀ id, Linked state.memory.link state.memory.head id → (state.memory.node id).isSome
  touched : ∀ id, .touched id false ∉ state.memory.trace
  freed : ∀ id, state.memory.trace.count (.freed id) ≤ 1
  closed : ∀ id, state.memory.trace.count (.closed id) ≤ 1

/-- The node the accept loop has in hand: created and not linked yet. -/
def AcceptPlace.hand : AcceptPlace → Option ℕ
  | .filling _ newthread => some newthread
  | .creating newthread => some newthread
  | .storing _ newthread => some newthread
  | .inserting newthread => some newthread
  | _ => none

/-- The step is harmless: a worker that is about to release its node finds it still in the hand of
the accept loop, and the accept loop does not go on with a node its worker has released. -/
def Harmless (state : Process) : Turn → Prop
  | .accept _ => ∀ id, state.accept.hand = some id → state.worker id ≠ some .finished
  | .worker params _ =>
    state.accept ≠ .crashed → state.worker params = some .freeing → state.accept.hand = some params

end Aesd.Server
