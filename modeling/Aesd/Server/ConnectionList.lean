import Aesd.Foundation.Links
import Mathlib.Data.Int.Notation

/-!
# The list of connections

The nodes `struct Connections_t` in memory, the list that starts at `head`, and the functions of
`aesdsocket_linkedlists.c` that work on it. Every access to the fields of a node is recorded with
whether the node was allocated then, and so are the releases. An address is handed out once, so a
pointer kept after `free` can be told apart from one to a later node; what is read through such a
pointer is taken to be zero.
-/

namespace Aesd.Server

open Foundation

structure Connection where
  done : ℤ
  /-- `ostream` is not NULL -/
  ostream : Bool
  filename : String
  istream : ℤ
  pid : ℕ
  s : String
  /-- `entries.sle_next` -/
  next : Option ℕ
deriving DecidableEq

def Connection.zeroed : Connection := ⟨0, false, "", 0, 0, "", none⟩

inductive Mutex where
  | mutex | filemutex | sendmutex
deriving DecidableEq

/-- What is done to a node, or at the end of the server. -/
inductive Action where
  /-- a field is read or written; the node is allocated then or not -/
  | touched (id : ℕ) (allocated : Bool)
  | freed (id : ℕ)
  /-- `close` of its `istream` -/
  | closed (id : ℕ)
  /-- `fclose` of its `ostream` -/
  | closedStream (id : ℕ)
  | joined (pid : ℕ)
  | cancelled (pid : ℕ)
  /-- `close` of the listening socket -/
  | closedSocket (socfd : ℤ)
  | freedServinfo
  | freedBackstreamBuffer
  /-- `pthread_mutex_destroy`; the list is empty then or not -/
  | destroyed (lock : Mutex) (empty : Bool)
deriving DecidableEq

/-- The nodes, the head of the list, and what has been done to the nodes. -/
structure Memory where
  node : ℕ → Option Connection
  /-- the address the next `malloc` returns -/
  fresh : ℕ
  head : Option ℕ
  trace : List Action

def Memory.link (memory : Memory) (id : ℕ) : Option (Option ℕ) :=
  (memory.node id).map Connection.next

def Memory.record (memory : Memory) (action : Action) : Memory :=
  { memory with trace := memory.trace ++ [action] }

def Memory.touch (memory : Memory) (id : ℕ) : Memory :=
  memory.record (.touched id (memory.node id).isSome)

def Memory.fields (memory : Memory) (id : ℕ) : Connection := (memory.node id).getD .zeroed

def Memory.modify (memory : Memory) (id : ℕ) (f : Connection → Connection) : Memory :=
  { memory.touch id with node := Function.update memory.node id ((memory.node id).map f) }

def Memory.free (memory : Memory) (id : ℕ) : Memory :=
  { memory.record (.freed id) with node := Function.update memory.node id none }

theorem isSome_node_iff (memory : Memory) (id : ℕ) :
    (memory.node id).isSome = true ↔ memory.link id ≠ none := by
  rw [Memory.link, ne_eq, Option.map_eq_none_iff, Option.isSome_iff_ne_none]

/-- A change of one node is a change of one pointer. -/
theorem link_update (memory : Memory) (id : ℕ) (conn : Option Connection) :
    (fun other ↦ (Function.update memory.node id conn other).map Connection.next) =
      Function.update memory.link id (conn.map Connection.next) := by
  funext other
  by_cases hother : other = id
  · rw [hother, Function.update_self, Function.update_self]
  · rw [Function.update_of_ne hother, Function.update_of_ne hother]
    rfl

theorem Memory.link_modify (memory : Memory) (id : ℕ) (f : Connection → Connection) :
    (memory.modify id f).link =
      Function.update memory.link id ((memory.node id).map fun conn ↦ (f conn).next) := by
  have hlink := link_update memory id ((memory.node id).map f)
  rw [Option.map_map] at hlink
  exact hlink

/-- A store that keeps the pointer of the node changes no pointer. -/
theorem Memory.link_modify_of_keeps (memory : Memory) (id : ℕ) {f : Connection → Connection}
    (hnext : ∀ conn, (f conn).next = conn.next) : (memory.modify id f).link = memory.link := by
  rw [Memory.link_modify, funext hnext]
  exact Function.update_eq_self id memory.link

theorem Memory.link_free (memory : Memory) (id : ℕ) :
    (memory.free id).link = Function.update memory.link id none :=
  link_update memory id none

/-- `newElement`; `garbage` is what the memory held before. -/
def newElement (memory : Memory) (allocated : Bool) (garbage : Connection) : Memory × Option ℕ :=
  if allocated then
    ({ memory with
        node := Function.update memory.node memory.fresh (some { garbage with done := 0, pid := 0 })
        fresh := memory.fresh + 1 }, some memory.fresh)
  else (memory, none)

/-! ## `sys/queue.h` -/

def slistEmpty (memory : Memory) : Bool := memory.head.isNone

/-- `SLIST_FOREACH` with this body, from `current` on: the pointer to the next node is read behind
the body. -/
def slistForeach (body : Memory → ℕ → Memory) : ℕ → Memory → Option ℕ → Memory
  | 0, memory, _ => memory
  | _, memory, none => memory
  | steps + 1, memory, some current =>
    let memory := body memory current
    slistForeach body steps (memory.touch current) (memory.fields current).next

def slistInsertHead (memory : Memory) (id : ℕ) : Memory :=
  { memory.modify id fun conn ↦ { conn with next := memory.head } with head := some id }

/-- The loop of `SLIST_REMOVE`: look for the node in front of `id`, from `current` on. Without one
the macro would follow a null pointer. -/
def slistRemoveAfter (id : ℕ) : ℕ → Memory → ℕ → Memory
  | 0, memory, _ => memory
  | steps + 1, memory, current =>
    match (memory.fields current).next with
    | none => memory.touch current
    | some next =>
      if next = id then
        ((memory.touch current).touch id).modify current
          fun conn ↦ { conn with next := (memory.fields id).next }
      else slistRemoveAfter id steps (memory.touch current) next

/-- `SLIST_REMOVE`; a list has fewer nodes than addresses have been handed out. -/
def slistRemove (memory : Memory) (id : ℕ) : Memory :=
  match memory.head with
  | none => memory
  | some first =>
    if first = id then { memory.touch id with head := (memory.fields id).next }
    else slistRemoveAfter id memory.fresh memory first

/-! ## Removing connections -/

def delElement (memory : Memory) (id : ℕ) : Memory :=
  ((((slistRemove memory id).touch id).record (.closed id)).touch id).record (.closedStream id)
    |>.free id

def joinCompleted : ℕ → Memory → Option ℕ → Memory
  | 0, memory, _ => memory
  | _, memory, none => memory
  | steps + 1, memory, some current =>
    let memory := memory.touch current
    let memory :=
      if (memory.fields current).done ≠ 0 then
        delElement ((memory.touch current).record (.joined (memory.fields current).pid)) current
      else memory
    joinCompleted steps (memory.touch current) (memory.fields current).next

/-- `check_completed_threads`: the loop stands under `SLIST_EMPTY`, not under its negation. -/
def checkCompletedThreads (memory : Memory) : Memory :=
  if slistEmpty memory then joinCompleted memory.fresh memory memory.head else memory

/-- So nothing is ever joined or removed. -/
theorem checkCompletedThreads_eq (memory : Memory) : checkCompletedThreads memory = memory := by
  unfold checkCompletedThreads
  cases hhead : memory.head with
  | none =>
    cases hfresh : memory.fresh <;> simp [slistEmpty, hhead, joinCompleted]
  | some first => simp [slistEmpty, hhead]

end Aesd.Server
