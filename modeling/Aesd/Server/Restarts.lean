import Aesd.Server.Clients

/-!
# One log for all processes of the server

The device outlives the server. A process of the server may be stopped wherever its workers are,
and the next one starts on what it has left. For the clients of all of them this is one log
service, to which a connection that was cut off has brought a part of its chunks.
-/

namespace Aesd.Server

open Foundation Driver

variable {Thread : Type*} [DecidableEq Thread]

/-- One process of the server: its connections, and how far they come until it is stopped. -/
structure Life (Thread : Type*) where
  workers : Thread → Worker
  /-- what the clients bring -/
  chunks : Thread → List (List UInt8)
  schedule : List Thread

def Life.order (life : Life Thread) (kernel : Kernel) : List Thread :=
  mutexOrder life.workers kernel life.schedule

/-- The chunks that have reached the log in a life: those of each connection in turn, of the last
one perhaps a part. -/
def Life.Reaches (life : Life Thread) (kernel : Kernel) (reached : List (List (List UInt8))) :
    Prop :=
  reached = (life.order kernel).map life.chunks ∨ ∃ before thread cut,
    life.order kernel = before ++ [thread] ∧ cut <+: life.chunks thread ∧
      reached = before.map life.chunks ++ [cut]

/-- The connections of these clients, up to a point of a schedule. -/
def Life.smooth (chunks : Bool → List (List UInt8)) (schedule : List Bool) : Life Bool :=
  ⟨fun client ↦ .smooth (chunks client), chunks, schedule⟩

end Aesd.Server
