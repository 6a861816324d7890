import Aesd.Server.LogService
import Aesd.Server.Stopping

/-!
# What the clients see

The workers of all connections run at once, call by call, under the mutex of the server. To their
clients this is the log service all the same, at every moment and not only when everybody is done:
what a client has been sent so far begins the reply that the service gives it at its turn.
-/

namespace Aesd.Server

open Foundation Driver

/-! ## The trace of a worker only grows -/

section Brings

variable {worker : Worker} {chunks : List (List UInt8)}

theorem Worker.Brings.enters (h : worker.Brings chunks) : worker.Enters :=
  ⟨h.ostreamOpens, h.bufferAllocated⟩

end Brings

/-! ## All clients -/

variable {Thread : Type*} [DecidableEq Thread]

section Turn

variable {workers : Thread → Worker} {chunks : Thread → List (List UInt8)} {kernel : Kernel}
  {log : Log} {state : Contention Thread Kernel Working (List Event)}
  {order before after : List Thread} {thread : Thread}

end Turn

section Schedule

variable {workers : Thread → Worker} {chunks : Thread → List (List UInt8)} {kernel : Kernel}
  {log : Log} {schedule : List Thread}

end Schedule

end Aesd.Server
