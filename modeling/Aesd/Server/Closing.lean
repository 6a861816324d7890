import Aesd.Server.Removal

/-!
# Taking connections off the list

`check_completed_threads` is to join the workers that are done and remove their nodes, and
`closeconnection` to cancel, join and remove them all before it destroys the mutexes. Both loops
delete the node they stand on and then read its pointer, and both stand under a test for the empty
list. So neither loop is ever entered with a node, and what the loops would do does not show.
-/

namespace Aesd.Server

open Foundation

/-! ## Closing the server -/

/-- `Context`, as far as `closeconnection` looks at it. -/
structure Context where
  /-- the socket `socfd` points to, if it is not NULL -/
  socfd : Option ℤ
  /-- `servinfo` is not NULL -/
  servinfo : Bool
  /-- `backstream_buffer` is not NULL -/
  backstreamBuffer : Bool

/-- The body of the loop of `closeconnection`. -/
def cancelConnection (memory : Memory) (current : ℕ) : Memory :=
  let memory := (memory.touch current).record (.cancelled (memory.fields current).pid)
  let memory := (memory.touch current).record (.joined (memory.fields current).pid)
  delElement memory current

def Memory.destroy (memory : Memory) (lock : Mutex) : Memory :=
  memory.record (.destroyed lock (slistEmpty memory))

/-- The socket and the blocks of the context are released first. -/
def releaseContext (ctx : Context) (memory : Memory) : Memory :=
  let memory := match ctx.socfd with
    | some socfd => memory.record (.closedSocket socfd)
    | none => memory
  let memory := if ctx.servinfo then memory.record .freedServinfo else memory
  if ctx.backstreamBuffer then memory.record .freedBackstreamBuffer else memory

/-- `closeconnection`, with its return value: the loop stands under `SLIST_EMPTY`, not under its
negation. -/
def closeconnection (ctx : Context) (memory : Memory) : Memory × ℤ :=
  let memory := releaseContext ctx memory
  let memory :=
    if slistEmpty memory then slistForeach cancelConnection memory.fresh memory memory.head
    else memory
  (((memory.destroy .filemutex).destroy .sendmutex).destroy .mutex, 0)

/-! ## What is to be done -/

def joins (actions : List Action) : List ℕ :=
  actions.filterMap fun
    | .joined pid => some pid
    | _ => none

def cancels (actions : List Action) : List ℕ :=
  actions.filterMap fun
    | .cancelled pid => some pid
    | _ => none

@[simp]
theorem joins_append (first second : List Action) :
    joins (first ++ second) = joins first ++ joins second := List.filterMap_append

@[simp]
theorem cancels_append (first second : List Action) :
    cancels (first ++ second) = cancels first ++ cancels second := List.filterMap_append

def Memory.isDone (memory : Memory) (id : ℕ) : Bool := decide ((memory.fields id).done ≠ 0)

/-- From a list of these nodes those that are done are joined, each once, and taken off. The others
stay as they were, and nothing is read from a node that was released. -/
def RemovesCompleted (before after : Memory) (ids : List ℕ) : Prop :=
  ∃ actions, after.trace = before.trace ++ actions ∧
    (joins actions).Perm ((ids.filter before.isDone).map fun id ↦ (before.fields id).pid) ∧
    Chain after.link after.head (ids.filter fun id ↦ !before.isDone id) ∧
    ∀ id, .touched id false ∉ actions

/-- All nodes of the list are cancelled, joined and taken off, each once, and the mutexes are
destroyed when the list is empty. -/
def ClosesAll (before after : Memory) (ids : List ℕ) : Prop :=
  ∃ actions, after.trace = before.trace ++ actions ∧
    (cancels actions).Perm (ids.map fun id ↦ (before.fields id).pid) ∧
    (joins actions).Perm (ids.map fun id ↦ (before.fields id).pid) ∧
    after.head = none ∧ ∀ lock, .destroyed lock false ∉ actions

/-! ## The loops -/

section Loops

variable {memory : Memory} {ids : List ℕ} {id : ℕ}

theorem quiet_of_removal {actions : List Action}
    (h : ∀ action ∈ actions, action.isRemoval = true) :
    joins actions = [] ∧ cancels actions = [] := by
  rw [joins, cancels, List.filterMap_eq_nil_iff, List.filterMap_eq_nil_iff]
  refine ⟨fun action haction ↦ ?_, fun action haction ↦ ?_⟩ <;>
  · have hremoval := h action haction
    cases action <;> first | rfl | exact absurd hremoval Bool.false_ne_true

/-- The body of the loop of `closeconnection` does what it is there for: it cancels, joins and
removes the one node. -/
theorem cancelConnection_removes (hchain : Chain memory.link memory.head ids) (hmem : id ∈ ids)
    (hfresh : ids.length ≤ memory.fresh) :
    Chain (cancelConnection memory id).link (cancelConnection memory id).head (ids.erase id) ∧
      ∃ actions, (cancelConnection memory id).trace = memory.trace ++ actions ∧
        cancels actions = [(memory.fields id).pid] ∧ joins actions = [(memory.fields id).pid] := by
  have hjoined : ∃ joined : Memory, cancelConnection memory id = delElement joined id ∧
      joined.node = memory.node ∧ joined.head = memory.head ∧ joined.fresh = memory.fresh ∧
      joined.trace = memory.trace ++ [.touched id (memory.node id).isSome,
        .cancelled (memory.fields id).pid, .touched id (memory.node id).isSome,
        .joined (memory.fields id).pid] :=
    ⟨_, rfl, rfl, rfl, rfl, by
      simp only [Memory.record, Memory.touch, Memory.fields, List.append_assoc, List.cons_append,
        List.nil_append]⟩
  obtain ⟨joined, hbody, hnode, hhead, hsame, htrace⟩ := hjoined
  have hlink : joined.link = memory.link := by
    funext other
    rw [Memory.link, Memory.link, hnode]
  rw [hbody]
  refine ⟨(delElement_chain (by rwa [hlink, hhead]) hmem (hsame ▸ hfresh)).1, ?_⟩
  obtain ⟨actions, hdeleted, hremoval⟩ := onlyRemoves_delElement joined id
  obtain ⟨hjoins, hcancels⟩ := quiet_of_removal hremoval
  refine ⟨_, by rw [hdeleted, htrace, List.append_assoc], ?_, ?_⟩
  · rw [cancels_append, hcancels]
    rfl
  · rw [joins_append, hjoins]
    rfl

/-- The body of the loop of `check_completed_threads`. -/
def joinConnection (memory : Memory) (current : ℕ) : Memory :=
  if (memory.fields current).done ≠ 0 then
    delElement (((memory.touch current).touch current).record
      (.joined (memory.fields current).pid)) current
  else memory.touch current

theorem joinCompleted_eq (steps : ℕ) (memory : Memory) (current : Option ℕ) :
    joinCompleted steps memory current = slistForeach joinConnection steps memory current := by
  induction steps generalizing memory current with
  | zero => rfl
  | succ steps ih =>
    cases current with
    | none => rfl
    | some current => exact ih _ _

theorem trace_prefix_joinConnection (memory : Memory) (current : ℕ) :
    memory.trace <+: (joinConnection memory current).trace := by
  unfold joinConnection
  split
  · obtain ⟨actions, hdeleted, -⟩ := onlyRemoves_delElement
      (((memory.touch current).touch current).record (.joined (memory.fields current).pid)) current
    rw [hdeleted]
    simp only [Memory.touch, Memory.record, List.append_assoc]
    exact List.prefix_append _ _
  · exact List.prefix_append _ _

/-- A loop only adds to the trace if its body does. -/
theorem trace_prefix_slistForeach {body : Memory → ℕ → Memory}
    (hbody : ∀ memory id, memory.trace <+: (body memory id).trace) (steps : ℕ) (memory : Memory)
    (current : Option ℕ) : memory.trace <+: (slistForeach body steps memory current).trace := by
  induction steps generalizing memory current with
  | zero => exact List.prefix_rfl
  | succ steps ih =>
    cases current with
    | none => exact List.prefix_rfl
    | some current =>
      have htouched : (body memory current).trace <+: ((body memory current).touch current).trace :=
        List.prefix_append _ _
      exact ((hbody memory current).trans htouched).trans (ih _ _)

/-- Behind the body the loop reads the pointer of the node it stands on. -/
theorem touched_slistForeach {body : Memory → ℕ → Memory}
    (hbody : ∀ memory id, memory.trace <+: (body memory id).trace) (steps : ℕ) (memory : Memory)
    (current : ℕ) :
    (body memory current).trace ++
        [.touched current ((body memory current).node current).isSome] <+:
      (slistForeach body (steps + 1) memory (some current)).trace :=
  trace_prefix_slistForeach hbody steps ((body memory current).touch current) _

/-- The loop of `check_completed_threads` goes on from a node that is not done. -/
theorem slistForeach_of_not_done {steps : ℕ} {next : Option ℕ} (hdone : memory.isDone id ≠ true)
    (hnext : memory.link id = some next) :
    slistForeach joinConnection (steps + 1) memory (some id) =
      slistForeach joinConnection steps ((memory.touch id).touch id) next := by
  have hkept : joinConnection memory id = memory.touch id :=
    if_neg fun hne ↦ hdone (decide_eq_true hne)
  have hpointer : (memory.fields id).next = next := Memory.fields_next hnext
  simp only [slistForeach, hkept]
  rw [← hpointer]
  rfl

/-- Of a node that is done nothing is left behind the body. -/
theorem node_joinConnection (hdone : memory.isDone id = true) :
    (joinConnection memory id).node id = none := by
  rw [joinConnection, if_pos (of_decide_eq_true hdone)]
  exact Function.update_self ..

/-- The loop of `check_completed_threads` would not do even when it were entered: behind the release
of the first node it removes it reads the pointer of this node. -/
theorem joinCompleted_follows_removed {steps : ℕ} {current : Option ℕ}
    (hchain : Chain memory.link current ids) (hsteps : ids.length ≤ steps)
    (hdone : ∃ id ∈ ids, memory.isDone id = true) :
    ∃ actions, memory.trace ++ actions <+: (joinCompleted steps memory current).trace ∧
      ∃ id, .touched id false ∈ actions := by
  rw [joinCompleted_eq]
  induction ids generalizing memory current steps with
  | nil =>
    obtain ⟨id, hid, -⟩ := hdone
    exact absurd hid List.not_mem_nil
  | cons first rest ih =>
    obtain ⟨steps, rfl⟩ : ∃ fewer, steps = fewer + 1 :=
      Nat.exists_eq_add_one.mpr (Nat.lt_of_lt_of_le (Nat.succ_pos _) hsteps)
    obtain ⟨rfl, next, hfirst, hrest⟩ := hchain
    by_cases hfound : memory.isDone first = true
    · have hlater := touched_slistForeach trace_prefix_joinConnection steps memory first
      obtain ⟨actions, hactions⟩ := trace_prefix_joinConnection memory first
      rw [node_joinConnection hfound, ← hactions, List.append_assoc] at hlater
      exact ⟨_, hlater, first, List.mem_append_right _ (List.mem_singleton_self _)⟩
    · rw [List.exists_mem_cons_iff, or_iff_right hfound] at hdone
      have hchain : Chain ((memory.touch first).touch first).link next rest := hrest
      obtain ⟨actions, hactions, hfollows⟩ := ih hchain (Nat.le_of_succ_le_succ hsteps) hdone
      have htrace : ((memory.touch first).touch first).trace = memory.trace ++
          List.replicate 2 (.touched first (memory.node first).isSome) := List.append_assoc ..
      rw [htrace, List.append_assoc] at hactions
      rw [slistForeach_of_not_done hfound hfirst]
      exact ⟨_, hactions, hfollows.imp fun id hid ↦ List.mem_append_right _ hid⟩

/-- So turning the test round alone would not be enough. -/
theorem not_removesCompleted_of_entered (hchain : Chain memory.link memory.head ids)
    (hfresh : ids.length ≤ memory.fresh) (hdone : ∃ id ∈ ids, memory.isDone id = true) :
    ¬ RemovesCompleted memory (joinCompleted memory.fresh memory memory.head) ids := by
  rintro ⟨actions, htrace, -, -, htouched⟩
  obtain ⟨followed, hfollowed, id, hid⟩ := joinCompleted_follows_removed hchain hfresh hdone
  rw [htrace, List.prefix_append_right_inj] at hfollowed
  exact htouched id (hfollowed.subset hid)

end Loops

/-! ## What is done -/

section Guarded

variable {memory : Memory} {ids : List ℕ}

/-- A loop under the test is entered with no node. -/
theorem slistForeach_guarded (body : Memory → ℕ → Memory) (memory : Memory) :
    (if slistEmpty memory then slistForeach body memory.fresh memory memory.head else memory) =
      memory := by
  split
  · next hempty =>
    have hhead : memory.head = none := Option.isNone_iff_eq_none.mp hempty
    rw [hhead]
    cases memory.fresh <;> rfl
  · rfl

/-- The first entries of the trace of `closeconnection`. -/
def Context.released (ctx : Context) : List Action :=
  ctx.socfd.toList.map .closedSocket ++ (if ctx.servinfo then [.freedServinfo] else []) ++
    if ctx.backstreamBuffer then [.freedBackstreamBuffer] else []

theorem releaseContext_eq (ctx : Context) (memory : Memory) :
    releaseContext ctx memory = { memory with trace := memory.trace ++ ctx.released } := by
  obtain ⟨_ | socfd, _ | _, _ | _⟩ := ctx <;>
    simp [releaseContext, Context.released, Memory.record]

/-- So `closeconnection` leaves the nodes and the list as they are. -/
theorem closeconnection_eq (ctx : Context) (memory : Memory) :
    closeconnection ctx memory =
      ({ memory with trace := memory.trace ++ (ctx.released ++
        [.destroyed .filemutex (slistEmpty memory), .destroyed .sendmutex (slistEmpty memory),
          .destroyed .mutex (slistEmpty memory)]) }, 0) := by
  simp only [closeconnection, slistForeach_guarded]
  simp only [releaseContext_eq, Memory.destroy, Memory.record, slistEmpty, List.append_assoc,
    List.cons_append, List.nil_append]

theorem quiet_released (ctx : Context) :
    joins ctx.released = [] ∧ cancels ctx.released = [] := by
  obtain ⟨_ | socfd, _ | _, _ | _⟩ := ctx <;> exact ⟨rfl, rfl⟩

theorem destroyed_notMem_released (ctx : Context) (lock : Mutex) (empty : Bool) :
    .destroyed lock empty ∉ ctx.released := by
  obtain ⟨_ | socfd, _ | _, _ | _⟩ := ctx <;> simp [Context.released]

/-- `check_completed_threads` does its work only where there is none. -/
theorem removesCompleted_iff (hchain : Chain memory.link memory.head ids) :
    RemovesCompleted memory (checkCompletedThreads memory) ids ↔
      ∀ id ∈ ids, (memory.fields id).done = 0 := by
  have hnone : (∀ id ∈ ids, (memory.fields id).done = 0) ↔ ids.filter memory.isDone = [] := by
    simp only [List.filter_eq_nil_iff, Memory.isDone, decide_eq_true_eq, not_not]
  rw [hnone, checkCompletedThreads_eq]
  constructor
  · rintro ⟨actions, htrace, hjoins, -⟩
    obtain rfl : actions = [] := List.self_eq_append_right.mp htrace
    exact List.map_eq_nil_iff.mp hjoins.nil_eq.symm
  · intro hfilter
    have hall : ids.filter (fun id ↦ !memory.isDone id) = ids := by
      rw [List.filter_eq_self]
      intro id hid
      have hdone := List.filter_eq_nil_iff.mp hfilter id hid
      rw [Bool.not_eq_true] at hdone
      rw [hdone]
      rfl
    refine ⟨[], (List.append_nil _).symm, ?_, ?_, fun id ↦ List.not_mem_nil⟩
    · rw [hfilter]
      exact .nil
    · rw [hall]
      exact hchain

theorem closesAll_iff (ctx : Context) (hchain : Chain memory.link memory.head ids) :
    ClosesAll memory (closeconnection ctx memory).1 ids ↔ ids = [] := by
  rw [closeconnection_eq]
  constructor
  · rintro ⟨actions, -, -, -, hhead, -⟩
    cases ids with
    | nil => rfl
    | cons first rest => exact absurd (hchain.1.symm.trans hhead) (Option.some_ne_none first)
  · rintro rfl
    have hempty : slistEmpty memory = true := Option.isNone_iff_eq_none.mpr hchain
    obtain ⟨hjoins, hcancels⟩ := quiet_released ctx
    rw [hempty]
    refine ⟨_, rfl, ?_, ?_, hchain, fun lock hmem ↦ ?_⟩
    · rw [cancels_append, hcancels]
      exact .nil
    · rw [joins_append, hjoins]
      exact .nil
    · rw [List.mem_append, or_iff_right (destroyed_notMem_released ctx lock false)] at hmem
      simp at hmem

end Guarded

/-- **When finished and remaining connections are removed.** For every list
`check_completed_threads` joins and removes the nodes that are done exactly when none is, and
`closeconnection` cancels, joins and removes all nodes exactly when the list is empty. -/
theorem removes_iff_nothing_to_remove {memory : Memory} {ids : List ℕ}
    (hchain : Chain memory.link memory.head ids) (ctx : Context) :
    (RemovesCompleted memory (checkCompletedThreads memory) ids ↔
        ∀ id ∈ ids, (memory.fields id).done = 0) ∧
      (ClosesAll memory (closeconnection ctx memory).1 ids ↔ ids = []) ∧
      (RemovesCompleted memory (checkCompletedThreads memory) ids ∧
          ClosesAll memory (closeconnection ctx memory).1 ids ↔ ids = []) := by
  have hremoves := removesCompleted_iff hchain
  have hcloses := closesAll_iff ctx hchain
  refine ⟨hremoves, hcloses, fun hboth ↦ hcloses.mp hboth.2, ?_⟩
  rintro rfl
  exact ⟨hremoves.mpr fun id hid ↦ absurd hid List.not_mem_nil, hcloses.mpr rfl⟩

/-- A server that listens on a socket and has released the rest. -/
def Context.listening : Context := ⟨some 3, false, false⟩

def threeConnections (done : ℕ → ℤ) : Memory where
  node := fun id ↦ if id < 3 then
    some { Connection.zeroed with
      done := done id, pid := id + 1, next := if id = 0 then none else some (id - 1) } else none
  fresh := 3
  head := some 2
  trace := []

theorem threeConnections_chain (done : ℕ → ℤ) :
    Chain (threeConnections done).link (threeConnections done).head [2, 1, 0] :=
  ⟨rfl, _, rfl, rfl, _, rfl, rfl, _, rfl, rfl⟩

/-- With the middle one of three workers done neither function does its work; with none done
`check_completed_threads` does, and on the empty list so does `closeconnection`. -/
theorem removes_iff_nothing_to_remove_three :
    (¬ RemovesCompleted (threeConnections fun id ↦ if id = 1 then 1 else 0)
          (checkCompletedThreads (threeConnections fun id ↦ if id = 1 then 1 else 0)) [2, 1, 0] ∧
        ¬ ClosesAll (threeConnections fun id ↦ if id = 1 then 1 else 0)
          (closeconnection .listening (threeConnections fun id ↦ if id = 1 then 1 else 0)).1
          [2, 1, 0]) ∧
      RemovesCompleted (threeConnections fun _ ↦ 0)
        (checkCompletedThreads (threeConnections fun _ ↦ 0)) [2, 1, 0] ∧
      ClosesAll ⟨fun _ ↦ none, 0, none, []⟩
        (closeconnection .listening ⟨fun _ ↦ none, 0, none, []⟩).1 [] := by
  have hmixed := removes_iff_nothing_to_remove
    (threeConnections_chain fun id ↦ if id = 1 then 1 else 0) Context.listening
  have hbusy := removes_iff_nothing_to_remove (threeConnections_chain fun _ ↦ 0) Context.listening
  have hempty := removes_iff_nothing_to_remove
    (chain_nil : Chain (Memory.link ⟨fun _ ↦ none, 0, none, []⟩) none []) Context.listening
  refine ⟨?_, hbusy.1.mpr (by decide), hempty.2.1.mpr rfl⟩
  rw [hmixed.1, hmixed.2.1]
  decide

def oneCompleted : Memory where
  node := fun id ↦ if id = 0 then some { Connection.zeroed with done := 1, pid := 1 } else none
  fresh := 1
  head := some 0
  trace := []

/-- The worker that is done is not joined, and its node stays, also when the server is closed. -/
theorem completed_node_is_kept :
    ¬ ∀ (memory : Memory) (ids : List ℕ) (ctx : Context), Chain memory.link memory.head ids →
      RemovesCompleted memory (checkCompletedThreads memory) ids ∧
        ClosesAll memory (closeconnection ctx memory).1 ids := by
  intro hall
  have hchain : Chain oneCompleted.link oneCompleted.head [0] := ⟨rfl, none, rfl, rfl⟩
  obtain ⟨-, actions, -, -, -, hhead, -⟩ := hall oneCompleted [0] .listening hchain
  exact absurd hhead (by decide)

end Aesd.Server
