import Aesd.Server.Threads

/-!
# When a worker releases its node

While every step is harmless, the list is a chain of allocated nodes, and every worker was started
on one of them or on the node the accept loop has in hand. So a worker that releases its node either
takes it out of that hand, and then nobody may use it any more, or leaves the list with a dangling
pointer.
-/

namespace Aesd.Server

open Foundation

/-! ## What is known while all steps are harmless -/

/-- The node in the hand of the accept loop on which no worker has been started. -/
def AcceptPlace.unstarted : AcceptPlace → Option ℕ
  | .filling _ newthread => some newthread
  | .creating newthread => some newthread
  | _ => none

/-- The node in hand has no worker yet, or is about to be given its thread, or to be linked. -/
theorem AcceptPlace.eq_of_hand {place : AcceptPlace} {id : ℕ} (h : place.hand = some id) :
    place.unstarted = some id ∨ (∃ threadId, place = .storing threadId id) ∨
      place = .inserting id := by
  cases place with
  | filling acceptfd newthread => exact Or.inl h
  | creating newthread => exact Or.inl h
  | storing threadId newthread =>
    obtain rfl : newthread = id := Option.some.inj h
    exact Or.inr (Or.inl ⟨threadId, rfl⟩)
  | inserting newthread =>
    obtain rfl : newthread = id := Option.some.inj h
    exact Or.inr (Or.inr rfl)
  | _ => exact absurd h.symm (Option.some_ne_none id)

/-- How often a worker that has come to a place has closed the descriptor of its node. -/
def closes : Option WorkerPlace → ℕ
  | some .closingStream => 1
  | some .marking => 1
  | some .freeing => 1
  | some .finished => 1
  | _ => 0

def frees : Option WorkerPlace → ℕ
  | some .finished => 1
  | _ => 0

theorem closes_le_one (place : Option WorkerPlace) : closes place ≤ 1 := by
  unfold closes
  split <;> decide

theorem frees_le_one (place : Option WorkerPlace) : frees place ≤ 1 := by
  unfold frees
  split <;> decide

/-- Only allocated nodes were accessed, and descriptors closed and nodes released as often as the
places of the workers say. -/
structure Recorded (trace : List Action) (worker : ℕ → Option WorkerPlace) : Prop where
  touched : ∀ id, .touched id false ∉ trace
  freed : ∀ id, trace.count (.freed id) = frees (worker id)
  closed : ∀ id, trace.count (.closed id) = closes (worker id)

/-- The list runs through allocated nodes, every worker was started on one of them or on the node
in the hand of the accept loop, and a node is allocated until its worker has finished. -/
structure Tracked (state : Process) : Prop where
  chain : ∃ ids, Chain state.memory.link state.memory.head ids ∧
    (∀ id, state.worker id ≠ none → id ∈ ids ∨ state.accept.hand = some id) ∧
    ∀ id ∈ ids, state.accept.hand ≠ some id
  hand : ∀ id, state.accept.hand = some id → id < state.memory.fresh
  unstarted : ∀ id, state.accept.unstarted = some id → state.worker id = none
  allocated : ∀ id, state.memory.link id ≠ none ↔
    id < state.memory.fresh ∧ state.worker id ≠ some .finished
  recorded : Recorded state.memory.trace state.worker

theorem Tracked.started : Tracked Process.started where
  chain := ⟨[], chain_nil, fun _ hworker ↦ absurd rfl hworker,
    fun _ hmem ↦ absurd hmem List.not_mem_nil⟩
  hand := fun _ hhand ↦ absurd hhand.symm (Option.some_ne_none _)
  unstarted := fun _ hhand ↦ absurd hhand.symm (Option.some_ne_none _)
  allocated := fun id ↦
    ⟨fun hlink ↦ absurd rfl hlink, fun hboth ↦ absurd hboth.1 (Nat.not_lt_zero id)⟩
  recorded := ⟨fun _ ↦ List.not_mem_nil, fun _ ↦ rfl, fun _ ↦ rfl⟩

theorem Tracked.safe {state : Process} (h : Tracked state) : Safe state where
  linked id hlinked := by
    obtain ⟨ids, hchain, -⟩ := h.chain
    rw [isSome_node_iff]
    exact hchain.allocated (hchain.mem_of_linked hlinked)
  touched := h.recorded.touched
  freed id := h.recorded.freed id ▸ frees_le_one _
  closed id := h.recorded.closed id ▸ closes_le_one _

/-! ## Traces -/

section Traces

variable {trace actions : List Action} {worker : ℕ → Option WorkerPlace} {params : ℕ}
  {before : Option WorkerPlace} {place : WorkerPlace}

/-- Accesses to allocated nodes leave the record as it is. -/
theorem Recorded.touching (h : Recorded trace worker)
    (hactions : ∀ action ∈ actions, ∃ id, action = .touched id true) :
    Recorded (trace ++ actions) worker := by
  have habsent : ∀ {action : Action}, (∀ id, action ≠ .touched id true) → action ∉ actions := by
    intro action hother hmem
    obtain ⟨id, hid⟩ := hactions _ hmem
    exact hother id hid
  constructor
  case touched =>
    intro id
    rw [List.mem_append, not_or]
    exact ⟨h.touched id, habsent (by simp)⟩
  case freed =>
    intro id
    rw [List.count_append, List.count_eq_zero_of_not_mem (habsent (by simp))]
    exact h.freed id
  case closed =>
    intro id
    rw [List.count_append, List.count_eq_zero_of_not_mem (habsent (by simp))]
    exact h.closed id

/-- With these actions a worker comes from one place to another: it accesses allocated nodes only,
and closes and releases nothing but what is its own. -/
structure Advances (params : ℕ) (before : Option WorkerPlace) (place : WorkerPlace)
    (actions : List Action) : Prop where
  touched : ∀ id, .touched id false ∉ actions
  freed : frees before + actions.count (.freed params) = frees (some place)
  closed : closes before + actions.count (.closed params) = closes (some place)
  others : ∀ id, id ≠ params → .freed id ∉ actions ∧ .closed id ∉ actions

/-- A worker that has only accessed its node. -/
theorem advances_touching (hactions : ∀ action ∈ actions, action = .touched params true)
    (hfrees : frees before = frees (some place)) (hcloses : closes before = closes (some place)) :
    Advances params before place actions := by
  have habsent : ∀ {action : Action}, action ≠ .touched params true → action ∉ actions :=
    fun hother hmem ↦ hother (hactions _ hmem)
  constructor
  case touched => exact fun id ↦ habsent (by simp)
  case freed => rw [List.count_eq_zero_of_not_mem (habsent (by simp)), hfrees, Nat.add_zero]
  case closed => rw [List.count_eq_zero_of_not_mem (habsent (by simp)), hcloses, Nat.add_zero]
  case others => exact fun id _ ↦ ⟨habsent (by simp), habsent (by simp)⟩

/-- The record follows the worker. -/
theorem Recorded.advance (h : Recorded trace worker)
    (hadvances : Advances params (worker params) place actions) :
    Recorded (trace ++ actions) (Function.update worker params (some place)) := by
  constructor
  case touched =>
    intro id
    rw [List.mem_append, not_or]
    exact ⟨h.touched id, hadvances.touched id⟩
  case freed =>
    intro id
    rw [List.count_append, h.freed]
    by_cases hid : id = params
    · rw [hid, Function.update_self, hadvances.freed]
    · rw [Function.update_of_ne hid, List.count_eq_zero_of_not_mem (hadvances.others id hid).1,
        Nat.add_zero]
  case closed =>
    intro id
    rw [List.count_append, h.closed]
    by_cases hid : id = params
    · rw [hid, Function.update_self, hadvances.closed]
    · rw [Function.update_of_ne hid, List.count_eq_zero_of_not_mem (hadvances.others id hid).2,
        Nat.add_zero]

end Traces

section Extends

/-- The memory after some actions, none of which changes a pointer or releases a node. -/
structure Extends (before after : Memory) (actions : List Action) : Prop where
  link : after.link = before.link
  fresh : after.fresh = before.fresh
  head : after.head = before.head
  trace : after.trace = before.trace ++ actions

variable {before after last : Memory} {actions later : List Action} {id : ℕ}

theorem Extends.refl (memory : Memory) : Extends memory memory [] :=
  ⟨rfl, rfl, rfl, (List.append_nil _).symm⟩

theorem Extends.trans (hfirst : Extends before after actions) (hsecond : Extends after last later) :
    Extends before last (actions ++ later) where
  link := hsecond.link.trans hfirst.link
  fresh := hsecond.fresh.trans hfirst.fresh
  head := hsecond.head.trans hfirst.head
  trace := by rw [hsecond.trace, hfirst.trace, List.append_assoc]

theorem extends_record (memory : Memory) (action : Action) :
    Extends memory (memory.record action) [action] := ⟨rfl, rfl, rfl, rfl⟩

theorem extends_touch {memory : Memory} (hallocated : memory.link id ≠ none) :
    Extends memory (memory.touch id) [.touched id true] := by
  rw [← isSome_node_iff] at hallocated
  rw [Memory.touch, hallocated]
  exact extends_record memory _

/-- A store that leaves the pointer of the node alone. -/
theorem extends_modify {memory : Memory} (hallocated : memory.link id ≠ none)
    {f : Connection → Connection} (hnext : ∀ conn, (f conn).next = conn.next) :
    Extends memory (memory.modify id f) [.touched id true] := by
  have htouch := extends_touch hallocated
  exact ⟨memory.link_modify_of_keeps id hnext, rfl, rfl, htouch.trace⟩

theorem extends_touch_modify {memory : Memory} (hallocated : memory.link id ≠ none)
    {f : Connection → Connection} (hnext : ∀ conn, (f conn).next = conn.next) :
    Extends memory ((memory.touch id).modify id f) ([.touched id true] ++ [.touched id true]) := by
  have hstill : (memory.touch id).link id ≠ none := hallocated
  exact (extends_touch hallocated).trans (extends_modify hstill hnext)

end Extends

/-! ## Steps of a worker -/

section Worker

variable {state : Process} {params : ℕ} {place place' : WorkerPlace}

/-- A worker other than a finished one has its node. -/
theorem Tracked.allocated_of_worker (h : Tracked state) (hplace : state.worker params = some place)
    (hne : place ≠ .finished) : state.memory.link params ≠ none := by
  have hsome : state.worker params ≠ none := hplace ▸ Option.some_ne_none place
  obtain ⟨ids, hchain, hplaced, -⟩ := h.chain
  rcases hplaced params hsome with hmem | hhand
  · exact hchain.allocated hmem
  · rw [h.allocated, hplace]
    exact ⟨h.hand params hhand, fun heq ↦ hne (Option.some.inj heq)⟩

/-- A worker goes on, or is started on the node in hand, and releases nothing. -/
theorem Tracked.go (h : Tracked state)
    (hknown : state.worker params ≠ none ∨ state.accept.hand = some params)
    (hstarted : state.accept.unstarted ≠ some params)
    (hbefore : state.worker params ≠ some .finished) (hafter : place ≠ .finished) {memory : Memory}
    {actions : List Action} (hextends : Extends state.memory memory actions)
    (hadvances : Advances params (state.worker params) place actions) (mutex : Option ℕ) :
    Tracked ({ state with memory := memory, mutex := mutex }.go params place) := by
  constructor
  case chain =>
    obtain ⟨ids, hchain, hplaced, hapart⟩ := h.chain
    refine ⟨ids, hextends.head ▸ hextends.link ▸ hchain, fun id hworker ↦ ?_, hapart⟩
    by_cases hid : id = params
    · rcases hknown with hsome | hhand
      · exact hid ▸ hplaced params hsome
      · exact Or.inr (hid ▸ hhand)
    · rw [Process.worker_go_of_ne _ _ hid] at hworker
      exact hplaced id hworker
  case hand => exact fun id hhand ↦ hextends.fresh ▸ h.hand id hhand
  case unstarted =>
    intro id hid
    have hne : id ≠ params := fun heq ↦ hstarted (heq ▸ hid)
    rw [Process.worker_go_of_ne _ _ hne]
    exact h.unstarted id hid
  case allocated =>
    intro id
    have hkept : (state.go params place).worker id ≠ some .finished ↔
        state.worker id ≠ some .finished := by
      by_cases hid : id = params
      · rw [hid, Process.worker_go_self]
        exact ⟨fun _ ↦ hbefore, fun _ heq ↦ hafter (Option.some.inj heq)⟩
      · rw [Process.worker_go_of_ne _ _ hid]
    change memory.link id ≠ none ↔ id < memory.fresh ∧ (state.go params place).worker id ≠ _
    rw [hextends.link, hextends.fresh, hkept]
    exact h.allocated id
  case recorded =>
    change Recorded memory.trace _
    rw [hextends.trace]
    exact h.recorded.advance hadvances

/-- A worker that releases its node, which is still in the hand of the accept loop. -/
theorem Tracked.finish (h : Tracked state) (hplace : state.worker params = some .freeing)
    (hhand : state.accept.hand = some params) :
    Tracked ({ state with memory := state.memory.free params }.go params .finished) := by
  have hself := state.worker_go_self params .finished
  have hsome : state.worker params ≠ none := hplace ▸ Option.some_ne_none _
  constructor
  case chain =>
    obtain ⟨ids, hchain, hplaced, hapart⟩ := h.chain
    refine ⟨ids, hchain.congr fun id hid ↦ ?_, fun id hworker ↦ ?_, hapart⟩
    · have hne : id ≠ params := fun heq ↦ hapart id hid (heq ▸ hhand)
      exact (congrFun (state.memory.link_free params) id).trans (Function.update_of_ne hne _ _)
    · by_cases hid : id = params
      · exact Or.inr (hid ▸ hhand)
      · rw [Process.worker_go_of_ne _ _ hid] at hworker
        exact hplaced id hworker
  case hand => exact h.hand
  case unstarted =>
    intro id hid
    have hne : id ≠ params := fun heq ↦ hsome (h.unstarted params (heq ▸ hid))
    rw [Process.worker_go_of_ne _ _ hne]
    exact h.unstarted id hid
  case allocated =>
    intro id
    change (state.memory.free params).link id ≠ none ↔
      id < state.memory.fresh ∧ (state.go params .finished).worker id ≠ _
    rw [state.memory.link_free]
    by_cases hid : id = params
    · rw [hid, Function.update_self]
      exact ⟨fun hlink ↦ absurd rfl hlink, fun hboth ↦ absurd hself hboth.2⟩
    · rw [Function.update_of_ne hid, Process.worker_go_of_ne _ _ hid]
      exact h.allocated id
  case recorded =>
    apply h.recorded.advance
    rw [hplace]
    exact ⟨by simp, by simp [frees], by simp [closes], fun id hid ↦ by simp [hid]⟩

theorem Tracked.goFrom (h : Tracked state) (hplace : state.worker params = some place)
    (hne : place ≠ .finished) {memory : Memory} {actions : List Action}
    (hextends : Extends state.memory memory actions)
    (hadvances : Advances params (some place) place' actions) (hafter : place' ≠ .finished)
    (mutex : Option ℕ) :
    Tracked ({ state with memory := memory, mutex := mutex }.go params place') := by
  have hknown : state.worker params ≠ none := hplace ▸ Option.some_ne_none place
  have hbefore : state.worker params ≠ some .finished :=
    fun heq ↦ hne (Option.some.inj (hplace.symm.trans heq))
  apply h.go (Or.inl hknown) _ hbefore hafter hextends (hplace ▸ hadvances)
  exact fun heq ↦ hknown (h.unstarted params heq)

/-- A worker goes on and has only accessed its node. -/
theorem Tracked.goTouching (h : Tracked state) (hplace : state.worker params = some place)
    (hne : place ≠ .finished) (place' : WorkerPlace) (hafter : place' ≠ .finished)
    (hfrees : frees (some place) = frees (some place'))
    (hcloses : closes (some place) = closes (some place')) {memory : Memory}
    {actions : List Action} (hextends : Extends state.memory memory actions)
    (hactions : ∀ action ∈ actions, action = .touched params true) (mutex : Option ℕ) :
    Tracked ({ state with memory := memory, mutex := mutex }.go params place') :=
  h.goFrom hplace hne hextends (advances_touching hactions hfrees hcloses) hafter mutex

/-- A step of a worker, unless it releases a node that is linked. -/
theorem Tracked.stepWorker (h : Tracked state) (succeeds : Bool)
    (hharmless : state.worker params = some .freeing → state.accept.hand = some params) :
    Tracked (workerStep state params succeeds) := by
  cases hplace : state.worker params with
  | none =>
    simp only [workerStep, hplace]
    exact h
  | some place =>
    by_cases hne : place = .finished
    · simp only [workerStep, hplace, hne]
      exact h
    have hallocated := h.allocated_of_worker hplace hne
    have htouch := extends_touch hallocated
    have hnothing := Extends.refl state.memory
    cases place with
    | entered =>
      simp only [workerStep, hplace]
      have hopened := extends_touch_modify hallocated
        (f := fun conn ↦ { conn with ostream := succeeds }) fun _ ↦ rfl
      cases succeeds with
      | true => exact h.goTouching hplace hne .opened (by decide) rfl rfl hopened (by simp) _
      | false => exact h.goTouching hplace hne .returned (by decide) rfl rfl hopened (by simp) _
    | opened =>
      simp only [workerStep, hplace]
      cases succeeds with
      | true => exact h.goTouching hplace hne .buffered (by decide) rfl rfl hnothing (by simp) _
      | false => exact h.goTouching hplace hne .returned (by decide) rfl rfl hnothing (by simp) _
    | buffered =>
      simp only [workerStep, hplace]
      exact h.goTouching hplace hne .locking (by decide) rfl rfl htouch (by simp) _
    | locking =>
      simp only [workerStep, hplace]
      split
      · exact h.goTouching hplace hne .receiving (by decide) rfl rfl hnothing (by simp) _
      · exact h
    | receiving =>
      simp only [workerStep, hplace]
      cases succeeds with
      | true => exact h.goTouching hplace hne .receiving (by decide) rfl rfl htouch (by simp) _
      | false => exact h.goTouching hplace hne .unlocking (by decide) rfl rfl htouch (by simp) _
    | unlocking =>
      simp only [workerStep, hplace]
      exact h.goTouching hplace hne .closing (by decide) rfl rfl hnothing (by simp) _
    | closing =>
      simp only [workerStep, hplace]
      have hclosed := htouch.trans (extends_record _ (.closed params))
      apply h.goFrom hplace hne hclosed _ (by decide)
      exact ⟨by simp, by simp [frees], by simp [closes], fun id hid ↦ by simp [hid]⟩
    | closingStream =>
      simp only [workerStep, hplace]
      have hclosed := htouch.trans (extends_record _ (.closedStream params))
      apply h.goFrom hplace hne hclosed _ (by decide)
      exact ⟨by simp, by simp [frees], by simp [closes], by simp⟩
    | marking =>
      simp only [workerStep, hplace]
      have hmarked := extends_touch_modify hallocated
        (f := fun conn ↦ { conn with done := 1 }) fun _ ↦ rfl
      exact h.goTouching hplace hne .freeing (by decide) rfl rfl hmarked (by simp) _
    | freeing =>
      simp only [workerStep, hplace]
      exact h.finish hplace (hharmless hplace)
    | returned =>
      simp only [workerStep, hplace]
      exact h
    | finished => exact absurd rfl hne

end Worker

/-! ## Steps of the accept loop -/

section Accept

variable {state : Process} {newthread : ℕ}

/-- The accept loop goes on with the node it has in hand, or without one, and has only accessed
allocated nodes. -/
theorem Tracked.goOn (h : Tracked state) {accept : AcceptPlace}
    (hhand : accept.hand = state.accept.hand)
    (hunstarted : ∀ id, accept.unstarted = some id → state.accept.unstarted = some id)
    {memory : Memory} {actions : List Action} (hextends : Extends state.memory memory actions)
    (hactions : ∀ action ∈ actions, ∃ id, action = .touched id true) :
    Tracked { state with memory := memory, accept := accept } := by
  constructor
  case chain =>
    obtain ⟨ids, hchain, hplaced, hapart⟩ := h.chain
    refine ⟨ids, hextends.head ▸ hextends.link ▸ hchain, ?_, ?_⟩
    · exact fun id hworker ↦ hhand ▸ hplaced id hworker
    · exact fun id hid ↦ hhand ▸ hapart id hid
  case hand => exact fun id hid ↦ hextends.fresh ▸ h.hand id (hhand ▸ hid)
  case unstarted => exact fun id hid ↦ h.unstarted id (hunstarted id hid)
  case allocated => exact fun id ↦ hextends.link ▸ hextends.fresh ▸ h.allocated id
  case recorded => exact hextends.trace ▸ h.recorded.touching hactions

theorem Tracked.create (h : Tracked state) (hempty : state.accept.hand = none) (acceptfd : ℤ)
    (garbage : Connection) :
    Tracked { state with
      memory := (newElement state.memory true garbage).1
      accept := .filling acceptfd state.memory.fresh } := by
  have hlink : (newElement state.memory true garbage).1.link =
      Function.update state.memory.link state.memory.fresh (some garbage.next) :=
    link_update state.memory state.memory.fresh (some { garbage with done := 0, pid := 0 })
  have hnever : state.worker state.memory.fresh = none := by
    by_contra hworker
    obtain ⟨ids, hchain, hplaced, -⟩ := h.chain
    rcases hplaced _ hworker with hmem | hhand
    · exact absurd ((h.allocated _).mp (hchain.allocated hmem)).1 (Nat.lt_irrefl _)
    · exact absurd (h.hand _ hhand) (Nat.lt_irrefl _)
  constructor
  case chain =>
    obtain ⟨ids, hchain, hplaced, -⟩ := h.chain
    have hold : ∀ id ∈ ids, id ≠ state.memory.fresh := fun id hid ↦
      Nat.ne_of_lt ((h.allocated id).mp (hchain.allocated hid)).1
    refine ⟨ids, hchain.congr fun id hid ↦ ?_, fun id hworker ↦ ?_, fun id hid hhand ↦ ?_⟩
    · exact hlink ▸ Function.update_of_ne (hold id hid) _ _
    · rcases hplaced id hworker with hmem | hhand
      · exact Or.inl hmem
      · exact absurd (hempty.symm.trans hhand) (Option.some_ne_none id).symm
    · exact hold id hid (Option.some.inj hhand).symm
  case hand => exact fun id hhand ↦ Option.some.inj hhand ▸ Nat.lt_succ_self _
  case unstarted => exact fun id hhand ↦ Option.some.inj hhand ▸ hnever
  case allocated =>
    intro id
    change (newElement state.memory true garbage).1.link id ≠ none ↔
      id < state.memory.fresh + 1 ∧ state.worker id ≠ _
    rw [hlink]
    by_cases hid : id = state.memory.fresh
    · rw [hid, Function.update_self, hnever]
      simp
    · have hlt : id < state.memory.fresh + 1 ↔ id < state.memory.fresh := by omega
      rw [Function.update_of_ne hid, hlt]
      exact h.allocated id
  case recorded => exact h.recorded

theorem Tracked.insert (h : Tracked state) (haccept : state.accept = .inserting newthread)
    (hworker : state.worker newthread ≠ some .finished) :
    Tracked { state with
      memory := slistInsertHead state.memory newthread, accept := .checking } := by
  have hhand : state.accept.hand = some newthread := by rw [haccept]; rfl
  have hallocated : state.memory.link newthread ≠ none :=
    (h.allocated newthread).mpr ⟨h.hand newthread hhand, hworker⟩
  have hlink : (slistInsertHead state.memory newthread).link =
      Function.update state.memory.link newthread (some state.memory.head) := by
    obtain ⟨conn, hconn⟩ := Option.isSome_iff_exists.mp ((isSome_node_iff _ _).mpr hallocated)
    refine (state.memory.link_modify newthread fun conn ↦
      { conn with next := state.memory.head }).trans ?_
    rw [hconn]
    rfl
  constructor
  case chain =>
    obtain ⟨ids, hchain, hplaced, hapart⟩ := h.chain
    have hkept : Chain (slistInsertHead state.memory newthread).link state.memory.head ids := by
      apply hchain.congr
      intro id hid
      have hne : id ≠ newthread := fun heq ↦ hapart id hid (heq ▸ hhand)
      rw [hlink, Function.update_of_ne hne]
    refine ⟨newthread :: ids, hkept.cons ?_, fun id hid ↦ Or.inl ?_, fun id _ hid ↦ ?_⟩
    · rw [hlink, Function.update_self]
    · rcases hplaced id hid with hmem | hid
      · exact List.mem_cons_of_mem _ hmem
      · exact Option.some.inj (hhand.symm.trans hid) ▸ List.mem_cons_self
    · exact absurd hid.symm (Option.some_ne_none id)
  case hand => exact fun id hid ↦ absurd hid.symm (Option.some_ne_none id)
  case unstarted => exact fun id hid ↦ absurd hid.symm (Option.some_ne_none id)
  case allocated =>
    intro id
    change (slistInsertHead state.memory newthread).link id ≠ none ↔ _
    rw [hlink]
    refine Iff.trans ?_ (h.allocated id)
    by_cases hid : id = newthread
    · rw [hid, Function.update_self]
      exact ⟨fun _ ↦ hallocated, fun _ ↦ Option.some_ne_none _⟩
    · rw [Function.update_of_ne hid]
  case recorded =>
    have htrace : (slistInsertHead state.memory newthread).trace =
        state.memory.trace ++ [.touched newthread true] := (extends_touch hallocated).trace
    change Recorded (slistInsertHead state.memory newthread).trace state.worker
    rw [htrace]
    exact h.recorded.touching (by simp)

/-- A step of the accept loop, unless it goes on with a node its worker has released. -/
theorem Tracked.stepAccept (h : Tracked state) (answer : Answer)
    (hharmless : ∀ id, state.accept.hand = some id → state.worker id ≠ some .finished) :
    Tracked (acceptStep state answer) := by
  have hnothing := Extends.refl state.memory
  have hmodify : ∀ {newthread : ℕ} {f : Connection → Connection},
      state.accept.hand = some newthread → (∀ conn, (f conn).next = conn.next) →
      Extends state.memory (state.memory.modify newthread f) [.touched newthread true] := by
    intro newthread f hhand hnext
    apply extends_modify _ hnext
    exact (h.allocated newthread).mpr ⟨h.hand newthread hhand, hharmless newthread hhand⟩
  cases haccept : state.accept with
  | accepting =>
    simp only [acceptStep, haccept]
    split
    · exact h
    · exact h.goOn (by rw [haccept]; rfl) (fun _ hid ↦ absurd hid.symm (Option.some_ne_none _))
        hnothing (by simp)
  | allocating acceptfd =>
    cases hallocated : answer.allocated with
    | true =>
      simp only [acceptStep, haccept, newElement, hallocated, if_true]
      exact h.create (by rw [haccept]; rfl) acceptfd answer.garbage
    | false =>
      simp only [acceptStep, haccept, newElement, hallocated, Bool.false_eq_true, if_false]
      exact h.goOn (by rw [haccept]; rfl) (fun _ hid ↦ absurd hid.symm (Option.some_ne_none _))
        hnothing (by simp)
  | filling acceptfd newthread =>
    simp only [acceptStep, haccept]
    refine h.goOn (by rw [haccept]; rfl) ?_ (hmodify (by rw [haccept]; rfl) ?_) (by simp)
    · intro id hid
      rw [haccept]
      exact hid
    · exact fun _ ↦ rfl
  | creating newthread =>
    -- an error number is never negative, so the thread is taken to have been created
    have hpositive : ¬ (answer.error : ℤ) < 0 := Int.not_lt.mpr (Int.natCast_nonneg _)
    have hstored : Tracked { state with accept := .storing answer.threadId newthread } :=
      h.goOn (by rw [haccept]; rfl) (fun _ hid ↦ absurd hid.symm (Option.some_ne_none _))
        hnothing (by simp)
    simp only [acceptStep, haccept, hpositive, if_false]
    split
    · have hnone : state.worker newthread = none := h.unstarted newthread (by rw [haccept]; rfl)
      have hadvances : Advances newthread (state.worker newthread) .entered [] :=
        advances_touching (by simp) (by rw [hnone]; rfl) (by rw [hnone]; rfl)
      have hbefore : state.worker newthread ≠ some .finished := by
        rw [hnone]
        exact (Option.some_ne_none _).symm
      exact hstored.go (Or.inr rfl) (Option.some_ne_none _).symm hbefore (by decide) hnothing
        hadvances state.mutex
    · exact hstored
  | storing threadId newthread =>
    simp only [acceptStep, haccept]
    refine h.goOn (by rw [haccept]; rfl) ?_ (hmodify (by rw [haccept]; rfl) ?_) (by simp)
    · exact fun _ hid ↦ absurd hid.symm (Option.some_ne_none _)
    · exact fun _ ↦ rfl
  | inserting newthread =>
    simp only [acceptStep, haccept]
    exact h.insert haccept (hharmless newthread (by rw [haccept]; rfl))
  | checking =>
    simp only [acceptStep, haccept, checkCompletedThreads_eq]
    exact h.goOn (by rw [haccept]; rfl) (fun _ hid ↦ absurd hid.symm (Option.some_ne_none _))
      hnothing (by simp)
  | crashed =>
    simp only [acceptStep, haccept]
    exact h

end Accept

/-! ## Runs -/

/-- **Every harmless step keeps what is known.** -/
theorem Tracked.next {state : Process} (h : Tracked state) {turn : Turn}
    (hharmless : Harmless state turn) : Tracked (process.next state turn) := by
  by_cases hcrashed : state.accept = .crashed
  · rw [process_next_crashed hcrashed]
    exact h
  cases turn with
  | accept answer =>
    rw [process_next_accept hcrashed]
    exact h.stepAccept answer hharmless
  | worker params succeeds =>
    rw [process_next_worker hcrashed]
    exact h.stepWorker succeeds (hharmless hcrashed)

/-- A worker that releases a linked node leaves it linked. -/
theorem Tracked.not_safe_of_finish {state : Process} (h : Tracked state) {params : ℕ}
    (hplace : state.worker params = some .freeing) (hhand : state.accept.hand ≠ some params)
    (succeeds : Bool) : ¬ Safe (workerStep state params succeeds) := by
  intro hsafe
  simp only [workerStep, hplace] at hsafe
  obtain ⟨ids, hchain, hplaced, -⟩ := h.chain
  have hmem : params ∈ ids := by
    have hsome : state.worker params ≠ none := hplace ▸ Option.some_ne_none _
    exact (hplaced params hsome).resolve_right hhand
  have hlinked : Linked (state.memory.free params).link state.memory.head params := by
    apply (hchain.linked hmem).of_ne
    intro other hother
    rw [state.memory.link_free, Function.update_of_ne hother]
  have hallocated := hsafe.linked params hlinked
  rw [isSome_node_iff] at hallocated
  apply hallocated
  exact (congrFun (state.memory.link_free params) params).trans (Function.update_self ..)

/-- The accept loop that goes on with a node its worker has released accesses it. -/
theorem Tracked.not_safe_of_released {state : Process} (h : Tracked state) {newthread : ℕ}
    (hhand : state.accept.hand = some newthread)
    (hworker : state.worker newthread = some .finished) (answer : Answer) :
    ¬ Safe (acceptStep state answer) := by
  have hreleased : (state.memory.node newthread).isSome = false := by
    rw [← Bool.not_eq_true, isSome_node_iff, h.allocated]
    exact fun hboth ↦ hboth.2 hworker
  have hstray : ∀ f, .touched newthread false ∈ (state.memory.modify newthread f).trace := by
    intro f
    apply List.mem_append_right
    rw [hreleased]
    exact List.mem_singleton_self _
  intro hsafe
  rcases AcceptPlace.eq_of_hand hhand with hunstarted | ⟨threadId, hstoring⟩ | hinserting
  · rw [h.unstarted newthread hunstarted] at hworker
    exact absurd hworker.symm (Option.some_ne_none _)
  · simp only [acceptStep, hstoring] at hsafe
    exact hsafe.touched newthread (hstray _)
  · simp only [acceptStep, hinserting] at hsafe
    exact hsafe.touched newthread (hstray fun conn ↦ { conn with next := state.memory.head })

/-- **When the list stays safe.** In every run of the accept loop and its workers every state is
safe if and only if no worker releases its node after the accept loop has linked it, and the accept
loop never goes on with a node that its worker has released before. -/
theorem safe_iff_harmless (turns : List Turn) :
    process.Always Safe Process.started turns ↔ process.Meets Harmless Process.started turns := by
  apply Machine.always_iff_meets (fun _ _ htracked hharmless ↦ Tracked.next htracked hharmless)
  · intro state turn htracked _
    refine ⟨fun hsafe ↦ ?_, fun hharmless ↦ (htracked.next hharmless).safe⟩
    cases turn with
    | accept answer =>
      intro id hhand hworker
      have hrunning : state.accept ≠ .crashed := by
        intro hcrashed
        rw [hcrashed] at hhand
        exact absurd hhand.symm (Option.some_ne_none id)
      rw [process_next_accept hrunning] at hsafe
      exact htracked.not_safe_of_released hhand hworker answer hsafe
    | worker params succeeds =>
      intro hrunning hplace
      by_contra hhand
      rw [process_next_worker hrunning] at hsafe
      exact htracked.not_safe_of_finish hplace hhand succeeds hsafe
  · exact Tracked.started
  · exact Tracked.started.safe

def Answer.smooth : Answer := ⟨4, true, .zeroed, "", 0, 1⟩

/-- The turns of a worker whose client closes the connection at once. -/
def shortWorker : List Turn :=
  [.worker 0 true, .worker 0 true, .worker 0 true, .worker 0 true, .worker 0 false,
    .worker 0 true, .worker 0 true, .worker 0 true, .worker 0 true, .worker 0 true]

/-- A worker that runs after its node was linked leaves `head` dangling, and one that runs before
its identity is stored leaves the accept loop to write to a released node. -/
theorem finished_worker_is_unsafe :
    ¬ process.Always Safe Process.started (List.replicate 7 (.accept .smooth) ++ shortWorker) ∧
      ¬ process.Always Safe Process.started
        (List.replicate 4 (.accept .smooth) ++ shortWorker ++ [.accept .smooth]) := by
  constructor
  · intro halways
    have hlinked := halways.last.linked 0 (.first (by decide +kernel))
    exact absurd hlinked (by decide +kernel)
  · intro halways
    exact halways.last.touched 0 (by decide +kernel)

end Aesd.Server
