import Aesd.Foundation.Machine
import Mathlib.Data.List.Nodup
import Mathlib.Logic.Function.Basic

/-!
# Code under one lock

Threads run the same kind of code: something of their own first, then a piece under a lock that
all of them share, one step at a time, any thread's step between any two of another. The lock is
taken when it is free and released with a step of its own; a call may forget to release it.

Whatever the schedule, what happens is what happens when the threads take turns: each does its
whole call at once, in the order in which the lock was taken.
-/

namespace Aesd.Foundation

inductive CriticalSection.Outcome (Local Result : Type*) where
  | goesOn (place : Local)
  /-- the lock is released, and the call returns -/
  | releases (result : Result)
  /-- the call returns and has not released the lock -/
  | forgets (result : Result)

/-- Code of which a part runs under a lock. -/
structure CriticalSection (Shared Call Local Result : Type*) where
  /-- what a call does in front of the lock; it may return without it -/
  enter : Call → Local ⊕ Result
  /-- the next step under the lock -/
  step : Shared → Local → Shared × CriticalSection.Outcome Local Result

inductive Phase (Local Result : Type*) where
  | waiting
  | inside (place : Local)
  | returned (result : Result)

structure Contention (Thread Shared Local Result : Type*) where
  shared : Shared
  holder : Option Thread
  phase : Thread → Phase Local Result

namespace CriticalSection

variable {Thread Shared Call Local Result : Type*}

/-! ## One call alone -/

/-- From this place the code runs to the release of the lock, with nothing in between. -/
inductive Completes (code : CriticalSection Shared Call Local Result) :
    Shared → Local → Shared → Result → Prop where
  | last {shared shared' : Shared} {place : Local} {result : Result}
      (hstep : code.step shared place = (shared', .releases result)) :
      Completes code shared place shared' result
  | next {shared shared₁ shared' : Shared} {place place₁ : Local} {result : Result}
      (hstep : code.step shared place = (shared₁, .goesOn place₁))
      (hrest : Completes code shared₁ place₁ shared' result) :
      Completes code shared place shared' result

variable {code : CriticalSection Shared Call Local Result}

/-- A step under the lock leaves open how the call will end. -/
theorem completes_step_iff {shared shared₁ shared' : Shared} {place place₁ : Local}
    {result : Result} (hstep : code.step shared place = (shared₁, .goesOn place₁)) :
    code.Completes shared place shared' result ↔ code.Completes shared₁ place₁ shared' result := by
  constructor
  · intro h
    cases h with
    | last hlast => exact absurd (hstep.symm.trans hlast) (by simp)
    | next hnext hrest =>
      obtain ⟨rfl, hplace⟩ := Prod.mk.inj (hstep.symm.trans hnext)
      exact Outcome.goesOn.inj hplace ▸ hrest
  · exact .next hstep

theorem completes_last_iff {shared shared₁ shared' : Shared} {place : Local}
    {result result₁ : Result} (hstep : code.step shared place = (shared₁, .releases result₁)) :
    code.Completes shared place shared' result ↔ shared' = shared₁ ∧ result = result₁ := by
  constructor
  · intro h
    cases h with
    | last hlast =>
      obtain ⟨rfl, hresult⟩ := Prod.mk.inj (hstep.symm.trans hlast)
      exact ⟨rfl, (Outcome.releases.inj hresult).symm⟩
    | next hnext _ => exact absurd (hstep.symm.trans hnext) (by simp)
  · rintro ⟨rfl, rfl⟩
    exact .last hstep

/-- A call that forgets the lock does not come to release it. -/
theorem not_completes_of_forgets {shared shared₁ shared' : Shared} {place : Local}
    {result result₁ : Result} (hstep : code.step shared place = (shared₁, .forgets result₁)) :
    ¬ code.Completes shared place shared' result := by
  intro h
  cases h with
  | last hlast => exact absurd (hstep.symm.trans hlast) (by simp)
  | next hnext _ => exact absurd (hstep.symm.trans hnext) (by simp)

theorem not_completes_of_waits {shared shared' : Shared} {place : Local} {result : Result}
    (hstep : code.step shared place = (shared, .goesOn place)) :
    ¬ code.Completes shared place shared' result := by
  intro h
  induction h with
  | last hlast => exact absurd (hstep.symm.trans hlast) (by simp)
  | next hnext _ ih =>
    obtain ⟨rfl, hplace⟩ := Prod.mk.inj (hstep.symm.trans hnext)
    obtain rfl := Outcome.goesOn.inj hplace
    exact ih hstep

theorem Completes.unique {shared shared₁ shared₂ : Shared} {place : Local}
    {result₁ result₂ : Result} (h : code.Completes shared place shared₁ result₁)
    (hother : code.Completes shared place shared₂ result₂) :
    shared₂ = shared₁ ∧ result₂ = result₁ := by
  induction h with
  | last hstep => exact (completes_last_iff hstep).mp hother
  | next hstep _ ih => exact ih ((completes_step_iff hstep).mp hother)

/-- The machine does every call in one step, as the code does it when nothing comes in between. -/
structure Whole (code : CriticalSection Shared Call Local Result)
    (whole : Machine Shared Call Result) : Prop where
  returns : ∀ shared call result, code.enter call = .inr result →
    whole.step shared call = (shared, result)
  completes : ∀ shared call start shared' result, code.enter call = .inl start →
    code.Completes shared start shared' result → whole.step shared call = (shared', result)

def Ends (code : CriticalSection Shared Call Local Result) (call : Call) : Prop :=
  ∀ shared start, code.enter call = .inl start →
    ∃ shared' result, code.Completes shared start shared' result

/-- So a machine is the code done whole once it agrees with one way in which each call ends, if the
call ends at all. -/
theorem Whole.of_exists {whole : Machine Shared Call Result}
    (hreturns : ∀ shared call result, code.enter call = .inr result →
      whole.step shared call = (shared, result))
    (hcompletes : ∀ shared call start, code.enter call = .inl start →
      code.Completes shared start (whole.next shared call) (whole.emit shared call) ∨
        ∀ shared' result, ¬ code.Completes shared start shared' result) :
    code.Whole whole where
  returns := hreturns
  completes := by
    intro shared call start shared' result henter hcompletes'
    obtain ⟨hshared, hresult⟩ := ((hcompletes shared call start henter).resolve_right
      fun hnever ↦ hnever shared' result hcompletes').unique hcompletes'
    rw [hshared, hresult]
    rfl

/-! ## Many threads -/

section Contend

variable [DecidableEq Thread]

def waiting (shared : Shared) : Contention Thread Shared Local Result :=
  ⟨shared, none, fun _ ↦ .waiting⟩

/-- The next step of a thread. A thread that finds the lock taken stays where it is. -/
def advance (code : CriticalSection Shared Call Local Result) (calls : Thread → Call)
    (state : Contention Thread Shared Local Result) (thread : Thread) :
    Contention Thread Shared Local Result × Option Thread :=
  match state.phase thread with
  | .waiting =>
    match code.enter (calls thread) with
    | .inr result =>
      ({ state with phase := Function.update state.phase thread (.returned result) }, none)
    | .inl start =>
      if state.holder = none then
        ({ state with
            holder := some thread
            phase := Function.update state.phase thread (.inside start) }, some thread)
      else (state, none)
  | .inside place =>
    match code.step state.shared place with
    | (shared, .goesOn place) =>
      ({ state with
          shared := shared
          phase := Function.update state.phase thread (.inside place) }, none)
    | (shared, .releases result) =>
      (⟨shared, none, Function.update state.phase thread (.returned result)⟩, none)
    | (shared, .forgets result) =>
      ({ state with
          shared := shared
          phase := Function.update state.phase thread (.returned result) }, none)
  | .returned _ => (state, none)

/-- The threads under any schedule, each with its call. A step tells who has taken the lock with
it. -/
def contend (code : CriticalSection Shared Call Local Result) (calls : Thread → Call) :
    Machine (Contention Thread Shared Local Result) Thread (Option Thread) where
  step := code.advance calls

def lockOrder (code : CriticalSection Shared Call Local Result) (calls : Thread → Call)
    (state : Contention Thread Shared Local Result) (schedule : List Thread) : List Thread :=
  (code.contend calls).collect (fun _ taken ↦ taken.toList) state schedule

variable {whole : Machine Shared Call Result} {calls : Thread → Call} {initial : Shared}
  {state : Contention Thread Shared Local Result} {order : List Thread}

/-- How the holder of the lock stands to its call, begun at `start` in the state `since`: it is on
its way to the same end, or it has returned and never releases the lock. -/
inductive Holding (code : CriticalSection Shared Call Local Result) (since : Shared)
    (start : Local) (now : Shared) : Phase Local Result → Prop where
  | onItsWay {place : Local}
      (hsame : ∀ shared result,
        code.Completes since start shared result ↔ code.Completes now place shared result) :
      Holding code since start now (.inside place)
  | forgot {result : Result}
      (hnever : ∀ shared result, ¬ code.Completes since start shared result) :
      Holding code since start now (.returned result)

/-- What the threads have done is what the whole calls do one after the other, in the order in
which the lock was taken; the last of them may still hold it. -/
structure Serial (code : CriticalSection Shared Call Local Result)
    (whole : Machine Shared Call Result) (calls : Thread → Call) (initial : Shared)
    (state : Contention Thread Shared Local Result) (order : List Thread) : Prop where
  nodup : order.Nodup
  free : state.holder = none → state.shared = whole.run initial (order.map calls) ∧
    order.map state.phase = (whole.outputs initial (order.map calls)).map .returned
  held : ∀ thread, state.holder = some thread → ∃ before start,
    order = before ++ [thread] ∧
      before.map state.phase = (whole.outputs initial (before.map calls)).map .returned ∧
      code.enter (calls thread) = .inl start ∧
      code.Holding (whole.run initial (before.map calls)) start state.shared (state.phase thread)
  others : ∀ thread ∉ order, state.phase thread = .waiting ∨
    ∃ result, state.phase thread = .returned result ∧ code.enter (calls thread) = .inr result

omit [DecidableEq Thread] in
theorem Serial.waiting (code : CriticalSection Shared Call Local Result)
    (whole : Machine Shared Call Result) (calls : Thread → Call) (initial : Shared) :
    Serial code whole calls initial (CriticalSection.waiting initial) [] where
  nodup := List.nodup_nil
  free := fun _ ↦ ⟨rfl, rfl⟩
  held := fun _ hholder ↦ absurd hholder.symm (Option.some_ne_none _)
  others := fun _ _ ↦ Or.inl rfl

omit [DecidableEq Thread] in
/-- Who has taken the lock has returned, or is the one who holds it. -/
theorem Serial.phase_of_mem (h : Serial code whole calls initial state order) {thread : Thread}
    (hmem : thread ∈ order) : (∃ result, state.phase thread = .returned result) ∨
      (state.holder = some thread ∧ ∃ place, state.phase thread = .inside place) := by
  have hreturned : ∀ (before : List Thread) (outputs : List Result),
      before.map state.phase = outputs.map .returned → thread ∈ before →
        ∃ result, state.phase thread = .returned result := by
    intro before outputs heq hbefore
    have hphase := List.mem_map_of_mem (f := state.phase) hbefore
    rw [heq] at hphase
    obtain ⟨result, -, hresult⟩ := List.mem_map.mp hphase
    exact ⟨result, hresult.symm⟩
  cases hholder : state.holder with
  | none => exact Or.inl (hreturned order _ (h.free hholder).2 hmem)
  | some holder =>
    obtain ⟨before, start, rfl, hbefore, -, hholding⟩ := h.held holder hholder
    rcases List.mem_append.mp hmem with hmem | hmem
    · exact Or.inl (hreturned before _ hbefore hmem)
    · obtain rfl := List.mem_singleton.mp hmem
      generalize hphase : state.phase thread = phase at hholding
      cases hholding with
      | onItsWay hsame => exact Or.inr ⟨rfl, _, rfl⟩
      | forgot hnever => exact Or.inl ⟨_, rfl⟩

omit [DecidableEq Thread] in
/-- At most one thread is inside. -/
theorem Serial.holder_of_inside (h : Serial code whole calls initial state order)
    {thread : Thread} {place : Local} (hinside : state.phase thread = .inside place) :
    state.holder = some thread := by
  by_cases hmem : thread ∈ order
  · rcases h.phase_of_mem hmem with ⟨result, hreturned⟩ | ⟨hholder, -⟩
    · exact absurd (hinside.symm.trans hreturned) (by simp)
    · exact hholder
  · rcases h.others thread hmem with hwaiting | ⟨result, hreturned, -⟩
    · exact absurd (hinside.symm.trans hwaiting) (by simp)
    · exact absurd (hinside.symm.trans hreturned) (by simp)

omit [DecidableEq Thread] in
theorem Serial.notMem_of_waiting (h : Serial code whole calls initial state order)
    {thread : Thread} (hwaiting : state.phase thread = .waiting) : thread ∉ order := by
  intro hmem
  rcases h.phase_of_mem hmem with ⟨result, hreturned⟩ | ⟨-, place, hinside⟩
  · exact absurd (hwaiting.symm.trans hreturned) (by simp)
  · exact absurd (hwaiting.symm.trans hinside) (by simp)

omit [DecidableEq Thread] in
/-- The thread inside is the last to have taken the lock. -/
theorem Serial.of_inside (h : Serial code whole calls initial state order) {thread : Thread}
    {place : Local} (hinside : state.phase thread = .inside place) :
    ∃ before start, order = before ++ [thread] ∧ thread ∉ before ∧
      before.map state.phase = (whole.outputs initial (before.map calls)).map .returned ∧
      code.enter (calls thread) = .inl start ∧
      ∀ shared result, code.Completes (whole.run initial (before.map calls)) start shared result ↔
        code.Completes state.shared place shared result := by
  obtain ⟨before, start, rfl, hresults, hstart, hholding⟩ :=
    h.held thread (h.holder_of_inside hinside)
  rw [hinside] at hholding
  have hnodup := List.nodup_append.mp h.nodup
  have hnot : thread ∉ before := fun hmem ↦
    hnodup.2.2 thread hmem thread (List.mem_singleton_self thread) rfl
  cases hholding with
  | onItsWay hsame => exact ⟨before, start, rfl, hnot, hresults, hstart, hsame⟩

omit [DecidableEq Thread] in
/-- Among threads that have done their calls in turn, each has the result of its place. -/
theorem returned_of_map_eq {phase : Thread → Phase Local Result} {before after : List Thread}
    {thread : Thread}
    (h : (before ++ thread :: after).map phase =
      (whole.outputs initial ((before ++ thread :: after).map calls)).map .returned) :
    phase thread =
      .returned (whole.emit (whole.run initial (before.map calls)) (calls thread)) := by
  rw [List.map_append, List.map_append, Machine.outputs_append, List.map_append, List.map_cons,
    List.map_cons, Machine.outputs_cons, List.map_cons] at h
  have hlength : (before.map phase).length =
      ((whole.outputs initial (before.map calls)).map
        (.returned : Result → Phase Local Result)).length := by
    rw [List.length_map, List.length_map, Machine.length_outputs, List.length_map]
  exact (List.cons.inj (List.append_inj h hlength).2).1

omit [DecidableEq Thread] in
/-- A thread that has taken the lock has the result of its place in the order, or it is the last
and still holds the lock. -/
theorem Serial.of_split (h : Serial code whole calls initial state order)
    {before after : List Thread} {thread : Thread} (horder : order = before ++ thread :: after) :
    state.phase thread =
        .returned (whole.emit (whole.run initial (before.map calls)) (calls thread)) ∨
      after = [] ∧ state.holder = some thread ∧ ∃ start,
        code.enter (calls thread) = .inl start ∧
          code.Holding (whole.run initial (before.map calls)) start state.shared
            (state.phase thread) := by
  cases hholder : state.holder with
  | none =>
    have hresults := (h.free hholder).2
    rw [horder] at hresults
    exact Or.inl (returned_of_map_eq hresults)
  | some holder =>
    obtain ⟨done, start, hdone, hresults, hstart, hholding⟩ := h.held holder hholder
    have hsplit : before ++ thread :: after = done ++ [holder] := horder.symm.trans hdone
    rcases List.eq_nil_or_concat after with rfl | ⟨rest, last, rfl⟩
    · obtain ⟨rfl, hlast⟩ := List.append_inj' hsplit rfl
      obtain rfl := List.singleton_injective hlast
      exact Or.inr ⟨rfl, rfl, start, hstart, hholding⟩
    · rw [List.concat_eq_append, ← List.cons_append, ← List.append_assoc] at hsplit
      obtain ⟨rfl, -⟩ := List.append_inj' hsplit rfl
      exact Or.inl (returned_of_map_eq hresults)

omit [DecidableEq Thread] in
/-- A call that releases the lock in the end returns the result of its place. -/
theorem Serial.result_eq (h : Serial code whole calls initial state order)
    {before after : List Thread} {thread : Thread} (horder : order = before ++ thread :: after)
    (hends : code.Ends (calls thread)) {result : Result}
    (hreturned : state.phase thread = .returned result) :
    result = whole.emit (whole.run initial (before.map calls)) (calls thread) := by
  rcases h.of_split horder with hresult | ⟨-, -, start, hstart, hholding⟩
  · exact Phase.returned.inj (hreturned.symm.trans hresult)
  · rw [hreturned] at hholding
    cases hholding with
    | forgot hnever =>
      obtain ⟨shared, last, hcompletes⟩ := hends _ start hstart
      exact absurd hcompletes (hnever shared last)

theorem map_update_of_notMem {Value : Type*} {threads : List Thread} {thread : Thread}
    (hnot : thread ∉ threads) (phase : Thread → Value) (value : Value) :
    threads.map (Function.update phase thread value) = threads.map phase := by
  apply List.map_congr_left
  intro other hother
  have hne : other ≠ thread := by
    rintro rfl
    exact hnot hother
  exact Function.update_of_ne hne value phase

/-- What is known of the threads that have not taken the lock is not touched by one that has. -/
theorem Serial.others_update (h : Serial code whole calls initial state order) {thread : Thread}
    (hmem : thread ∈ order) (phase : Phase Local Result) :
    ∀ other ∉ order, Function.update state.phase thread phase other = .waiting ∨
      ∃ result, Function.update state.phase thread phase other = .returned result ∧
        code.enter (calls other) = .inr result := by
  intro other hother
  have hne : other ≠ thread := by
    rintro rfl
    exact hother hmem
  rw [Function.update_of_ne hne]
  exact h.others other hother

theorem Serial.returns (h : Serial code whole calls initial state order) {thread : Thread}
    {result : Result} (hwaiting : state.phase thread = .waiting)
    (henter : code.enter (calls thread) = .inr result) :
    Serial code whole calls initial
      { state with phase := Function.update state.phase thread (.returned result) } order := by
  have hnot := h.notMem_of_waiting hwaiting
  constructor
  case nodup => exact h.nodup
  case free =>
    intro hholder
    obtain ⟨hshared, hresults⟩ := h.free hholder
    exact ⟨hshared, (map_update_of_notMem hnot _ _).trans hresults⟩
  case held =>
    intro holder hholder
    obtain ⟨before, start, horder, hresults, hstart, hholding⟩ := h.held holder hholder
    rw [horder, List.mem_append, not_or, List.mem_singleton] at hnot
    refine ⟨before, start, horder, (map_update_of_notMem hnot.1 _ _).trans hresults, hstart, ?_⟩
    dsimp only
    rwa [Function.update_of_ne (Ne.symm hnot.2)]
  case others =>
    intro other hother
    by_cases hsame : other = thread
    · exact Or.inr ⟨result, hsame ▸ Function.update_self .., hsame ▸ henter⟩
    · dsimp only
      rw [Function.update_of_ne hsame]
      exact h.others other hother

theorem Serial.takes (h : Serial code whole calls initial state order) {thread : Thread}
    {start : Local} (hwaiting : state.phase thread = .waiting)
    (henter : code.enter (calls thread) = .inl start) (hfree : state.holder = none) :
    Serial code whole calls initial
      { state with
        holder := some thread
        phase := Function.update state.phase thread (.inside start) } (order ++ [thread]) := by
  have hnot := h.notMem_of_waiting hwaiting
  obtain ⟨hshared, hresults⟩ := h.free hfree
  constructor
  case nodup => exact List.concat_eq_append ▸ h.nodup.concat hnot
  case free => exact fun hholder ↦ absurd hholder (Option.some_ne_none thread)
  case held =>
    intro holder hholder
    obtain rfl : thread = holder := Option.some.inj hholder
    refine ⟨order, start, rfl, (map_update_of_notMem hnot _ _).trans hresults, henter, ?_⟩
    dsimp only
    rw [Function.update_self, hshared]
    exact .onItsWay fun _ _ ↦ Iff.rfl
  case others =>
    intro other hother
    rw [List.mem_append, not_or, List.mem_singleton] at hother
    dsimp only
    rw [Function.update_of_ne hother.2]
    exact h.others other hother.1

theorem Serial.goesOn (h : Serial code whole calls initial state order) {thread : Thread}
    {place place' : Local} {shared : Shared} (hinside : state.phase thread = .inside place)
    (hstep : code.step state.shared place = (shared, .goesOn place')) :
    Serial code whole calls initial
      { state with
        shared := shared
        phase := Function.update state.phase thread (.inside place') } order := by
  have hholder := h.holder_of_inside hinside
  obtain ⟨before, start, horder, hnot, hresults, hstart, hends⟩ := h.of_inside hinside
  constructor
  case nodup => exact h.nodup
  case free => exact fun hnone ↦ absurd (hholder.symm.trans hnone) (Option.some_ne_none thread)
  case held =>
    intro other hother
    obtain rfl : thread = other := Option.some.inj (hholder.symm.trans hother)
    refine ⟨before, start, horder, (map_update_of_notMem hnot _ _).trans hresults, hstart, ?_⟩
    dsimp only
    rw [Function.update_self]
    exact .onItsWay fun shared' result ↦ (hends shared' result).trans (completes_step_iff hstep)
  case others =>
    exact h.others_update (horder ▸ List.mem_append_right _ (List.mem_singleton_self thread)) _

theorem Serial.forgets (h : Serial code whole calls initial state order) {thread : Thread}
    {place : Local} {shared : Shared} {result : Result}
    (hinside : state.phase thread = .inside place)
    (hstep : code.step state.shared place = (shared, .forgets result)) :
    Serial code whole calls initial
      { state with
        shared := shared
        phase := Function.update state.phase thread (.returned result) } order := by
  have hholder := h.holder_of_inside hinside
  obtain ⟨before, start, horder, hnot, hresults, hstart, hends⟩ := h.of_inside hinside
  constructor
  case nodup => exact h.nodup
  case free => exact fun hnone ↦ absurd (hholder.symm.trans hnone) (Option.some_ne_none thread)
  case held =>
    intro other hother
    obtain rfl : thread = other := Option.some.inj (hholder.symm.trans hother)
    refine ⟨before, start, horder, (map_update_of_notMem hnot _ _).trans hresults, hstart, ?_⟩
    dsimp only
    rw [Function.update_self]
    exact .forgot fun shared' result hcompletes ↦
      not_completes_of_forgets hstep ((hends shared' result).mp hcompletes)
  case others =>
    exact h.others_update (horder ▸ List.mem_append_right _ (List.mem_singleton_self thread)) _

/-- The holder of the lock releases it and returns, and its call is done whole. -/
theorem Serial.releases (hwhole : code.Whole whole)
    (h : Serial code whole calls initial state order) {thread : Thread}
    {place : Local} {shared : Shared} {result : Result}
    (hinside : state.phase thread = .inside place)
    (hstep : code.step state.shared place = (shared, .releases result)) :
    Serial code whole calls initial
      ⟨shared, none, Function.update state.phase thread (.returned result)⟩ order := by
  obtain ⟨before, start, horder, hnot, hresults, hstart, hends⟩ := h.of_inside hinside
  have hlast : whole.step (whole.run initial (before.map calls)) (calls thread) =
      (shared, result) :=
    hwhole.completes _ _ _ _ _ hstart ((hends shared result).mpr (.last hstep))
  constructor
  case nodup => exact h.nodup
  case free =>
    intro _
    have hnext : whole.next (whole.run initial (before.map calls)) (calls thread) = shared :=
      congrArg Prod.fst hlast
    have hemit : whole.emit (whole.run initial (before.map calls)) (calls thread) = result :=
      congrArg Prod.snd hlast
    dsimp only
    rw [horder, List.map_append, List.map_append, List.map_singleton, List.map_singleton,
      Machine.run_append, Machine.outputs_append, Machine.run_cons, Machine.run_nil,
      Machine.outputs_cons, Machine.outputs_nil, hnext, hemit, List.map_append,
      List.map_singleton, map_update_of_notMem hnot, hresults, Function.update_self]
    exact ⟨rfl, rfl⟩
  case held => exact fun _ hnone ↦ absurd hnone.symm (Option.some_ne_none _)
  case others =>
    exact h.others_update (horder ▸ List.mem_append_right _ (List.mem_singleton_self thread)) _

/-- Every step of every thread keeps the calls in order. -/
theorem Serial.advance (hwhole : code.Whole whole)
    (h : Serial code whole calls initial state order) (thread : Thread) :
    Serial code whole calls initial (code.advance calls state thread).1
      (order ++ (code.advance calls state thread).2.toList) := by
  unfold CriticalSection.advance
  cases hphase : state.phase thread with
  | waiting =>
    cases henter : code.enter (calls thread) with
    | inr result =>
      simp only [Option.toList_none, List.append_nil]
      exact h.returns hphase henter
    | inl start =>
      by_cases hfree : state.holder = none
      · simp only [if_pos hfree, Option.toList_some]
        exact h.takes hphase henter hfree
      · simp only [if_neg hfree, Option.toList_none, List.append_nil]
        exact h
  | inside place =>
    rcases hstep : code.step state.shared place with ⟨shared, place' | result | result⟩
    · simp only [hstep, Option.toList_none, List.append_nil]
      exact h.goesOn hphase hstep
    · simp only [hstep, Option.toList_none, List.append_nil]
      exact h.releases hwhole hphase hstep
    · simp only [hstep, Option.toList_none, List.append_nil]
      exact h.forgets hphase hstep
  | returned result =>
    simp only [Option.toList_none, List.append_nil]
    exact h

theorem Serial.run (hwhole : code.Whole whole)
    (h : Serial code whole calls initial state order) (schedule : List Thread) :
    Serial code whole calls initial ((code.contend calls).run state schedule)
      (order ++ code.lockOrder calls state schedule) := by
  have hstep : ∀ (state : Contention Thread Shared Local Result) order thread,
      Serial code whole calls initial state order → True →
        Serial code whole calls initial ((code.contend calls).next state thread)
          (order ++ ((code.contend calls).emit state thread).toList) :=
    fun _ _ thread h _ ↦ h.advance hwhole thread
  exact Machine.collect_run (fun state order ↦ Serial code whole calls initial state order)
    (fun _ (taken : Option Thread) ↦ taken.toList) hstep h
    (Machine.meets_of_forall (fun _ _ ↦ trivial) _ schedule)

/-- **Every schedule is serial.** -/
theorem contend_serial (hwhole : code.Whole whole) (calls : Thread → Call) (initial : Shared)
    (schedule : List Thread) :
    Serial code whole calls initial
      ((code.contend calls).run (waiting initial) schedule)
      (code.lockOrder calls (waiting initial) schedule) :=
  (Serial.waiting code whole calls initial).run hwhole schedule

/-- The threads have done what the whole calls do one after the other in this order: the results
are the same, and so is the shared state once nobody is under the lock. A thread that is not in
the order waits, or has returned what its call returns in every state. -/
structure InTurn (whole : Machine Shared Call Result) (calls : Thread → Call) (initial : Shared)
    (state : Contention Thread Shared Local Result) (order : List Thread) : Prop where
  nodup : order.Nodup
  free : state.holder = none → state.shared = whole.run initial (order.map calls) ∧
    order.map state.phase = (whole.outputs initial (order.map calls)).map .returned
  held : ∀ thread, state.holder = some thread → ∃ before, order = before ++ [thread] ∧
    before.map state.phase = (whole.outputs initial (before.map calls)).map .returned
  others : ∀ thread ∉ order, state.phase thread = .waiting ∨
    ∃ result, state.phase thread = .returned result ∧
      ∀ shared, whole.step shared (calls thread) = (shared, result)

omit [DecidableEq Thread] in
theorem Serial.inTurn (hwhole : code.Whole whole)
    (h : Serial code whole calls initial state order) :
    InTurn whole calls initial state order where
  nodup := h.nodup
  free := h.free
  held := by
    intro thread hholder
    obtain ⟨before, start, horder, hresults, -, -⟩ := h.held thread hholder
    exact ⟨before, horder, hresults⟩
  others := by
    intro thread hnot
    rcases h.others thread hnot with hwaiting | ⟨result, hreturned, henter⟩
    · exact Or.inl hwaiting
    · exact Or.inr ⟨result, hreturned, fun shared ↦ hwhole.returns shared _ result henter⟩

/-- Who took the lock earlier stays in front. -/
theorem lockOrder_prefix (code : CriticalSection Shared Call Local Result)
    (calls : Thread → Call) (state : Contention Thread Shared Local Result)
    (schedule later : List Thread) :
    code.lockOrder calls state schedule <+: code.lockOrder calls state (schedule ++ later) := by
  rw [lockOrder, lockOrder, Machine.collect_append]
  exact List.prefix_append _ _

end Contend

end CriticalSection

end Aesd.Foundation
