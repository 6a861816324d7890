import Mathlib.Data.List.Basic

/-!
# Deterministic machines and their runs

A machine consumes one input per step, moves to a new state and emits one output. Everything
the environment may decide is part of the input, so a run is a function of its input list.

The rules below package the inductions over runs once: an invariant kept by every step holds at
the end of every run, a relation between states and logs kept by every step relates the end of
a run to all it has logged, and a property that each step keeps exactly under a condition holds
throughout a run if and only if every step meets that condition.
-/

namespace Aesd.Foundation

/-- A deterministic transition function with one output for every step. -/
structure Machine (State Input Output : Type*) where
  step : State → Input → State × Output

namespace Machine

variable {State Input Output : Type*} (machine : Machine State Input Output)

def next (state : State) (input : Input) : State := (machine.step state input).1

def emit (state : State) (input : Input) : Output := (machine.step state input).2

def run (state : State) : List Input → State
  | [] => state
  | input :: rest => run (machine.next state input) rest

def outputs (state : State) : List Input → List Output
  | [] => []
  | input :: rest => machine.emit state input :: outputs (machine.next state input) rest

/-- What the steps of a run contribute to a log, in the order of the steps. -/
def collect {Entry : Type*} (entries : Input → Output → List Entry) (state : State) :
    List Input → List Entry
  | [] => []
  | input :: rest =>
    entries input (machine.emit state input) ++
      collect entries (machine.next state input) rest

/-- What the states a run passes through contribute to a log, with the inputs taken in them. -/
def gather {Entry : Type*} (entries : State → Input → List Entry) (state : State) :
    List Input → List Entry
  | [] => []
  | input :: rest => entries state input ++ gather entries (machine.next state input) rest

/-- The property holds in every state the run passes through, its two ends included. -/
def Always (property : State → Prop) (state : State) : List Input → Prop
  | [] => property state
  | input :: rest => property state ∧ Always property (machine.next state input) rest

/-- Every step of the run meets the condition in the state it is taken from. -/
def Meets (condition : State → Input → Prop) (state : State) : List Input → Prop
  | [] => True
  | input :: rest => condition state input ∧ Meets condition (machine.next state input) rest

@[simp]
theorem run_nil (state : State) : machine.run state [] = state := rfl

@[simp]
theorem run_cons (state : State) (input : Input) (rest : List Input) :
    machine.run state (input :: rest) = machine.run (machine.next state input) rest := rfl

@[simp]
theorem outputs_nil (state : State) : machine.outputs state [] = [] := rfl

@[simp]
theorem outputs_cons (state : State) (input : Input) (rest : List Input) :
    machine.outputs state (input :: rest) =
      machine.emit state input :: machine.outputs (machine.next state input) rest := rfl

@[simp]
theorem collect_nil {Entry : Type*} (entries : Input → Output → List Entry) (state : State) :
    machine.collect entries state [] = [] := rfl

@[simp]
theorem collect_cons {Entry : Type*} (entries : Input → Output → List Entry) (state : State)
    (input : Input) (rest : List Input) :
    machine.collect entries state (input :: rest) =
      entries input (machine.emit state input) ++
        machine.collect entries (machine.next state input) rest := rfl

@[simp]
theorem gather_nil {Entry : Type*} (entries : State → Input → List Entry) (state : State) :
    machine.gather entries state [] = [] := rfl

@[simp]
theorem gather_cons {Entry : Type*} (entries : State → Input → List Entry) (state : State)
    (input : Input) (rest : List Input) :
    machine.gather entries state (input :: rest) =
      entries state input ++ machine.gather entries (machine.next state input) rest := rfl

theorem run_append (state : State) (first second : List Input) :
    machine.run state (first ++ second) = machine.run (machine.run state first) second := by
  induction first generalizing state with
  | nil => rfl
  | cons input rest ih => exact ih (machine.next state input)

theorem outputs_append (state : State) (first second : List Input) :
    machine.outputs state (first ++ second) =
      machine.outputs state first ++ machine.outputs (machine.run state first) second := by
  induction first generalizing state with
  | nil => rfl
  | cons input rest ih =>
    simp only [List.cons_append, outputs_cons, run_cons, ih]

theorem length_outputs (state : State) (inputs : List Input) :
    (machine.outputs state inputs).length = inputs.length := by
  induction inputs generalizing state with
  | nil => rfl
  | cons input rest ih => exact congrArg (· + 1) (ih (machine.next state input))

theorem collect_append {Entry : Type*} (entries : Input → Output → List Entry) (state : State)
    (first second : List Input) :
    machine.collect entries state (first ++ second) =
      machine.collect entries state first ++
        machine.collect entries (machine.run state first) second := by
  induction first generalizing state with
  | nil => rfl
  | cons input rest ih =>
    simp only [List.cons_append, collect_cons, run_cons, ih, List.append_assoc]

variable {machine}

/-- **Invariant rule.** What holds initially and is kept by every step holds at the end of
every run. -/
theorem invariant_run {invariant : State → Prop}
    (hstep : ∀ state input, invariant state → invariant (machine.next state input))
    {state : State} (hinit : invariant state) (inputs : List Input) :
    invariant (machine.run state inputs) := by
  induction inputs generalizing state with
  | nil => exact hinit
  | cons input rest ih => exact ih (hstep state input hinit)

theorem meets_of_forall {condition : State → Input → Prop}
    (h : ∀ state input, condition state input) (state : State) (inputs : List Input) :
    machine.Meets condition state inputs := by
  induction inputs generalizing state with
  | nil => trivial
  | cons input rest ih => exact ⟨h state input, ih (machine.next state input)⟩

theorem meets_of_forall_mem {condition : Input → Prop} {inputs : List Input}
    (h : ∀ input ∈ inputs, condition input) (state : State) :
    machine.Meets (fun _ input ↦ condition input) state inputs := by
  induction inputs generalizing state with
  | nil => trivial
  | cons input rest ih =>
    rw [List.forall_mem_cons] at h
    exact ⟨h.1, ih h.2 (machine.next state input)⟩

/-- A condition on the outputs is one on the steps. -/
theorem meets_of_outputs {accept : Output → Prop} {state : State} {inputs : List Input}
    (h : ∀ output ∈ machine.outputs state inputs, accept output) :
    machine.Meets (fun state input ↦ accept (machine.emit state input)) state inputs := by
  induction inputs generalizing state with
  | nil => trivial
  | cons input rest ih =>
    simp only [outputs_cons, List.mem_cons, forall_eq_or_imp] at h
    exact ⟨h.1, ih h.2⟩

/-- **Log rule.** A relation between states and logs that every step under a condition keeps, the
log growing by what the step contributes, holds at the end of every run whose steps meet the
condition. -/
theorem collect_run {Entry : Type*} (relation : State → List Entry → Prop)
    (entries : Input → Output → List Entry) {condition : State → Input → Prop}
    (hstep : ∀ state log input, relation state log → condition state input →
      relation (machine.next state input) (log ++ entries input (machine.emit state input)))
    {state : State} {log : List Entry} (hinit : relation state log) {inputs : List Input}
    (hmeets : machine.Meets condition state inputs) :
    relation (machine.run state inputs) (log ++ machine.collect entries state inputs) := by
  induction inputs generalizing state log with
  | nil =>
    rw [collect_nil, List.append_nil]
    exact hinit
  | cons input rest ih =>
    rw [collect_cons, ← List.append_assoc]
    exact ih (hstep state log input hinit hmeets.1) hmeets.2

/-- The log rule for two logs, one of what the steps do and one of what the states say of it. -/
theorem collect_gather_run {Entry Note : Type*} (relation : State → List Entry → List Note → Prop)
    (entries : Input → Output → List Entry) (notes : State → Input → List Note)
    {condition : State → Input → Prop}
    (hstep : ∀ state log noted input, relation state log noted → condition state input →
      relation (machine.next state input) (log ++ entries input (machine.emit state input))
        (noted ++ notes state input))
    {state : State} {log : List Entry} {noted : List Note} (hinit : relation state log noted)
    {inputs : List Input} (hmeets : machine.Meets condition state inputs) :
    relation (machine.run state inputs) (log ++ machine.collect entries state inputs)
      (noted ++ machine.gather notes state inputs) := by
  induction inputs generalizing state log noted with
  | nil =>
    rw [collect_nil, gather_nil, List.append_nil, List.append_nil]
    exact hinit
  | cons input rest ih =>
    rw [collect_cons, gather_cons, ← List.append_assoc, ← List.append_assoc]
    exact ih (hstep state log noted input hinit hmeets.1) hmeets.2

/-- **Conservation rule.** Let a state hold entries back, and let every step under a condition
pass on, or hold, exactly what was held and what it takes in, in this order. Then so does every
run whose steps meet the condition. -/
theorem collect_conserved {Entry : Type*} (held : State → List Entry)
    (passed taken : Input → Output → List Entry) (invariant : State → Prop)
    {condition : State → Input → Prop}
    (hstep : ∀ state input, invariant state → condition state input →
      invariant (machine.next state input) ∧
        passed input (machine.emit state input) ++ held (machine.next state input) =
          held state ++ taken input (machine.emit state input))
    {state : State} (hinit : invariant state) {inputs : List Input}
    (hmeets : machine.Meets condition state inputs) :
    invariant (machine.run state inputs) ∧
      machine.collect passed state inputs ++ held (machine.run state inputs) =
        held state ++ machine.collect taken state inputs := by
  induction inputs generalizing state with
  | nil => exact ⟨hinit, (List.append_nil _).symm⟩
  | cons input rest ih =>
    obtain ⟨hnext, hhead⟩ := hstep state input hinit hmeets.1
    obtain ⟨hrun, htail⟩ := ih hnext hmeets.2
    refine ⟨hrun, ?_⟩
    calc
      machine.collect passed state (input :: rest) ++ held (machine.run state (input :: rest)) =
          passed input (machine.emit state input) ++
            (machine.collect passed (machine.next state input) rest ++
              held (machine.run (machine.next state input) rest)) := by
        rw [collect_cons, run_cons, List.append_assoc]
      _ = held state ++ taken input (machine.emit state input) ++
            machine.collect taken (machine.next state input) rest := by
        rw [htail, ← List.append_assoc, hhead]
      _ = held state ++ machine.collect taken state (input :: rest) := by
        rw [collect_cons, List.append_assoc]

/-- A log of the inputs alone does not depend on the states. -/
theorem collect_inputs {Entry : Type*} (entry : Input → Entry) (state : State)
    (inputs : List Input) :
    machine.collect (fun input _ ↦ [entry input]) state inputs = inputs.map entry := by
  induction inputs generalizing state with
  | nil => rfl
  | cons input rest ih => exact congrArg (entry input :: ·) (ih (machine.next state input))

/-- Logging lists and flattening the log is logging their entries. -/
theorem flatten_collect {Entry : Type*} (entries : Input → Output → List (List Entry))
    (state : State) (inputs : List Input) :
    (machine.collect entries state inputs).flatten =
      machine.collect (fun input output ↦ (entries input output).flatten) state inputs := by
  induction inputs generalizing state with
  | nil => rfl
  | cons input rest ih => rw [collect_cons, collect_cons, List.flatten_append, ih]

theorem Always.head {property : State → Prop} {state : State} {inputs : List Input}
    (h : machine.Always property state inputs) : property state := by
  cases inputs with
  | nil => exact h
  | cons input rest => exact h.1

theorem Always.last {property : State → Prop} {state : State} {inputs : List Input}
    (h : machine.Always property state inputs) : property (machine.run state inputs) := by
  induction inputs generalizing state with
  | nil => exact h
  | cons input rest ih => exact ih h.2

/-- Under an invariant and an assumption that make two conditions on steps the same, a run meets
one exactly when it meets the other. -/
theorem meets_iff_meets {invariant : State → Prop} {assumed first second : State → Input → Prop}
    (hinvariant : ∀ state input, invariant state → assumed state input →
      invariant (machine.next state input))
    (hsame : ∀ state input, invariant state → assumed state input →
      (first state input ↔ second state input))
    {state : State} (hinit : invariant state) {inputs : List Input}
    (hassumed : machine.Meets assumed state inputs) :
    machine.Meets first state inputs ↔ machine.Meets second state inputs := by
  induction inputs generalizing state with
  | nil => exact Iff.rfl
  | cons input rest ih =>
    obtain ⟨hstep, hrest⟩ := hassumed
    exact and_congr (hsame state input hinit hstep) (ih (hinvariant state input hinit hstep) hrest)

/-- What cannot become true again holds throughout a run exactly when it holds at its end. -/
theorem always_iff_last {property : State → Prop}
    (hback : ∀ state input, property (machine.next state input) → property state)
    (state : State) (inputs : List Input) :
    machine.Always property state inputs ↔ property (machine.run state inputs) := by
  refine ⟨Always.last, fun hlast ↦ ?_⟩
  induction inputs generalizing state with
  | nil => exact hlast
  | cons input rest ih =>
    have hrest := ih (machine.next state input) hlast
    exact ⟨hback state input hrest.head, hrest⟩

/-- The exact condition rule for runs whose steps all meet an assumption. -/
theorem always_iff_meets_of_assumed {invariant property : State → Prop}
    {assumed condition : State → Input → Prop}
    (hinvariant : ∀ state input, invariant state → assumed state input → condition state input →
      invariant (machine.next state input))
    (hexact : ∀ state input, invariant state → assumed state input → property state →
      (property (machine.next state input) ↔ condition state input))
    {state : State} (hinit : invariant state) (hgood : property state) {inputs : List Input}
    (hassumed : machine.Meets assumed state inputs) :
    machine.Always property state inputs ↔ machine.Meets condition state inputs := by
  induction inputs generalizing state with
  | nil => exact ⟨fun _ ↦ trivial, fun _ ↦ hgood⟩
  | cons input rest ih =>
    obtain ⟨hstep, hlater⟩ := hassumed
    have hkeep := hexact state input hinit hstep hgood
    constructor
    · rintro ⟨-, hrest⟩
      have hnext := hrest.head
      have hcondition := hkeep.mp hnext
      exact ⟨hcondition, (ih (hinvariant state input hinit hstep hcondition) hnext hlater).mp hrest⟩
    · rintro ⟨hcondition, hrest⟩
      have hnext := hkeep.mpr hcondition
      exact ⟨hgood, (ih (hinvariant state input hinit hstep hcondition) hnext hlater).mpr hrest⟩

/-- **Exact condition rule.** Under an invariant, let each step from a good state lead to a
good state exactly when it meets the condition, and then keep the invariant. Then a run stays good
exactly when all of its steps meet the condition. -/
theorem always_iff_meets {invariant property : State → Prop}
    {condition : State → Input → Prop}
    (hinvariant : ∀ state input, invariant state → condition state input →
      invariant (machine.next state input))
    (hexact : ∀ state input, invariant state → property state →
      (property (machine.next state input) ↔ condition state input))
    {state : State} (hinit : invariant state) (hgood : property state) (inputs : List Input) :
    machine.Always property state inputs ↔ machine.Meets condition state inputs := by
  have hassumed : machine.Meets (fun _ _ ↦ True) state inputs :=
    meets_of_forall (fun _ _ ↦ trivial) state inputs
  exact always_iff_meets_of_assumed (fun state input h _ ↦ hinvariant state input h)
    (fun state input h _ ↦ hexact state input h) hinit hgood hassumed

/-- Under an invariant and an assumption that make every step log good entries only, a run logs
good entries only. -/
theorem forall_mem_collect {Entry : Type*} {entries : Input → Output → List Entry}
    {good : Entry → Prop} {invariant : State → Prop} {assumed : State → Input → Prop}
    (hinvariant : ∀ state input, invariant state → assumed state input →
      invariant (machine.next state input))
    (hgood : ∀ state input, invariant state → assumed state input →
      ∀ entry ∈ entries input (machine.emit state input), good entry)
    {state : State} (hinit : invariant state) {inputs : List Input}
    (hassumed : machine.Meets assumed state inputs) :
    ∀ entry ∈ machine.collect entries state inputs, good entry := by
  induction inputs generalizing state with
  | nil => exact fun entry hentry ↦ absurd hentry List.not_mem_nil
  | cons input rest ih =>
    obtain ⟨hstep, hrest⟩ := hassumed
    rw [collect_cons, List.forall_mem_append]
    exact ⟨hgood state input hinit hstep, ih (hinvariant state input hinit hstep) hrest⟩

/-- **Simulation rule.** Let related states take matching inputs under a condition to related
states, the specification emitting the view of what the machine emits. Then a run whose steps meet
the condition ends in related states, and its outputs have the view of the specification. -/
theorem simulation_run {State' Input' Output' : Type*}
    {specification : Machine State' Input' Output'} (relation : State → State' → Prop)
    {matching : Input → Input' → Prop} (view : Output → Output')
    {condition : State → Input → Prop}
    (hstep : ∀ state state' input input', relation state state' → matching input input' →
      condition state input →
        relation (machine.next state input) (specification.next state' input') ∧
          view (machine.emit state input) = specification.emit state' input')
    {state : State} {state' : State'} (hinit : relation state state') {inputs : List Input}
    {inputs' : List Input'} (hmatching : List.Forall₂ matching inputs inputs')
    (hmeets : machine.Meets condition state inputs) :
    relation (machine.run state inputs) (specification.run state' inputs') ∧
      (machine.outputs state inputs).map view = specification.outputs state' inputs' := by
  induction hmatching generalizing state state' with
  | nil => exact ⟨hinit, rfl⟩
  | @cons input input' inputs inputs' hmatch _ ih =>
    obtain ⟨hnext, hview⟩ := hstep state state' input input' hinit hmatch hmeets.1
    obtain ⟨hrun, houtputs⟩ := ih hnext hmeets.2
    refine ⟨hrun, ?_⟩
    rw [outputs_cons, outputs_cons, List.map_cons, hview, houtputs]

end Machine

end Aesd.Foundation
