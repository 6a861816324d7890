import Mathlib.Data.List.Basic
import Mathlib.Data.List.TakeWhile

/-!
# Searching terminated strings in bounded memory

A search for a character in a string reads cell after cell until it meets the character or the
terminator. When the block that holds the string contains neither, the search leaves the block,
and what it then reports is not determined by the block.
-/

namespace Aesd.Foundation

inductive SearchEnd where
  | found (position : ℕ)
  | terminated (position : ℕ)
  | overran
deriving DecidableEq

/-- The same end seen from one cell further left. -/
def SearchEnd.succ : SearchEnd → SearchEnd
  | found position => found (position + 1)
  | terminated position => terminated (position + 1)
  | overran => overran

variable {Cell : Type*} [DecidableEq Cell]

/-- Search the cells of a block for `target`, stopping at `terminator`. -/
def search (terminator target : Cell) : List Cell → SearchEnd
  | [] => .overran
  | cell :: rest =>
    if cell = target then .found 0
    else if cell = terminator then .terminated 0
    else (search terminator target rest).succ

/-- The string a block holds: its cells before the first terminator. -/
def stringOf (terminator : Cell) (cells : List Cell) : List Cell :=
  cells.takeWhile fun cell ↦ cell ≠ terminator

/-- The answer of a search, `beyond` standing for what lies behind the block. -/
def SearchEnd.answer (beyond : Bool) : SearchEnd → Bool
  | found _ => true
  | terminated _ => false
  | overran => beyond

@[simp]
theorem SearchEnd.answer_succ (beyond : Bool) (stop : SearchEnd) :
    stop.succ.answer beyond = stop.answer beyond := by
  cases stop <;> rfl

/-- The search answers yes when the string holds the target, and otherwise only by what lies
behind a block without terminator. -/
theorem answer_search_iff {terminator target : Cell} (hne : target ≠ terminator) (beyond : Bool)
    (cells : List Cell) :
    (search terminator target cells).answer beyond = true ↔
      target ∈ stringOf terminator cells ∨
        (target ∉ cells ∧ terminator ∉ cells ∧ beyond = true) := by
  induction cells with
  | nil => simp [search, stringOf, SearchEnd.answer]
  | cons cell rest ih =>
    by_cases htarget : cell = target
    · subst htarget
      simp [search, stringOf, SearchEnd.answer, hne]
    · by_cases hstop : cell = terminator
      · subst hstop
        simp [search, stringOf, SearchEnd.answer, htarget]
      · have hstring : stringOf terminator (cell :: rest) = cell :: stringOf terminator rest := by
          simp [stringOf, hstop]
        simp only [search, if_neg htarget, if_neg hstop, SearchEnd.answer_succ, ih, hstring,
          List.mem_cons, Ne.symm htarget, Ne.symm hstop, false_or]

/-- How many cells a search has looked at; one that leaves the block has at least looked at the
cell behind it. -/
def SearchEnd.looked (length : ℕ) : SearchEnd → ℕ
  | found position => position + 1
  | terminated position => position + 1
  | overran => length + 1

theorem SearchEnd.looked_succ (length : ℕ) (stop : SearchEnd) :
    stop.succ.looked (length + 1) = stop.looked length + 1 := by
  cases stop <;> rfl

/-- The search stays in the block exactly when something in it stops the search. -/
theorem looked_search_le_iff (terminator target : Cell) (cells : List Cell) :
    (search terminator target cells).looked cells.length ≤ cells.length ↔
      target ∈ cells ∨ terminator ∈ cells := by
  induction cells with
  | nil => simp [search, SearchEnd.looked]
  | cons cell rest ih =>
    by_cases htarget : cell = target
    · simp [search, SearchEnd.looked, htarget]
    · by_cases hstop : cell = terminator
      · subst hstop
        simp [search, SearchEnd.looked, htarget]
      · simp only [search, if_neg htarget, if_neg hstop, List.length_cons,
          SearchEnd.looked_succ, Nat.add_le_add_iff_right, ih, List.mem_cons, Ne.symm htarget,
          Ne.symm hstop, false_or]

theorem stringOf_eq_self {terminator : Cell} {cells : List Cell} (h : terminator ∉ cells) :
    stringOf terminator cells = cells := by
  rw [stringOf, List.takeWhile_eq_self_iff]
  intro cell hcell
  have hne : cell ≠ terminator := ne_of_mem_of_not_mem hcell h
  simpa using hne

/-- The string before a terminator does not depend on what follows. -/
theorem stringOf_append_terminator {terminator : Cell} {cells : List Cell}
    (h : terminator ∉ cells) (rest : List Cell) :
    stringOf terminator (cells ++ terminator :: rest) = cells := by
  induction cells with
  | nil => simp [stringOf]
  | cons cell cells ih =>
    rw [List.mem_cons, not_or] at h
    have hcell : cell ≠ terminator := Ne.symm h.1
    have hrest := ih h.2
    unfold stringOf at hrest ⊢
    rw [List.cons_append, List.takeWhile_cons_of_pos (by simpa using hcell), hrest]

/-- Behind a terminator nothing can be added to the string. -/
theorem stringOf_append_of_mem {terminator : Cell} {cells : List Cell} (h : terminator ∈ cells)
    (rest : List Cell) : stringOf terminator (cells ++ rest) = stringOf terminator cells := by
  induction cells with
  | nil => exact absurd h List.not_mem_nil
  | cons cell cells ih =>
    by_cases hcell : cell = terminator
    · simp [stringOf, hcell]
    · have hrest := ih ((List.mem_cons.mp h).resolve_left (Ne.symm hcell))
      unfold stringOf at hrest ⊢
      simp only [List.cons_append, List.takeWhile_cons, ne_eq, hcell, not_false_eq_true,
        decide_true, if_true, hrest]

theorem stringOf_append_cons (terminator : Cell) (cells rest : List Cell) :
    stringOf terminator (cells ++ terminator :: rest) = stringOf terminator cells := by
  by_cases hmem : terminator ∈ cells
  · exact stringOf_append_of_mem hmem _
  · rw [stringOf_append_terminator hmem, stringOf_eq_self hmem]

theorem stringOf_append_replicate (terminator : Cell) (cells : List Cell) (count : ℕ) :
    stringOf terminator (cells ++ List.replicate count terminator) =
      stringOf terminator cells := by
  cases count with
  | zero => rw [List.replicate_zero, List.append_nil]
  | succ count => exact stringOf_append_cons terminator cells _

theorem mem_of_mem_stringOf {terminator target : Cell} {cells : List Cell}
    (h : target ∈ stringOf terminator cells) : target ∈ cells :=
  (List.takeWhile_prefix _).subset h

theorem mem_stringOf_of_mem_take {terminator target : Cell} {cells : List Cell} {length : ℕ}
    (h : target ∈ stringOf terminator (cells.take length)) :
    target ∈ stringOf terminator cells := by
  induction cells generalizing length with
  | nil => rwa [List.take_nil] at h
  | cons cell cells ih =>
    cases length with
    | zero => exact absurd h List.not_mem_nil
    | succ length =>
      unfold stringOf at h ih ⊢
      rw [List.take_succ_cons, List.takeWhile_cons] at h
      rw [List.takeWhile_cons]
      split at h
      · rename_i hcell
        rw [if_pos hcell]
        rcases List.mem_cons.mp h with heq | hmem
        · exact List.mem_cons.mpr (Or.inl heq)
        · exact List.mem_cons_of_mem _ (ih hmem)
      · exact absurd h List.not_mem_nil

theorem stringOf_eq_self_iff {terminator : Cell} {cells : List Cell} :
    stringOf terminator cells = cells ↔ terminator ∉ cells := by
  refine ⟨fun hself hmem ↦ ?_, stringOf_eq_self⟩
  rw [← hself] at hmem
  simpa using List.mem_takeWhile_imp hmem

theorem length_stringOf_le (terminator : Cell) (cells : List Cell) :
    (stringOf terminator cells).length ≤ cells.length := (List.takeWhile_prefix _).length_le

theorem length_flatten_map_stringOf_le (terminator : Cell) (strings : List (List Cell)) :
    (strings.map (stringOf terminator)).flatten.length ≤ strings.flatten.length := by
  induction strings with
  | nil => exact le_rfl
  | cons cells rest ih =>
    have hcells := length_stringOf_le terminator cells
    rw [List.map_cons, List.flatten_cons, List.flatten_cons, List.length_append,
      List.length_append]
    omega

/-- Cutting each of several blocks at its first terminator loses nothing exactly when none of them
has one. -/
theorem flatten_map_stringOf_eq_iff (terminator : Cell) (strings : List (List Cell)) :
    (strings.map (stringOf terminator)).flatten = strings.flatten ↔
      ∀ cells ∈ strings, terminator ∉ cells := by
  induction strings with
  | nil => simp
  | cons cells rest ih =>
    rw [List.map_cons, List.flatten_cons, List.flatten_cons, List.forall_mem_cons, ← ih,
      ← stringOf_eq_self_iff]
    constructor
    · intro hsame
      have hlength := congrArg List.length hsame
      have hcells := length_stringOf_le terminator cells
      have hrest := length_flatten_map_stringOf_le terminator rest
      rw [List.length_append, List.length_append] at hlength
      have hprefix : stringOf terminator cells <+: cells := List.takeWhile_prefix _
      have hself : stringOf terminator cells = cells := hprefix.eq_of_length (by omega)
      rw [hself] at hsame
      exact ⟨hself, List.append_cancel_left hsame⟩
    · rintro ⟨hself, hlater⟩
      rw [hself, hlater]

/-! ## Runs -/

section Runs

variable {Item : Type*}

/-- What follows a longest run of items of a kind does not start with another. -/
def EndsRun (kind : Item → Bool) (rest : List Item) : Prop :=
  ∀ next ∈ rest.head?, kind next = false

theorem endsRun_nil (kind : Item → Bool) : EndsRun kind [] :=
  fun next hnext ↦ absurd hnext (Option.not_mem_none next)

theorem endsRun_cons {kind : Item → Bool} {next : Item} {rest : List Item} :
    EndsRun kind (next :: rest) ↔ kind next = false := by
  refine ⟨fun h ↦ h next rfl, fun h other hother ↦ ?_⟩
  rw [List.head?_cons, Option.mem_some_iff] at hother
  rw [← hother, h]

theorem endsRun_dropWhile (kind : Item → Bool) (items : List Item) :
    EndsRun kind (items.dropWhile kind) := by
  intro next hnext
  have hhead := List.head?_dropWhile_not kind items
  rw [Option.mem_def.mp hnext] at hhead
  exact hhead

/-- A run in front of items that end it is what is taken. -/
theorem EndsRun.takeWhile_append {kind : Item → Bool} {run rest : List Item}
    (hrest : EndsRun kind rest) (hrun : ∀ item ∈ run, kind item = true) :
    (run ++ rest).takeWhile kind = run := by
  rw [List.takeWhile_append_of_pos hrun]
  cases rest with
  | nil => exact List.append_nil run
  | cons next rest =>
    rw [List.takeWhile_cons_of_neg (Bool.eq_false_iff.mp (endsRun_cons.mp hrest)),
      List.append_nil]

/-- And the items that end it are what is left. -/
theorem EndsRun.dropWhile_append {kind : Item → Bool} {run rest : List Item}
    (hrest : EndsRun kind rest) (hrun : ∀ item ∈ run, kind item = true) :
    (run ++ rest).dropWhile kind = rest := by
  rw [List.dropWhile_append_of_pos hrun]
  cases rest with
  | nil => rfl
  | cons next rest =>
    exact List.dropWhile_cons_of_neg (Bool.eq_false_iff.mp (endsRun_cons.mp hrest))

end Runs

end Aesd.Foundation
