import Mathlib.Algebra.Ring.Nat

/-!
# Taking and giving back

Some events of a trace take a thing and some give it back. The ledger of a trace says how often
the thing is out at its end when it is out so often at its start, and fails where it is given
back while it is not out. A trace adds to the ledger what it leaves out; a trace that adds nothing
gives back, in the right order, all that it takes.
-/

namespace Aesd.Foundation

variable {Event : Type*} (takes gives : Event → Bool)

/-- How often the thing is out after the events, if it was out so often before. -/
def ledger : ℕ → List Event → Option ℕ
  | out, [] => some out
  | out, event :: rest =>
    if takes event then ledger (out + 1) rest
    else if gives event then
      match out with
      | 0 => none
      | out + 1 => ledger out rest
    else ledger out rest

/-- However often the thing is out before the events, it is out so much more often after them. -/
def Adds (events : List Event) (left : ℕ) : Prop :=
  ∀ out, ledger takes gives out events = some (out + left)

variable {takes gives} {first second events : List Event} {event : Event} {left more : ℕ}

theorem ledger_append (out : ℕ) (first second : List Event) :
    ledger takes gives out (first ++ second) =
      (ledger takes gives out first).bind fun middle ↦ ledger takes gives middle second := by
  induction first generalizing out with
  | nil => rfl
  | cons event rest ih =>
    simp only [List.cons_append, ledger]
    split
    · exact ih (out + 1)
    · split
      · cases out with
        | zero => rfl
        | succ out => exact ih out
      · exact ih out

namespace Adds

theorem nil : Adds takes gives [] 0 := fun _ ↦ rfl

theorem ledger_append (h : Adds takes gives first left) (out : ℕ) (second : List Event) :
    ledger takes gives out (first ++ second) = ledger takes gives (out + left) second := by
  rw [Foundation.ledger_append, h out, Option.bind_some]

theorem append (hfirst : Adds takes gives first left) (hsecond : Adds takes gives second more) :
    Adds takes gives (first ++ second) (left + more) := by
  intro out
  rw [hfirst.ledger_append, hsecond (out + left), Nat.add_assoc]

/-- Taking the thing, and events that leave nothing out, leaves it out once. -/
theorem taken (htakes : takes event = true) (h : Adds takes gives events 0) :
    Adds takes gives (event :: events) 1 := by
  intro out
  simp only [ledger, htakes, if_true]
  exact h (out + 1)

theorem skip (htakes : takes event = false) (hgives : gives event = false)
    (h : Adds takes gives events left) : Adds takes gives (event :: events) left := by
  intro out
  simp only [ledger, htakes, hgives, Bool.false_eq_true, if_false]
  exact h out

/-- Taking the thing, events that leave nothing out, and giving it back. -/
theorem enclosed {last : Event} (htakes : takes event = true) (h : Adds takes gives events 0)
    (hlast : takes last = false) (hgives : gives last = true) :
    Adds takes gives (event :: events ++ [last]) 0 := by
  intro out
  rw [(h.taken htakes).ledger_append]
  simp only [ledger, hlast, hgives, Bool.false_eq_true, if_false, if_true, Nat.add_zero]

/-- Events that give nothing back leave out what they take. -/
theorem of_takes (hgives : ∀ event ∈ events, gives event = false) :
    Adds takes gives events (events.countP takes) := by
  induction events with
  | nil => exact nil
  | cons event rest ih =>
    rw [List.forall_mem_cons] at hgives
    have hrest := ih hgives.2
    cases htakes : takes event with
    | true =>
      intro out
      rw [List.countP_cons_of_pos htakes]
      simp only [ledger, htakes, if_true, hrest (out + 1)]
      congr 1
      omega
    | false =>
      rw [List.countP_cons_of_neg (ne_true_of_eq_false htakes)]
      exact hrest.skip htakes hgives.1

end Adds

/-! ## Things that were out before -/

variable (takes gives) in
/-- Of the things that were out before, events give back what they found and leave out `left`. -/
def Settles (events : List Event) (found left : ℕ) : Prop :=
  ∀ out, ledger takes gives (out + found) events = some (out + left)

namespace Settles

theorem nil (out : ℕ) : Settles takes gives [] out out := fun _ ↦ rfl

theorem of_adds (h : Adds takes gives events left) : Settles takes gives events 0 left := h

theorem append {found middle : ℕ} (hfirst : Settles takes gives first found middle)
    (hsecond : Settles takes gives second middle left) :
    Settles takes gives (first ++ second) found left := by
  intro out
  rw [ledger_append, hfirst out, Option.bind_some, hsecond out]

theorem beside {found : ℕ} (h : Settles takes gives events found left) (other : ℕ) :
    Settles takes gives events (other + found) (other + left) := by
  intro out
  rw [← Nat.add_assoc, ← Nat.add_assoc]
  exact h (out + other)

/-- Traces that settle what each of them found settle all of it, one after the other. -/
theorem flatMap {Item : Type*} {trace : Item → List Event} {found leaves : Item → ℕ}
    {items : List Item}
    (h : ∀ item ∈ items, Settles takes gives (trace item) (found item) (leaves item)) :
    Settles takes gives (items.flatMap trace) (items.map found).sum (items.map leaves).sum := by
  induction items with
  | nil => exact nil 0
  | cons item rest ih =>
    rw [List.forall_mem_cons] at h
    rw [List.flatMap_cons, List.map_cons, List.map_cons, List.sum_cons, List.sum_cons]
    have hhead := h.1.beside (rest.map found).sum
    have htail := (ih h.2).beside (leaves item)
    rw [Nat.add_comm (found item)]
    rw [Nat.add_comm (rest.map found).sum (leaves item)] at hhead
    exact hhead.append htail

end Settles

end Aesd.Foundation
