import Mathlib.Data.List.Basic
import Mathlib.Logic.Function.Basic

/-!
# Singly linked lists in memory

A memory maps the address of every allocated node to the pointer stored in it, and an address that
is not allocated to nothing. A node is linked when the pointers lead to it from the head. A chain
is a list of allocated nodes that the pointers run through up to the null pointer.
-/

namespace Aesd.Foundation

variable {Address : Type*} {link link' : Address → Option (Option Address)}
  {head : Option Address} {address : Address} {addresses : List Address}

/-- The pointers lead from the head to this address. -/
inductive Linked (link : Address → Option (Option Address)) (head : Option Address) :
    Address → Prop
  | first {address : Address} (hhead : head = some address) : Linked link head address
  | later {address next : Address} (hlinked : Linked link head address)
      (hnext : link address = some (some next)) : Linked link head next

/-- The pointers run from the head through these addresses and end. -/
def Chain (link : Address → Option (Option Address)) : Option Address → List Address → Prop
  | head, [] => head = none
  | head, address :: rest =>
    head = some address ∧ ∃ next, link address = some next ∧ Chain link next rest

theorem chain_nil : Chain link none [] := rfl

theorem Chain.cons {next : Option Address} (h : Chain link next addresses)
    (hlink : link address = some next) : Chain link (some address) (address :: addresses) :=
  ⟨rfl, next, hlink, h⟩

theorem Chain.allocated (h : Chain link head addresses) (hmem : address ∈ addresses) :
    link address ≠ none := by
  induction addresses generalizing head with
  | nil => exact absurd hmem List.not_mem_nil
  | cons first rest ih =>
    obtain ⟨-, next, hnext, hrest⟩ := h
    rcases List.mem_cons.mp hmem with rfl | hlater
    · rw [hnext]
      exact Option.some_ne_none next
    · exact ih hrest hlater

theorem Chain.congr (h : Chain link head addresses)
    (hsame : ∀ address ∈ addresses, link' address = link address) : Chain link' head addresses := by
  induction addresses generalizing head with
  | nil => exact h
  | cons first rest ih =>
    rw [List.forall_mem_cons] at hsame
    obtain ⟨hhead, next, hnext, hrest⟩ := h
    exact ⟨hhead, next, hsame.1.trans hnext, ih hrest hsame.2⟩

theorem Chain.unique {others : List Address} (h : Chain link head addresses)
    (hothers : Chain link head others) : addresses = others := by
  induction addresses generalizing head others with
  | nil =>
    cases others with
    | nil => rfl
    | cons second others => exact absurd (hothers.1.symm.trans h) (Option.some_ne_none second)
  | cons first rest ih =>
    obtain ⟨rfl, next, hnext, hrest⟩ := h
    cases others with
    | nil => exact absurd hothers (Option.some_ne_none first)
    | cons second others =>
      obtain ⟨hsecond, next', hnext', hothers⟩ := hothers
      obtain rfl : first = second := Option.some.inj hsecond
      obtain rfl : next = next' := Option.some.inj (hnext.symm.trans hnext')
      rw [ih hrest hothers]

theorem Chain.suffix {before after : List Address}
    (h : Chain link head (before ++ address :: after)) :
    Chain link (some address) (address :: after) := by
  induction before generalizing head with
  | nil => exact h.1 ▸ h
  | cons first rest ih =>
    obtain ⟨-, next, -, hrest⟩ := h
    exact ih hrest

theorem Chain.nodup (h : Chain link head addresses) : addresses.Nodup := by
  induction addresses generalizing head with
  | nil => exact List.nodup_nil
  | cons first rest ih =>
    obtain ⟨-, next, hnext, hrest⟩ := h
    refine List.nodup_cons.mpr ⟨fun hmem ↦ ?_, ih hrest⟩
    obtain ⟨before, after, rfl⟩ := List.append_of_mem hmem
    have hsame := (hrest.cons hnext).unique hrest.suffix
    have hlength := congrArg List.length (List.cons.inj hsame).2
    rw [List.length_append, List.length_cons] at hlength
    omega

theorem Chain.next_mem {next : Address} (h : Chain link head addresses) (hmem : address ∈ addresses)
    (hnext : link address = some (some next)) : next ∈ addresses := by
  induction addresses generalizing head with
  | nil => exact absurd hmem List.not_mem_nil
  | cons first rest ih =>
    obtain ⟨-, successor, hsuccessor, hrest⟩ := h
    apply List.mem_cons_of_mem
    rcases List.mem_cons.mp hmem with rfl | hlater
    · have hpointer : successor = some next := Option.some.inj (hsuccessor.symm.trans hnext)
      cases rest with
      | nil => exact absurd (hpointer.symm.trans hrest) (Option.some_ne_none next)
      | cons second others =>
        have hsecond : next = second := Option.some.inj (hpointer.symm.trans hrest.1)
        exact hsecond ▸ List.mem_cons_self
    · exact ih hrest hlater

/-- What is linked from the head of a chain is in the chain. -/
theorem Chain.mem_of_linked (h : Chain link head addresses) (hlinked : Linked link head address) :
    address ∈ addresses := by
  induction hlinked with
  | first hhead =>
    cases addresses with
    | nil => exact absurd (hhead.symm.trans h) (Option.some_ne_none _)
    | cons first rest => exact Option.some.inj (hhead.symm.trans h.1) ▸ List.mem_cons_self
  | later _ hnext ih => exact h.next_mem ih hnext

/-- A chain whose first node is linked is linked. -/
theorem Chain.linked_of_first {start : Option Address} (h : Chain link start addresses)
    (hstart : ∀ first, start = some first → Linked link head first) (hmem : address ∈ addresses) :
    Linked link head address := by
  induction addresses generalizing start with
  | nil => exact absurd hmem List.not_mem_nil
  | cons first rest ih =>
    obtain ⟨hfirst, next, hnext, hrest⟩ := h
    rcases List.mem_cons.mp hmem with rfl | hlater
    · exact hstart _ hfirst
    · apply ih hrest _ hlater
      exact fun second hsecond ↦
        .later (hstart first hfirst) (hnext.trans (congrArg some hsecond))

theorem Chain.linked (h : Chain link head addresses) (hmem : address ∈ addresses) :
    Linked link head address :=
  h.linked_of_first (fun _ hfirst ↦ .first hfirst) hmem

/-- A linked node stays linked when nothing but its own pointer changes. -/
theorem Linked.of_ne (h : Linked link head address)
    (hsame : ∀ other, other ≠ address → link' other = link other) : Linked link' head address := by
  have hreach : ∀ {target : Address}, Linked link head target →
      Linked link' head target ∨ Linked link' head address := by
    intro target htarget
    induction htarget with
    | first hhead => exact Or.inl (.first hhead)
    | @later earlier next _ hnext ih =>
      rcases ih with hearlier | hdone
      · by_cases heq : earlier = address
        · exact Or.inr (heq ▸ hearlier)
        · exact Or.inl (.later hearlier ((hsame earlier heq).trans hnext))
      · exact Or.inr hdone
  exact (hreach h).elim id id

end Aesd.Foundation
