import Aesd.Server.ConnectionList

/-!
# What `delElement` does to a list

On a list that runs through allocated nodes `SLIST_REMOVE` takes out exactly the node it is given,
wherever it stands, and `delElement` then releases it. The rest of the list is as it was.
-/

namespace Aesd.Server

open Foundation

variable {memory : Memory} {current id : ℕ} {ids rest : List ℕ}

theorem Memory.fields_next {next : Option ℕ} (h : memory.link id = some next) :
    (memory.fields id).next = next := by
  obtain ⟨conn, hconn, hnext⟩ := Option.map_eq_some_iff.mp h
  rw [Memory.fields, hconn]
  exact hnext

theorem Memory.link_modify_next (h : memory.link id ≠ none) (next : Option ℕ) :
    (memory.modify id fun conn ↦ { conn with next := next }).link =
      Function.update memory.link id (some next) := by
  obtain ⟨conn, hconn⟩ := Option.ne_none_iff_exists'.mp ((isSome_node_iff memory id).mpr h |>
    Option.isSome_iff_ne_none.mp)
  rw [Memory.link_modify, hconn]
  rfl

/-- Behind a node of a list the loop of `SLIST_REMOVE` takes out the node it looks for. No pointer
outside of this part of the list changes. -/
theorem slistRemoveAfter_chain {steps : ℕ}
    (hchain : Chain memory.link (some current) (current :: rest)) (hmem : id ∈ rest)
    (hsteps : rest.length ≤ steps) :
    Chain (slistRemoveAfter id steps memory current).link (some current)
        (current :: rest.erase id) ∧
      (∀ other ∉ current :: rest,
        (slistRemoveAfter id steps memory current).link other = memory.link other) ∧
      (slistRemoveAfter id steps memory current).head = memory.head := by
  induction rest generalizing current memory steps with
  | nil => exact absurd hmem List.not_mem_nil
  | cons next rest ih =>
    obtain ⟨steps, rfl⟩ : ∃ fewer, steps = fewer + 1 := Nat.exists_eq_add_one.mpr (by
      rw [List.length_cons] at hsteps
      omega)
    have hnodup := Chain.nodup hchain
    obtain ⟨-, successor, hcurrent, hbehind⟩ := hchain
    obtain rfl : successor = some next := hbehind.1
    have hnext : (memory.fields current).next = some next := Memory.fields_next hcurrent
    have hapart : current ∉ next :: rest := (List.nodup_cons.mp hnodup).1
    unfold slistRemoveAfter
    rw [hnext]
    dsimp only
    by_cases hfound : next = id
    · subst hfound
      obtain ⟨-, last, hlast, hrest⟩ := hbehind
      have hallocated : ((memory.touch current).touch next).link current ≠ none :=
        hcurrent ▸ Option.some_ne_none _
      have hlink := Memory.link_modify_next hallocated (memory.fields next).next
      rw [if_pos rfl, List.erase_cons_head, hlink, Memory.fields_next hlast]
      refine ⟨⟨rfl, last, Function.update_self .., hrest.congr fun other hother ↦ ?_⟩,
        fun other hother ↦ ?_, rfl⟩
      · apply Function.update_of_ne
        rintro rfl
        exact hapart (List.mem_cons_of_mem next hother)
      · exact Function.update_of_ne (List.ne_of_not_mem_cons hother) _ _
    · have hlater : id ∈ rest := (List.mem_cons.mp hmem).resolve_left (Ne.symm hfound)
      have hshorter : rest.length ≤ steps := by
        rw [List.length_cons] at hsteps
        omega
      have htouched : Chain (memory.touch current).link (some next) (next :: rest) := hbehind
      obtain ⟨hremoved, hframe, hhead⟩ := ih htouched hlater hshorter
      rw [if_neg hfound, List.erase_cons_tail (by rwa [beq_iff_eq])]
      refine ⟨⟨rfl, some next, (hframe current hapart).trans hcurrent, hremoved⟩,
        fun other hother ↦ hframe other ?_, hhead⟩
      exact List.not_mem_of_not_mem_cons hother

/-! ## The trace of a removal -/

def Action.isRemoval : Action → Bool
  | .touched _ _ => true
  | .freed _ => true
  | .closed _ => true
  | .closedStream _ => true
  | _ => false

/-- Between two memories nothing but a removal was done. -/
def OnlyRemoves (before after : Memory) : Prop :=
  ∃ actions, after.trace = before.trace ++ actions ∧ ∀ action ∈ actions, action.isRemoval = true

theorem OnlyRemoves.refl (memory : Memory) : OnlyRemoves memory memory :=
  ⟨[], (List.append_nil _).symm, fun _ hmem ↦ absurd hmem List.not_mem_nil⟩

theorem OnlyRemoves.append {before after last : Memory} (h : OnlyRemoves before after)
    {action : Action} (htrace : last.trace = after.trace ++ [action])
    (haction : action.isRemoval = true) : OnlyRemoves before last := by
  obtain ⟨actions, hafter, hall⟩ := h
  refine ⟨actions ++ [action], ?_, ?_⟩
  · rw [htrace, hafter, List.append_assoc]
  · rw [List.forall_mem_append, List.forall_mem_singleton]
    exact ⟨hall, haction⟩

theorem onlyRemoves_slistRemoveAfter {before : Memory} (h : OnlyRemoves before memory)
    (id steps current : ℕ) : OnlyRemoves before (slistRemoveAfter id steps memory current) := by
  induction steps generalizing memory current with
  | zero => exact h
  | succ steps ih =>
    have htouched : OnlyRemoves before (memory.touch current) := h.append rfl rfl
    unfold slistRemoveAfter
    split
    · exact htouched
    · split
      · have hboth : OnlyRemoves before ((memory.touch current).touch id) :=
          htouched.append rfl rfl
        exact hboth.append rfl rfl
      · exact ih htouched _

theorem onlyRemoves_delElement (memory : Memory) (id : ℕ) :
    OnlyRemoves memory (delElement memory id) := by
  have hremoved : OnlyRemoves memory (slistRemove memory id) := by
    unfold slistRemove
    split
    · exact .refl memory
    · split
      · exact (OnlyRemoves.refl memory).append rfl rfl
      · exact onlyRemoves_slistRemoveAfter (.refl memory) id _ _
  have htouched : OnlyRemoves memory ((slistRemove memory id).touch id) :=
    hremoved.append rfl rfl
  have hclosed : OnlyRemoves memory (((slistRemove memory id).touch id).record (.closed id)) :=
    htouched.append rfl rfl
  have hagain :
      OnlyRemoves memory ((((slistRemove memory id).touch id).record (.closed id)).touch id) :=
    hclosed.append rfl rfl
  have hstream : OnlyRemoves memory (((((slistRemove memory id).touch id).record
      (.closed id)).touch id).record (.closedStream id)) := hagain.append rfl rfl
  exact hstream.append rfl rfl

/-! ## Whole removals -/

/-- **`SLIST_REMOVE` takes out its node and keeps the others in their order.** -/
theorem slistRemove_chain (hchain : Chain memory.link memory.head ids) (hmem : id ∈ ids)
    (hfresh : ids.length ≤ memory.fresh) :
    Chain (slistRemove memory id).link (slistRemove memory id).head (ids.erase id) := by
  cases ids with
  | nil => exact absurd hmem List.not_mem_nil
  | cons first rest =>
    obtain ⟨hhead, next, hfirst, hrest⟩ := hchain
    unfold slistRemove
    rw [hhead]
    dsimp only
    by_cases hfound : first = id
    · subst hfound
      rw [if_pos rfl, List.erase_cons_head, Memory.fields_next hfirst]
      exact hrest
    · have hlater : id ∈ rest := (List.mem_cons.mp hmem).resolve_left (Ne.symm hfound)
      have hsteps : rest.length ≤ memory.fresh := by
        rw [List.length_cons] at hfresh
        omega
      obtain ⟨hremoved, -, hsame⟩ :=
        slistRemoveAfter_chain (hrest.cons hfirst) hlater hsteps
      rw [if_neg hfound, List.erase_cons_tail (by rwa [beq_iff_eq]), hsame, hhead]
      exact hremoved

/-- **`delElement` takes its node off the list and releases it.** -/
theorem delElement_chain (hchain : Chain memory.link memory.head ids) (hmem : id ∈ ids)
    (hfresh : ids.length ≤ memory.fresh) :
    Chain (delElement memory id).link (delElement memory id).head (ids.erase id) ∧
      (delElement memory id).node id = none := by
  have hremoved := slistRemove_chain hchain hmem hfresh
  have habsent : id ∉ ids.erase id := hchain.nodup.not_mem_erase
  refine ⟨?_, Function.update_self ..⟩
  rw [delElement, Memory.link_free]
  refine hremoved.congr fun other hother ↦ Function.update_of_ne ?_ _ _
  rintro rfl
  exact habsent hother

end Aesd.Server
