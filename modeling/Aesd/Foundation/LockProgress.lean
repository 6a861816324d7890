import Aesd.Foundation.CriticalSection
import Mathlib.Data.List.Induction

/-!
# Getting through a lock

If every call under a common lock releases it in the end, every thread can still come to its own
end from wherever the schedule has led. A call that never releases the lock keeps all others out.
-/

namespace Aesd.Foundation

namespace CriticalSection

variable {Thread Shared Call Local Result : Type*} [DecidableEq Thread]
  {code : CriticalSection Shared Call Local Result} {whole : Machine Shared Call Result}
  {calls : Thread → Call} {initial : Shared} {state : Contention Thread Shared Local Result}
  {order : List Thread}

/-! ## Coming to an end -/

theorem advance_phase_of_ne {thread other : Thread} (hne : other ≠ thread) :
    (code.advance calls state thread).1.phase other = state.phase other := by
  unfold advance
  cases state.phase thread with
  | waiting =>
    cases code.enter (calls thread) with
    | inr result => exact Function.update_of_ne hne _ _
    | inl start =>
      by_cases hfree : state.holder = none
      · simp only [if_pos hfree]
        exact Function.update_of_ne hne _ _
      · simp only [if_neg hfree]
  | inside place =>
    rcases hstep : code.step state.shared place with ⟨shared, place' | result | result⟩
    · simp only [hstep]
      exact Function.update_of_ne hne _ _
    · simp only [hstep]
      exact Function.update_of_ne hne _ _
    · simp only [hstep]
      exact Function.update_of_ne hne _ _
  | returned result => rfl

theorem run_phase_of_returned {thread : Thread} {result : Result}
    (hreturned : state.phase thread = .returned result) (schedule : List Thread) :
    ((code.contend calls).run state schedule).phase thread = .returned result := by
  have hstep : ∀ (state : Contention Thread Shared Local Result) other,
      state.phase thread = .returned result →
        ((code.contend calls).next state other).phase thread = .returned result := by
    intro state other hreturned
    by_cases hsame : thread = other
    · subst hsame
      have hstays : code.advance calls state thread = (state, none) := by
        simp only [advance, hreturned]
      exact (congrArg (fun step ↦ Contention.phase step.1 thread) hstays).trans hreturned
    · exact (advance_phase_of_ne hsame).trans hreturned
  exact Machine.invariant_run hstep hreturned schedule

/-- Turns of its own bring the thread inside to its end, and no other thread is moved. -/
theorem Completes.exists_returned {shared shared' : Shared} {place : Local} {result : Result}
    (h : code.Completes shared place shared' result) {thread : Thread}
    (hshared : state.shared = shared) (hinside : state.phase thread = .inside place) :
    ∃ turns, ((code.contend calls).run state turns).holder = none ∧
      ((code.contend calls).run state turns).shared = shared' ∧
      ((code.contend calls).run state turns).phase =
        Function.update state.phase thread (.returned result) := by
  induction h generalizing state with
  | @last shared shared' place result hstep =>
    have hadvance : (code.contend calls).next state thread =
        ⟨shared', none, Function.update state.phase thread (.returned result)⟩ := by
      simp only [Machine.next, contend, advance, hinside, hshared, hstep]
    refine ⟨[thread], ?_⟩
    rw [Machine.run_cons, Machine.run_nil, hadvance]
    exact ⟨rfl, rfl, rfl⟩
  | @next shared shared₁ shared' place place₁ result hstep _ ih =>
    have hadvance : (code.contend calls).next state thread =
        { state with
          shared := shared₁
          phase := Function.update state.phase thread (.inside place₁) } := by
      simp only [Machine.next, contend, advance, hinside, hshared, hstep]
    obtain ⟨turns, hfree, hlast, hphase⟩ := @ih ((code.contend calls).next state thread)
      (by rw [hadvance]) (by rw [hadvance]; exact Function.update_self ..)
    refine ⟨thread :: turns, hfree, hlast, hphase.trans ?_⟩
    rw [hadvance]
    exact Function.update_idem ..

theorem next_of_takes {thread : Thread} {start : Local} (hwaiting : state.phase thread = .waiting)
    (henter : code.enter (calls thread) = .inl start) (hfree : state.holder = none) :
    (code.contend calls).next state thread =
      { state with
        holder := some thread
        phase := Function.update state.phase thread (.inside start) } := by
  simp only [Machine.next, contend, advance, hwaiting, henter, if_pos hfree]

/-- A thread that does not need the lock returns in front of it. -/
theorem next_of_returns {thread : Thread} {result : Result}
    (hwaiting : state.phase thread = .waiting) (henter : code.enter (calls thread) = .inr result) :
    (code.contend calls).next state thread =
      { state with phase := Function.update state.phase thread (.returned result) } := by
  simp only [Machine.next, contend, advance, hwaiting, henter]

/-- So it can always return, and moves no other thread. -/
theorem Serial.exists_returned_of_not_entered (h : Serial code whole calls initial state order)
    {thread : Thread} {result : Result} (henter : code.enter (calls thread) = .inr result) :
    ∃ turns,
      (∀ other, other ≠ thread →
        ((code.contend calls).run state turns).phase other = state.phase other) ∧
      ∃ result, ((code.contend calls).run state turns).phase thread = .returned result := by
  cases hphase : state.phase thread with
  | returned result => exact ⟨[], fun _ _ ↦ rfl, result, hphase⟩
  | inside place =>
    obtain ⟨before, start, -, -, -, hstart, -⟩ := h.of_inside hphase
    exact absurd (hstart.symm.trans henter) Sum.inl_ne_inr
  | waiting =>
    refine ⟨[thread], ?_⟩
    rw [Machine.run_cons, Machine.run_nil, next_of_returns hphase henter]
    exact ⟨fun other hne ↦ Function.update_of_ne hne .., result, Function.update_self ..⟩

/-- In whatever order the calls are made, each of them at most once, every one of them releases the
lock in the end. -/
def EndsInTurn (code : CriticalSection Shared Call Local Result)
    (whole : Machine Shared Call Result) (calls : Thread → Call) (initial : Shared) : Prop :=
  ∀ before thread start, (before ++ [thread]).Nodup → code.enter (calls thread) = .inl start →
    ∃ shared result, code.Completes (whole.run initial (before.map calls)) start shared result

omit [DecidableEq Thread] in
theorem EndsInTurn.of_ends (hends : ∀ thread, code.Ends (calls thread)) :
    EndsInTurn code whole calls initial :=
  fun _ thread start _ henter ↦ hends thread _ start henter

/-- Where every call ends in turn, the lock can always come free. -/
theorem Serial.exists_free (hends : EndsInTurn code whole calls initial)
    (h : Serial code whole calls initial state order) :
    ∃ turns, ((code.contend calls).run state turns).holder = none := by
  cases hholder : state.holder with
  | none => exact ⟨[], hholder⟩
  | some thread =>
    obtain ⟨before, start, horder, -, hstart, hholding⟩ := h.held thread hholder
    obtain ⟨shared, result, hcompletes⟩ := hends before thread start (horder ▸ h.nodup) hstart
    generalize hphase : state.phase thread = phase at hholding
    cases hholding with
    | onItsWay hsame =>
      obtain ⟨turns, hfree, -⟩ :=
        ((hsame shared result).mp hcompletes).exists_returned rfl hphase
      exact ⟨turns, hfree⟩
    | forgot hnever => exact absurd hcompletes (hnever shared result)

/-- With the lock free, any one thread can be brought to its end, and leaves the lock free. -/
theorem Serial.exists_returned (hends : EndsInTurn code whole calls initial)
    (h : Serial code whole calls initial state order) (hfree : state.holder = none)
    (thread : Thread) :
    ∃ turns, ((code.contend calls).run state turns).holder = none ∧
      ∃ result, ((code.contend calls).run state turns).phase thread = .returned result := by
  cases hphase : state.phase thread with
  | returned result => exact ⟨[], hfree, result, hphase⟩
  | inside place =>
    exact absurd ((h.holder_of_inside hphase).symm.trans hfree) (Option.some_ne_none thread)
  | waiting =>
    cases henter : code.enter (calls thread) with
    | inr result =>
      refine ⟨[thread], ?_⟩
      rw [Machine.run_cons, Machine.run_nil, next_of_returns hphase henter]
      exact ⟨hfree, result, Function.update_self ..⟩
    | inl start =>
      have hadvance := next_of_takes hphase henter hfree
      have hnodup : (order ++ [thread]).Nodup :=
        List.concat_eq_append ▸ h.nodup.concat (h.notMem_of_waiting hphase)
      obtain ⟨shared, result, hcompletes⟩ := hends order thread start hnodup henter
      have hshared : ((code.contend calls).next state thread).shared =
          whole.run initial (order.map calls) := by
        rw [hadvance]
        exact (h.free hfree).1
      have hinside : ((code.contend calls).next state thread).phase thread = .inside start := by
        rw [hadvance]
        exact Function.update_self ..
      obtain ⟨turns, hdone, -, hreturned⟩ := hcompletes.exists_returned hshared hinside
      refine ⟨thread :: turns, hdone, result, ?_⟩
      rw [Machine.run_cons, hreturned]
      exact Function.update_self ..

/-- **No deadlock.** Where every call ends in turn, any threads can be brought to their ends from
any point of any schedule, the lock being free behind them. -/
theorem Serial.exists_all_returned (hwhole : code.Whole whole)
    (hends : EndsInTurn code whole calls initial)
    (h : Serial code whole calls initial state order) (threads : List Thread) :
    ∃ turns, ((code.contend calls).run state turns).holder = none ∧ ∀ thread ∈ threads,
      ∃ result, ((code.contend calls).run state turns).phase thread = .returned result := by
  have hfrom : ∀ {state : Contention Thread Shared Local Result} {order : List Thread},
      Serial code whole calls initial state order → state.holder = none →
        ∃ turns, ((code.contend calls).run state turns).holder = none ∧ ∀ thread ∈ threads,
          ∃ result, ((code.contend calls).run state turns).phase thread = .returned result := by
    induction threads with
    | nil => exact fun _ hfree ↦ ⟨[], hfree, fun thread hmem ↦ absurd hmem List.not_mem_nil⟩
    | cons thread threads ih =>
      intro state order h hfree
      obtain ⟨turns, hdone, result, hreturned⟩ := h.exists_returned hends hfree thread
      obtain ⟨more, hlast, hall⟩ := ih (h.run hwhole turns) hdone
      refine ⟨turns ++ more, ?_⟩
      rw [Machine.run_append, List.forall_mem_cons]
      exact ⟨hlast, ⟨result, run_phase_of_returned hreturned more⟩, hall⟩
  obtain ⟨turns, hfree⟩ := h.exists_free hends
  obtain ⟨more, hall⟩ := hfrom (h.run hwhole turns) hfree
  exact ⟨turns ++ more, by rwa [Machine.run_append]⟩

/-! ## Keeping the others out -/

/-- A call that stays under the lock keeps it over every step. -/
theorem Serial.advance_of_endless {before : List Thread} {thread : Thread} {start : Local}
    (h : Serial code whole calls initial state (before ++ [thread]))
    (hholder : state.holder = some thread) (hstart : code.enter (calls thread) = .inl start)
    (hendless : ∀ shared result,
      ¬ code.Completes (whole.run initial (before.map calls)) start shared result)
    (other : Thread) :
    (code.advance calls state other).1.holder = some thread ∧
      (code.advance calls state other).2 = none := by
  have htaken : state.holder ≠ none := hholder ▸ Option.some_ne_none thread
  unfold CriticalSection.advance
  cases hphase : state.phase other with
  | waiting =>
    cases code.enter (calls other) with
    | inr result => exact ⟨hholder, rfl⟩
    | inl start' =>
      simp only [if_neg htaken]
      exact ⟨hholder, trivial⟩
  | inside place =>
    obtain rfl : thread = other :=
      Option.some.inj (hholder.symm.trans (h.holder_of_inside hphase))
    obtain ⟨before', start', horder, -, -, hstart', hsame⟩ := h.of_inside hphase
    obtain rfl : before = before' := List.append_cancel_right horder
    obtain rfl : start = start' := Sum.inl.inj (hstart.symm.trans hstart')
    rcases hstep : code.step state.shared place with ⟨shared, place' | result | result⟩
    · simp only [hstep]
      exact ⟨hholder, trivial⟩
    · exact absurd ((hsame shared result).mpr (.last hstep)) (hendless shared result)
    · simp only [hstep]
      exact ⟨hholder, trivial⟩
  | returned result => exact ⟨hholder, rfl⟩

/-- **Starvation.** A call that stays under the lock keeps it whatever the schedule, and nobody
takes it any more. -/
theorem Serial.run_of_endless (hwhole : code.Whole whole) {before : List Thread}
    {thread : Thread} {start : Local}
    (h : Serial code whole calls initial state (before ++ [thread]))
    (hholder : state.holder = some thread) (hstart : code.enter (calls thread) = .inl start)
    (hendless : ∀ shared result,
      ¬ code.Completes (whole.run initial (before.map calls)) start shared result)
    (schedule : List Thread) :
    ((code.contend calls).run state schedule).holder = some thread ∧
      code.lockOrder calls state schedule = [] := by
  induction schedule generalizing state with
  | nil => exact ⟨hholder, rfl⟩
  | cons other schedule ih =>
    obtain ⟨hkeeps, hnobody⟩ := h.advance_of_endless hholder hstart hendless other
    have hnext := h.advance hwhole other
    rw [hnobody, Option.toList_none, List.append_nil] at hnext
    obtain ⟨hlast, hrest⟩ := ih hnext hkeeps
    have hemit : (code.contend calls).emit state other = none := hnobody
    rw [lockOrder, Machine.collect_cons, hemit, Option.toList_none, List.nil_append]
    exact ⟨hlast, hrest⟩

/-- Whoever needs the lock and has not had it before such a call waits for ever. -/
theorem Serial.waits_of_endless (hwhole : code.Whole whole) {before : List Thread}
    {thread : Thread} {start : Local}
    (h : Serial code whole calls initial state (before ++ [thread]))
    (hholder : state.holder = some thread) (hstart : code.enter (calls thread) = .inl start)
    (hendless : ∀ shared result,
      ¬ code.Completes (whole.run initial (before.map calls)) start shared result)
    {other : Thread} (hnot : other ∉ before ++ [thread]) {start' : Local}
    (hneeds : code.enter (calls other) = .inl start') (schedule : List Thread) :
    ((code.contend calls).run state schedule).phase other = .waiting := by
  have hrun := h.run hwhole schedule
  rw [(h.run_of_endless hwhole hholder hstart hendless schedule).2, List.append_nil] at hrun
  rcases hrun.others other hnot with hwaiting | ⟨result, -, henter⟩
  · exact hwaiting
  · exact absurd (hneeds.symm.trans henter) Sum.inl_ne_inr

/-- Threads whose calls end in turn can be scheduled one whole call after the other. -/
theorem exists_schedule_in_turn (hwhole : code.Whole whole) {turns : List Thread}
    (hnodup : turns.Nodup)
    (hends : ∀ before thread start, before ++ [thread] <+: turns →
      code.enter (calls thread) = .inl start → ∃ shared result,
        code.Completes (whole.run initial (before.map calls)) start shared result) :
    ∃ schedule, ((code.contend calls).run (waiting initial) schedule).holder = none ∧
      ((code.contend calls).run (waiting initial) schedule).shared =
        whole.run initial (turns.map calls) ∧
      ∀ thread ∉ turns,
        ((code.contend calls).run (waiting initial) schedule).phase thread = .waiting := by
  induction turns using List.reverseRecOn with
  | nil => exact ⟨[], rfl, rfl, fun _ _ ↦ rfl⟩
  | append_singleton before thread ih =>
    have hparts := List.nodup_append.mp hnodup
    have hnot : thread ∉ before := fun hmem ↦
      hparts.2.2 thread hmem thread (List.mem_singleton_self thread) rfl
    obtain ⟨schedule, hfree, hshared, hothers⟩ := ih hparts.1 fun first other start hearlier ↦
      hends first other start (hearlier.trans (List.prefix_append _ _))
    rw [List.map_append, Machine.run_append, List.map_singleton, Machine.run_cons, Machine.run_nil]
    cases henter : code.enter (calls thread) with
    | inr result =>
      refine ⟨schedule, hfree, ?_, fun other hother ↦ ?_⟩
      · rw [hshared, Machine.next, hwhole.returns _ _ _ henter]
      · exact hothers other fun hmem ↦ hother (List.mem_append_left _ hmem)
    | inl start =>
      obtain ⟨shared, result, hcompletes⟩ := hends before thread start (List.prefix_refl _) henter
      have htakes := next_of_takes (hothers thread hnot) henter hfree
      have htaken : ((code.contend calls).next
          ((code.contend calls).run (waiting initial) schedule) thread).shared =
            whole.run initial (before.map calls) := by
        rw [htakes]
        exact hshared
      have hinside : ((code.contend calls).next
          ((code.contend calls).run (waiting initial) schedule) thread).phase thread =
            .inside start := by
        rw [htakes]
        exact Function.update_self ..
      obtain ⟨more, hdone, hlast, hphase⟩ := hcompletes.exists_returned htaken hinside
      refine ⟨schedule ++ thread :: more, ?_⟩
      rw [Machine.run_append, Machine.run_cons]
      refine ⟨hdone, ?_, fun other hother ↦ ?_⟩
      · rw [hlast, Machine.next, hwhole.completes _ _ _ _ _ henter hcompletes]
      · rw [List.mem_append, not_or, List.mem_singleton] at hother
        rw [hphase, Function.update_of_ne hother.2, htakes]
        exact (Function.update_of_ne hother.2 ..).trans (hothers other hother.1)

/-- **When the lock always comes free.** From every point of every schedule any threads can be
brought to their ends, the lock being free behind them, exactly if the calls end in turn in every
order. -/
theorem always_returns_iff_endsInTurn (hwhole : code.Whole whole) (calls : Thread → Call)
    (initial : Shared) :
    (∀ (schedule threads : List Thread), ∃ turns,
        ((code.contend calls).run (waiting initial) (schedule ++ turns)).holder = none ∧
        ∀ thread ∈ threads, ∃ result,
          ((code.contend calls).run (waiting initial) (schedule ++ turns)).phase thread =
            .returned result) ↔
      EndsInTurn code whole calls initial := by
  constructor
  · intro hreturns before thread start hnodup henter
    -- the first call that did not end in turn would keep the lock for ever
    induction hlength : before.length using Nat.strongRecOn generalizing before thread start
    rename_i length ih
    subst hlength
    have hparts := List.nodup_append.mp hnodup
    have hnot : thread ∉ before := fun hmem ↦
      hparts.2.2 thread hmem thread (List.mem_singleton_self thread) rfl
    obtain ⟨schedule, hfree, hshared, hothers⟩ := exists_schedule_in_turn hwhole hparts.1
      fun first other start' hearlier henter' ↦ by
        have hshorter := hearlier.length_le
        rw [List.length_append, List.length_singleton] at hshorter
        exact ih first.length hshorter first other start' (hearlier.sublist.nodup hparts.1) henter'
          rfl
    by_contra hnever
    have hserial := contend_serial hwhole calls initial schedule
    have htaken := hserial.takes (hothers thread hnot) henter hfree
    have htakes := next_of_takes (hothers thread hnot) henter hfree
    have hendless : ∀ shared result, ¬ code.Completes
        (whole.run initial ((code.lockOrder calls (waiting initial) schedule).map calls)) start
        shared result := by
      rw [← (hserial.free hfree).1, hshared]
      exact fun shared result hcompletes ↦ hnever ⟨shared, result, hcompletes⟩
    obtain ⟨turns, hreleased, -⟩ := hreturns (schedule ++ [thread]) []
    rw [Machine.run_append, Machine.run_append, Machine.run_cons, Machine.run_nil, htakes]
      at hreleased
    have hkept := (htaken.run_of_endless hwhole rfl henter hendless turns).1
    exact absurd (hkept.symm.trans hreleased) (Option.some_ne_none thread)
  · intro hends schedule threads
    obtain ⟨turns, hlast⟩ := (contend_serial hwhole calls initial schedule).exists_all_returned
      hwhole hends threads
    exact ⟨turns, by rwa [Machine.run_append]⟩

/-- Only a step of its own gives a thread the lock. -/
theorem holder_of_advance_of_ne {thread other : Thread} (hne : thread ≠ other)
    (hholder : (code.advance calls state other).1.holder = some thread) :
    state.holder = some thread := by
  have hnot : some other ≠ some thread := fun heq ↦ hne (Option.some.inj heq).symm
  unfold advance at hholder
  cases hphase : state.phase other with
  | waiting =>
    cases henter : code.enter (calls other) with
    | inr result => simpa only [hphase, henter] using hholder
    | inl start =>
      by_cases hfree : state.holder = none
      · simp only [hphase, henter, if_pos hfree] at hholder
        exact absurd hholder hnot
      · simpa only [hphase, henter, if_neg hfree] using hholder
  | inside place =>
    rcases hstep : code.step state.shared place with ⟨shared, place' | result | result⟩
    · simpa only [hphase, hstep] using hholder
    · simp only [hphase, hstep, reduceCtorEq] at hholder
    · simpa only [hphase, hstep] using hholder
  | returned result => simpa only [hphase] using hholder

def HolderInside (state : Contention Thread Shared Local Result) : Prop :=
  ∀ thread, state.holder = some thread → ∃ place, state.phase thread = .inside place

omit [DecidableEq Thread] in
theorem HolderInside.waiting (initial : Shared) :
    HolderInside (CriticalSection.waiting initial : Contention Thread Shared Local Result) :=
  fun _ hholder ↦ absurd hholder.symm (Option.some_ne_none _)

/-- Where no call forgets the lock, every step leaves its holder under it. -/
theorem HolderInside.advance (hforgets : ∀ shared place shared' result,
      code.step shared place ≠ (shared', .forgets result))
    (h : HolderInside state) (other : Thread) :
    HolderInside (code.advance calls state other).1 := by
  intro thread hholder
  by_cases hsame : thread = other
  · subst hsame
    unfold CriticalSection.advance at hholder ⊢
    cases hphase : state.phase thread with
    | waiting =>
      have hnot : state.holder ≠ some thread := by
        intro htaken
        obtain ⟨place, hinside⟩ := h thread htaken
        exact absurd (hphase.symm.trans hinside) (by simp)
      cases henter : code.enter (calls thread) with
      | inr result =>
        simp only [hphase, henter] at hholder
        exact absurd hholder hnot
      | inl start =>
        by_cases hfree : state.holder = none
        · simp only [if_pos hfree]
          exact ⟨start, Function.update_self ..⟩
        · simp only [hphase, henter, if_neg hfree] at hholder
          exact absurd hholder hnot
    | inside place =>
      rcases hstep : code.step state.shared place with ⟨shared, place' | result | result⟩
      · simp only [hstep]
        exact ⟨place', Function.update_self ..⟩
      · simp only [hphase, hstep, reduceCtorEq] at hholder
      · exact absurd hstep (hforgets _ _ _ _)
    | returned result =>
      simp only [hphase] at hholder
      obtain ⟨place, hinside⟩ := h thread hholder
      exact absurd (hphase.symm.trans hinside) (by simp)
  · obtain ⟨place, hinside⟩ := h thread (holder_of_advance_of_ne hsame hholder)
    exact ⟨place, (advance_phase_of_ne hsame).trans hinside⟩

theorem HolderInside.run (hforgets : ∀ shared place shared' result,
      code.step shared place ≠ (shared', .forgets result))
    (h : HolderInside state) (schedule : List Thread) :
    HolderInside ((code.contend calls).run state schedule) := by
  have hstep : ∀ state other, HolderInside state →
      HolderInside ((code.contend calls).next state other) :=
    fun _ other hinside ↦ HolderInside.advance hforgets hinside other
  exact Machine.invariant_run hstep h schedule

omit [DecidableEq Thread] in
/-- Where the holder of the lock is under it, who has returned has the result of its place. -/
theorem Serial.result_eq_of_holderInside (h : Serial code whole calls initial state order)
    (hinside : HolderInside state) {before after : List Thread} {thread : Thread}
    (horder : order = before ++ thread :: after) {result : Result}
    (hreturned : state.phase thread = .returned result) :
    result = whole.emit (whole.run initial (before.map calls)) (calls thread) := by
  rcases h.of_split horder with hresult | ⟨-, hholder, -⟩
  · exact Phase.returned.inj (hreturned.symm.trans hresult)
  · obtain ⟨place, hplace⟩ := hinside thread hholder
    exact absurd (hreturned.symm.trans hplace) (by simp)

/-! ## What holds of every thread -/

/-- The property holds of a call that waits, of one that returns in front of the lock or takes it,
and over every step under the lock. -/
structure Keeps (code : CriticalSection Shared Call Local Result)
    (property : Call → Phase Local Result → Prop) : Prop where
  waits : ∀ call, property call .waiting
  returns : ∀ call result, code.enter call = .inr result → property call (.returned result)
  starts : ∀ call start, code.enter call = .inl start → property call (.inside start)
  goesOn : ∀ call shared place shared' place', property call (.inside place) →
    code.step shared place = (shared', .goesOn place') → property call (.inside place')
  releases : ∀ call shared place shared' result, property call (.inside place) →
    code.step shared place = (shared', .releases result) → property call (.returned result)
  forgets : ∀ call shared place shared' result, property call (.inside place) →
    code.step shared place = (shared', .forgets result) → property call (.returned result)

variable {property : Call → Phase Local Result → Prop}

theorem Keeps.advance (h : Keeps code property)
    (hall : ∀ thread, property (calls thread) (state.phase thread)) (thread other : Thread) :
    property (calls other) ((code.advance calls state thread).1.phase other) := by
  by_cases hsame : other = thread
  · subst hsame
    have hother := hall other
    unfold CriticalSection.advance
    cases hphase : state.phase other with
    | waiting =>
      cases henter : code.enter (calls other) with
      | inr result =>
        simp only [Function.update_self]
        exact h.returns _ _ henter
      | inl start =>
        by_cases hfree : state.holder = none
        · simp only [if_pos hfree, Function.update_self]
          exact h.starts _ _ henter
        · simp only [if_neg hfree]
          exact hother
    | inside place =>
      rw [hphase] at hother
      rcases hstep : code.step state.shared place with ⟨shared, place' | result | result⟩
      · simp only [hstep, Function.update_self]
        exact h.goesOn _ _ _ _ _ hother hstep
      · simp only [hstep, Function.update_self]
        exact h.releases _ _ _ _ _ hother hstep
      · simp only [hstep, Function.update_self]
        exact h.forgets _ _ _ _ _ hother hstep
    | returned result => exact hother
  · rw [advance_phase_of_ne hsame]
    exact hall other

/-- What the code keeps holds of every thread after every schedule. -/
theorem Keeps.run (h : Keeps code property) (calls : Thread → Call) (initial : Shared)
    (schedule : List Thread) (thread : Thread) :
    property (calls thread)
      (((code.contend calls).run (waiting initial) schedule).phase thread) := by
  have hstep : ∀ (state : Contention Thread Shared Local Result) other,
      (∀ thread, property (calls thread) (state.phase thread)) →
        ∀ thread, property (calls thread) (((code.contend calls).next state other).phase thread) :=
    fun _ other hall ↦ h.advance hall other
  have hwaiting : ∀ thread, property (calls thread)
      ((waiting initial : Contention Thread Shared Local Result).phase thread) :=
    fun thread ↦ h.waits (calls thread)
  exact Machine.invariant_run hstep hwaiting schedule thread

/-! ## How calls end -/

/-- Who has returned from under the lock has completed its call, from the state it began in. -/
def Completed (code : CriticalSection Shared Call Local Result) (calls : Thread → Call)
    (state : Contention Thread Shared Local Result) : Prop :=
  ∀ thread result start, state.phase thread = .returned result →
    code.enter (calls thread) = .inl start →
      ∃ since shared, code.Completes since start shared result

theorem Completed.advance (hforgets : ∀ shared place shared' result,
      code.step shared place ≠ (shared', .forgets result))
    (hserial : Serial code whole calls initial state order) (h : Completed code calls state)
    (thread : Thread) : Completed code calls (code.advance calls state thread).1 := by
  intro other result start hreturned hstart
  by_cases hsame : other = thread
  · subst hsame
    unfold CriticalSection.advance at hreturned
    cases hphase : state.phase other with
    | waiting =>
      simp only [hphase, hstart] at hreturned
      split at hreturned
      · simp only [Function.update_self, reduceCtorEq] at hreturned
      · simp only [hphase, reduceCtorEq] at hreturned
    | inside place =>
      obtain ⟨before, start', -, -, -, hstart', hends⟩ := hserial.of_inside hphase
      obtain rfl := Sum.inl.inj (hstart.symm.trans hstart')
      rcases hstep : code.step state.shared place with ⟨shared, place' | last | last⟩
      · simp only [hphase, hstep, Function.update_self, reduceCtorEq] at hreturned
      · simp only [hphase, hstep, Function.update_self, Phase.returned.injEq] at hreturned
        subst hreturned
        exact ⟨_, shared, (hends shared last).mpr (.last hstep)⟩
      · exact absurd hstep (hforgets _ _ _ _)
    | returned last =>
      simp only [hphase] at hreturned
      exact h other result start (hphase.trans hreturned) hstart
  · rw [advance_phase_of_ne hsame] at hreturned
    exact h other result start hreturned hstart

/-- Where no call forgets the lock, every return from under it completes a call. -/
theorem completed_run (hwhole : code.Whole whole) (hforgets : ∀ shared place shared' result,
      code.step shared place ≠ (shared', .forgets result))
    (calls : Thread → Call) (initial : Shared) (schedule : List Thread) :
    Completed code calls
      ((code.contend calls).run (CriticalSection.waiting initial) schedule) := by
  have hstep : ∀ state thread,
      (∃ order, Serial code whole calls initial state order) ∧ Completed code calls state →
        (∃ order, Serial code whole calls initial ((code.contend calls).next state thread) order) ∧
          Completed code calls ((code.contend calls).next state thread) := by
    rintro state thread ⟨⟨order, hserial⟩, hcompleted⟩
    exact ⟨⟨_, hserial.advance hwhole thread⟩, hcompleted.advance hforgets hserial thread⟩
  have hinit : Completed code calls
      (CriticalSection.waiting initial : Contention Thread Shared Local Result) :=
    fun _ _ _ hreturned _ ↦ absurd hreturned (by simp [CriticalSection.waiting])
  exact (Machine.invariant_run hstep
    ⟨⟨[], Serial.waiting code whole calls initial⟩, hinit⟩ schedule).2

/-! ## The call under way -/

/-- Whoever is under the lock took it last, and its call has come so far from the state in which the
others left off. -/
def Underway (inside : Call → Shared → Shared → Local → Prop) (whole : Machine Shared Call Result)
    (calls : Thread → Call) (initial : Shared) (state : Contention Thread Shared Local Result)
    (order : List Thread) : Prop :=
  ∀ thread place, state.phase thread = .inside place → ∃ before, order = before ++ [thread] ∧
    inside (calls thread) (whole.run initial (before.map calls)) state.shared place

variable {inside : Call → Shared → Shared → Local → Prop}

omit [DecidableEq Thread] in
theorem Serial.eq_of_inside (h : Serial code whole calls initial state order)
    {first second : Thread} {place place' : Local} (hfirst : state.phase first = .inside place)
    (hsecond : state.phase second = .inside place') : first = second :=
  Option.some.inj ((h.holder_of_inside hfirst).symm.trans (h.holder_of_inside hsecond))

/-- A step keeps track of the call under way, if the steps of the code do. -/
theorem Underway.advance
    (hstart : ∀ call since start, code.enter call = .inl start → inside call since since start)
    (hstep : ∀ call since now place now' place', inside call since now place →
      code.step now place = (now', .goesOn place') → inside call since now' place')
    (hserial : Serial code whole calls initial state order)
    (h : Underway inside whole calls initial state order) (thread : Thread) :
    Underway inside whole calls initial (code.advance calls state thread).1
      (order ++ (code.advance calls state thread).2.toList) := by
  intro other place' hinside
  by_cases hsame : other = thread
  · subst hsame
    unfold CriticalSection.advance at hinside ⊢
    cases hphase : state.phase other with
    | waiting =>
      cases henter : code.enter (calls other) with
      | inr result =>
        simp only [hphase, henter, Function.update_self, reduceCtorEq] at hinside
      | inl start =>
        by_cases hfree : state.holder = none
        · simp only [hphase, henter, if_pos hfree, Function.update_self,
            Phase.inside.injEq] at hinside
          subst hinside
          simp only [if_pos hfree, Option.toList_some]
          refine ⟨order, rfl, ?_⟩
          rw [(hserial.free hfree).1]
          exact hstart _ _ _ henter
        · simp only [hphase, henter, if_neg hfree, reduceCtorEq] at hinside
    | inside place =>
      obtain ⟨before, horder, hbefore⟩ := h other place hphase
      rcases hgoes : code.step state.shared place with ⟨shared, next | result | result⟩
      · simp only [hphase, hgoes, Function.update_self, Phase.inside.injEq] at hinside
        subst hinside
        simp only [hgoes, Option.toList_none, List.append_nil]
        exact ⟨before, horder, hstep _ _ _ _ _ _ hbefore hgoes⟩
      · simp only [hphase, hgoes, Function.update_self, reduceCtorEq] at hinside
      · simp only [hphase, hgoes, Function.update_self, reduceCtorEq] at hinside
    | returned result => simp only [hphase, reduceCtorEq] at hinside
  · -- the thread of this step was not under the lock, nor could it take it
    rw [advance_phase_of_ne hsame] at hinside
    have hholder := hserial.holder_of_inside hinside
    obtain ⟨before, horder, hbefore⟩ := h other place' hinside
    unfold CriticalSection.advance
    cases hphase : state.phase thread with
    | waiting =>
      cases henter : code.enter (calls thread) with
      | inr result =>
        simp only [Option.toList_none, List.append_nil]
        exact ⟨before, horder, hbefore⟩
      | inl start =>
        have htaken : state.holder ≠ none := hholder ▸ Option.some_ne_none other
        simp only [if_neg htaken, Option.toList_none, List.append_nil]
        exact ⟨before, horder, hbefore⟩
    | inside place => exact absurd (hserial.eq_of_inside hinside hphase) hsame
    | returned result =>
      simp only [Option.toList_none, List.append_nil]
      exact ⟨before, horder, hbefore⟩

/-- **Where a schedule may stop.** Whoever is under the lock is somewhere on the way that its steps
lead from the state in which the others left off. -/
theorem underway_run (hwhole : code.Whole whole)
    (inside : Call → Shared → Shared → Local → Prop)
    (hstart : ∀ call since start, code.enter call = .inl start → inside call since since start)
    (hstep : ∀ call since now place now' place', inside call since now place →
      code.step now place = (now', .goesOn place') → inside call since now' place')
    (calls : Thread → Call) (initial : Shared) (schedule : List Thread) :
    Underway inside whole calls initial
      ((code.contend calls).run (CriticalSection.waiting initial) schedule)
      (code.lockOrder calls (CriticalSection.waiting initial) schedule) := by
  have hkeep : ∀ (state : Contention Thread Shared Local Result) order thread,
      Serial code whole calls initial state order ∧
          Underway inside whole calls initial state order → True →
        Serial code whole calls initial ((code.contend calls).next state thread)
            (order ++ ((code.contend calls).emit state thread).toList) ∧
          Underway inside whole calls initial ((code.contend calls).next state thread)
            (order ++ ((code.contend calls).emit state thread).toList) :=
    fun _ _ thread h _ ↦
      ⟨h.1.advance hwhole thread, Underway.advance hstart hstep h.1 h.2 thread⟩
  have hinit : Underway inside whole calls initial
      (CriticalSection.waiting initial : Contention Thread Shared Local Result) [] :=
    fun _ _ hinside ↦ absurd hinside (by simp [CriticalSection.waiting])
  exact (Machine.collect_run
    (fun state order ↦ Serial code whole calls initial state order ∧
      Underway inside whole calls initial state order)
    (fun _ (taken : Option Thread) ↦ taken.toList) hkeep
    ⟨Serial.waiting code whole calls initial, hinit⟩
    (Machine.meets_of_forall (fun _ _ ↦ trivial) _ schedule)).2

end CriticalSection

end Aesd.Foundation
