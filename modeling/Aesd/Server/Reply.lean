import Aesd.Server.Session

/-!
# What a client is answered

A worker opens its reply stream once and answers every saved chunk that contains a newline by
reading on from where the stream stands. The first answer is the whole content of the device;
every later one is what lies behind the content at the time of the one before. So a session is
answered in full exactly as long as the stream has not moved, and when nothing is ever refused
this means at most one answered chunk for each connection.
-/

namespace Aesd.Server

open Foundation Driver

/-- No call of the round fails but for those of the device, and what `recv` returns has no NUL
byte. -/
structure Round.Undisturbed (round : Round) : Prop where
  recv : round.recv = .closed ∨ ∃ chunk, round.Carries chunk
  fputs : round.fputs = true
  sends : ∀ k, round.sends k = true
  copied : ∀ k, round.copied k = true

/-- The round saves this chunk and answers it. -/
structure Answers (session : Session) (round : Round) (chunk : List UInt8) : Prop where
  running : session.running = true
  recv_eq : round.recv = .data chunk
  noRequest : sscanfSeekto chunk = none
  newline_mem : newline ∈ chunk

def RepliesInFull (session : Session) (round : Round) : Prop :=
  ∀ chunk, Answers session round chunk →
    sentBytes (receiver.emit session round) = readable (receiver.next session round).kernel

/-- If the round answers a chunk, the reply stream has not moved yet or nothing is readable once
the chunk is saved. -/
def RepliesFromStart (session : Session) (round : Round) : Prop :=
  ∀ chunk, Answers session round chunk →
    session.sendfd = some 0 ∨
      readable (aesdWrite (round.writeCall chunk) session.kernel).1 = []

/-- The reply stream of a worker in its receive loop is open, and the device is sound. -/
structure Session.Replying (session : Session) (position : ℕ) : Prop where
  ready : session.Ready
  sendfd_eq : session.sendfd = some (position : ℤ)
  inRange : position < 2 ^ 63
  stores : ∃ commands, Stores session.kernel commands

section Round

variable {session : Session} {round : Round} {position : ℕ}

/-- An answer is the content from the position of the reply stream on, which then stands behind
the content. -/
theorem Session.Replying.answer (h : session.Replying position) (hround : round.Undisturbed)
    {chunk : List UInt8} (hanswers : Answers session round chunk) :
    sentBytes (receiver.emit session round) =
        (readable (receiver.next session round).kernel).drop position ∧
      (receiver.next session round).kernel =
        (aesdWrite (round.writeCall chunk) session.kernel).1 ∧
      (receiver.next session round).Replying
        (max position (readable (receiver.next session round).kernel).length) := by
  obtain ⟨commands, hstores⟩ := h.stores
  have hcarries : round.Carries chunk := by
    rcases hround.recv with hclosed | ⟨other, hcarries⟩
    · exact absurd (hclosed.symm.trans hanswers.recv_eq) (by simp)
    · have hsame : other = chunk :=
        Recv.data.inj (hcarries.recv_eq.symm.trans hanswers.recv_eq)
      exact hsame ▸ hcarries
  have hwritten := hstores.aesdWrite (round.writeCall chunk)
  obtain ⟨hready, hkernel, -, -, hreply⟩ :=
    receiver_data h.ready hcarries hanswers.noRequest hround.fputs
  obtain ⟨hsendfd, hsent⟩ := hreply hanswers.newline_mem
  obtain ⟨hmoved, hbytes⟩ := sendfile_eq hwritten hround.copied hround.sends h.inRange
  have hbound := hwritten.length_content_lt
  rw [← h.sendfd_eq] at hmoved hbytes
  rw [hsent, hkernel, hbytes, readable_eq hwritten]
  refine ⟨rfl, rfl, hready, hsendfd.trans hmoved, ?_, ⟨_, hkernel ▸ hwritten⟩⟩
  exact Nat.max_lt.mpr ⟨h.inRange, by omega⟩

/-- A round that answers nothing does not move the reply stream. -/
theorem Session.Replying.silent (h : session.Replying position) (hround : round.Undisturbed)
    (hsilent : ∀ chunk, ¬ Answers session round chunk) :
    (receiver.next session round).running = true →
      (receiver.next session round).Replying position := by
  intro hrunning
  obtain ⟨commands, hstores⟩ := h.stores
  rcases hround.recv with hclosed | ⟨chunk, hcarries⟩
  · exact absurd hrunning (by rw [(receiver_closed h.ready hclosed).1]; exact Bool.false_ne_true)
  · cases hscan : sscanfSeekto chunk with
    | some seekto =>
      obtain ⟨hready, hkernel, hsendfd, -⟩ := receiver_seek h.ready hcarries hscan
      exact ⟨hready, hsendfd.trans h.sendfd_eq, h.inRange, ⟨commands, hkernel ▸ hstores⟩⟩
    | none =>
      obtain ⟨hready, hkernel, -, hquiet, -⟩ :=
        receiver_data h.ready hcarries hscan hround.fputs
      have hnone : newline ∉ chunk := fun hmem ↦
        hsilent chunk ⟨h.ready.running, hcarries.recv_eq, hscan, hmem⟩
      exact ⟨hready, (hquiet hnone).1.trans h.sendfd_eq, h.inRange,
        ⟨_, hkernel ▸ hstores.aesdWrite (round.writeCall chunk)⟩⟩

/-- Dropping a prefix changes nothing exactly when there is no prefix or nothing to drop. -/
theorem drop_eq_self_iff (bytes : List UInt8) (position : ℕ) :
    bytes.drop position = bytes ↔ position = 0 ∨ bytes = [] := by
  constructor
  · intro hdrop
    have hlength := congrArg List.length hdrop
    rw [List.length_drop] at hlength
    by_cases hzero : position = 0
    · exact Or.inl hzero
    · right
      rw [← List.length_eq_zero_iff]
      omega
  · rintro (hzero | hnil)
    · rw [hzero, List.drop_zero]
    · rw [hnil, List.drop_nil]

/-- A round replies in full exactly when it replies from the start. -/
theorem Session.Replying.repliesInFull_round_iff (h : session.Replying position)
    (hround : round.Undisturbed) :
    RepliesInFull session round ↔ RepliesFromStart session round := by
  have hchunk : ∀ chunk, Answers session round chunk →
      (sentBytes (receiver.emit session round) = readable (receiver.next session round).kernel ↔
        session.sendfd = some 0 ∨
          readable (aesdWrite (round.writeCall chunk) session.kernel).1 = []) := by
    intro chunk hanswers
    obtain ⟨hsent, hkernel, -⟩ := h.answer hround hanswers
    rw [hsent, drop_eq_self_iff, hkernel, h.sendfd_eq, Option.some_inj, Int.natCast_eq_zero]
  exact forall₂_congr hchunk

/-- The round asks for an answer if its chunk is received in the loop. -/
def Round.asksReply (round : Round) : Bool :=
  match round.recv with
  | .data chunk => (sscanfSeekto chunk).isNone && decide (newline ∈ chunk)
  | _ => false

theorem Round.Carries.asksReply_iff {chunk : List UInt8} (h : round.Carries chunk)
    (hrunning : session.running = true) :
    round.asksReply = true ↔ Answers session round chunk := by
  rw [Round.asksReply, h.recv_eq]
  dsimp only
  rw [Bool.and_eq_true, Option.isNone_iff_eq_none, decide_eq_true_eq]
  exact ⟨fun hboth ↦ ⟨hrunning, h.recv_eq, hboth.1, hboth.2⟩,
    fun hanswers ↦ ⟨hanswers.noRequest, hanswers.newline_mem⟩⟩

theorem Round.Carries.eq_of_answers {chunk other : List UInt8} (h : round.Carries chunk)
    (hother : Answers session round other) : other = chunk :=
  Recv.data.inj (hother.recv_eq.symm.trans h.recv_eq)

/-- The device serves the write of the round, and a search past the end of its block finds
nothing. -/
structure Saves (session : Session) (round : Round) : Prop where
  served : ∀ chunk, round.recv = .data chunk → sscanfSeekto chunk = none →
    Served (round.writeCall chunk) session.kernel
  overran : round.beyond = false

/-- Nothing of the pending command is lost or hides what is written behind it. -/
def Clean (kernel : Kernel) : Prop :=
  ∃ commands pending, Leaves kernel commands pending ∧ nul ∉ pending

/-- A command just committed can be read. -/
theorem content_concat_ne_nil (commands : List (List UInt8)) {command : List UInt8}
    (h : command ≠ []) : content (commands ++ [command]) ≠ [] := by
  have hheld : heldCommands (commands ++ [command]) =
      commands.drop (commands.length + 1 - maxWriteOperationsSupported) ++ [command] := by
    rw [heldCommands, window, List.length_append, List.length_singleton,
      List.drop_append_of_le_length (by unfold maxWriteOperationsSupported; omega)]
  rw [content, hheld, List.flatten_append, List.flatten_singleton]
  exact List.append_ne_nil_of_right_ne_nil _ h

/-- A saved chunk keeps the device clean, and one with a newline can be read. -/
theorem Clean.write {kernel : Kernel} (h : Clean kernel) {chunk : List UInt8}
    (hcarries : round.Carries chunk) (hserved : Served (round.writeCall chunk) kernel)
    (hoverran : round.beyond = false) :
    Clean (aesdWrite (round.writeCall chunk) kernel).1 ∧
      (newline ∈ chunk → readable (aesdWrite (round.writeCall chunk) kernel).1 ≠ []) := by
  obtain ⟨commands, pending, hleaves, hnul⟩ := h
  have hplain : nul ∉ pending ++ chunk := by
    rw [List.mem_append, not_or]
    exact ⟨hnul, hcarries.noNul⟩
  have hcomplete : (round.writeCall chunk).Complete := ⟨rfl, hoverran⟩
  obtain ⟨hcommits, hkeeps⟩ := hleaves.write hcomplete hserved
  rw [show (round.writeCall chunk).buf = chunk from rfl, stringOf_eq_self hplain] at hcommits hkeeps
  by_cases hnewline : newline ∈ pending ++ chunk
  · obtain ⟨-, hnext⟩ := hcommits hnewline
    refine ⟨⟨_, [], hnext, List.not_mem_nil⟩, fun _ ↦ ?_⟩
    rw [readable_eq hnext.stores]
    exact content_concat_ne_nil commands
      (List.append_ne_nil_of_right_ne_nil _ hcarries.nonempty)
  · exact ⟨⟨commands, pending ++ chunk, (hkeeps hnewline).2, hplain⟩,
      fun hmem ↦ absurd (List.mem_append_right pending hmem) hnewline⟩

/-- A round that saves its chunk completely keeps the device clean. -/
theorem Clean.next (hclean : Clean session.kernel) (hready : session.Ready)
    (hround : round.Undisturbed) {chunk : List UInt8} (hcarries : round.Carries chunk)
    (hsave : Saves session round) :
    (receiver.next session round).running = true ∧ Clean (receiver.next session round).kernel := by
  cases hscan : sscanfSeekto chunk with
  | some seekto =>
    obtain ⟨hnext, hkernel, -, -⟩ := receiver_seek hready hcarries hscan
    exact ⟨hnext.running, hkernel ▸ hclean⟩
  | none =>
    obtain ⟨hnext, hkernel, -⟩ := receiver_data hready hcarries hscan hround.fputs
    exact ⟨hnext.running, hkernel ▸ (hclean.write hcarries
      (hsave.served chunk hcarries.recv_eq hscan) hsave.overran).1⟩

/-- An answer with something to read is sent from the start exactly when the stream has not
moved. -/
theorem Session.Replying.repliesFromStart_round_iff (h : session.Replying position)
    {chunk : List UInt8} (hanswers : Answers session round chunk)
    (hreadable : readable (aesdWrite (round.writeCall chunk) session.kernel).1 ≠ []) :
    RepliesFromStart session round ↔ position = 0 := by
  have hstart : session.sendfd = some 0 ↔ position = 0 := by
    rw [h.sendfd_eq, Option.some_inj, Int.natCast_eq_zero]
  constructor
  · intro hfrom
    exact hstart.mp ((hfrom chunk hanswers).resolve_right hreadable)
  · intro hzero other _
    exact Or.inl (hstart.mpr hzero)

end Round

/-! ## Whole sessions -/

section Sessions

variable {session : Session} {rounds : List Round}

/-- A session of undisturbed rounds replies in full exactly when it always replies from the
start. -/
theorem meets_repliesInFull_iff {position : ℕ} (h : session.Replying position)
    (hrounds : ∀ round ∈ rounds, round.Undisturbed) :
    receiver.Meets RepliesInFull session rounds ↔
      receiver.Meets RepliesFromStart session rounds := by
  have hkeep : ∀ (session : Session) (round : Round),
      (session.running = true → ∃ position, session.Replying position) → round.Undisturbed →
      (receiver.next session round).running = true →
        ∃ position, (receiver.next session round).Replying position := by
    intro session round hsession hround hrunning
    cases hsession_running : session.running with
    | true =>
      obtain ⟨position, hreplying⟩ := hsession hsession_running
      by_cases hsilent : ∀ chunk, ¬ Answers session round chunk
      · exact ⟨position, hreplying.silent hround hsilent hrunning⟩
      · obtain ⟨chunk, hanswers⟩ := not_forall_not.mp hsilent
        exact ⟨_, (hreplying.answer hround hanswers).2.2⟩
    | false =>
      have hstay : receiver.next session round = session := by
        simp only [Machine.next, receiver, hsession_running, Bool.false_eq_true, if_false]
      rw [hstay, hsession_running] at hrunning
      exact absurd hrunning Bool.false_ne_true
  have hsame : ∀ (session : Session) (round : Round),
      (session.running = true → ∃ position, session.Replying position) → round.Undisturbed →
      (RepliesInFull session round ↔ RepliesFromStart session round) := by
    intro session round hsession hround
    cases hrunning : session.running with
    | true =>
      obtain ⟨position, hreplying⟩ := hsession hrunning
      exact hreplying.repliesInFull_round_iff hround
    | false =>
      have hstopped : ∀ chunk, ¬ Answers session round chunk := fun chunk hanswers ↦
        Bool.false_ne_true (hrunning.symm.trans hanswers.running)
      exact ⟨fun _ chunk hanswers ↦ absurd hanswers (hstopped chunk),
        fun _ chunk hanswers ↦ absurd hanswers (hstopped chunk)⟩
  exact Machine.meets_iff_meets hkeep hsame (fun _ ↦ ⟨position, h⟩)
    (Machine.meets_of_forall_mem hrounds session)

/-- The rounds in front of the end of the stream. -/
def beforeClose (rounds : List Round) : List Round :=
  rounds.takeWhile fun round ↦ round.recv ≠ .closed

theorem beforeClose_cons_of_closed {round : Round} (hclosed : round.recv = .closed) :
    beforeClose (round :: rounds) = [] :=
  List.takeWhile_cons_of_neg (by simp [hclosed])

theorem beforeClose_cons_of_carries {round : Round} {chunk : List UInt8}
    (hcarries : round.Carries chunk) :
    beforeClose (round :: rounds) = round :: beforeClose rounds :=
  List.takeWhile_cons_of_pos (by simp [hcarries.recv_eq])

/-- A loop that has been left answers nothing. -/
theorem meets_repliesFromStart_of_left (hleft : session.running = false) :
    receiver.Meets RepliesFromStart session rounds := by
  induction rounds with
  | nil => trivial
  | cons round rest ih =>
    have hstay : receiver.next session round = session := by
      simp only [Machine.next, receiver, hleft, Bool.false_eq_true, if_false]
    refine ⟨fun chunk hanswers ↦ ?_, ?_⟩
    · exact absurd (hleft.symm.trans hanswers.running) Bool.false_ne_true
    · rw [hstay]
      exact ih

/-- Where every chunk is saved completely, a session replies from the start as long as its stream
has not moved and at most one chunk asks for a reply. -/
theorem meets_repliesFromStart_iff {position : ℕ} (h : session.Replying position)
    (hclean : Clean session.kernel) (hrounds : ∀ round ∈ rounds, round.Undisturbed)
    (hsaves : receiver.Meets Saves session (beforeClose rounds)) :
    receiver.Meets RepliesFromStart session rounds ↔
      (beforeClose rounds).countP Round.asksReply + min position 1 ≤ 1 := by
  induction rounds generalizing session position with
  | nil => exact ⟨fun _ ↦ by simp [beforeClose], fun _ ↦ trivial⟩
  | cons round rest ih =>
    rw [List.forall_mem_cons] at hrounds
    obtain ⟨hround, hrest⟩ := hrounds
    rcases hround.recv with hclosed | ⟨chunk, hcarries⟩
    · -- the loop is left, and what comes behind is not looked at
      rw [beforeClose_cons_of_closed hclosed, List.countP_nil]
      refine ⟨fun _ ↦ by omega, fun _ ↦ ⟨fun chunk hanswers ↦ ?_, ?_⟩⟩
      · exact absurd (hclosed.symm.trans hanswers.recv_eq) (by simp)
      · exact meets_repliesFromStart_of_left (receiver_closed h.ready hclosed).1
    · rw [beforeClose_cons_of_carries hcarries] at hsaves ⊢
      obtain ⟨hsave, hsaves⟩ := hsaves
      rw [List.countP_cons]
      by_cases hasks : round.asksReply = true
      · -- the answer moves the stream, because the chunk just saved can be read
        have hanswers := (hcarries.asksReply_iff h.ready.running).mp hasks
        obtain ⟨-, hkernel, hnext⟩ := h.answer hround hanswers
        obtain ⟨hclean', hreadable⟩ := hclean.write hcarries
          (hsave.served chunk hcarries.recv_eq hanswers.noRequest) hsave.overran
        have hnonempty := List.length_pos_iff.mpr (hreadable hanswers.newline_mem)
        have hhead : RepliesFromStart session round ↔ position = 0 :=
          h.repliesFromStart_round_iff hanswers (hreadable hanswers.newline_mem)
        rw [← hkernel] at hclean' hnonempty
        have htail := ih hnext hclean' hrest hsaves
        rw [Machine.Meets, hhead, htail, if_pos hasks]
        omega
      · -- nothing is sent, and the stream stays where it is
        have hsilent : ∀ other, ¬ Answers session round other := by
          intro other hother
          rw [hcarries.eq_of_answers hother] at hother
          exact hasks ((hcarries.asksReply_iff h.ready.running).mpr hother)
        have hhead : RepliesFromStart session round :=
          fun other hother ↦ absurd hother (hsilent other)
        have hnext := hclean.next h.ready hround hcarries hsave
        have htail := ih (h.silent hround hsilent hnext.1) hnext.2 hrest hsaves
        rw [Machine.Meets, htail, if_neg hasks, Nat.add_zero]
        exact and_iff_right hhead

/-- **Exact condition of full replies.** A worker meets a device after any run. As long as no
call but those of the device fails, it replies to every saved chunk with a newline by everything
then readable if and only if at each of them its reply stream has not moved yet or nothing is
readable. Where the device saves every chunk completely, this holds if and only if at most one
chunk in front of the end of the stream asks for a reply. -/
theorem repliesInFull_iff (calls : List Call) (worker : Worker)
    (hopens : worker.sendfdOpens = true) (hrounds : ∀ round ∈ worker.rounds, round.Undisturbed) :
    (receiver.Meets RepliesInFull (worker.enter (device.run System.loaded calls).kernel)
        worker.rounds ↔
      receiver.Meets RepliesFromStart (worker.enter (device.run System.loaded calls).kernel)
        worker.rounds) ∧
    (Clean (device.run System.loaded calls).kernel →
      receiver.Meets Saves (worker.enter (device.run System.loaded calls).kernel)
        (beforeClose worker.rounds) →
      (receiver.Meets RepliesInFull (worker.enter (device.run System.loaded calls).kernel)
          worker.rounds ↔ (beforeClose worker.rounds).countP Round.asksReply ≤ 1)) := by
  have hreplying : (worker.enter (device.run System.loaded calls).kernel).Replying 0 :=
    { ready := worker.enter_ready _
      sendfd_eq := by
        rw [Worker.enter, if_pos hopens]
        rfl
      inRange := by decide
      stores := ⟨_, stores_run calls⟩ }
  have hiff := meets_repliesInFull_iff hreplying hrounds
  exact ⟨hiff, fun hclean hsaves ↦
    hiff.trans (meets_repliesFromStart_iff hreplying hclean hrounds hsaves)⟩

theorem undisturbed_smooth {chunks : List (List UInt8)}
    (h : ∀ chunk ∈ chunks, chunk ≠ [] ∧ chunk.length ≤ maxBuffer ∧ nul ∉ chunk) :
    ∀ round ∈ (Worker.smooth chunks).rounds, round.Undisturbed := by
  intro round hround
  simp only [Worker.smooth, List.mem_append, List.mem_map, List.mem_singleton] at hround
  rcases hround with ⟨chunk, hchunk, rfl⟩ | rfl
  · obtain ⟨hne, hfits, hnul⟩ := h chunk hchunk
    exact ⟨Or.inr ⟨chunk, rfl, hne, hfits, hnul⟩, rfl, fun _ ↦ rfl, fun _ ↦ rfl⟩
  · exact ⟨Or.inl rfl, rfl, fun _ ↦ rfl, fun _ ↦ rfl⟩

/-- Behind a seek request and data without a newline, the one line of a connection is answered in
full by a device that held two commands before. -/
theorem repliesInFull_sample :
    receiver.Meets RepliesInFull
      ((Worker.smooth sampleChunks).enter (device.run System.loaded sampleCalls).kernel)
      (Worker.smooth sampleChunks).rounds := by
  have hclean : Clean (device.run System.loaded sampleCalls).kernel :=
    ⟨_, [], ⟨stores_run sampleCalls, Or.inl rfl, by decide +kernel⟩, List.not_mem_nil⟩
  have hsaves : receiver.Meets Saves
      ((Worker.smooth sampleChunks).enter (device.run System.loaded sampleCalls).kernel)
      (beforeClose (Worker.smooth sampleChunks).rounds) := by
    refine ⟨⟨fun chunk hrecv _ ↦ ?_, rfl⟩, ⟨fun chunk hrecv _ ↦ ?_, rfl⟩,
      ⟨fun chunk hrecv _ ↦ ?_, rfl⟩, trivial⟩
    all_goals
      obtain rfl := Recv.data.inj hrecv
      decide +kernel
  exact ((repliesInFull_iff sampleCalls (.smooth sampleChunks) rfl
    (undisturbed_smooth (by decide))).2 hclean hsaves).mpr (by decide +kernel)

/-- The second line of a connection is answered by itself, although the first is readable too. -/
theorem second_reply_not_in_full :
    ¬ receiver.Meets RepliesInFull
      ((Worker.smooth [[97, newline], [98, newline]]).enter (device.run System.loaded []).kernel)
      (Worker.smooth [[97, newline], [98, newline]]).rounds := by
  rintro ⟨-, hsecond, -⟩
  have hfull := hsecond [98, newline] ⟨by decide +kernel, rfl, by decide, by decide⟩
  exact absurd hfull (by decide +kernel)

end Sessions

end Aesd.Server
