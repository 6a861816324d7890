import Aesd.Foundation.Ledger
import Aesd.Foundation.Pieces
import Aesd.Server.Chunks

/-!
# What a worker gives back

Every call of a worker gives back what it takes, whatever it returns, but for one: `sendfile`
keeps its buffer where a send comes back short. So what is left after the receive loop depends on
the sends of its replies alone, and what is left after `recieve_text` on these and on the calls in
front of the loop, each of which has a failure that ends, or spoils, everything that follows.
-/

namespace Aesd.Server

open Foundation Driver

/-! ## The ledger of a resource -/

def Event.takes (resource : Resource) : Event → Bool
  | .acquired other => other = resource
  | _ => false

def Event.gives (resource : Resource) : Event → Bool
  | .released other => other = resource
  | _ => false

/-- The events leave the resource out so much more often than it was. -/
abbrev Resource.Left (resource : Resource) (events : List Event) (left : ℕ) : Prop :=
  Adds (Event.takes resource) (Event.gives resource) events left

section Calls

variable (resource : Resource)

/-- Taking something, events that leave nothing out, and giving it back. -/
theorem left_enclosed (held : Resource) {events : List Event} (h : resource.Left events 0) :
    resource.Left (.acquired held :: events ++ [.released held]) 0 := by
  by_cases hheld : held = resource
  · exact h.enclosed (decide_eq_true hheld) rfl (decide_eq_true hheld)
  · have hlast : resource.Left [.released held] 0 :=
      Adds.nil.skip rfl (decide_eq_false hheld)
    exact (h.append hlast).skip (decide_eq_false hheld) rfl

theorem left_savetofile (round : Round) (string : List UInt8) (kernel : Kernel) :
    resource.Left (savetofile round string kernel).2 0 := by
  have hlocked : resource.Left [.acquired .filemutex, .released .filemutex] 0 :=
    left_enclosed resource .filemutex Adds.nil
  unfold savetofile
  split
  · exact hlocked.append (Adds.nil.skip rfl rfl)
  · exact hlocked

/-- A relay gives back what it takes around each send. -/
theorem left_relay {read : ℕ → ℤ → List UInt8 × ℤ} {around : Event → List Event}
    (haround : ∀ bytes complete, resource.Left (around (.sent bytes complete)) 0)
    (sends : ℕ → Bool) (steps k : ℕ) (fPos : ℤ) :
    resource.Left (relay read around sends steps k fPos).1 0 := by
  induction steps generalizing k fPos with
  | zero => exact Adds.nil
  | succ steps ih =>
    simp only [relay]
    split
    · exact Adds.nil
    · split
      · exact (haround _ _).append (ih _ _)
      · exact haround _ _

theorem left_sent (bytes : List UInt8) (complete : Bool) :
    resource.Left [.sent bytes complete] 0 := Adds.nil.skip rfl rfl

theorem left_seekReply (kernel : Kernel) (round : Round) (seekto : AesdSeekto) :
    resource.Left (seekReply kernel round seekto) 0 := by
  have hrequested : ∀ (ret : ℤ) {events : List Event}, resource.Left events 0 →
      resource.Left
        (.acquired .deviceFd :: (.requested seekto ret :: events) ++ [.released .deviceFd]) 0 :=
    fun ret _ hevents ↦ left_enclosed resource .deviceFd (hevents.skip rfl rfl)
  unfold seekReply
  split
  · dsimp only
    split
    · exact hrequested _ Adds.nil
    · exact hrequested _ (left_relay resource (left_sent resource) _ _ _ _)
  · exact Adds.nil

end Calls

/-! ## Replies -/

section Replies

def replyPiece (kernel : Kernel) (round : Round) (k : ℕ) (fPos : ℤ) : List UInt8 × ℤ :=
  fread kernel (round.copied k) maxBuffer maxBuffer fPos

/-- Each send behind a reading that yields something is complete. -/
def AllSent (read : ℕ → ℤ → List UInt8 × ℤ) (sends : ℕ → Bool) (fPos : ℤ) : Prop :=
  ∀ k, (∀ j ≤ k, pieceAt read fPos j ≠ []) → sends k = true

/-- A relay ends because nothing comes exactly when its sends are complete. -/
theorem relay_ended_iff (read : ℕ → ℤ → List UInt8 × ℤ) (around : Event → List Event)
    (sends : ℕ → Bool) (steps k : ℕ) (fPos : ℤ) :
    (relay read around sends steps k fPos).2.2 = true ↔
      ∀ j < steps, (∀ i ≤ j, pieceAt (fun number ↦ read (k + number)) fPos i ≠ []) →
        sends (k + j) = true := by
  induction steps generalizing k fPos with
  | zero => exact ⟨fun _ _ hj ↦ absurd hj (Nat.not_lt_zero _), fun _ ↦ rfl⟩
  | succ steps ih =>
    have hshift : (fun number ↦ read (k + (number + 1))) = fun number ↦ read (k + 1 + number) := by
      funext number
      congr 1
      omega
    simp only [relay]
    by_cases hnil : (read k fPos).1 = []
    · rw [if_pos hnil]
      exact ⟨fun _ j _ hpieces ↦ absurd hnil (hpieces 0 (Nat.zero_le j)), fun _ ↦ rfl⟩
    · rw [if_neg hnil]
      by_cases hsend : sends k = true
      · rw [if_pos hsend, ih]
        constructor
        · intro hlater j hj hpieces
          cases j with
          | zero => exact hsend
          | succ j =>
            have hsent := hlater j (by omega) fun i hi ↦ by
              rw [← hshift]
              have hpiece := hpieces (i + 1) (by omega)
              rwa [pieceAt_succ] at hpiece
            rwa [Nat.add_assoc, Nat.add_comm 1 j] at hsent
        · intro hall j hj hpieces
          rw [Nat.add_assoc, Nat.add_comm 1 j]
          apply hall (j + 1) (by omega)
          intro i hi
          cases i with
          | zero => exact hnil
          | succ i =>
            rw [pieceAt_succ, hshift]
            exact hpieces i (by omega)
      · rw [if_neg hsend]
        refine ⟨fun hfalse ↦ absurd hfalse Bool.false_ne_true, fun hall ↦ ?_⟩
        refine absurd (hall 0 (Nat.succ_pos steps) fun i hi ↦ ?_) hsend
        obtain rfl := Nat.le_zero.mp hi
        exact hnil

variable {kernel : Kernel} {commands : List (List UInt8)}

theorem fread_uncopied (kernel : Kernel) (steps want : ℕ) (fPos : ℤ) :
    fread kernel false steps want fPos = ([], fPos) := by
  cases steps with
  | zero => rfl
  | succ steps =>
    have hread : (aesdRead kernel want false fPos).1.ret ≤ 0 ∧
        (aesdRead kernel want false fPos).2 = fPos := by
      unfold aesdRead
      split
      · exact ⟨le_rfl, rfl⟩
      · have hfault : -efault ≤ 0 := by decide
        exact ⟨hfault, rfl⟩
    simp only [fread, if_pos hread.1, hread.2]

theorem inRange_fread (h : Stores kernel commands) (copied : Bool) (steps want : ℕ) {fPos : ℤ}
    (hfPos : InRange fPos) : InRange (fread kernel copied steps want fPos).2 := by
  induction steps generalizing want fPos with
  | zero => exact hfPos
  | succ steps ih =>
    have hnext := h.inRange_aesdRead hfPos want copied
    simp only [fread]
    split
    · exact hnext
    · exact ih _ hnext

/-- The readings of a reply follow the content. -/
theorem follows_replyPiece (h : Stores kernel commands) (round : Round) :
    Follows (replyPiece kernel round) (fun fPos ↦ (content commands).drop fPos.toNat) InRange where
  keeps := fun _ _ hfPos ↦ inRange_fread h _ _ _ hfPos
  splits := by
    intro k fPos hfPos
    unfold replyPiece
    cases round.copied k with
    | false => simp only [fread_uncopied, List.nil_append]
    | true =>
      obtain ⟨position, rfl⟩ := Int.eq_ofNat_of_zero_le hfPos.1
      have hlt := hfPos.2
      simp only [fread_eq h le_rfl (show position < 2 ^ 63 by omega), Int.toNat_natCast]
      exact (piece_append_drop (List.take_prefix _ _)).symm

/-- The steps of a relay are enough for all of its sends. -/
theorem allSent_iff (h : Stores kernel commands) (round : Round) {fPos : ℤ}
    (hfPos : InRange fPos) :
    (relay (replyPiece kernel round) (fun send ↦ [.acquired .sendmutex, send, .released .sendmutex])
        round.sends (relaySteps kernel) 0 fPos).2.2 = true ↔
      AllSent (replyPiece kernel round) round.sends fPos := by
  rw [relay_ended_iff]
  simp only [Nat.zero_add]
  refine ⟨fun hbounded k hpieces ↦ hbounded k ?_ hpieces, fun hsent j _ hpieces ↦ hsent j hpieces⟩
  have hle : k + 1 ≤ ((content commands).drop fPos.toNat).length :=
    (follows_replyPiece h round).le_length_left hfPos
      fun number hnumber ↦ hpieces number (Nat.le_of_lt_succ hnumber)
  rw [List.length_drop] at hle
  rw [relaySteps_eq h]
  omega

/-- A reply gives back its buffer exactly when its sends are complete. -/
theorem left_sendfile (h : Stores kernel commands) (resource : Resource) (round : Round)
    {fPos : ℤ} (hfPos : InRange fPos) :
    ∃ left, resource.Left (sendfile kernel round (some fPos)).2 left ∧
      (left = 0 ↔
        (resource = .sendBuffer → AllSent (replyPiece kernel round) round.sends fPos)) := by
  have hended := allSent_iff h round hfPos
  have hrelay : resource.Left (relay (replyPiece kernel round)
      (fun send ↦ [.acquired .sendmutex, send, .released .sendmutex])
      round.sends (relaySteps kernel) 0 fPos).1 0 :=
    left_relay resource (fun bytes complete ↦ left_enclosed resource .sendmutex
      (left_sent resource bytes complete)) _ _ _ _
  have hevents : (sendfile kernel round (some fPos)).2 =
      .acquired .sendBuffer :: (relay (replyPiece kernel round)
        (fun send ↦ [.acquired .sendmutex, send, .released .sendmutex])
        round.sends (relaySteps kernel) 0 fPos).1 ++
          if (relay (replyPiece kernel round)
            (fun send ↦ [.acquired .sendmutex, send, .released .sendmutex])
            round.sends (relaySteps kernel) 0 fPos).2.2 = true then [.released .sendBuffer]
          else [] := rfl
  rw [hevents]
  by_cases hsent : AllSent (replyPiece kernel round) round.sends fPos
  · rw [if_pos (hended.mpr hsent)]
    exact ⟨0, left_enclosed resource .sendBuffer hrelay, fun _ _ ↦ hsent, fun _ ↦ rfl⟩
  · rw [if_neg fun hyes ↦ hsent (hended.mp hyes), List.append_nil]
    by_cases hbuffer : resource = .sendBuffer
    · refine ⟨1, hrelay.taken (decide_eq_true hbuffer.symm), ?_⟩
      exact ⟨fun hone ↦ absurd hone Nat.one_ne_zero, fun hyes ↦ absurd (hyes hbuffer) hsent⟩
    · refine ⟨0, hrelay.skip (decide_eq_false (Ne.symm hbuffer)) rfl, ?_⟩
      exact ⟨fun _ hyes ↦ absurd hyes hbuffer, fun _ ↦ rfl⟩

end Replies

end Aesd.Server
