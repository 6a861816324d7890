import Aesd.Foundation.Pieces
import Aesd.Server.Session

/-!
# The reply to a seek request

The worker answers a seek request by reading on from the position the request set until a read
returns nothing, and sending what it reads. Each read searches the ring anew and stops at the end of
a command, so how many reads a reply takes depends on the commands. Whatever the counts, the loop
ends, and what it forwards is the content from the position on.
-/

namespace Aesd.Server

open Foundation Driver

section Loop

variable {kernel : Kernel} {commands : List (List UInt8)} {counts : ℕ → ℕ}

/-- One read of the loop: the bytes it yields and the position it leaves. -/
def readPiece (kernel : Kernel) (counts : ℕ → ℕ) (number : ℕ) (fPos : ℤ) : List UInt8 × ℤ :=
  ((aesdRead kernel (counts number) true fPos).1.data,
    (aesdRead kernel (counts number) true fPos).2)

/-- What the read with this number returns when the loop goes on for so long. -/
def loopRead (kernel : Kernel) (counts : ℕ → ℕ) (fPos : ℤ) (number : ℕ) : Result :=
  (aesdRead kernel (counts number) true (placeAfter (readPiece kernel counts) fPos number)).1

/-- Reads with positive counts use up the content. -/
theorem depletes_readPiece (h : Stores kernel commands) (hcounts : ∀ number, 0 < counts number) :
    Depletes (readPiece kernel counts) (fun fPos ↦ (content commands).drop fPos.toNat) InRange where
  keeps := fun _ _ hfPos ↦ h.inRange_aesdRead hfPos _ _
  splits := by
    intro number fPos hfPos
    obtain ⟨position, rfl⟩ := Int.eq_ofNat_of_zero_le hfPos.1
    have hposition : position < 2 ^ 63 := by
      have hlt := hfPos.2
      omega
    obtain ⟨piece, hread, hpiece, -, -⟩ := h.aesdRead_eq hposition (counts number)
    simp only [readPiece, hread, Int.toNat_natCast]
    exact (piece_append_drop hpiece).symm
  ends := by
    intro number fPos hfPos hnil
    obtain ⟨position, rfl⟩ := Int.eq_ofNat_of_zero_le hfPos.1
    have hposition : position < 2 ^ 63 := by
      have hlt := hfPos.2
      omega
    obtain ⟨piece, hread, -, -, hend⟩ := h.aesdRead_eq hposition (counts number)
    simp only [readPiece, hread] at hnil
    exact List.drop_of_length_le (hend (hcounts number) hnil)

/-- A read of the loop returns the number of bytes it yields. -/
theorem ret_loopRead (h : Stores kernel commands) {fPos : ℤ} (hfPos : InRange fPos)
    (counts : ℕ → ℕ) (number : ℕ) :
    (loopRead kernel counts fPos number).ret =
      (pieceAt (readPiece kernel counts) fPos number).length := by
  have hplace : InRange (placeAfter (readPiece kernel counts) fPos number) := by
    induction number with
    | zero => exact hfPos
    | succ number ih => exact h.inRange_aesdRead ih _ _
  obtain ⟨position, hposition⟩ := Int.eq_ofNat_of_zero_le hplace.1
  have hlt := hplace.2
  obtain ⟨piece, hread, -⟩ :=
    h.aesdRead_eq (show position < 2 ^ 63 by omega) (counts number)
  simp only [loopRead, pieceAt, readPiece, hposition, hread]

/-- The loop ends, after no more reads than there are bytes, and yields what is left. -/
theorem loopRead_ends (h : Stores kernel commands) (hcounts : ∀ number, 0 < counts number)
    {fPos : ℤ} (hfPos : InRange fPos) :
    ∃ ends ≤ ((content commands).drop fPos.toNat).length,
      (∀ number < ends, 0 < (loopRead kernel counts fPos number).ret) ∧
      (loopRead kernel counts fPos ends).ret = 0 ∧
      ((List.range ends).flatMap fun number ↦ (loopRead kernel counts fPos number).data) =
        (content commands).drop fPos.toNat := by
  obtain ⟨ends, hle, hbefore, hend, hpieces⟩ :=
    (depletes_readPiece h hcounts).exists_end hfPos
  refine ⟨ends, hle, fun number hnumber ↦ ?_, ?_, hpieces⟩
  · rw [ret_loopRead h hfPos]
    exact Int.natCast_pos.mpr (List.length_pos_iff.mpr (hbefore number hnumber))
  · rw [ret_loopRead h hfPos, hend]
    rfl

theorem serves_readPiece (h : Stores kernel commands) (hcounts : ∀ number, 0 < counts number) :
    Serves (content commands) (readPiece kernel counts) := by
  intro number position hposition
  obtain ⟨piece, hread, hpiece, -, hend⟩ := h.aesdRead_eq hposition (counts number)
  exact ⟨piece, by simp only [readPiece, hread], hpiece, hend (hcounts number)⟩

/-- The loop of the worker forwards what is left. -/
theorem sentBytes_relay_readPiece (h : Stores kernel commands)
    (hcounts : ∀ number, 0 < counts number) {sends : ℕ → Bool} (hsends : ∀ k, sends k = true)
    {fPos : ℤ} (hfPos : InRange fPos) :
    sentBytes (relay (readPiece kernel counts) (fun send ↦ [send]) sends (relaySteps kernel) 0
        fPos).1 = (content commands).drop fPos.toNat := by
  have hbound := h.length_content_lt
  obtain ⟨position, rfl⟩ := Int.eq_ofNat_of_zero_le hfPos.1
  have hlt := hfPos.2
  have hsteps : (content commands).length < position + relaySteps kernel := by
    rw [relaySteps_eq h]
    omega
  obtain ⟨events, hrelay, hsent⟩ := relay_eq (serves_readPiece h hcounts) sendOnly_plain hsends
    (hbound.trans (by decide)) 0 (show position < 2 ^ 63 by omega) hsteps
  rw [hrelay, Int.toNat_natCast]
  exact hsent

/-- The reply to a successful request is the content from the position it set on. -/
theorem sentBytes_seekReply (h : Stores kernel commands) {round : Round}
    (hopens : round.deviceOpens = true) (hcopied : ∀ k, round.copied k = true)
    (hsends : ∀ k, round.sends k = true) {seekto : AesdSeekto}
    (hret : 0 ≤ (aesdIoctl kernel.dev 0 aesdcharIocseekto (some seekto)).1) :
    sentBytes (seekReply kernel round seekto) =
      (content commands).drop
        (aesdIoctl kernel.dev 0 aesdcharIocseekto (some seekto)).2.toNat := by
  have hrange := h.inRange_aesdIoctl inRange_zero aesdcharIocseekto (some seekto)
  have hrelay := sentBytes_relay_readPiece h (fun _ ↦ show 0 < maxBuffer by decide) hsends hrange
  have hread : readPiece kernel (fun _ ↦ maxBuffer) = fun k fPos ↦
      ((aesdRead kernel maxBuffer (round.copied k) fPos).1.data,
        (aesdRead kernel maxBuffer (round.copied k) fPos).2) := by
    funext k fPos
    rw [readPiece, hcopied k]
  simp only [seekReply, hopens, if_true, if_neg (Int.not_lt.mpr hret), ← hread]
  rw [sentBytes_append, sentBytes_append, hrelay]
  exact List.append_nil _

end Loop

/-- **Reading until nothing comes yields the rest.** After every run of the device, from every
position and for every sequence of positive counts: repeated reads come to a first one that
returns 0, the reads before it yield the content from the position on, and the loop of the worker
sends exactly this. So does the reply to every seek request that succeeds. -/
theorem read_loop_forwards (calls : List Call) :
    (∀ (counts : ℕ → ℕ) (fPos : ℤ), (∀ number, 0 < counts number) → InRange fPos →
      (∃ ends ≤ ((content (commits System.loaded calls)).drop fPos.toNat).length,
        (∀ number < ends,
          0 < (loopRead (device.run System.loaded calls).kernel counts fPos number).ret) ∧
        (loopRead (device.run System.loaded calls).kernel counts fPos ends).ret = 0 ∧
        ((List.range ends).flatMap fun number ↦
            (loopRead (device.run System.loaded calls).kernel counts fPos number).data) =
          (content (commits System.loaded calls)).drop fPos.toNat) ∧
      sentBytes (relay (readPiece (device.run System.loaded calls).kernel counts)
          (fun send ↦ [send]) (fun _ ↦ true)
          (relaySteps (device.run System.loaded calls).kernel) 0 fPos).1 =
        (content (commits System.loaded calls)).drop fPos.toNat) ∧
    (∀ (round : Round) (seekto : AesdSeekto), round.deviceOpens = true →
      (∀ k, round.copied k = true) → (∀ k, round.sends k = true) →
      0 ≤ (aesdIoctl (device.run System.loaded calls).kernel.dev 0 aesdcharIocseekto
        (some seekto)).1 →
      sentBytes (seekReply (device.run System.loaded calls).kernel round seekto) =
        (content (commits System.loaded calls)).drop
          (aesdIoctl (device.run System.loaded calls).kernel.dev 0 aesdcharIocseekto
            (some seekto)).2.toNat) := by
  have hstores := stores_run calls
  constructor
  · intro counts fPos hcounts hfPos
    exact ⟨loopRead_ends hstores hcounts hfPos,
      sentBytes_relay_readPiece hstores hcounts (fun _ ↦ rfl) hfPos⟩
  · intro round seekto hopens hcopied hsends hret
    exact sentBytes_seekReply hstores hopens hcopied hsends hret

end Aesd.Server
