import Aesd.Driver.Read
import Mathlib.Order.Bounds.Defs

/-!
# The seekable and the readable range

`aesd_llseek` adds in wrapping 64-bit arithmetic, converts between signed and unsigned words, and
compares with the total it sums up over the slots. A sum that wraps becomes negative and is turned
down, so the test is one on the exact sum. The total is also where reading ends.
-/

namespace Aesd.Driver

open Foundation

section Llseek

/-- The exact sum of the base that `whence` names and the offset. -/
def seekTarget (total : ℕ) (fPos offset whence : ℤ) : Option ℤ :=
  if whence = seekSet then some offset
  else if whence = seekCur then some (fPos + offset)
  else if whence = seekEnd then some (total + offset)
  else none

/-- What a seek is to do: move to the exact sum where this is a position from the start to the end
of the content, and otherwise fail and move nothing. -/
structure SeeksExactly (total : ℕ) (fPos : ℤ) (offset : Int64) (whence ret fPos' : ℤ) :
    Prop where
  succeeds_iff : 0 ≤ ret ↔
    ∃ sum, seekTarget total fPos offset.toInt whence = some sum ∧ 0 ≤ sum ∧ sum ≤ total
  moves : 0 ≤ ret → seekTarget total fPos offset.toInt whence = some ret ∧ fPos' = ret
  fails : ret < 0 → ret = -einval ∧ fPos' = fPos

variable {kernel : Kernel} {commands : List (List UInt8)}

/-- The last test of `aesd_llseek`, on the word of an exact sum. -/
theorem sought_eq {sum : ℤ} {total : ℕ} (fPos : ℤ) (hge : -2 ^ 63 ≤ sum) (hlt : sum < 2 ^ 64)
    (htotal : total < 2 ^ 63) :
    (if toI64 sum < 0 ∨ toU64 (toI64 sum) > total then (-einval, fPos)
      else (toI64 sum, toI64 sum)) =
      if 0 ≤ sum ∧ sum ≤ total then (sum, sum) else (-einval, fPos) := by
  have hmem := toI64_mem_iff hge hlt (show (total : ℤ) < 2 ^ 63 by omega)
  have hword : toI64 sum < 2 ^ 63 := by
    unfold toI64
    omega
  by_cases hinside : 0 ≤ sum ∧ sum ≤ total
  · have hfits : toI64 sum = sum := toI64_eq hge (by omega)
    have hunsigned : toU64 sum = sum.toNat := toU64_eq hinside.1 (by omega)
    rw [if_pos hinside, hfits, hunsigned, if_neg (by omega)]
  · rw [if_neg hinside]
    apply if_pos
    by_cases hneg : toI64 sum < 0
    · exact Or.inl hneg
    · have hunsigned : toU64 (toI64 sum) = (toI64 sum).toNat := toU64_eq (by omega) (by omega)
      rw [← hmem] at hinside
      rw [hunsigned]
      omega

/-- A seek moves to the exact sum if this is inside the content. -/
theorem Stores.aesdLlseek_eq (h : Stores kernel commands) {fPos : ℤ} (hfPos : InRange fPos)
    (offset : Int64) (whence : ℤ) :
    aesdLlseek kernel.dev fPos offset whence =
      match seekTarget (content commands).length fPos offset.toInt whence with
      | none => (-einval, fPos)
      | some sum =>
        if 0 ≤ sum ∧ sum ≤ (content commands).length then (sum, sum) else (-einval, fPos) := by
  have htotal := h.length_content_lt
  have hge := offset.le_toInt
  have hlt := offset.toInt_lt
  obtain ⟨hnonneg, hposition⟩ := hfPos
  unfold aesdLlseek seekTarget
  simp only [h.totalSize_eq]
  by_cases hset : whence = seekSet
  · have hword : toI64 offset.toInt = offset.toInt := toI64_eq hge hlt
    have hsought := sought_eq fPos hge (by omega) (htotal.trans (by decide))
    rw [hword] at hsought
    simp only [if_pos hset]
    exact hsought
  · by_cases hcur : whence = seekCur
    · simp only [if_neg hset, if_pos hcur]
      exact sought_eq fPos (by omega) (by omega) (htotal.trans (by decide))
    · by_cases hend : whence = seekEnd
      · simp only [if_neg hset, if_neg hcur, if_pos hend]
        exact sought_eq fPos (by omega) (by omega) (htotal.trans (by decide))
      · simp only [if_neg hset, if_neg hcur, if_neg hend]

theorem Stores.seeksExactly (h : Stores kernel commands) {fPos : ℤ} (hfPos : InRange fPos)
    (offset : Int64) (whence : ℤ) :
    SeeksExactly (content commands).length fPos offset whence
      (aesdLlseek kernel.dev fPos offset whence).1
      (aesdLlseek kernel.dev fPos offset whence).2 := by
  rw [h.aesdLlseek_eq hfPos]
  have hfail : ¬ 0 ≤ -einval := by decide
  cases htarget : seekTarget (content commands).length fPos offset.toInt whence with
  | none =>
    refine ⟨⟨fun hret ↦ absurd hret hfail, ?_⟩, fun hret ↦ absurd hret hfail,
      fun _ ↦ ⟨rfl, rfl⟩⟩
    rintro ⟨sum, hsum, -⟩
    exact absurd (htarget.symm.trans hsum) (Option.some_ne_none sum).symm
  | some sum =>
    dsimp only
    by_cases hinside : 0 ≤ sum ∧ sum ≤ (content commands).length
    · rw [if_pos hinside]
      exact ⟨⟨fun _ ↦ ⟨sum, htarget, hinside⟩, fun _ ↦ hinside.1⟩, fun _ ↦ ⟨htarget, rfl⟩,
        fun hneg ↦ absurd hinside.1 (Int.not_le.mpr hneg)⟩
    · rw [if_neg hinside]
      refine ⟨⟨fun hret ↦ absurd hret hfail, ?_⟩, fun hret ↦ absurd hret hfail,
        fun _ ↦ ⟨rfl, rfl⟩⟩
      rintro ⟨other, hother, hrange⟩
      rw [htarget, Option.some_inj] at hother
      exact absurd (hother ▸ hrange) hinside

/-- Reading with a positive count returns nothing from the end of the content on, and not
before. -/
theorem Stores.aesdRead_ret_eq_zero_iff (h : Stores kernel commands) {position count : ℕ}
    (hposition : position < 2 ^ 63) (hcount : 0 < count) (copied : Bool) :
    (aesdRead kernel count copied position).1.ret = 0 ↔
      (content commands).length ≤ position := by
  by_cases hpast : (content commands).length ≤ position
  · rw [h.aesdRead_past hposition hpast]
    exact ⟨fun _ ↦ hpast, fun _ ↦ rfl⟩
  · obtain ⟨index, inner, hindex, rfl, hinner⟩ := exists_startOf (Nat.not_le.mp hpast)
    rw [h.aesdRead_inside hindex hinner]
    refine ⟨fun hzero ↦ ?_, fun hpast' ↦ absurd hpast' hpast⟩
    cases copied with
    | true =>
      have hpos : 0 < min count ((heldCommands commands)[index].length - inner) := by omega
      exact absurd (Int.natCast_eq_zero.mp hzero) hpos.ne'
    | false =>
      have hfault : -efault = 0 := hzero
      exact absurd hfault (by decide)

end Llseek

/-- **Seeking is exact, and ends where reading ends.** After every run of the device: whatever
position a file has, a seek by any offset from any base moves to the exact sum of the two if this
is at most the length of the content, and fails otherwise. This length is the first position at
which a read returns nothing. -/
theorem llseek_exact (calls : List Call) :
    (∀ (fPos : ℤ) (offset : Int64) (whence : ℤ), InRange fPos →
      SeeksExactly (content (commits System.loaded calls)).length fPos offset whence
        (aesdLlseek (device.run System.loaded calls).kernel.dev fPos offset whence).1
        (aesdLlseek (device.run System.loaded calls).kernel.dev fPos offset whence).2) ∧
    (∀ (count : ℕ) (copied : Bool), 0 < count →
      IsLeast {position : ℕ |
          (aesdRead (device.run System.loaded calls).kernel count copied position).1.ret = 0}
        (content (commits System.loaded calls)).length) := by
  have hstores := stores_run calls
  have htotal := hstores.length_content_lt
  refine ⟨fun fPos offset whence hfPos ↦ hstores.seeksExactly hfPos offset whence,
    fun count copied hcount ↦ ⟨?_, fun position hzero ↦ ?_⟩⟩
  · exact (hstores.aesdRead_ret_eq_zero_iff (by omega) hcount copied).mpr le_rfl
  · by_cases hposition : position < 2 ^ 63
    · exact (hstores.aesdRead_ret_eq_zero_iff hposition hcount copied).mp hzero
    · omega

end Aesd.Driver
