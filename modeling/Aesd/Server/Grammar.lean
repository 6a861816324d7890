import Aesd.Foundation.CString
import Aesd.Server.Chunks
import Mathlib.Algebra.Ring.Nat

/-!
# Which chunks are seek requests

What `sscanf` accepts is fixed by the scanning rules and not by the format the requests are meant to
have. A number may have white space and a sign in front, it is cut to the width of its target, and
what follows the pair is not looked at. This file states the accepted texts as a grammar, shows
that `sscanfSeekto` recognises exactly them, and says for every chunk which branch of the receive
loop it takes.
-/

namespace Aesd.Server

open Foundation Driver

/-! ## The grammar -/

/-- A sign that may be missing, and whether it is a minus sign. -/
inductive IsSign : List UInt8 → Bool → Prop where
  | absent : IsSign [] false
  | plus : IsSign (ascii ['+']) false
  | minus : IsSign (ascii ['-']) true

/-- The number a sign and digits stand for where 32 bits are kept of it. A number that does not fit
64 bits stands for the greatest one that does. -/
def numberValue (negative : Bool) (digits : List UInt8) : UInt32 :=
  if 2 ^ 64 ≤ decimal digits then 4294967295
  else if negative then -UInt32.ofNat (decimal digits)
  else UInt32.ofNat (decimal digits)

/-- A text `%u` converts to this value. -/
inductive IsNumber : List UInt8 → UInt32 → Prop where
  | intro {spaces sign digits : List UInt8} {negative : Bool}
      (hspaces : ∀ byte ∈ spaces, isSpace byte = true) (hsign : IsSign sign negative)
      (hdigits : ∀ byte ∈ digits, isDigit byte = true) (hnonempty : digits ≠ []) :
      IsNumber (spaces ++ (sign ++ digits)) (numberValue negative digits)

/-- A text that is taken for a seek request with this pair: the keyword, two numbers with a comma
between them, and anything that does not go on with a digit. -/
inductive SeekText : List UInt8 → AesdSeekto → Prop where
  | intro {first second rest : List UInt8} {writeCmd writeCmdOffset : UInt32}
      (hfirst : IsNumber first writeCmd) (hsecond : IsNumber second writeCmdOffset)
      (hrest : EndsRun isDigit rest) :
      SeekText (seekKeyword ++ (first ++ (ascii [','] ++ (second ++ rest))))
        ⟨writeCmd, writeCmdOffset⟩

/-! ## The scan recognises the grammar -/

theorem scanLiteral_eq_some_iff {literal text rest : List UInt8} :
    scanLiteral literal text = some rest ↔ text = literal ++ rest := by
  unfold scanLiteral
  constructor
  · intro h
    split at h
    · next htake =>
      have hsplit := List.take_append_drop literal.length text
      rw [htake, Option.some.inj h] at hsplit
      exact hsplit.symm
    · cases h
  · rintro rfl
    rw [List.take_left, if_pos rfl, List.drop_left]

/-- What the sign of a conversion was, and what follows it. -/
theorem scanSign_eq (text : List UInt8) :
    ∃ sign, IsSign sign (scanSign text).1 ∧ text = sign ++ (scanSign text).2 := by
  unfold scanSign
  split
  · exact ⟨_, .plus, rfl⟩
  · exact ⟨_, .minus, rfl⟩
  · exact ⟨_, .absent, rfl⟩

/-- Behind a sign there is no other one when there are digits. -/
theorem IsSign.scanSign_append {sign : List UInt8} {negative : Bool} (hsign : IsSign sign negative)
    {digits : List UInt8} (hdigits : ∀ byte ∈ digits, isDigit byte = true)
    (hnonempty : digits ≠ []) (rest : List UInt8) :
    scanSign (sign ++ (digits ++ rest)) = (negative, digits ++ rest) := by
  cases hsign with
  | plus => rfl
  | minus => rfl
  | absent =>
    cases digits with
    | nil => exact absurd rfl hnonempty
    | cons digit digits =>
      have hdigit : isDigit digit = true := hdigits digit List.mem_cons_self
      have hplus : digit ≠ 43 := by rintro rfl; exact absurd hdigit (by decide)
      have hminus : digit ≠ 45 := by rintro rfl; exact absurd hdigit (by decide)
      simp only [List.nil_append, List.cons_append]
      unfold scanSign
      split
      · next heq => exact absurd (List.cons.inj heq).1 hplus
      · next heq => exact absurd (List.cons.inj heq).1 hminus
      · rfl

theorem isSpace_of_isDigit {byte : UInt8} (h : isDigit byte = true) : isSpace byte = false := by
  simp only [isDigit, Bool.and_eq_true, decide_eq_true_eq, UInt8.le_iff_toNat_le] at h
  simp only [isSpace, Bool.or_eq_false_iff, beq_eq_false_iff_ne, Bool.and_eq_false_iff,
    decide_eq_false_iff_not, UInt8.le_iff_toNat_le, ne_eq, ← UInt8.toNat_inj]
  have h48 : (48 : UInt8).toNat = 48 := rfl
  have h32 : (32 : UInt8).toNat = 32 := rfl
  have h13 : (13 : UInt8).toNat = 13 := rfl
  omega

/-- White space ends at a sign and at a digit. -/
theorem IsSign.endsRun {sign : List UInt8} {negative : Bool} (hsign : IsSign sign negative)
    {digits : List UInt8} (hdigits : ∀ byte ∈ digits, isDigit byte = true)
    (hnonempty : digits ≠ []) (rest : List UInt8) :
    EndsRun isSpace (sign ++ (digits ++ rest)) := by
  cases hsign with
  | plus => exact endsRun_cons.mpr (by decide)
  | minus => exact endsRun_cons.mpr (by decide)
  | absent =>
    cases digits with
    | nil => exact absurd rfl hnonempty
    | cons digit digits =>
      exact endsRun_cons.mpr (isSpace_of_isDigit (hdigits digit List.mem_cons_self))

/-- The conversion stores the value. -/
theorem ofNat_strtoul (negative : Bool) (digits : List UInt8) :
    UInt32.ofNat (strtoul negative digits) = numberValue negative digits := by
  unfold strtoul numberValue
  split
  · rfl
  · next hfits =>
    cases negative with
    | false => rfl
    | true =>
      simp only [if_true]
      rw [← UInt32.toNat_inj, UInt32.toNat_neg, UInt32.toNat_ofNat', UInt32.toNat_ofNat',
        UInt32.size]
      omega

/-- What `%u` has consumed is a number. -/
theorem isNumber_of_scanUnsigned {text rest : List UInt8} {value : UInt32}
    (h : scanUnsigned text = some (value, rest)) :
    ∃ number, IsNumber number value ∧ EndsRun isDigit rest ∧ text = number ++ rest := by
  obtain ⟨sign, hsign, hbehind⟩ := scanSign_eq (text.dropWhile isSpace)
  unfold scanUnsigned at h
  split at h
  next negative behind hscan =>
  rw [hscan] at hsign hbehind
  dsimp only at h hsign hbehind
  split at h
  · cases h
  · next hnonempty =>
    obtain ⟨rfl, rfl⟩ := Prod.mk.inj (Option.some.inj h)
    have hspaces : ∀ byte ∈ text.takeWhile isSpace, isSpace byte = true :=
      fun _ hbyte ↦ List.mem_takeWhile_imp hbyte
    have hdigits : ∀ byte ∈ behind.takeWhile isDigit, isDigit byte = true :=
      fun _ hbyte ↦ List.mem_takeWhile_imp hbyte
    rw [ofNat_strtoul]
    refine ⟨_, .intro hspaces hsign hdigits hnonempty, endsRun_dropWhile _ _, ?_⟩
    calc text = text.takeWhile isSpace ++ text.dropWhile isSpace :=
          List.takeWhile_append_dropWhile.symm
      _ = text.takeWhile isSpace ++ (sign ++ behind) := by rw [hbehind]
      _ = text.takeWhile isSpace ++
            (sign ++ (behind.takeWhile isDigit ++ behind.dropWhile isDigit)) := by
          rw [List.takeWhile_append_dropWhile]
      _ = _ := by simp only [List.append_assoc]

/-- And `%u` consumes a number up to what ends its digits. -/
theorem IsNumber.scanUnsigned_append {number rest : List UInt8} {value : UInt32}
    (hnumber : IsNumber number value) (hrest : EndsRun isDigit rest) :
    scanUnsigned (number ++ rest) = some (value, rest) := by
  cases hnumber with
  | @intro spaces sign digits negative hspaces hsign hdigits hnonempty =>
    have hshape : spaces ++ (sign ++ digits) ++ rest = spaces ++ (sign ++ (digits ++ rest)) := by
      simp only [List.append_assoc]
    have hstart := hsign.endsRun hdigits hnonempty rest
    unfold scanUnsigned
    rw [hshape, hstart.dropWhile_append hspaces, hsign.scanSign_append hdigits hnonempty]
    dsimp only
    rw [hrest.takeWhile_append hdigits, hrest.dropWhile_append hdigits, if_neg hnonempty,
      ofNat_strtoul]

theorem scanUnsigned_eq_some_iff {text rest : List UInt8} {value : UInt32} :
    scanUnsigned text = some (value, rest) ↔
      ∃ number, IsNumber number value ∧ EndsRun isDigit rest ∧ text = number ++ rest := by
  refine ⟨isNumber_of_scanUnsigned, ?_⟩
  rintro ⟨number, hnumber, hrest, rfl⟩
  exact hnumber.scanUnsigned_append hrest

/-- **The scan recognises exactly the seek texts.** -/
theorem sscanfSeekto_eq_some_iff {text : List UInt8} {seekto : AesdSeekto} :
    sscanfSeekto text = some seekto ↔ SeekText text seekto := by
  unfold sscanfSeekto
  simp only [Option.bind_eq_some_iff, Option.map_eq_some_iff, Prod.exists,
    scanLiteral_eq_some_iff, scanUnsigned_eq_some_iff]
  constructor
  · rintro ⟨_, rfl, writeCmd, _, ⟨first, hfirst, -, rfl⟩, _, rfl, writeCmdOffset, rest,
      ⟨second, hsecond, hrest, rfl⟩, rfl⟩
    exact .intro hfirst hsecond hrest
  · rintro ⟨hfirst, hsecond, hrest⟩
    exact ⟨_, rfl, _, _, ⟨_, hfirst, endsRun_cons.mpr (by decide), rfl⟩, _, rfl, _, _,
      ⟨_, hsecond, hrest, rfl⟩, rfl⟩

theorem seekRequest_eq_some_iff {chunk : List UInt8} {seekto : AesdSeekto} :
    seekRequest chunk = some seekto ↔ SeekText (stringOf nul chunk) seekto :=
  sscanfSeekto_eq_some_iff

theorem seekRequest_eq_none_iff {chunk : List UInt8} :
    seekRequest chunk = none ↔ ∀ seekto, ¬ SeekText (stringOf nul chunk) seekto := by
  simp only [Option.eq_none_iff_forall_ne_some, ne_eq, seekRequest_eq_some_iff]

/-! ## The intended requests -/

/-- A request as it is meant to be written: the keyword, two runs of digits that fit 32 bits with a
comma between them, and at most a newline. -/
inductive IntendedText : List UInt8 → AesdSeekto → Prop where
  | intro {first second ending : List UInt8}
      (hfirst : ∀ byte ∈ first, isDigit byte = true) (hfirstNe : first ≠ [])
      (hfirstFits : decimal first < 2 ^ 32)
      (hsecond : ∀ byte ∈ second, isDigit byte = true) (hsecondNe : second ≠ [])
      (hsecondFits : decimal second < 2 ^ 32)
      (hending : ending = [] ∨ ending = [newline]) :
      IntendedText (seekKeyword ++ (first ++ (ascii [','] ++ (second ++ ending))))
        ⟨UInt32.ofNat (decimal first), UInt32.ofNat (decimal second)⟩

/-- A run of digits is a number, with the value it denotes if 32 bits hold it. -/
theorem isNumber_of_digits {digits : List UInt8} (hdigits : ∀ byte ∈ digits, isDigit byte = true)
    (hnonempty : digits ≠ []) (hfits : decimal digits < 2 ^ 32) :
    IsNumber digits (UInt32.ofNat (decimal digits)) := by
  have hnumber := IsNumber.intro (fun byte hbyte ↦ absurd hbyte List.not_mem_nil) .absent hdigits
    hnonempty
  have hvalue : numberValue false digits = UInt32.ofNat (decimal digits) := by
    rw [numberValue, if_neg (by omega), if_neg Bool.false_ne_true]
  rw [← hvalue]
  exact hnumber

/-- Every intended request is taken for one, with the pair it denotes. -/
theorem IntendedText.seekText {text : List UInt8} {seekto : AesdSeekto}
    (h : IntendedText text seekto) : SeekText text seekto := by
  obtain ⟨hfirst, hfirstNe, hfirstFits, hsecond, hsecondNe, hsecondFits, hending⟩ := h
  refine .intro (isNumber_of_digits hfirst hfirstNe hfirstFits)
    (isNumber_of_digits hsecond hsecondNe hsecondFits) ?_
  obtain rfl | rfl := hending
  · exact endsRun_nil isDigit
  · exact endsRun_cons.mpr (by decide)

/-- Behind the keyword an intended request has digits, a comma and a newline only. -/
theorem IntendedText.byte_eq {text : List UInt8} {seekto : AesdSeekto}
    (h : IntendedText text seekto) {byte : UInt8} (hbyte : byte ∈ text.drop seekKeyword.length) :
    isDigit byte = true ∨ byte ∈ ascii [','] ∨ byte = newline := by
  obtain ⟨hfirst, -, -, hsecond, -, -, hending⟩ := h
  simp only [List.drop_left, List.mem_append] at hbyte
  obtain hbyte | hbyte | hbyte | hbyte := hbyte
  · exact .inl (hfirst byte hbyte)
  · exact .inr (.inl hbyte)
  · exact .inl (hsecond byte hbyte)
  · obtain rfl | rfl := hending
    · exact absurd hbyte List.not_mem_nil
    · exact .inr (.inr (List.mem_singleton.mp hbyte))

theorem IntendedText.stringOf_eq {text : List UInt8} {seekto : AesdSeekto}
    (h : IntendedText text seekto) : stringOf nul text = text := by
  apply stringOf_eq_self
  intro hnul
  have hkeyword : nul ∉ seekKeyword := by decide
  rw [← List.take_append_drop seekKeyword.length text, List.mem_append] at hnul
  rcases hnul with hnul | hnul
  · cases h
    rw [List.take_left] at hnul
    exact hkeyword hnul
  · have hbyte := h.byte_eq hnul
    exact absurd hbyte (by decide)

/-! ## The branches of the receive loop -/

section Branches

variable {session : Session} {round : Round} {chunk : List UInt8} {seekto : AesdSeekto}

theorem requested_mem_iff {events : List Event} {ret : ℤ} :
    .requested seekto ret ∈ events ↔ .requested seekto ret ∈ deviceTrace events := by
  rw [deviceTrace, List.mem_filter]
  exact (and_iff_left rfl).symm

/-- A request is made on the device if it can be opened, and nothing is saved. -/
theorem receiver_requests (hready : session.Ready) (h : round.Delivers chunk)
    (hscan : seekRequest chunk = some seekto) :
    (receiver.next session round).kernel = session.kernel ∧
      .acquired .filemutex ∉ receiver.emit session round ∧
      deviceTrace (receiver.emit session round) =
        if round.deviceOpens then
          [.requested seekto (aesdIoctl session.kernel.dev 0 aesdcharIocseekto (some seekto)).1]
        else [] := by
  have hhandled : handler.step (session.kernel, session.sendfd) round =
      ((session.kernel, session.sendfd), seekReply session.kernel round seekto) := by
    simp only [handler_step h.recv_eq, handleChunk, hscan]
  simp only [Machine.next, Machine.emit, receiver_step_of_delivers hready h, Session.handled,
    hhandled]
  refine ⟨trivial, fun hmem ↦ ?_, ?_⟩
  · obtain heq | hmem := List.mem_cons.mp hmem
    · cases heq
    · exact absurd (forall_mem_seekReply session.kernel round seekto _ hmem) (by decide)
  · have hterminated : deviceTrace (.terminated round.recv.bytesRecieved ::
        seekReply session.kernel round seekto) =
          deviceTrace (seekReply session.kernel round seekto) := rfl
    rw [hterminated]
    cases hopens : round.deviceOpens with
    | true => exact deviceTrace_seekReply hopens session.kernel seekto
    | false => simp only [seekReply, hopens, Bool.false_eq_true, if_false]; rfl

/-- Any other chunk is handed to `savetofile`, and no request is made. -/
theorem receiver_saves (hready : session.Ready) (h : round.Delivers chunk)
    (hscan : seekRequest chunk = none) :
    (receiver.next session round).kernel =
        (savetofile round (stringOf nul chunk) session.kernel).1 ∧
      .acquired .filemutex ∈ receiver.emit session round ∧
      deviceTrace (receiver.emit session round) =
        deviceTrace (savetofile round (stringOf nul chunk) session.kernel).2 := by
  have hlocked :
      .acquired .filemutex ∈ (savetofile round (stringOf nul chunk) session.kernel).2 := by
    unfold savetofile
    split <;> exact List.mem_cons_self
  simp only [Machine.next, Machine.emit, receiver_step_of_delivers hready h, Session.handled,
    handler_step h.recv_eq, handleChunk, hscan]
  have hterminated : ∀ events, deviceTrace (.terminated round.recv.bytesRecieved :: events) =
      deviceTrace events := fun _ ↦ rfl
  rw [hterminated]
  split
  · refine ⟨rfl, List.mem_cons_of_mem _ (List.mem_append_left _ hlocked), ?_⟩
    rw [deviceTrace_append, deviceTrace_sendfile, List.append_nil]
  · exact ⟨rfl, List.mem_cons_of_mem _ hlocked, rfl⟩

/-- **Which chunks are seek requests.** A round makes `AESDCHAR_IOCSEEKTO` with a pair exactly when
what is in front of the first NUL of its chunk is a seek text with this pair and the device can be
opened. Such a chunk is not saved. Every other chunk is, and makes no request. Intended requests are
among the seek texts. -/
theorem requests_iff_seekText (hready : session.Ready) (h : round.Delivers chunk) :
    (∀ seekto, (∃ ret, .requested seekto ret ∈ receiver.emit session round) ↔
      round.deviceOpens = true ∧ SeekText (stringOf nul chunk) seekto) ∧
    (.acquired .filemutex ∈ receiver.emit session round ↔
      ∀ seekto, ¬ SeekText (stringOf nul chunk) seekto) ∧
    ((∃ seekto, SeekText (stringOf nul chunk) seekto) →
      (receiver.next session round).kernel = session.kernel) ∧
    ((∀ seekto, ¬ SeekText (stringOf nul chunk) seekto) →
      round.fputs = true → stringOf nul chunk ≠ [] →
      (receiver.next session round).kernel =
          (aesdWrite (round.writeCall (stringOf nul chunk)) session.kernel).1 ∧
        deviceTrace (receiver.emit session round) =
          [.written (stringOf nul chunk)
            (aesdWrite (round.writeCall (stringOf nul chunk)) session.kernel).2]) ∧
    ∀ seekto, IntendedText chunk seekto → SeekText (stringOf nul chunk) seekto := by
  have hintended : ∀ seekto, IntendedText chunk seekto → seekRequest chunk = some seekto := by
    intro seekto htext
    rw [seekRequest_eq_some_iff, htext.stringOf_eq]
    exact htext.seekText
  have hmem : ∀ seekto ret, .requested seekto ret ∈ receiver.emit session round ↔
      .requested seekto ret ∈ deviceTrace (receiver.emit session round) :=
    fun _ _ ↦ requested_mem_iff
  rw [← seekRequest_eq_none_iff]
  simp only [hmem, ← seekRequest_eq_some_iff]
  cases hscan : seekRequest chunk with
  | some seekto =>
    obtain ⟨hkernel, hunlocked, htrace⟩ := receiver_requests hready h hscan
    refine ⟨fun other ↦ ?_, iff_of_false hunlocked (Option.some_ne_none seekto),
      fun _ ↦ hkernel, fun hnone ↦ absurd hnone (Option.some_ne_none seekto),
      fun other hother ↦ hscan.symm.trans (hintended other hother)⟩
    rw [htrace]
    cases hopens : round.deviceOpens with
    | true => simp [eq_comm]
    | false => simp
  | none =>
    obtain ⟨hkernel, hlocked, htrace⟩ := receiver_saves hready h hscan
    have hplain : ∀ event ∈ (savetofile round (stringOf nul chunk) session.kernel).2,
        event.isSave = true := forall_mem_savetofile _ _ _
    refine ⟨fun other ↦ iff_of_false ?_ fun hother ↦ absurd hother.2.symm (Option.some_ne_none _),
      iff_of_true hlocked rfl, fun ⟨_, hsome⟩ ↦ absurd hsome.symm (Option.some_ne_none _),
      fun _ hfputs hne ↦ ?_, fun other hother ↦ hscan.symm.trans (hintended other hother)⟩
    · rintro ⟨ret, hrequested⟩
      rw [htrace, deviceTrace, List.mem_filter] at hrequested
      exact absurd (hplain _ hrequested.1) Bool.false_ne_true
    · rw [hkernel, htrace, savetofile_eq hfputs hne]
      exact ⟨rfl, rfl⟩

end Branches

def Session.opened : Session := (Worker.smooth []).enter Kernel.loaded

theorem Session.opened_ready : Session.opened.Ready :=
  (Worker.smooth []).enter_ready Kernel.loaded

theorem Round.smooth_delivers {chunk : List UInt8} (hnonempty : chunk ≠ [])
    (hfits : chunk.length ≤ maxBuffer) : (Round.smooth (.data chunk)).Delivers chunk :=
  ⟨rfl, hnonempty, hfits⟩

/-- The request `AESDCHAR_IOCSEEKTO:+1, -1x` is made for the pair of 1 and 4294967295, and `a` is
saved. -/
theorem requests_iff_seekText_lax :
    (∃ ret, .requested ⟨1, 4294967295⟩ ret ∈ receiver.emit Session.opened
      (.smooth (.data (seekKeyword ++ ascii ['+', '1', ',', ' ', '-', '1', 'x'])))) ∧
    .acquired .filemutex ∈ receiver.emit Session.opened (.smooth (.data (ascii ['a']))) := by
  have hseek : SeekText (stringOf nul (seekKeyword ++ ascii ['+', '1', ',', ' ', '-', '1', 'x']))
      ⟨1, 4294967295⟩ := sscanfSeekto_eq_some_iff.mp (by decide)
  have hplain : ∀ seekto, ¬ SeekText (stringOf nul (ascii ['a'])) seekto :=
    seekRequest_eq_none_iff.mp (by decide)
  exact ⟨((requests_iff_seekText Session.opened_ready
      (Round.smooth_delivers (by decide) (by decide))).1 _).mpr ⟨rfl, hseek⟩,
    (requests_iff_seekText Session.opened_ready
      (Round.smooth_delivers (by decide) (by decide))).2.1.mpr hplain⟩

/-- `AESDCHAR_IOCSEEKTO:0,0x` is no intended request, and is taken for one. -/
theorem lax_request_is_made :
    ¬ ∀ (session : Session) (round : Round) (chunk : List UInt8), session.Ready →
      round.Delivers chunk → round.deviceOpens = true → ∀ seekto,
        (∃ ret, .requested seekto ret ∈ receiver.emit session round) ↔
          IntendedText chunk seekto := by
  intro hstrict
  have hdelivers : (Round.smooth
      (.data (seekKeyword ++ ascii ['0', ',', '0', 'x']))).Delivers
        (seekKeyword ++ ascii ['0', ',', '0', 'x']) :=
    Round.smooth_delivers (by decide) (by decide)
  obtain ⟨-, -, htrace⟩ := receiver_requests Session.opened_ready hdelivers
    (show seekRequest _ = some ⟨0, 0⟩ by decide)
  have hrequested : ∃ ret, .requested ⟨0, 0⟩ ret ∈ receiver.emit Session.opened
      (.smooth (.data (seekKeyword ++ ascii ['0', ',', '0', 'x']))) := by
    refine ⟨(aesdIoctl Session.opened.kernel.dev 0 aesdcharIocseekto (some ⟨0, 0⟩)).1,
      requested_mem_iff.mpr ?_⟩
    rw [htrace]
    exact List.mem_singleton_self _
  have hintended := (hstrict _ _ _ Session.opened_ready hdelivers rfl _).mp hrequested
  have hbyte : isDigit 120 = true ∨ 120 ∈ ascii [','] ∨ 120 = newline :=
    hintended.byte_eq (by decide)
  exact absurd hbyte (by decide)

end Aesd.Server
