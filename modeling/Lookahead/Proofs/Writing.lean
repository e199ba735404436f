import Lookahead.Proofs.Transcoding

/-!
# Decoding in place

A decoder says which bytes a span stands for, and they are appended at once or not at all. A writer
appends as it goes, one unit after the other, and may fail at any of them with bytes already
written. It takes them back by cutting the output to the length it found. The invariant is `Writes`:
what a writer has written when it ends is behind an output it has not touched, and what it ends with
is what the decoding ends with. So the cut leaves the output as it was, and strict and lenient
writers, each with its own account of what a failure is, do what the decoders do.
-/

namespace Lookahead

namespace Escape

/-! ## Writers -/

/-- The number behind the marker of a span. -/
def codePointIn (bytes : List UInt8) : Except Cause UInt32 := do
  unitOf (← digitsOf bytes)

/-- Something that appends to an output and may stop. -/
abbrev Writer (α : Type) : Type :=
  EStateM Stop (List UInt8) α

namespace Writer

def put (bytes : List UInt8) : Writer Unit := fun out =>
  .ok () (out ++ bytes)

def stop {α : Type} (cause : Cause) : Writer α :=
  throw (.cause cause)

/-- What is worked out before anything is written. -/
def given {α : Type} (result : Except Cause α) : Writer α :=
  ofExcept (result.mapError .cause)

/-- Appends the encoding of a code point and tells whether there is one. -/
def putCodePoint (codePoint : UInt32) : Writer Bool :=
  match Utf8.encode? codePoint with
  | some bytes => do
      put bytes
      return true
  | none => return false

/-- Writes what the units of a span stand for, from an index on. Whether the code point of a pair
could be appended is not asked. -/
def units (bytes : List UInt8) (start : Nat) : Writer Unit :=
  if start < bytes.length then do
    let unit ← ofExcept (unitAt bytes start)
    if Utf16.isHigh unit ∧ start + 6 < bytes.length then
      let second ← ofExcept (unitAt bytes (start + 6))
      if Utf16.isLow second then
        let _ ← putCodePoint (Utf16.combine unit second)
        return ← units bytes (start + 12)
    if ← putCodePoint unit then
      units bytes (start + 6)
    else
      stop (.invalidCodePoint unit)
  else
    return ()
termination_by bytes.length - start

/-- The units of a span, if it is as long as a run of escapes can be. -/
def run (bytes : List UInt8) : Writer Unit :=
  if bytes = [] ∨ (bytes.length + 1) % 6 ≠ 0 then stop (.violation (.malformed bytes.length))
  else units bytes 1

/-- What a decoder writes, with nothing taken back. -/
def ofDecoder : Decoder → List UInt8 → Writer Unit
  | .verbatim, bytes => put bytes
  | .mapped table, [character] =>
      match table.get? character with
      | some byte => put [byte]
      | none => stop (.violation (.unmapped character))
  | .mapped _, bytes => stop (.violation (.malformed bytes.length))
  | .rawByte, bytes => do
      let digits ← given (digitsOf bytes)
      match Hex.byte digits with
      | .ok byte => put [byte]
      | .error byte => stop (.violation (.notHex byte))
  | .codePoint, bytes => do
      let codePoint ← given (codePointIn bytes)
      if ← putCodePoint codePoint then return ()
      else stop (.invalidCodePoint codePoint)
  | .utf16Run, bytes => run bytes

/-- Cuts the output to the length it had before a writer that fails. -/
def restoring {α : Type} (writer : Writer α) : Writer α := fun out =>
  match writer out with
  | .ok a out' => .ok a out'
  | .error stop out' => .error stop (out'.take out.length)

end Writer

/-- A stop as an error that names where the span starts. Out of range is no error that a decoder
could report. -/
def Stop.located (span : Span) : Stop → Option Error
  | .outOfRange => none
  | .cause reason => some ⟨reason, span.start.toPlace⟩

/-- Writes what a span stands for. A run of units may have been written in part when it fails, all
else is written last. -/
def Decoder.write (decoder : Decoder) (span : Span) :
    EStateM (Option Error) (List UInt8) Unit :=
  match decoder with
  | .utf16Run => (Writer.restoring (Writer.run span.bytes)).adaptExcept (Stop.located span)
  | decoder => (Writer.ofDecoder decoder span.bytes).adaptExcept (Stop.located span)

/-- Writes the code point of a span and tells whether it is one. -/
def tryCodePoint (span : Span) : EStateM (Option Error) (List UInt8) Bool :=
  (Writer.given (codePointIn span.bytes) >>= Writer.putCodePoint).adaptExcept (Stop.located span)

/-- Writes the units of a span and tells whether they are characters. -/
def tryRun (span : Span) : EStateM (Option Error) (List UInt8) Bool := fun out =>
  match Writer.run span.bytes out with
  | .ok () out' => .ok true out'
  | .error (.cause (.invalidCodePoint _)) out' => .ok false (out'.take out.length)
  | .error stop out' => .error (stop.located span) (out'.take out.length)

/-! ## What a writer has written -/

/-- A writer ends as a decoding does, with what it has written behind the output it found. -/
inductive Writes (out : List UInt8) :
    Except Stop (List UInt8) → EStateM.Result Stop (List UInt8) Unit → Prop where
  | ok (bytes : List UInt8) : Writes out (.ok bytes) (.ok () (out ++ bytes))
  | error (stop : Stop) (written : List UInt8) :
      Writes out (.error stop) (.error stop (out ++ written))

namespace Writes

variable {out : List UInt8}

theorem nothing : Writes out (.ok []) (.ok () out) := by
  have hnone : Writes out _ _ := .ok []
  rwa [List.append_nil] at hnone

theorem at_once (stop : Stop) : Writes out (.error stop) (.error stop out) := by
  have hnone : Writes out _ _ := .error stop []
  rwa [List.append_nil] at hnone

theorem before {first : List UInt8} {result : Except Stop (List UInt8)}
    {written : EStateM.Result Stop (List UInt8) Unit} (h : Writes (out ++ first) result written) :
    Writes out (do return first ++ (← result)) written := by
  cases h with
  | ok bytes =>
      rw [List.append_assoc]
      exact .ok (first ++ bytes)
  | error stop more =>
      rw [List.append_assoc]
      exact .error stop (first ++ more)

end Writes

theorem putCodePoint_some {codePoint : UInt32} {bytes out : List UInt8}
    (h : Utf8.encode? codePoint = some bytes) :
    Writer.putCodePoint codePoint out = .ok true (out ++ bytes) := by
  unfold Writer.putCodePoint
  rw [h]
  rfl

theorem putCodePoint_none {codePoint : UInt32} {out : List UInt8}
    (h : Utf8.encode? codePoint = none) : Writer.putCodePoint codePoint out = .ok false out := by
  unfold Writer.putCodePoint
  rw [h]
  rfl

/-- A character is written, or there is none, and then the rest. -/
theorem writes_character {codePoint : UInt32} {rest : Except Stop (List UInt8)}
    {writer : Writer Unit} (hrest : ∀ out, Writes out rest (writer out)) (out : List UInt8) :
    Writes out (do return (← (encoded codePoint).mapError Stop.cause) ++ (← rest))
      ((do
        if ← Writer.putCodePoint codePoint then writer
        else Writer.stop (.invalidCodePoint codePoint)) out) := by
  unfold encoded
  rw [bind_apply]
  cases hencoded : Utf8.encode? codePoint with
  | none =>
      rw [putCodePoint_none hencoded]
      exact .at_once _
  | some bytes =>
      rw [putCodePoint_some hencoded]
      exact (hrest (out ++ bytes)).before

/-- A character that is known to be one need not be asked for. -/
theorem writes_known {codePoint : UInt32} {encoding : List UInt8}
    (hencoded : Utf8.encode? codePoint = some encoding) {rest : Except Stop (List UInt8)}
    {writer : Writer Unit} (hrest : ∀ out, Writes out rest (writer out)) (out : List UInt8) :
    Writes out (do return (← (encoded codePoint).mapError Stop.cause) ++ (← rest))
      ((do
        let _ ← Writer.putCodePoint codePoint
        writer) out) := by
  unfold encoded
  rw [hencoded, bind_apply, putCodePoint_some hencoded]
  exact (hrest (out ++ encoding)).before

theorem encode?_of_encoded {codePoint : UInt32} {bytes : List UInt8}
    (h : encoded codePoint = .ok bytes) : Utf8.encode? codePoint = some bytes := by
  unfold encoded at h
  split at h
  · rename_i hencoded
    cases h
    exact hencoded
  · cases h

/-- Any two halves make a code point. -/
theorem exists_combined {high low : UInt32} (hhigh : Utf16.isHigh high = true)
    (hlow : Utf16.isLow low = true) :
    ∃ bytes, Utf8.encode? (Utf16.combine high low) = some bytes := by
  have hhigh' : 0xD800 ≤ high.toNat ∧ high.toNat ≤ 0xDBFF := by
    simpa [Utf16.isHigh, UInt32.le_iff_toNat_le] using hhigh
  have hlow' : 0xDC00 ≤ low.toNat ∧ low.toNat ≤ 0xDFFF := by
    simpa [Utf16.isLow, UInt32.le_iff_toNat_le] using hlow
  have hcombine := Utf16.combine_ofNat hhigh' hlow'
  rw [UInt32.ofNat_toNat, UInt32.ofNat_toNat] at hcombine
  have hvalid : (0x10000 + (high.toNat - 0xD800) * 0x400 + (low.toNat - 0xDC00)).isValidChar := by
    unfold Nat.isValidChar
    omega
  have hencoded := encoded_ofNat hvalid
  rw [← hcombine] at hencoded
  exact ⟨_, encode?_of_encoded hencoded⟩

theorem writes_units (bytes : List UInt8) (start : Nat) (out : List UInt8) :
    Writes out (walk bytes start) (Writer.units bytes start out) := by
  by_cases hmore : start < bytes.length
  · have hnext := writes_units bytes (start + 6)
    have hbehind := writes_units bytes (start + 12)
    rw [walk, Writer.units, if_pos hmore, if_pos hmore]
    cases hunit : unitAt bytes start with
    | error stop => exact .at_once stop
    | ok unit =>
        -- where no pair is taken, for whichever reason, the unit is written by itself
        have hsingle := @writes_character unit _ _ hnext out
        show Writes out
          (if Utf16.isHigh unit = true ∧ start + 6 < bytes.length then _ else _ : Except Stop _)
          ((if Utf16.isHigh unit = true ∧ start + 6 < bytes.length then _ else _ : Writer Unit) out)
        by_cases hhigh : Utf16.isHigh unit = true ∧ start + 6 < bytes.length
        · rw [if_pos hhigh, if_pos hhigh]
          cases hsecond : unitAt bytes (start + 6) with
          | error stop => exact .at_once stop
          | ok second =>
              show Writes out (if Utf16.isLow second = true then _ else _ : Except Stop _)
                ((if Utf16.isLow second = true then _ else _ : Writer Unit) out)
              by_cases hlow : Utf16.isLow second = true
              · rw [if_pos hlow, if_pos hlow]
                obtain ⟨encoding, hencoded⟩ := exists_combined hhigh.1 hlow
                exact writes_known hencoded hbehind out
              · rw [if_neg hlow, if_neg hlow]
                exact hsingle
        · rw [if_neg hhigh, if_neg hhigh]
          exact hsingle
  · rw [walk, Writer.units, if_neg hmore, if_neg hmore]
    exact .nothing
termination_by bytes.length - start

/-- A run of escapes ends as its decoding does, and never out of range. -/
theorem writes_run (bytes out : List UInt8) :
    Writes out ((Decoder.utf16Run.decode bytes).mapError Stop.cause) (Writer.run bytes out) := by
  unfold Writer.run
  by_cases hmisfit : bytes = [] ∨ (bytes.length + 1) % 6 ≠ 0
  · have hlength : ∀ count, bytes.length + 1 ≠ 6 * count := by
      intro count
      rcases hmisfit with rfl | hmisfit
      · rw [List.length_nil]
        omega
      · omega
    rw [if_pos hmisfit]
    simp only [Decoder.decode, quads?_eq_none hlength]
    exact .at_once _
  · rw [if_neg hmisfit]
    rw [not_or, not_not] at hmisfit
    have hlength : bytes.length + 1 = 6 * ((bytes.length + 1) / 6) := by omega
    rw [← walk_eq (by omega) hlength]
    exact writes_units bytes 1 out

/-! ## Writers that append at once -/

/-- Appends all of what is given, or nothing. -/
def Writer.atOnce (result : Except Cause (List UInt8)) : Writer Unit := do
  put (← given result)

theorem restoring_of_writes {writer : Writer Unit} {result : Except Cause (List UInt8)}
    (h : ∀ out, Writes out (result.mapError .cause) (writer out)) :
    Writer.restoring writer = Writer.atOnce result := by
  funext out
  have hwrites := h out
  unfold Writer.restoring
  generalize writer out = written at hwrites ⊢
  cases result with
  | ok bytes =>
      cases hwrites
      rfl
  | error cause =>
      cases hwrites
      simp only [List.take_left]
      rfl

theorem decode_codePoint (bytes : List UInt8) :
    Decoder.codePoint.decode bytes = codePointIn bytes >>= encoded := by
  simp only [Decoder.decode, codePointIn]
  cases digitsOf bytes <;> rfl

/-- What is no number at all is no bad input but a violation. -/
theorem isFatal_of_codePointIn {bytes : List UInt8} {cause : Cause}
    (h : codePointIn bytes = .error cause) : cause.isFatal = true := by
  cases bytes with
  | nil =>
      cases h
      rfl
  | cons marker digits =>
      change (Hex.word digits).mapError _ = _ at h
      cases hword : Hex.word digits with
      | ok codePoint =>
          rw [hword] at h
          cases h
      | error byte =>
          rw [hword] at h
          cases h
          rfl

theorem ofDecoder_rawByte (bytes : List UInt8) :
    Writer.ofDecoder .rawByte bytes = Writer.atOnce (Decoder.rawByte.decode bytes) := by
  funext out
  simp only [Writer.ofDecoder, Decoder.decode]
  cases digitsOf bytes with
  | error cause => rfl
  | ok digits =>
      show (match Hex.byte digits with
        | .ok byte => Writer.put [byte]
        | .error byte => Writer.stop (.violation (.notHex byte))) out
          = Writer.atOnce (match Hex.byte digits with
            | .ok byte => .ok [byte]
            | .error byte => .error (.violation (.notHex byte))) out
      cases Hex.byte digits <;> rfl

theorem ofDecoder_codePoint (bytes : List UInt8) :
    Writer.ofDecoder .codePoint bytes = Writer.atOnce (Decoder.codePoint.decode bytes) := by
  funext out
  rw [decode_codePoint]
  simp only [Writer.ofDecoder]
  cases codePointIn bytes with
  | error cause => rfl
  | ok codePoint =>
      show (Writer.putCodePoint codePoint >>= fun found => _ : Writer Unit) out
        = Writer.atOnce (encoded codePoint) out
      unfold encoded
      rw [bind_apply]
      cases hencoded : Utf8.encode? codePoint with
      | none =>
          rw [putCodePoint_none hencoded]
          rfl
      | some encoding =>
          rw [putCodePoint_some hencoded]
          rfl

theorem ofDecoder_eq {decoder : Decoder} (h : decoder ≠ .utf16Run) (bytes : List UInt8) :
    Writer.ofDecoder decoder bytes = Writer.atOnce (decoder.decode bytes) := by
  cases decoder with
  | verbatim => rfl
  | mapped table =>
      match bytes with
      | [] => rfl
      | [character] =>
          simp only [Writer.ofDecoder, Decoder.decode]
          cases table.get? character <;> rfl
      | _ :: _ :: _ => rfl
  | rawByte => exact ofDecoder_rawByte bytes
  | codePoint => exact ofDecoder_codePoint bytes
  | utf16Run => exact absurd rfl h

theorem write_of_ne {decoder : Decoder} (h : decoder ≠ .utf16Run) (span : Span) :
    decoder.write span
      = (Writer.ofDecoder decoder span.bytes).adaptExcept (Stop.located span) := by
  cases decoder with
  | utf16Run => exact absurd rfl h
  | verbatim | mapped table | rawByte | codePoint => rfl

/-- What a decoder writes in place is what it appends. -/
theorem write_eq (decoder : Decoder) (span : Span) :
    decoder.write span = (decoder.apply span).adaptExcept some := by
  have hatOnce : (Writer.atOnce (decoder.decode span.bytes)).adaptExcept (Stop.located span)
      = (decoder.apply span).adaptExcept some := by
    funext out
    rw [adaptExcept_apply, adaptExcept_apply]
    unfold Decoder.apply
    cases decoder.decode span.bytes <;> rfl
  rw [← hatOnce]
  by_cases hrun : decoder = .utf16Run
  · subst hrun
    show (Writer.restoring (Writer.run span.bytes)).adaptExcept (Stop.located span) = _
    rw [restoring_of_writes (writes_run span.bytes)]
  · rw [write_of_ne hrun, ofDecoder_eq hrun]

/-! ## Lenient writers -/

theorem tryCodePoint_eq (span : Span) :
    tryCodePoint span = (Decoder.codePoint.tryApply span).adaptExcept some := by
  funext out
  have hdecode := decode_codePoint span.bytes
  unfold tryCodePoint
  rw [adaptExcept_apply, adaptExcept_apply, bind_apply]
  cases hnumber : codePointIn span.bytes with
  | error cause =>
      rw [hnumber] at hdecode
      cases cause with
      | invalidCodePoint value => cases isFatal_of_codePointIn hnumber
      | violation fault =>
          rw [Decoder.tryApply_violation hdecode]
          rfl
  | ok codePoint =>
      rw [hnumber] at hdecode
      change _ = encoded codePoint at hdecode
      unfold encoded at hdecode
      have hput : Writer.given (Except.ok codePoint) out = .ok codePoint out := rfl
      cases hencoded : Utf8.encode? codePoint with
      | none =>
          rw [hencoded] at hdecode
          rw [Decoder.tryApply_invalid hdecode, hput]
          simp only [putCodePoint_none hencoded]
      | some encoding =>
          rw [hencoded] at hdecode
          rw [Decoder.tryApply_ok hdecode, hput]
          simp only [putCodePoint_some hencoded]

theorem tryRun_eq (span : Span) :
    tryRun span = (Decoder.utf16Run.tryApply span).adaptExcept some := by
  funext out
  have hwrites := writes_run span.bytes out
  rw [adaptExcept_apply]
  unfold tryRun Decoder.tryApply
  generalize Writer.run span.bytes out = written at hwrites ⊢
  cases hdecode : Decoder.utf16Run.decode span.bytes with
  | ok bytes =>
      rw [hdecode] at hwrites
      cases hwrites
      rfl
  | error cause =>
      rw [hdecode] at hwrites
      cases hwrites
      cases cause with
      | invalidCodePoint value =>
          simp only [List.take_left]
          rfl
      | violation fault =>
          simp only [List.take_left]
          rfl

/-! ## Every span -/

/-- Decoding a span in place appends what its bytes decide, or fails where it starts and leaves the
output as it was; and that is how the decoder decodes it. -/
structure AppendsOrFails (decoder : Decoder) (span : Span) (out : List UInt8) : Prop where
  appended : ∀ bytes, decoder.decode span.bytes = .ok bytes →
    decoder.write span out = .ok () (out ++ bytes)
  failed : ∀ cause, decoder.decode span.bytes = .error cause →
    decoder.write span out = .error (some ⟨cause, span.start.toPlace⟩) out
  write_eq : decoder.write span = (decoder.apply span).adaptExcept some

theorem appendsOrFails (decoder : Decoder) (span : Span) (out : List UInt8) :
    AppendsOrFails decoder span out where
  appended bytes h := by rw [write_eq, adaptExcept_apply, Decoder.apply_ok h]
  failed cause h := by rw [write_eq, adaptExcept_apply, Decoder.apply_error h]
  write_eq := write_eq decoder span

/-- Asked leniently a decoder appends where it does so strictly, passes over what is an invalid code
point strictly, and fails of what is fatal strictly. -/
structure AgreesLeniently (decoder : Decoder) (span : Span) (out : List UInt8) : Prop where
  true_iff : ∀ out',
    decoder.tryApply span out = .ok true out' ↔ decoder.apply span out = .ok () out'
  false_iff : ∀ out', decoder.tryApply span out = .ok false out' ↔ out' = out ∧
    ∃ value, decoder.apply span out = .error ⟨.invalidCodePoint value, span.start.toPlace⟩ out
  error_iff : ∀ error out', decoder.tryApply span out = .error error out' ↔ out' = out ∧
    error.cause.isFatal = true ∧ decoder.apply span out = .error error out

theorem agreesLeniently (decoder : Decoder) (span : Span) (out : List UInt8) :
    AgreesLeniently decoder span out := by
  cases hdecode : decoder.decode span.bytes with
  | ok bytes =>
      have hstrict := Decoder.apply_ok hdecode out
      have hlenient := Decoder.tryApply_ok hdecode out
      constructor <;> intros <;> rw [hstrict, hlenient]
      · exact ⟨fun h => (by cases h; rfl), fun h => (by cases h; rfl)⟩
      · exact ⟨nofun, fun ⟨_, _, h⟩ => nomatch h⟩
      · exact ⟨nofun, fun ⟨_, _, h⟩ => nomatch h⟩
  | error cause =>
      have hstrict := Decoder.apply_error hdecode out
      cases cause with
      | invalidCodePoint value =>
          have hlenient := Decoder.tryApply_invalid hdecode out
          constructor <;> intros <;> rw [hstrict, hlenient]
          · exact ⟨nofun, nofun⟩
          · exact ⟨fun h => (by cases h; exact ⟨rfl, value, rfl⟩), fun h => (by rw [h.1])⟩
          · exact ⟨nofun, fun ⟨_, hfatal, h⟩ => (by cases h; cases hfatal)⟩
      | violation fault =>
          have hlenient := Decoder.tryApply_violation hdecode out
          constructor <;> intros <;> rw [hstrict, hlenient]
          · exact ⟨nofun, nofun⟩
          · exact ⟨nofun, fun ⟨_, _, h⟩ => nomatch h⟩
          · exact ⟨fun h => (by cases h; exact ⟨rfl, rfl, rfl⟩),
              fun ⟨hout, _, h⟩ => (by cases h; rw [hout])⟩

/-- **Decoding is all or nothing.** Whatever the span, the output and the decoder, written in place
or at once: bytes that the span decides are appended, or the output is left as it was and the error
names the place where the span starts. The lenient forms agree with the strict ones case by case. -/
theorem decoding_atomic (span : Span) (out : List UInt8) :
    (∀ decoder, AppendsOrFails decoder span out ∧ AgreesLeniently decoder span out) ∧
      tryCodePoint span = (Decoder.codePoint.tryApply span).adaptExcept some ∧
      tryRun span = (Decoder.utf16Run.tryApply span).adaptExcept some :=
  ⟨fun decoder => ⟨appendsOrFails decoder span out, agreesLeniently decoder span out⟩,
    tryCodePoint_eq span, tryRun_eq span⟩

end Escape

end Lookahead
