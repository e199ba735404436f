import Lookahead.Proofs.Writing

/-!
# Escapes of any number of digits

Two decoders read a run of digits behind a marker into a word, and the run may be longer than the
word has room for. Its high digits are shifted out, so that the word holds the number modulo its
size; `fold_eq` carries that through the run, for words of either size. It also says that what was
shifted out does not matter to a byte that is no digit: the leftmost one is named wherever it
stands.

A run of escapes that is as long as one escape has the same digits, and is decoded alike.
-/

namespace Lookahead

namespace Escape

variable {span : Span} {out digits : List UInt8}

/-! ## A marker and digits -/

theorem byte_eq (digits : List UInt8) :
    Hex.byte digits = match digits.find? (fun byte => !isHex byte) with
      | some byte => .error byte
      | none => .ok (UInt8.ofNat (number digits)) :=
  fold_eq (fun (acc : UInt8) digit => (acc <<< 4) ||| digit)
    (fun value _ => Hex.push_digit_byte value) digits 0

/-- The byte is the leftmost of a run that is no digit. -/
def FirstBad (byte : UInt8) (digits : List UInt8) : Prop :=
  ∃ before after, digits = before ++ byte :: after ∧
    (∀ digit ∈ before, isHex digit = true) ∧ isHex byte = false

theorem firstBad_iff {byte : UInt8} :
    FirstBad byte digits ↔ digits.find? (fun byte => !isHex byte) = some byte := by
  simp only [FirstBad, List.find?_eq_some_iff_append, Bool.not_eq_true', Bool.not_not]
  constructor
  · rintro ⟨before, after, hdigits, hbefore, hbyte⟩
    exact ⟨hbyte, before, after, hdigits, hbefore⟩
  · rintro ⟨hbyte, before, after, hdigits, hbefore⟩
    exact ⟨before, after, hdigits, hbefore, hbyte⟩

/-- The decoder decodes a marker and digits by their number. -/
structure OfDigits (decoder : Decoder) (decoded : Nat → Except Cause (List UInt8)) : Prop where
  empty : decoder.decode [] = .error (.violation (.malformed 0))
  bad : ∀ {byte marker digits}, FirstBad byte digits →
    decoder.decode (marker :: digits) = .error (.violation (.notHex byte))
  hex : ∀ {marker digits}, (∀ byte ∈ digits, isHex byte = true) →
    decoder.decode (marker :: digits) = decoded (number digits)
  /-- No number is a violation. -/
  lawful : ∀ value fault, decoded value ≠ .error (.violation fault)

theorem ofDigits_rawByte : OfDigits .rawByte fun value => .ok [UInt8.ofNat value] where
  empty := rfl
  bad {byte marker digits} hbad := by
    have hbyte : Hex.byte digits = .error byte := by
      rw [byte_eq, firstBad_iff.mp hbad]
    simp only [Decoder.decode, digitsOf, bind, Except.bind, hbyte]
    rfl
  hex {marker digits} hhex := by
    have hbyte : Hex.byte digits = .ok (UInt8.ofNat (number digits)) := by
      rw [byte_eq, find?_eq_none.mpr hhex]
    simp only [Decoder.decode, digitsOf, bind, Except.bind, hbyte]
    rfl
  lawful _ _ := nofun

theorem ofDigits_codePoint : OfDigits .codePoint fun value => encoded (UInt32.ofNat value) where
  empty := rfl
  bad {byte marker digits} hbad := by
    show (do encoded (← unitOf digits)) = _
    rw [unitOf_notHex (firstBad_iff.mp hbad)]
    rfl
  hex {marker digits} hhex := by
    show (do encoded (← unitOf digits)) = _
    rw [unitOf_hex hhex]
    rfl
  lawful value fault := by
    unfold encoded
    split <;> nofun

namespace OfDigits

variable {decoder : Decoder} {decoded : Nat → Except Cause (List UInt8)}

/-- A span is empty, or a byte of it is no digit, or it has a number. -/
theorem decode_cases (h : OfDigits decoder decoded)
    {P : List UInt8 → Except Cause (List UInt8) → Prop}
    (empty : P [] (.error (.violation (.malformed 0))))
    (bad : ∀ marker digits byte, FirstBad byte digits →
      P (marker :: digits) (.error (.violation (.notHex byte))))
    (hex : ∀ marker digits, (∀ byte ∈ digits, isHex byte = true) →
      P (marker :: digits) (decoded (number digits))) (bytes : List UInt8) :
    P bytes (decoder.decode bytes) := by
  cases bytes with
  | nil =>
      rw [h.empty]
      exact empty
  | cons marker digits =>
      cases hfind : digits.find? (fun byte => !isHex byte) with
      | some byte =>
          have hbad := firstBad_iff.mpr hfind
          rw [h.bad hbad]
          exact bad marker digits byte hbad
      | none =>
          have hhex := find?_eq_none.mp hfind
          rw [h.hex hhex]
          exact hex marker digits hhex

theorem malformed_iff (h : OfDigits decoder decoded) {bytes : List UInt8} :
    decoder.decode bytes = .error (.violation (.malformed 0)) ↔ bytes = [] := by
  constructor
  · refine h.decode_cases (P := fun bytes result => result = _ → bytes = []) ?_ ?_ ?_ bytes
    · exact fun _ => rfl
    · exact fun _ _ _ _ => nofun
    · exact fun _ _ _ heq => absurd heq (h.lawful _ _)
  · rintro rfl
    exact h.empty

theorem notHex_iff (h : OfDigits decoder decoded) {bytes : List UInt8} {byte : UInt8} :
    decoder.decode bytes = .error (.violation (.notHex byte)) ↔
      ∃ marker digits, bytes = marker :: digits ∧ FirstBad byte digits := by
  constructor
  · refine h.decode_cases (P := fun bytes result => result = .error (.violation (.notHex byte)) →
      ∃ marker digits, bytes = marker :: digits ∧ FirstBad byte digits) ?_ ?_ ?_ bytes
    · exact nofun
    · intro marker digits first hbad heq
      cases heq
      exact ⟨marker, digits, rfl, hbad⟩
    · exact fun _ _ _ heq => absurd heq (h.lawful _ _)
  · rintro ⟨marker, digits, rfl, hbad⟩
    exact h.bad hbad

end OfDigits

/-! ## Every span -/

theorem apply_error_iff {decoder : Decoder} {cause : Cause} :
    decoder.apply span out = .error ⟨cause, span.start.toPlace⟩ out ↔
      decoder.decode span.bytes = .error cause := by
  unfold Decoder.apply
  cases decoder.decode span.bytes <;> simp

/-- Two complaints are about the form of a span: that it is empty, and that a byte behind the marker
is no digit, of which the leftmost is named. -/
structure ReadsDigits (decoder : Decoder) (span : Span) (out : List UInt8) : Prop where
  malformed_iff :
    decoder.apply span out = .error ⟨.violation (.malformed 0), span.start.toPlace⟩ out ↔
      span.bytes = []
  notHex_iff : ∀ byte,
    decoder.apply span out = .error ⟨.violation (.notHex byte), span.start.toPlace⟩ out ↔
      ∃ marker digits, span.bytes = marker :: digits ∧ FirstBad byte digits

theorem OfDigits.readsDigits {decoder : Decoder} {decoded : Nat → Except Cause (List UInt8)}
    (h : OfDigits decoder decoded) (span : Span) (out : List UInt8) :
    ReadsDigits decoder span out where
  malformed_iff := apply_error_iff.trans h.malformed_iff
  notHex_iff _ := apply_error_iff.trans h.notHex_iff

/-- A code point is appended if it is a character's. Any other is named, and that is not fatal. -/
structure AppendsCodePoint (value : Nat) (span : Span) (out : List UInt8) : Prop where
  appended : Utf8.IsScalar value →
    Decoder.codePoint.apply span out = .ok () (out ++ String.utf8EncodeChar (Char.ofNat value)) ∧
    Decoder.codePoint.tryApply span out
      = .ok true (out ++ String.utf8EncodeChar (Char.ofNat value))
  invalid : ¬Utf8.IsScalar value →
    Decoder.codePoint.apply span out
      = .error ⟨.invalidCodePoint (UInt32.ofNat value), span.start.toPlace⟩ out ∧
    Decoder.codePoint.tryApply span out = .ok false out

theorem appendsCodePoint {value : Nat} (hlt : value < 2 ^ 32)
    (h : Decoder.codePoint.decode span.bytes = encoded (UInt32.ofNat value)) (out : List UInt8) :
    AppendsCodePoint value span out where
  appended hscalar := by
    rw [encoded_ofNat (Utf8.isScalar_iff.mp hscalar)] at h
    exact ⟨Decoder.apply_ok h out, Decoder.tryApply_ok h out⟩
  invalid hscalar := by
    rw [encoded_invalid hlt (mt Utf8.isScalar_iff.mpr hscalar)] at h
    exact ⟨Decoder.apply_error h out, Decoder.tryApply_invalid h out⟩

/-- A run of escapes as long as one is decoded as that one, however it is asked and written. -/
structure RunAsOne (span : Span) : Prop where
  apply_eq : Decoder.utf16Run.apply span = Decoder.codePoint.apply span
  tryApply_eq : Decoder.utf16Run.tryApply span = Decoder.codePoint.tryApply span
  write_eq : Decoder.utf16Run.write span = Decoder.codePoint.write span
  tryRun_eq : tryRun span = tryCodePoint span

theorem decode_five : {bytes : List UInt8} → bytes.length = 5 →
    Decoder.utf16Run.decode bytes = Decoder.codePoint.decode bytes
  | [_, _, _, _, _], _ => rfl

theorem runAsOne (hfive : span.bytes.length = 5) : RunAsOne span := by
  have hdecode := decode_five hfive
  have happly : Decoder.utf16Run.apply span = Decoder.codePoint.apply span := by
    unfold Decoder.apply
    rw [hdecode]
  have htryApply : Decoder.utf16Run.tryApply span = Decoder.codePoint.tryApply span := by
    unfold Decoder.tryApply
    rw [hdecode]
  refine ⟨happly, htryApply, ?_, ?_⟩
  · rw [write_eq, write_eq, happly]
  · rw [tryRun_eq, tryCodePoint_eq, htryApply]

/-- **Escapes of any number of digits.** Whatever the span: it is refused if it is empty or the
leftmost byte behind its marker that is no digit is named, and otherwise the number that all the
digits make decides, modulo the size of a byte or of a word. A span of one escape is decoded alike
as a run. -/
theorem digits_decoded (span : Span) (out : List UInt8) :
    ReadsDigits .rawByte span out ∧ ReadsDigits .codePoint span out ∧
      (∀ marker digits, span.bytes = marker :: digits → (∀ byte ∈ digits, isHex byte = true) →
        Decoder.rawByte.apply span out
            = .ok () (out ++ [UInt8.ofNat (number digits % 2 ^ 8)]) ∧
          AppendsCodePoint (number digits % 2 ^ 32) span out) ∧
      (span.bytes.length = 5 → RunAsOne span) := by
  refine ⟨ofDigits_rawByte.readsDigits span out, ofDigits_codePoint.readsDigits span out, ?_,
    runAsOne⟩
  intro marker digits hbytes hhex
  have hbyte : Decoder.rawByte.decode span.bytes = .ok [UInt8.ofNat (number digits % 2 ^ 8)] := by
    rw [hbytes, ofDigits_rawByte.hex hhex, UInt8.ofNat_mod_size]
  have hword : Decoder.codePoint.decode span.bytes
      = encoded (UInt32.ofNat (number digits % 2 ^ 32)) := by
    rw [hbytes, ofDigits_codePoint.hex hhex, UInt32.ofNat_mod_size]
  exact ⟨Decoder.apply_ok hbyte out, appendsCodePoint (Nat.mod_lt _ (by decide)) hword out⟩

/-- Nine digits, the first of which has no room in a word, and eight, which make no character: they
are read as they are, and as a byte. Half a pair is invalid as one escape and as a run of one. -/
theorem digits_decoded_of_many :
    let span (bytes : List UInt8) : Span := ⟨bytes, ⟨⟨1, 1, 2⟩, 1⟩, "doc"⟩
    let many := span [85, 49, 48, 48, 48, 48, 48, 48, 52, 49]
    let large := span [85, 102, 70, 70, 102, 48, 48, 52, 49]
    let half := span [117, 100, 56, 48, 48]
    (∀ byte ∈ many.bytes.tail, isHex byte = true) ∧ number many.bytes.tail = 0x100000041 ∧
      Decoder.codePoint.apply many [] = .ok () [65] ∧
      Decoder.rawByte.apply large [] = .ok () [65] ∧
      Decoder.codePoint.tryApply large [] = .ok false [] ∧
      Decoder.utf16Run.tryApply half [] = .ok false [] := by
  intro span many large half
  have hmany : ∀ byte ∈ many.bytes.tail, isHex byte = true := by decide +kernel
  obtain ⟨-, -, hlong, -⟩ := digits_decoded many []
  obtain ⟨-, hchar⟩ := hlong 85 _ rfl hmany
  obtain ⟨-, -, hwide, -⟩ := digits_decoded large []
  obtain ⟨hbyte, hnone⟩ := hwide 85 _ rfl (by decide +kernel)
  obtain ⟨-, -, hfour, hone⟩ := digits_decoded half []
  obtain ⟨-, hpair⟩ := hfour 117 _ rfl (by decide +kernel)
  refine ⟨hmany, by decide +kernel, (hchar.appended (by decide +kernel)).1, hbyte,
    (hnone.invalid (by decide +kernel)).2, ?_⟩
  rw [(hone rfl).tryApply_eq]
  exact (hpair.invalid (by decide +kernel)).2

end Escape

end Lookahead
