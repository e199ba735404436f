import Mathlib
import Lookahead.Proofs.Grammar

/-!
# Units and numbers

The decoder of escapes works on machine words, with shifts and masks, and cuts a span into digits
without looking at what stands between them. The grammar counts: a unit is the number that its
digits are in base sixteen, and a pair of surrogates is a sum. Both come to the same bytes and the
same errors on every run of units that the grammar matches.
-/

namespace Lookahead

/-! ## Digits -/

namespace Hex

theorem digit?_lt {byte digit : UInt8} (h : digit? byte = some digit) : digit.toNat < 16 := by
  unfold digit? at h
  simp only [UInt8.le_iff_toNat_le, UInt8.reduceToNat] at h
  split at h
  · cases h
    rw [UInt8.toNat_sub]
    simp only [UInt8.reduceToNat]
    omega
  · split at h
    · cases h
      simp only [UInt8.toNat_add, UInt8.toNat_sub, UInt8.reduceToNat]
      omega
    · split at h
      · cases h
        simp only [UInt8.toNat_add, UInt8.toNat_sub, UInt8.reduceToNat]
        omega
      · cases h

/-- Shifting a digit in is counting in base sixteen, as far as a word of so many bits goes. -/
theorem shiftLeft_or_mod (bits n : Nat) {digit : Nat} (hdigit : digit < 16) :
    (n % 2 ^ (bits + 4)) <<< 4 % 2 ^ (bits + 4) ||| digit = (16 * n + digit) % 2 ^ (bits + 4) := by
  have hdiv : (16 * n + digit) / 16 = n := by omega
  have hmod : (16 * n + digit) % 16 = digit := by omega
  calc (n % 2 ^ (bits + 4)) <<< 4 % 2 ^ (bits + 4) ||| digit
      = (n % 2 ^ bits) <<< 4 ||| digit := by
        rw [Nat.shiftLeft_eq, Nat.shiftLeft_eq, Nat.pow_add, Nat.mul_mod_mul_right,
          Nat.mod_mul_right_mod]
    _ = (n % 2 ^ bits) <<< 4 + digit := (Nat.shiftLeft_add_eq_or_of_lt (i := 4) hdigit _).symm
    _ = (16 * n + digit) % (16 * 2 ^ bits) := by
        rw [Nat.mod_mul, hmod, hdiv, Nat.shiftLeft_eq]
        omega
    _ = (16 * n + digit) % 2 ^ (bits + 4) := by rw [Nat.pow_add, Nat.mul_comm (2 ^ bits)]

/-- Pushing a digit into a word. -/
theorem push_digit (n : Nat) {digit : UInt8} (hdigit : digit.toNat < 16) :
    (UInt32.ofNat n <<< 4) ||| digit.toUInt32 = UInt32.ofNat (16 * n + digit.toNat) := by
  apply UInt32.toNat_inj.mp
  rw [UInt32.toNat_or, UInt32.toNat_shiftLeft, UInt32.toNat_ofNat', UInt32.toNat_ofNat',
    UInt8.toNat_toUInt32]
  exact shiftLeft_or_mod 28 n hdigit

/-- Pushing a digit into a byte. -/
theorem push_digit_byte (n : Nat) {digit : UInt8} (hdigit : digit.toNat < 16) :
    (UInt8.ofNat n <<< 4) ||| digit = UInt8.ofNat (16 * n + digit.toNat) := by
  apply UInt8.toNat_inj.mp
  rw [UInt8.toNat_or, UInt8.toNat_shiftLeft, UInt8.toNat_ofNat', UInt8.toNat_ofNat']
  exact shiftLeft_or_mod 4 n hdigit

end Hex

/-! ## Surrogates -/

namespace Utf16

theorem isHigh_ofNat {unit : Nat} (h : unit < 0x10000) :
    isHigh (UInt32.ofNat unit) = true ↔ 0xD800 ≤ unit ∧ unit ≤ 0xDBFF := by
  have hunit : (UInt32.ofNat unit).toNat = unit :=
    UInt32.toNat_ofNat_of_lt' (Nat.lt_trans h (by decide))
  simp only [isHigh, Bool.and_eq_true, decide_eq_true_eq, UInt32.le_iff_toNat_le, hunit,
    UInt32.reduceToNat]

theorem isLow_ofNat {unit : Nat} (h : unit < 0x10000) :
    isLow (UInt32.ofNat unit) = true ↔ 0xDC00 ≤ unit ∧ unit ≤ 0xDFFF := by
  have hunit : (UInt32.ofNat unit).toNat = unit :=
    UInt32.toNat_ofNat_of_lt' (Nat.lt_trans h (by decide))
  simp only [isLow, Bool.and_eq_true, decide_eq_true_eq, UInt32.le_iff_toNat_le, hunit,
    UInt32.reduceToNat]

theorem combine_ofNat {high low : Nat} (hhigh : 0xD800 ≤ high ∧ high ≤ 0xDBFF)
    (hlow : 0xDC00 ≤ low ∧ low ≤ 0xDFFF) :
    combine (UInt32.ofNat high) (UInt32.ofNat low)
      = UInt32.ofNat (0x10000 + (high - 0xD800) * 0x400 + (low - 0xDC00)) := by
  have hmask : high % 2 ^ 32 &&& 1023 = high - 0xD800 := by
    rw [show 1023 = 2 ^ 10 - 1 from rfl, Nat.and_two_pow_sub_one_eq_mod]
    omega
  have lmask : low % 2 ^ 32 &&& 1023 = low - 0xDC00 := by
    rw [show 1023 = 2 ^ 10 - 1 from rfl, Nat.and_two_pow_sub_one_eq_mod]
    omega
  have hor := Nat.shiftLeft_add_eq_or_of_lt (i := 10) (b := low - 0xDC00) (by omega) (high - 0xD800)
  have hshift : (high - 0xD800) <<< 10 % 2 ^ 32 = (high - 0xD800) <<< 10 := by
    rw [Nat.shiftLeft_eq]
    omega
  apply UInt32.toNat_inj.mp
  calc (combine (UInt32.ofNat high) (UInt32.ofNat low)).toNat
      = (((high % 2 ^ 32 &&& 1023) <<< 10 % 2 ^ 32 ||| (low % 2 ^ 32 &&& 1023)) + 0x10000)
          % 2 ^ 32 := by
        unfold combine
        rw [UInt32.toNat_add, UInt32.toNat_or, UInt32.toNat_shiftLeft, UInt32.toNat_and,
          UInt32.toNat_and, UInt32.toNat_ofNat', UInt32.toNat_ofNat']
        rfl
    _ = ((high - 0xD800) <<< 10 + (low - 0xDC00) + 0x10000) % 2 ^ 32 := by
        rw [hmask, lmask, hshift, hor]
    _ = (UInt32.ofNat (0x10000 + (high - 0xD800) * 0x400 + (low - 0xDC00))).toNat := by
        rw [UInt32.toNat_ofNat', Nat.shiftLeft_eq]
        omega

end Utf16

/-! ## Characters -/

namespace Utf8

/-- A number that is a character's: within the range, and half of no pair. -/
def IsScalar (value : Nat) : Prop :=
  value ≤ 0x10FFFF ∧ ¬(0xD800 ≤ value ∧ value ≤ 0xDFFF)

instance (value : Nat) : Decidable (IsScalar value) :=
  inferInstanceAs (Decidable (_ ∧ _))

theorem isScalar_iff {value : Nat} : IsScalar value ↔ value.isValidChar := by
  unfold IsScalar Nat.isValidChar
  omega

variable {codePoint : UInt32}

theorem encode?_valid (h : codePoint.toNat.isValidChar) :
    encode? codePoint = some (String.utf8EncodeChar (Char.ofNat codePoint.toNat)) := by
  have hchar : Char.ofNat codePoint.toNat = ⟨codePoint, h⟩ := Char.ofNat_toNat ⟨codePoint, h⟩
  unfold encode?
  rw [dif_pos h, hchar]

theorem encode?_invalid (h : ¬codePoint.toNat.isValidChar) : encode? codePoint = none :=
  dif_neg h

end Utf8

namespace Escape

variable {value : Nat}

theorem encoded_ofNat (h : value.isValidChar) :
    encoded (UInt32.ofNat value) = .ok (String.utf8EncodeChar (Char.ofNat value)) := by
  have hlt : value < 2 ^ 32 := by
    rcases h with h | h <;> omega
  have hword : (UInt32.ofNat value).toNat = value := UInt32.toNat_ofNat_of_lt' hlt
  unfold encoded
  rw [Utf8.encode?_valid (hword.symm ▸ h), hword]

theorem encoded_invalid (hlt : value < 2 ^ 32) (h : ¬value.isValidChar) :
    encoded (UInt32.ofNat value) = .error (.invalidCodePoint (UInt32.ofNat value)) := by
  have hword : (UInt32.ofNat value).toNat = value := UInt32.toNat_ofNat_of_lt' hlt
  unfold encoded
  rw [Utf8.encode?_invalid (hword.symm ▸ h)]

theorem encoded_surrogate (hleast : 0xD800 ≤ value) (hmost : value ≤ 0xDFFF) :
    encoded (UInt32.ofNat value) = .error (.invalidCodePoint (UInt32.ofNat value)) := by
  refine encoded_invalid (by omega) ?_
  rintro (h | h) <;> omega

end Escape

/-! ## Units -/

/-- Four digits and the number they are. -/
structure Quad where
  digits : List UInt8
  value : Nat
  length_eq : digits.length = 4
  unitOf_eq : Escape.unitOf digits = .ok (UInt32.ofNat value)
  value_lt : value < 0x10000

namespace Quad

def text (quad : Quad) : List UInt8 :=
  0x75 :: quad.digits

theorem isValidChar {quad : Quad} (h : ¬(0xD800 ≤ quad.value ∧ quad.value ≤ 0xDFFF)) :
    quad.value.isValidChar := by
  have hlt := quad.value_lt
  unfold Nat.isValidChar
  omega

theorem exists_digits (quad : Quad) : ∃ a b c d, quad.digits = [a, b, c, d] := by
  have hlength := quad.length_eq
  match hdigits : quad.digits with
  | [] | [_] | [_, _] | [_, _, _] | _ :: _ :: _ :: _ :: _ :: _ =>
      rw [hdigits] at hlength
      simp at hlength
  | [a, b, c, d] => exact ⟨a, b, c, d, rfl⟩

end Quad

namespace Escape

/-! ## Steps of the decoder

What comes behind a unit, or a pair of them, is decoded by itself. -/

variable (quad next : Quad) (cuts : List (List UInt8))

theorem decodeUnits_plain (hhigh : ¬(0xD800 ≤ quad.value ∧ quad.value ≤ 0xDBFF))
    (hlow : ¬(0xDC00 ≤ quad.value ∧ quad.value ≤ 0xDFFF)) :
    decodeUnits (quad.digits :: cuts)
      = (decodeUnits cuts).map (String.utf8EncodeChar (Char.ofNat quad.value) ++ ·) := by
  have hvalid : quad.value.isValidChar := quad.isValidChar (by omega)
  have hunit : Utf16.isHigh (UInt32.ofNat quad.value) = false :=
    Bool.eq_false_iff.mpr (mt (Utf16.isHigh_ofNat quad.value_lt).mp hhigh)
  cases cuts with
  | nil =>
      simp only [decodeUnits, quad.unitOf_eq]
      exact (encoded_ofNat hvalid).trans (congrArg Except.ok (List.append_nil _).symm)
  | cons cut cuts =>
      simp only [decodeUnits, quad.unitOf_eq]
      show (if Utf16.isHigh (UInt32.ofNat quad.value) then _ else _) = _
      rw [hunit]
      simp only [encoded_ofNat hvalid]
      cases decodeUnits (cut :: cuts) <;> rfl

theorem decodeUnits_low (hlow : 0xDC00 ≤ quad.value ∧ quad.value ≤ 0xDFFF) :
    decodeUnits (quad.digits :: cuts)
      = .error (.invalidCodePoint (UInt32.ofNat quad.value)) := by
  have hunit : Utf16.isHigh (UInt32.ofNat quad.value) = false :=
    Bool.eq_false_iff.mpr (mt (Utf16.isHigh_ofNat quad.value_lt).mp (by omega))
  have hencoded := encoded_surrogate (Nat.le_trans (by decide) hlow.1) hlow.2
  cases cuts with
  | nil =>
      simp only [decodeUnits, quad.unitOf_eq]
      exact hencoded
  | cons cut cuts =>
      simp only [decodeUnits, quad.unitOf_eq]
      show (if Utf16.isHigh (UInt32.ofNat quad.value) then _ else _) = _
      rw [hunit]
      simp only [hencoded]
      rfl

theorem decodeUnits_pair (hhigh : 0xD800 ≤ quad.value ∧ quad.value ≤ 0xDBFF)
    (hlow : 0xDC00 ≤ next.value ∧ next.value ≤ 0xDFFF) :
    decodeUnits (quad.digits :: next.digits :: cuts)
      = (decodeUnits cuts).map (String.utf8EncodeChar
          (Char.ofNat (0x10000 + (quad.value - 0xD800) * 0x400 + (next.value - 0xDC00))) ++ ·) := by
  have hvalid : (0x10000 + (quad.value - 0xD800) * 0x400 + (next.value - 0xDC00)).isValidChar := by
    unfold Nat.isValidChar
    omega
  simp only [decodeUnits, quad.unitOf_eq, next.unitOf_eq]
  show (if Utf16.isHigh (UInt32.ofNat quad.value) then
    if Utf16.isLow (UInt32.ofNat next.value) then _ else _ else _) = _
  rw [if_pos ((Utf16.isHigh_ofNat quad.value_lt).mpr hhigh),
    if_pos ((Utf16.isLow_ofNat next.value_lt).mpr hlow), Utf16.combine_ofNat hhigh hlow,
    encoded_ofNat hvalid]
  cases decodeUnits cuts <;> rfl

theorem decodeUnits_high (hhigh : 0xD800 ≤ quad.value ∧ quad.value ≤ 0xDBFF)
    (hnext : ¬(0xDC00 ≤ next.value ∧ next.value ≤ 0xDFFF)) :
    decodeUnits (quad.digits :: next.digits :: cuts)
      = .error (.invalidCodePoint (UInt32.ofNat quad.value)) := by
  simp only [decodeUnits, quad.unitOf_eq, next.unitOf_eq]
  show (if Utf16.isHigh (UInt32.ofNat quad.value) then
    if Utf16.isLow (UInt32.ofNat next.value) then _ else _ else _) = _
  rw [if_pos ((Utf16.isHigh_ofNat quad.value_lt).mpr hhigh),
    if_neg (mt (Utf16.isLow_ofNat next.value_lt).mp hnext)]
  rfl

theorem decodeUnits_last (hhigh : 0xD800 ≤ quad.value ∧ quad.value ≤ 0xDBFF) :
    decodeUnits [quad.digits] = .error (.invalidCodePoint (UInt32.ofNat quad.value)) := by
  simp only [decodeUnits, quad.unitOf_eq]
  exact encoded_surrogate hhigh.1 (Nat.le_trans hhigh.2 (by decide))

end Escape

namespace Grammar

open Peg Entries

theorem textOf_pair {high low : Nat} (hhigh : 0xD800 ≤ high ∧ high ≤ 0xDBFF)
    (hlow : 0xDC00 ≤ low ∧ low ≤ 0xDFFF) (units : List Nat) :
    textOf (high :: low :: units) = (textOf units).map
      (String.utf8EncodeChar
        (Char.ofNat (0x10000 + (high - 0xD800) * 0x400 + (low - 0xDC00))) ++ ·) := by
  unfold textOf
  rw [utf16, if_pos hhigh]
  simp only [if_pos hlow]
  cases utf16 units <;> rfl

theorem textOf_lone {unit : Nat} {units : List Nat} (hunit : 0xD800 ≤ unit ∧ unit ≤ 0xDFFF)
    (hlone : unit ≤ 0xDBFF → ∀ low others, units = low :: others → ¬(0xDC00 ≤ low ∧ low ≤ 0xDFFF)) :
    textOf (unit :: units) = .error unit := by
  unfold textOf
  rw [utf16.eq_def]
  simp only
  by_cases hhigh : 0xD800 ≤ unit ∧ unit ≤ 0xDBFF
  · rw [if_pos hhigh]
    cases units with
    | nil => rfl
    | cons low others =>
        simp only [if_neg (hlone hhigh.2 low others rfl)]
        rfl
  · rw [if_neg hhigh, if_pos (by omega)]
    rfl

theorem textOf_plain {unit : Nat} (hunit : ¬(0xD800 ≤ unit ∧ unit ≤ 0xDFFF)) (units : List Nat) :
    textOf (unit :: units)
      = (textOf units).map (String.utf8EncodeChar (Char.ofNat unit) ++ ·) := by
  unfold textOf
  rw [utf16.eq_def]
  simp only
  rw [if_neg (by omega), if_neg (by omega)]
  cases utf16 units <;> rfl

/-- What decoding a run of units comes to. -/
def decodedTo (units : List Nat) : Except Escape.Cause (List UInt8) :=
  (textOf units).mapError (fun unit => .invalidCodePoint (UInt32.ofNat unit))

theorem decodedTo_map {units others : List Nat} {bytes : List UInt8}
    (h : textOf units = (textOf others).map (bytes ++ ·)) :
    decodedTo units = (do return bytes ++ (← decodedTo others)) := by
  unfold decodedTo
  rw [h]
  cases textOf others <;> rfl

theorem decodedTo_error {units : List Nat} {unit : Nat} (h : textOf units = .error unit) :
    decodedTo units = .error (.invalidCodePoint (UInt32.ofNat unit)) := by
  unfold decodedTo
  rw [h]
  rfl

/-- The decoder and the grammar agree on every run of units. -/
theorem decodeUnits_eq : (quads : List Quad) →
    Escape.decodeUnits (quads.map Quad.digits) = decodedTo (quads.map Quad.value)
  | [] => rfl
  | quad :: quads => by
      have hrest := decodeUnits_eq quads
      simp only [List.map_cons]
      by_cases hlow : 0xDC00 ≤ quad.value ∧ quad.value ≤ 0xDFFF
      · have hlone : textOf (quad.value :: quads.map Quad.value) = .error quad.value :=
          textOf_lone (by omega) (by omega)
        rw [Escape.decodeUnits_low quad _ hlow, decodedTo_error hlone]
      by_cases hhigh : 0xD800 ≤ quad.value ∧ quad.value ≤ 0xDBFF
      · match quads with
        | [] =>
            have hlone : textOf [quad.value] = .error quad.value :=
              textOf_lone (by omega) (by intro _ _ _ hnil; cases hnil)
            exact (Escape.decodeUnits_last quad hhigh).trans (decodedTo_error hlone).symm
        | next :: others =>
            have hothers := decodeUnits_eq others
            simp only [List.map_cons]
            by_cases hpair : 0xDC00 ≤ next.value ∧ next.value ≤ 0xDFFF
            · rw [Escape.decodeUnits_pair quad next _ hhigh hpair, hothers,
                decodedTo_map (textOf_pair hhigh hpair _)]
              cases decodedTo (others.map Quad.value) <;> rfl
            · have hlone : textOf (quad.value :: next.value :: others.map Quad.value)
                  = .error quad.value := by
                refine textOf_lone (by omega) fun _ low behind hcons => ?_
                cases hcons
                exact hpair
              rw [Escape.decodeUnits_high quad next _ hhigh hpair, decodedTo_error hlone]
      · rw [Escape.decodeUnits_plain quad _ hhigh hlow, hrest,
          decodedTo_map (textOf_plain (by omega) _)]
        cases decodedTo (quads.map Quad.value) <;> rfl

/-! ## What the grammar matches of units -/

theorem eq_append_of_number {count value result : Nat} {input rest : List UInt8}
    (h : number count value input = .matched result rest) :
    ∃ digits : List UInt8, input = digits ++ rest ∧ digits.length = count ∧
      Hex.fold (fun (acc : UInt32) digit => (acc <<< 4) ||| digit.toUInt32) (UInt32.ofNat value)
        digits = .ok (UInt32.ofNat result) ∧
      result < (value + 1) * 16 ^ count := by
  induction count generalizing value input with
  | zero =>
      cases h
      exact ⟨[], rfl, rfl, rfl, by omega⟩
  | succ count ih =>
      obtain ⟨value', middle, hdigit, hothers⟩ := eq_matched_of_bind h
      obtain ⟨byte, rfl, hbyte⟩ := eq_cons_of_token hdigit
      rw [hexValue?_eq] at hbyte
      obtain ⟨digit, hmeaning, rfl⟩ := Option.map_eq_some_iff.mp hbyte
      obtain ⟨digits, rfl, hlength, hfold, hlt⟩ := ih hothers
      have hdigit16 := Hex.digit?_lt hmeaning
      refine ⟨byte :: digits, rfl, congrArg (· + 1) hlength, ?_, ?_⟩
      · rw [Hex.fold, hmeaning]
        simp only [Hex.push_digit value hdigit16]
        exact hfold
      · calc result < (16 * value + digit.toNat + 1) * 16 ^ count := hlt
          _ ≤ (16 * (value + 1)) * 16 ^ count := Nat.mul_le_mul_right _ (by omega)
          _ = (value + 1) * 16 ^ (count + 1) := by
            rw [Nat.pow_succ, Nat.mul_comm 16, Nat.mul_assoc, Nat.mul_comm 16]

theorem eq_append_of_unit {unitValue : Nat} {input rest : List UInt8}
    (h : unit input = .matched unitValue rest) :
    ∃ quad : Quad, quad.value = unitValue ∧ input = quad.text ++ rest := by
  obtain ⟨marker, middle, hmarker, hnumber⟩ := eq_matched_of_bind h
  obtain ⟨rfl, haccepts⟩ := eq_cons_of_sat hmarker
  obtain rfl := beq_iff_eq.mp haccepts
  obtain ⟨digits, rfl, hlength, hfold, hlt⟩ := eq_append_of_number hnumber
  have hunit : Escape.unitOf digits = .ok (UInt32.ofNat unitValue) := by
    unfold Escape.unitOf Hex.word
    rw [show (0 : UInt32) = UInt32.ofNat 0 from rfl, hfold]
    rfl
  exact ⟨⟨digits, unitValue, hlength, hunit, by omega⟩, rfl, rfl⟩

theorem eq_append_of_nextUnits {values : List Nat} {input rest : List UInt8}
    (h : star nextUnit input = .matched values rest) :
    ∃ quads : List Quad, quads.map Quad.value = values ∧
      input = quads.flatMap (fun quad => backslash :: quad.text) ++ rest := by
  induction values generalizing input with
  | nil =>
      obtain rfl := star_eq_nil h
      exact ⟨[], rfl, rfl⟩
  | cons value values ih =>
      obtain ⟨middle, hfirst, hothers⟩ := star_eq_cons h
      obtain ⟨quads, hquads, rfl⟩ := ih hothers
      obtain ⟨mark, behind, hmark, hunit⟩ := eq_matched_of_bind hfirst
      obtain ⟨rfl, haccepts⟩ := eq_cons_of_sat hmark
      obtain rfl := beq_iff_eq.mp haccepts
      obtain ⟨quad, hquad, rfl⟩ := eq_append_of_unit hunit
      refine ⟨quad :: quads, by rw [List.map_cons, hquad, hquads], ?_⟩
      rw [List.flatMap_cons, List.cons_append, List.cons_append, List.append_assoc]

/-- The decoder cuts a run of units as the grammar matched it. -/
theorem quads?_text (quad : Quad) (quads : List Quad) :
    Escape.quads? (quad.text ++ quads.flatMap (fun quad => backslash :: quad.text))
      = some (quad.digits :: quads.map Quad.digits) := by
  induction quads generalizing quad with
  | nil =>
      obtain ⟨a, b, c, d, hdigits⟩ := quad.exists_digits
      unfold Quad.text
      rw [hdigits]
      rfl
  | cons next quads ih =>
      obtain ⟨a, b, c, d, hdigits⟩ := quad.exists_digits
      have hnext := ih next
      unfold Quad.text at hnext ⊢
      rw [hdigits, List.flatMap_cons]
      exact congrArg (Option.map ([a, b, c, d] :: ·)) hnext

theorem eq_append_of_units {values : List Nat} {input rest : List UInt8}
    (h : units input = .matched values rest) :
    ∃ text : List UInt8, input = text ++ rest ∧
      Escape.Decoder.utf16Run.decode text = decodedTo values := by
  obtain ⟨first, middle, hfirst, hmore⟩ := eq_matched_of_bind h
  obtain ⟨others, last, hothers, hpure⟩ := eq_matched_of_bind hmore
  cases hpure
  obtain ⟨quad, rfl, rfl⟩ := eq_append_of_unit hfirst
  obtain ⟨quads, rfl, rfl⟩ := eq_append_of_nextUnits hothers
  refine ⟨_, (List.append_assoc _ _ _).symm, ?_⟩
  have hquads := quads?_text quad quads
  simp only [Escape.Decoder.decode, hquads]
  exact decodeUnits_eq (quad :: quads)

end Grammar

end Lookahead
