import Lookahead.Proofs.Writing

/-!
# Code points there and back

Code points are appended in UTF-8, one after the other, and the strict decoder reads them back. The
decoder goes byte by byte and keeps no more than a `Pending`: how many bytes are still to come, the
bounds of the next one and the bits so far. What ties it to the encoding is `Completes`: the bytes
that a pending sequence can still take, and the value it has behind them. By the bounds on the
second byte, what completes a first byte is the encoding of a character and nothing else, so the
decoder takes the shortest form only, and where one character ends is never in question.
-/

namespace Lookahead

namespace Utf8

theorem map_eq_ok {ε α β : Type} {f : α → β} {result : Except ε α} {b : β} :
    result.map f = .ok b ↔ ∃ a, result = .ok a ∧ b = f a := by
  cases result <;> simp [Except.map, eq_comm]

/-! ## Pending sequences -/

/-- The bytes complete the sequence, and it then stands for the value. -/
def Pending.Completes (value : Nat) : Pending → List UInt8 → Prop
  | _, [] => False
  | pending, byte :: tail =>
      (pending.least ≤ byte ∧ byte ≤ pending.greatest) ∧
        match pending.missing with
        | 0 => tail = [] ∧ pending.shiftIn byte = value
        | missing + 1 =>
            Completes value ⟨missing, 0x80, 0xBF, pending.shiftIn byte, pending.seen + 1⟩ tail

section Completes

variable {least greatest : UInt8} {bits seen missing value : Nat} {tail : List UInt8}

theorem completes_last :
    Pending.Completes value ⟨0, least, greatest, bits, seen⟩ tail ↔
      ∃ byte, tail = [byte] ∧ (least ≤ byte ∧ byte ≤ greatest) ∧
        bits * 64 + (byte.toNat - 0x80) = value := by
  constructor
  · intro h
    cases tail with
    | nil => cases h
    | cons byte tail =>
        obtain ⟨hbounds, rfl, hvalue⟩ := h
        exact ⟨byte, rfl, hbounds, hvalue⟩
  · rintro ⟨byte, rfl, hbounds, hvalue⟩
    exact ⟨hbounds, rfl, hvalue⟩

theorem completes_more :
    Pending.Completes value ⟨missing + 1, least, greatest, bits, seen⟩ tail ↔
      ∃ byte rest, tail = byte :: rest ∧ (least ≤ byte ∧ byte ≤ greatest) ∧
        Pending.Completes value
          ⟨missing, 0x80, 0xBF, bits * 64 + (byte.toNat - 0x80), seen + 1⟩ rest := by
  constructor
  · intro h
    cases tail with
    | nil => cases h
    | cons byte tail =>
        obtain ⟨hbounds, hrest⟩ := h
        exact ⟨byte, tail, rfl, hbounds, hrest⟩
  · rintro ⟨byte, rest, rfl, hbounds, hrest⟩
    exact ⟨hbounds, hrest⟩

variable {position : Nat} {byte : UInt8} {bytes : List UInt8} {chars : List Char}

theorem decodeFrom_last :
    decodeFrom position (some ⟨0, least, greatest, bits, seen⟩) (byte :: bytes) = .ok chars ↔
      (least ≤ byte ∧ byte ≤ greatest) ∧
        ∃ others, decodeFrom (position + seen + 1) none bytes = .ok others ∧
          chars = Char.ofNat (bits * 64 + (byte.toNat - 0x80)) :: others := by
  rw [decodeFrom]
  by_cases hbounds : least ≤ byte ∧ byte ≤ greatest
  · rw [if_pos hbounds]
    exact map_eq_ok.trans (and_iff_right hbounds).symm
  · rw [if_neg hbounds]
    exact ⟨nofun, fun h => absurd h.1 hbounds⟩

theorem decodeFrom_more :
    decodeFrom position (some ⟨missing + 1, least, greatest, bits, seen⟩) (byte :: bytes)
        = .ok chars ↔
      (least ≤ byte ∧ byte ≤ greatest) ∧
        decodeFrom position
          (some ⟨missing, 0x80, 0xBF, bits * 64 + (byte.toNat - 0x80), seen + 1⟩) bytes
            = .ok chars := by
  rw [decodeFrom]
  by_cases hbounds : least ≤ byte ∧ byte ≤ greatest
  · rw [if_pos hbounds]
    exact (and_iff_right hbounds).symm
  · rw [if_neg hbounds]
    exact ⟨nofun, fun h => absurd h.1 hbounds⟩

end Completes

/-- A sequence that has begun is decoded if the bytes complete it and those behind are decoded. -/
theorem decodeFrom_pending {bytes : List UInt8} {chars : List Char} {pending : Pending}
    {position : Nat} :
    decodeFrom position (some pending) bytes = .ok chars ↔
      ∃ value tail rest others, bytes = tail ++ rest ∧ pending.Completes value tail ∧
        decodeFrom (position + pending.seen + tail.length) none rest = .ok others ∧
        chars = Char.ofNat value :: others := by
  induction bytes generalizing pending with
  | nil =>
      constructor
      · exact nofun
      · rintro ⟨value, tail, rest, others, hbytes, hcompletes, -, -⟩
        obtain ⟨rfl, -⟩ := List.append_eq_nil_iff.mp hbytes.symm
        cases hcompletes
  | cons byte bytes ih =>
      obtain ⟨missing, least, greatest, bits, seen⟩ := pending
      cases missing with
      | zero =>
          rw [decodeFrom_last]
          constructor
          · rintro ⟨hbounds, others, hrest, rfl⟩
            exact ⟨_, [byte], bytes, others, rfl, ⟨hbounds, rfl, rfl⟩, hrest, rfl⟩
          · rintro ⟨value, tail, rest, others, hbytes, hcompletes, hrest, rfl⟩
            obtain ⟨last, rfl, hbounds, rfl⟩ := completes_last.mp hcompletes
            obtain ⟨rfl, rfl⟩ := List.cons.inj hbytes
            exact ⟨hbounds, others, hrest, rfl⟩
      | succ missing =>
          have hbehind : ∀ tail : List UInt8,
              position + seen + (byte :: tail).length = position + (seen + 1) + tail.length := by
            intro tail
            rw [List.length_cons]
            omega
          rw [decodeFrom_more, ih]
          constructor
          · rintro ⟨hbounds, value, tail, rest, others, rfl, hcompletes, hrest, rfl⟩
            refine ⟨value, byte :: tail, rest, others, rfl, ⟨hbounds, hcompletes⟩, ?_, rfl⟩
            rw [hbehind]
            exact hrest
          · rintro ⟨value, tail, rest, others, hbytes, hcompletes, hrest, rfl⟩
            obtain ⟨next, tail, rfl, hbounds, hcompletes⟩ := completes_more.mp hcompletes
            obtain ⟨rfl, rfl⟩ := List.cons.inj hbytes
            rw [hbehind] at hrest
            exact ⟨hbounds, value, tail, rest, others, rfl, hcompletes, hrest, rfl⟩

/-! ## What completes a first byte -/

/-- What a first byte promises, by the number of bytes that are to come. -/
def promised (byte : UInt8) : Option Pending :=
  if 0xC2 ≤ byte ∧ byte ≤ 0xDF then some ⟨0, 0x80, 0xBF, byte.toNat - 0xC0, 1⟩
  else if 0xE0 ≤ byte ∧ byte ≤ 0xEF then
    some ⟨1, if byte = 0xE0 then 0xA0 else 0x80, if byte = 0xED then 0x9F else 0xBF,
      byte.toNat - 0xE0, 1⟩
  else if 0xF0 ≤ byte ∧ byte ≤ 0xF4 then
    some ⟨2, if byte = 0xF0 then 0x90 else 0x80, if byte = 0xF4 then 0x8F else 0xBF,
      byte.toNat - 0xF0, 1⟩
  else none

theorem lead?_eq (byte : UInt8) : lead? byte = promised byte :=
  Grammar.forall_byte (P := fun byte => lead? byte = promised byte) (by decide +kernel) byte

section Widths

variable {c : Char} {a x y z : UInt8}

theorem encode_two (hleast : 0x80 ≤ c.toNat) (hmost : c.toNat ≤ 0x7FF) :
    String.utf8EncodeChar c = [a, x] ↔
      a.toNat = c.toNat / 64 + 0xC0 ∧ x.toNat = c.toNat % 64 + 0x80 := by
  have hvalue : c.val.toNat = c.toNat := rfl
  unfold String.utf8EncodeChar
  simp only [hvalue, if_neg (show ¬c.toNat ≤ 127 by omega), if_pos hmost, List.cons.injEq,
    ← UInt8.toNat_inj, UInt8.toNat_ofNat', and_true]
  omega

theorem encode_three (hleast : 0x800 ≤ c.toNat) (hmost : c.toNat ≤ 0xFFFF) :
    String.utf8EncodeChar c = [a, x, y] ↔
      a.toNat = c.toNat / 4096 + 0xE0 ∧ x.toNat = c.toNat / 64 % 64 + 0x80 ∧
        y.toNat = c.toNat % 64 + 0x80 := by
  have hvalue : c.val.toNat = c.toNat := rfl
  unfold String.utf8EncodeChar
  simp only [hvalue, if_neg (show ¬c.toNat ≤ 127 by omega),
    if_neg (show ¬c.toNat ≤ 2047 by omega), if_pos hmost, List.cons.injEq, ← UInt8.toNat_inj,
    UInt8.toNat_ofNat', and_true]
  omega

theorem encode_four (hleast : 0x10000 ≤ c.toNat) :
    String.utf8EncodeChar c = [a, x, y, z] ↔
      a.toNat = c.toNat / 262144 + 0xF0 ∧ x.toNat = c.toNat / 4096 % 64 + 0x80 ∧
        y.toNat = c.toNat / 64 % 64 + 0x80 ∧ z.toNat = c.toNat % 64 + 0x80 := by
  have hvalue : c.val.toNat = c.toNat := rfl
  have hmost : c.toNat < 0x110000 := by
    rcases c.valid with h | h <;> omega
  unfold String.utf8EncodeChar
  simp only [hvalue, if_neg (show ¬c.toNat ≤ 127 by omega),
    if_neg (show ¬c.toNat ≤ 2047 by omega), if_neg (show ¬c.toNat ≤ 65535 by omega),
    List.cons.injEq, ← UInt8.toNat_inj, UInt8.toNat_ofNat', and_true]
  omega

end Widths

theorem toNat_ofNat {value : Nat} (h : value.isValidChar) : (Char.ofNat value).toNat = value := by
  rw [Char.toNat_ofNat, if_pos h]

/-- The bounds of a second byte are those of any other but for one first byte each. -/
theorem second_iff {byte second low high least greatest : UInt8} (hleast : 0x80 ≤ least)
    (hgreatest : greatest ≤ 0xBF) :
    (if byte = low then least else 0x80) ≤ second ∧
        second ≤ (if byte = high then greatest else 0xBF) ↔
      (0x80 ≤ second.toNat ∧ second.toNat ≤ 0xBF) ∧
        (byte.toNat = low.toNat → least.toNat ≤ second.toNat) ∧
        (byte.toNat = high.toNat → second.toNat ≤ greatest.toNat) := by
  simp only [UInt8.le_iff_toNat_le, UInt8.reduceToNat, apply_ite UInt8.toNat,
    ← UInt8.toNat_inj] at hleast hgreatest ⊢
  split_ifs <;> omega

/-- What completes a first byte is the encoding of a character. -/
theorem encode_of_completes {byte : UInt8} {pending : Pending} {value : Nat} {tail : List UInt8}
    (hlead : lead? byte = some pending) (h : pending.Completes value tail) :
    String.utf8EncodeChar (Char.ofNat value) = byte :: tail := by
  rw [lead?_eq] at hlead
  unfold promised at hlead
  simp only [UInt8.le_iff_toNat_le, UInt8.reduceToNat] at hlead
  -- the bounds of the second byte keep the value in the range of its width, and off the surrogates
  split at hlead
  · cases hlead
    obtain ⟨x, rfl, hx, hvalue⟩ := completes_last.mp h
    simp only [UInt8.le_iff_toNat_le, UInt8.reduceToNat] at hx
    have hchar : (Char.ofNat value).toNat = value := toNat_ofNat (.inl (by omega))
    rw [encode_two (by omega) (by omega), hchar]
    omega
  split at hlead
  · cases hlead
    obtain ⟨x, rest, rfl, hx, hlast⟩ := completes_more.mp h
    obtain ⟨y, rfl, hy, hvalue⟩ := completes_last.mp hlast
    rw [second_iff (by decide) (by decide)] at hx
    simp only [UInt8.le_iff_toNat_le, UInt8.reduceToNat] at hx hy
    have hchar : (Char.ofNat value).toNat = value :=
      toNat_ofNat (by unfold Nat.isValidChar; omega)
    rw [encode_three (by omega) (by omega), hchar]
    omega
  split at hlead
  · cases hlead
    obtain ⟨x, rest, rfl, hx, hmore⟩ := completes_more.mp h
    obtain ⟨y, rest, rfl, hy, hlast⟩ := completes_more.mp hmore
    obtain ⟨z, rfl, hz, hvalue⟩ := completes_last.mp hlast
    rw [second_iff (by decide) (by decide)] at hx
    simp only [UInt8.le_iff_toNat_le, UInt8.reduceToNat] at hx hy hz
    have hchar : (Char.ofNat value).toNat = value := toNat_ofNat (.inr (by omega))
    rw [encode_four (by omega), hchar]
    omega
  · cases hlead

section Leads

variable {byte : UInt8}

theorem lead?_two (h : 0xC2 ≤ byte ∧ byte ≤ 0xDF) :
    lead? byte = some ⟨0, 0x80, 0xBF, byte.toNat - 0xC0, 1⟩ := by
  rw [lead?_eq, promised, if_pos h]

theorem lead?_three (h : 0xE0 ≤ byte ∧ byte ≤ 0xEF) :
    lead? byte = some ⟨1, if byte = 0xE0 then 0xA0 else 0x80,
      if byte = 0xED then 0x9F else 0xBF, byte.toNat - 0xE0, 1⟩ := by
  have hother : ¬(0xC2 ≤ byte ∧ byte ≤ 0xDF) := by
    simp only [UInt8.le_iff_toNat_le, UInt8.reduceToNat] at h ⊢
    omega
  rw [lead?_eq, promised, if_neg hother, if_pos h]

theorem lead?_four (h : 0xF0 ≤ byte ∧ byte ≤ 0xF4) :
    lead? byte = some ⟨2, if byte = 0xF0 then 0x90 else 0x80,
      if byte = 0xF4 then 0x8F else 0xBF, byte.toNat - 0xF0, 1⟩ := by
  have hothers : ¬(0xC2 ≤ byte ∧ byte ≤ 0xDF) ∧ ¬(0xE0 ≤ byte ∧ byte ≤ 0xEF) := by
    simp only [UInt8.le_iff_toNat_le, UInt8.reduceToNat] at h ⊢
    omega
  rw [lead?_eq, promised, if_neg hothers.1, if_neg hothers.2, if_pos h]

end Leads

/-- The encoding of a character that is not ASCII completes its first byte. -/
theorem completes_of_encode {c : Char} (hleast : 0x80 ≤ c.toNat) :
    ∃ byte tail pending, String.utf8EncodeChar c = byte :: tail ∧ ¬byte < 0x80 ∧
      lead? byte = some pending ∧ pending.Completes c.toNat tail := by
  have hscalar := Utf8.isScalar_iff.mpr c.valid
  fun_cases String.utf8EncodeChar c with
  | case1 v hone => exact absurd hleast (Nat.not_le_of_lt (Nat.lt_succ_of_le hone))
  | case2 v hone htwo =>
      have hv : c.toNat = v := rfl
      refine ⟨_, _, _, rfl, ?_, lead?_two ?_, completes_last.mpr ⟨_, rfl, ?_, ?_⟩⟩
      all_goals
        simp only [UInt8.le_iff_toNat_le, UInt8.lt_iff_toNat_lt, UInt8.reduceToNat,
          UInt8.toNat_ofNat']
        omega
  | case3 v hone htwo hthree =>
      have hv : c.toNat = v := rfl
      unfold IsScalar at hscalar
      refine ⟨_, _, _, rfl, ?_, lead?_three ?_, completes_more.mpr ⟨_, _, rfl,
        (second_iff (by decide) (by decide)).mpr ?_, completes_last.mpr ⟨_, rfl, ?_, ?_⟩⟩⟩
      all_goals
        simp only [UInt8.le_iff_toNat_le, UInt8.lt_iff_toNat_lt, UInt8.reduceToNat,
          UInt8.toNat_ofNat']
        omega
  | case4 v hone htwo hthree =>
      have hv : c.toNat = v := rfl
      unfold IsScalar at hscalar
      refine ⟨_, _, _, rfl, ?_, lead?_four ?_, completes_more.mpr ⟨_, _, rfl,
        (second_iff (by decide) (by decide)).mpr ?_, completes_more.mpr ⟨_, _, rfl, ?_,
        completes_last.mpr ⟨_, rfl, ?_, ?_⟩⟩⟩⟩
      all_goals
        simp only [UInt8.le_iff_toNat_le, UInt8.lt_iff_toNat_lt, UInt8.reduceToNat,
          UInt8.toNat_ofNat']
        omega

/-! ## There and back -/

theorem encode_ascii {byte : UInt8} (h : byte < 0x80) :
    String.utf8EncodeChar (Char.ofNat byte.toNat) = [byte] :=
  Grammar.forall_byte
    (P := fun byte => byte < 0x80 → String.utf8EncodeChar (Char.ofNat byte.toNat) = [byte])
    (by decide +kernel) byte h

theorem lead?_seen {byte : UInt8} {pending : Pending} (h : lead? byte = some pending) :
    pending.seen = 1 :=
  Grammar.forall_byte (P := fun byte => ∀ pending ∈ lead? byte, pending.seen = 1)
    (by decide +kernel) byte pending h

variable {position : Nat} {bytes rest : List UInt8} {c : Char} {chars : List Char}

/-- The decoder takes a character by its encoding. -/
theorem decodeFrom_encode
    (h : decodeFrom (position + (String.utf8EncodeChar c).length) none rest = .ok chars) :
    decodeFrom position none (String.utf8EncodeChar c ++ rest) = .ok (c :: chars) := by
  by_cases hascii : c.toNat < 0x80
  · have hbyte : (UInt8.ofNat c.toNat).toNat = c.toNat :=
      UInt8.toNat_ofNat_of_lt' (Nat.lt_trans hascii (by decide))
    have hlt : UInt8.ofNat c.toNat < 0x80 := by
      rw [UInt8.lt_iff_toNat_lt, hbyte]
      exact hascii
    have hencode := encode_ascii hlt
    rw [hbyte, Char.ofNat_toNat] at hencode
    rw [hencode] at h ⊢
    rw [List.singleton_append, decodeFrom, if_pos hlt, hbyte, Char.ofNat_toNat]
    exact map_eq_ok.mpr ⟨chars, h, rfl⟩
  · obtain ⟨byte, tail, pending, hencode, hbyte, hlead, hcompletes⟩ :=
      completes_of_encode (Nat.le_of_not_lt hascii)
    rw [hencode, List.length_cons] at h
    rw [hencode, List.cons_append, decodeFrom, if_neg hbyte, hlead]
    refine decodeFrom_pending.mpr ⟨c.toNat, tail, rest, chars, rfl, hcompletes, ?_, ?_⟩
    · rw [lead?_seen hlead, Nat.add_assoc, Nat.add_comm 1]
      exact h
    · rw [Char.ofNat_toNat]

/-- The decoder takes characters by no other bytes than their encoding. -/
theorem encode_of_decodeFrom (h : decodeFrom position none bytes = .ok (c :: chars)) :
    ∃ rest, bytes = String.utf8EncodeChar c ++ rest ∧
      decodeFrom (position + (String.utf8EncodeChar c).length) none rest = .ok chars := by
  cases bytes with
  | nil => cases h
  | cons byte bytes =>
      rw [decodeFrom] at h
      split at h
      · rename_i hascii
        obtain ⟨others, hrest, hchars⟩ := map_eq_ok.mp h
        obtain ⟨rfl, rfl⟩ := List.cons.inj hchars
        rw [encode_ascii hascii]
        exact ⟨bytes, rfl, hrest⟩
      · cases hlead : lead? byte with
        | none =>
            rw [hlead] at h
            cases h
        | some pending =>
            rw [hlead] at h
            obtain ⟨value, tail, rest, others, rfl, hcompletes, hrest, hchars⟩ :=
              decodeFrom_pending.mp h
            obtain ⟨rfl, rfl⟩ := List.cons.inj hchars
            rw [lead?_seen hlead, Nat.add_assoc, Nat.add_comm 1] at hrest
            rw [encode_of_completes hlead hcompletes]
            exact ⟨rest, rfl, hrest⟩

theorem decodeFrom_eq_ok_iff :
    decodeFrom position none bytes = .ok chars ↔ bytes = chars.flatMap String.utf8EncodeChar := by
  induction chars generalizing position bytes with
  | nil =>
      constructor
      · intro h
        cases bytes with
        | nil => rfl
        | cons byte bytes =>
            rw [decodeFrom] at h
            split at h
            · obtain ⟨others, -, hchars⟩ := map_eq_ok.mp h
              cases hchars
            · split at h
              · cases h
              · obtain ⟨_, _, _, _, -, -, -, hchars⟩ := decodeFrom_pending.mp h
                cases hchars
      · rintro rfl
        rfl
  | cons c chars ih =>
      constructor
      · intro h
        obtain ⟨rest, rfl, hrest⟩ := encode_of_decodeFrom h
        rw [ih.mp hrest, List.flatMap_cons]
      · rintro rfl
        rw [List.flatMap_cons]
        exact decodeFrom_encode (ih.mpr rfl)

/-- The strict decoder reads characters from their encoding, and from nothing else. -/
theorem decode_eq_ok_iff :
    decode bytes = .ok chars ↔ bytes = chars.flatMap String.utf8EncodeChar :=
  decodeFrom_eq_ok_iff

end Utf8

namespace Escape

open Utf8

variable {codePoint : UInt32} {out : List UInt8}

/-! ## Appending -/

theorem putCodePoint_scalar (h : IsScalar codePoint.toNat) :
    Writer.putCodePoint codePoint out
      = .ok true (out ++ String.utf8EncodeChar (Char.ofNat codePoint.toNat)) :=
  putCodePoint_some (encode?_valid (isScalar_iff.mp h))

theorem putCodePoint_other (h : ¬IsScalar codePoint.toNat) :
    Writer.putCodePoint codePoint out = .ok false out :=
  putCodePoint_none (encode?_invalid (mt isScalar_iff.mpr h))

/-- The characters among code points. -/
def charsAmong (codePoints : List UInt32) : List Char :=
  (codePoints.filter fun codePoint => IsScalar codePoint.toNat).map fun codePoint =>
    Char.ofNat codePoint.toNat

theorem charsAmong_scalar (h : IsScalar codePoint.toNat) (codePoints : List UInt32) :
    charsAmong (codePoint :: codePoints)
      = Char.ofNat codePoint.toNat :: charsAmong codePoints := by
  simp [charsAmong, h]

theorem charsAmong_other (h : ¬IsScalar codePoint.toNat) (codePoints : List UInt32) :
    charsAmong (codePoint :: codePoints) = charsAmong codePoints := by
  simp [charsAmong, h]

/-- The characters are appended, in UTF-8, and the others passed over. -/
theorem mapM_putCodePoint (codePoints : List UInt32) (out : List UInt8) :
    codePoints.mapM Writer.putCodePoint out
      = .ok (codePoints.map fun codePoint => decide (IsScalar codePoint.toNat))
          (out ++ (charsAmong codePoints).flatMap String.utf8EncodeChar) := by
  induction codePoints generalizing out with
  | nil => exact congrArg _ (List.append_nil out).symm
  | cons codePoint codePoints ih =>
      rw [List.mapM_cons, bind_apply, List.map_cons]
      by_cases hscalar : IsScalar codePoint.toNat
      · rw [putCodePoint_scalar hscalar, charsAmong_scalar hscalar, List.flatMap_cons,
          ← List.append_assoc, decide_eq_true hscalar]
        simp only
        rw [bind_apply, ih]
        rfl
      · rw [putCodePoint_other hscalar, charsAmong_other hscalar, decide_eq_false hscalar]
        simp only
        rw [bind_apply, ih]
        rfl

theorem map_val_charsAmong (codePoints : List UInt32) :
    (charsAmong codePoints).map Char.val
      = codePoints.filter fun codePoint => IsScalar codePoint.toNat := by
  unfold charsAmong
  rw [List.map_map]
  refine (List.map_congr_left fun codePoint hmem => ?_).trans (List.map_id _)
  have hvalid := isScalar_iff.mp (of_decide_eq_true (List.mem_filter.mp hmem).2)
  show (Char.ofNat codePoint.toNat).val = codePoint
  rw [Char.val_ofNat hvalid, UInt32.ofNat_toNat]

/-- What is appended tells the characters, to whichever output. -/
theorem filter_eq_of_appended {first second : List UInt32} {out' bytes : List UInt8}
    (hfirst : stateOf (first.mapM Writer.putCodePoint out) = out ++ bytes)
    (hsecond : stateOf (second.mapM Writer.putCodePoint out') = out' ++ bytes) :
    (first.filter fun codePoint => IsScalar codePoint.toNat)
      = second.filter fun codePoint => IsScalar codePoint.toNat := by
  rw [mapM_putCodePoint, stateOf_ok] at hfirst hsecond
  have hchars := decode_eq_ok_iff.mpr (List.append_cancel_left hfirst).symm
  have hothers := decode_eq_ok_iff.mpr (List.append_cancel_left hsecond).symm
  rw [← map_val_charsAmong, ← map_val_charsAmong, Except.ok.inj (hchars.symm.trans hothers)]

/-- **Appended code points decode back.** Whatever the output and the code points: each is appended
if it is a character's and passed over if not; the strict decoder accepts what the calls appended
and reads those characters from it, in order; and it accepts the shortest form of characters only.
So no two sequences of characters append the same bytes. -/
theorem appended_decoded (codePoints : List UInt32) (out : List UInt8) :
    (∀ codePoint out',
      (IsScalar codePoint.toNat → ∃ bytes, encode? codePoint = some bytes ∧
        Writer.putCodePoint codePoint out' = .ok true (out' ++ bytes)) ∧
      (¬IsScalar codePoint.toNat → encode? codePoint = none ∧
        Writer.putCodePoint codePoint out' = .ok false out')) ∧
    (∃ bytes chars,
      codePoints.mapM Writer.putCodePoint out
        = .ok (codePoints.map fun codePoint => decide (IsScalar codePoint.toNat)) (out ++ bytes) ∧
      decode bytes = .ok chars ∧
      chars.map Char.val = codePoints.filter fun codePoint => IsScalar codePoint.toNat) ∧
    (∀ bytes chars, decode bytes = .ok chars ↔ bytes = chars.flatMap String.utf8EncodeChar) ∧
    (∀ (others : List UInt32) (out' bytes : List UInt8),
      (∀ codePoint ∈ codePoints ++ others, IsScalar codePoint.toNat) →
      stateOf (codePoints.mapM Writer.putCodePoint out) = out ++ bytes →
      stateOf (others.mapM Writer.putCodePoint out') = out' ++ bytes → codePoints = others) := by
  refine ⟨fun codePoint out' => ⟨fun h => ?_, fun h => ?_⟩, ?_, fun bytes chars => decode_eq_ok_iff,
    fun others out' bytes hscalar happended hothers => ?_⟩
  · exact ⟨_, encode?_valid (isScalar_iff.mp h), putCodePoint_scalar h⟩
  · exact ⟨encode?_invalid (mt isScalar_iff.mpr h), putCodePoint_other h⟩
  · exact ⟨_, charsAmong codePoints, mapM_putCodePoint codePoints out, decode_eq_ok_iff.mpr rfl,
      map_val_charsAmong codePoints⟩
  · have hkept : ∀ list ⊆ codePoints ++ others,
        (list.filter fun codePoint => IsScalar codePoint.toNat) = list := by
      intro list hsubset
      exact List.filter_eq_self.mpr fun codePoint hmem =>
        decide_eq_true (hscalar codePoint (hsubset hmem))
    have hsame := filter_eq_of_appended happended hothers
    rwa [hkept _ (List.subset_append_left _ _), hkept _ (List.subset_append_right _ _)] at hsame

/-- Code points of every width, with half a pair and one that is too large among them, and a
character whose bytes are others. -/
theorem appended_decoded_of_widths :
    let codePoints : List UInt32 := [0x7F, 0x80, 0xD800, 0x7FF, 0x800, 0xFFFF, 0x110000, 0x10000]
    let accepted : List UInt32 := [0x7F, 0x80, 0x7FF, 0x800, 0xFFFF, 0x10000]
    (∃ bytes chars, decode bytes = .ok chars ∧ chars.map Char.val = accepted ∧
      codePoints.mapM Writer.putCodePoint [65]
        = .ok [true, true, false, true, true, true, false, true] (65 :: bytes)) ∧
      IsScalar (0x80 : UInt32).toNat ∧ IsScalar (0x800 : UInt32).toNat ∧
      ∀ bytes, stateOf ([0x80].mapM Writer.putCodePoint [65]) = 65 :: bytes →
        stateOf ([0x800].mapM Writer.putCodePoint []) ≠ bytes := by
  intro codePoints accepted
  obtain ⟨-, ⟨bytes, chars, happended, hdecode, hchars⟩, -⟩ := appended_decoded codePoints [65]
  obtain ⟨-, -, -, hdifferent⟩ := appended_decoded [0x80] [65]
  have hfirst : IsScalar (0x80 : UInt32).toNat := by decide +kernel
  have hsecond : IsScalar (0x800 : UInt32).toNat := by decide +kernel
  refine ⟨⟨bytes, chars, hdecode, hchars.trans (by decide +kernel), ?_⟩, hfirst, hsecond, ?_⟩
  · have haccepts : (codePoints.map fun codePoint => decide (IsScalar codePoint.toNat))
        = [true, true, false, true, true, true, false, true] := by decide +kernel
    rw [happended, haccepts, List.singleton_append]
  · intro bytes hbytes hothers
    have hscalar : ∀ codePoint ∈ [0x80] ++ [0x800], IsScalar (codePoint : UInt32).toNat := by
      intro codePoint hmem
      rcases List.mem_pair.mp hmem with rfl | rfl
      · exact hfirst
      · exact hsecond
    have hsame := hdifferent [0x800] [] bytes hscalar hbytes hothers
    exact absurd hsame (by decide +kernel)

end Escape

end Lookahead
