import Mathlib
import Lookahead.Proofs.Surrogates

/-!
# Transcoding runs of escapes

What the decoder of UTF-16 escapes makes of any span at all. The span is seen by index: the digits
of unit `j` are its bytes `6 * j + 1` to `6 * j + 4`, and no other byte matters. Where all of them
are digits the units are decoded as UTF-16 and written as UTF-8, or the first lone surrogate is
named. Where some are not, the run is decoded as far as the first unit that is no number.

The decoder cuts a span from the front and takes the pieces apart. `walk` goes through the same span
by index, checks every slice that it takes, and comes to the same: none is out of range.
-/

namespace Lookahead

namespace Escape

open Utf16

/-! ## Numbers -/

def isHex (byte : UInt8) : Bool :=
  (Grammar.hexValue? byte).isSome

/-- The number that digits are in base sixteen. -/
def number (digits : List UInt8) : Nat :=
  digits.foldl (fun value byte => 16 * value + (Grammar.hexValue? byte).getD 0) 0

theorem exists_digit {byte : UInt8} (h : isHex byte = true) :
    ∃ digit, Hex.digit? byte = some digit ∧ Grammar.hexValue? byte = some digit.toNat := by
  unfold isHex at h
  rw [Grammar.hexValue?_eq] at h ⊢
  obtain ⟨digit, hdigit⟩ := Option.isSome_iff_exists.mp (by rwa [Option.isSome_map] at h)
  exact ⟨digit, hdigit, by rw [hdigit]; rfl⟩

theorem digit?_eq_none {byte : UInt8} (h : isHex byte = false) : Hex.digit? byte = none := by
  unfold isHex at h
  rw [Grammar.hexValue?_eq, Option.isSome_map] at h
  exact Option.isSome_eq_false_iff.mp h |> Option.isNone_iff_eq_none.mp

/-- Digits pushed into an accumulator, where pushing one is counting in base sixteen as far as the
accumulator goes. A byte that is no digit is found whatever was pushed before it. -/
theorem fold_eq {α : Type} (push : α → UInt8 → α) {holding : Nat → α}
    (hpush : ∀ value (digit : UInt8), digit.toNat < 16 →
      push (holding value) digit = holding (16 * value + digit.toNat))
    (digits : List UInt8) (value : Nat) :
    Hex.fold push (holding value) digits
      = match digits.find? (fun byte => !isHex byte) with
        | some byte => .error byte
        | none => .ok (holding (digits.foldl
            (fun value byte => 16 * value + (Grammar.hexValue? byte).getD 0) value)) := by
  induction digits generalizing value with
  | nil => rfl
  | cons byte digits ih =>
      cases hbyte : isHex byte with
      | true =>
          obtain ⟨digit, hdigit, hvalue⟩ := exists_digit hbyte
          rw [List.find?_cons_of_neg (by simp [hbyte]), List.foldl_cons, hvalue, Option.getD_some,
            Hex.fold, hdigit]
          simp only [hpush value digit (Hex.digit?_lt hdigit)]
          exact ih (16 * value + digit.toNat)
      | false =>
          rw [List.find?_cons_of_pos (by simp [hbyte]), Hex.fold, digit?_eq_none hbyte]

theorem unitOf_eq (digits : List UInt8) :
    unitOf digits = match digits.find? (fun byte => !isHex byte) with
      | some byte => .error (.violation (.notHex byte))
      | none => .ok (UInt32.ofNat (number digits)) := by
  have hfold := fold_eq (fun (acc : UInt32) digit => (acc <<< 4) ||| digit.toUInt32)
    (fun value _ => Hex.push_digit value) digits 0
  unfold unitOf Hex.word
  rw [show (0 : UInt32) = UInt32.ofNat 0 from rfl, hfold]
  cases digits.find? (fun byte => !isHex byte) <;> rfl

/-- The first byte that is no digit is found. -/
theorem unitOf_notHex {digits : List UInt8} {byte : UInt8}
    (h : digits.find? (fun byte => !isHex byte) = some byte) :
    unitOf digits = .error (.violation (.notHex byte)) := by
  rw [unitOf_eq, h]

theorem find?_eq_none {digits : List UInt8} :
    digits.find? (fun byte => !isHex byte) = none ↔ ∀ byte ∈ digits, isHex byte = true := by
  simp [List.find?_eq_none]

theorem unitOf_hex {digits : List UInt8} (h : ∀ byte ∈ digits, isHex byte = true) :
    unitOf digits = .ok (UInt32.ofNat (number digits)) := by
  rw [unitOf_eq, find?_eq_none.mpr h]

theorem hexValue?_lt (byte : UInt8) : (Grammar.hexValue? byte).getD 0 < 16 :=
  Grammar.forall_byte (P := fun byte => (Grammar.hexValue? byte).getD 0 < 16)
    (by decide +kernel) byte

theorem foldl_lt (digits : List UInt8) (value : Nat) :
    digits.foldl (fun value byte => 16 * value + (Grammar.hexValue? byte).getD 0) value
      < (value + 1) * 16 ^ digits.length := by
  induction digits generalizing value with
  | nil => simp
  | cons byte digits ih =>
      have hdigit := hexValue?_lt byte
      rw [List.foldl_cons, List.length_cons, Nat.pow_succ]
      refine Nat.lt_of_lt_of_le (ih _) ?_
      rw [Nat.mul_comm (16 ^ _) 16, ← Nat.mul_assoc]
      exact Nat.mul_le_mul_right _ (by omega)

/-- Four digits are a unit. -/
theorem exists_quad {digits : List UInt8} (hlength : digits.length = 4)
    (hhex : ∀ byte ∈ digits, isHex byte = true) :
    ∃ quad : Quad, quad.digits = digits ∧ quad.value = number digits := by
  have hbound : number digits < (0 + 1) * 16 ^ digits.length := foldl_lt digits 0
  rw [hlength] at hbound
  exact ⟨⟨digits, number digits, hlength, unitOf_hex hhex, hbound⟩, rfl, rfl⟩

theorem exists_quads {cuts : List (List UInt8)}
    (h : ∀ cut ∈ cuts, cut.length = 4 ∧ ∀ byte ∈ cut, isHex byte = true) :
    ∃ quads : List Quad, quads.map Quad.digits = cuts ∧ quads.map Quad.value = cuts.map number := by
  induction cuts with
  | nil => exact ⟨[], rfl, rfl⟩
  | cons cut cuts ih =>
      obtain ⟨quads, hdigits, hvalues⟩ := ih fun cut hmem => h cut (List.mem_cons_of_mem _ hmem)
      obtain ⟨hlength, hhex⟩ := h cut List.mem_cons_self
      obtain ⟨quad, hquad, hvalue⟩ := exists_quad hlength hhex
      exact ⟨quad :: quads, by rw [List.map_cons, hquad, hdigits],
        by rw [List.map_cons, hvalue, hvalues, List.map_cons]⟩

/-! ## Runs with a unit that is no number -/

section Malformed

variable {cut : List UInt8} {cuts : List (List UInt8)} {cause : Cause}

theorem decodeUnits_malformed (hcut : unitOf cut = .error cause) :
    decodeUnits (cut :: cuts) = .error cause := by
  cases cuts <;> simp only [decodeUnits, hcut] <;> rfl

/-- A high surrogate looks at the next unit before anything is said about itself. -/
theorem decodeUnits_high_malformed {quad : Quad} (hhigh : High quad.value)
    (hcut : unitOf cut = .error cause) :
    decodeUnits (quad.digits :: cut :: cuts) = .error cause := by
  simp only [decodeUnits, quad.unitOf_eq, hcut]
  show (if Utf16.isHigh (UInt32.ofNat quad.value) then _ else _) = _
  rw [if_pos ((isHigh_ofNat quad.value_lt).mpr hhigh)]
  rfl

/-- The decoder comes as far as the first unit that is no number if nothing is stranded before. -/
theorem decodeUnits_reaches (hcut : unitOf cut = .error cause) : (quads : List Quad) →
    (∀ index, ¬Stranded (quads.map Quad.value) index) →
    decodeUnits (quads.map Quad.digits ++ cut :: cuts) = .error cause
  | [], _ => decodeUnits_malformed hcut
  | [quad], hnone => by
      by_cases hhigh : High quad.value
      · exact decodeUnits_high_malformed hhigh hcut
      · by_cases hlow : Low quad.value
        · exact absurd (stranded_low hlow) (hnone 0)
        · rw [List.map_singleton, List.singleton_append, decodeUnits_plain quad _ hhigh hlow,
            decodeUnits_malformed hcut]
          rfl
  | quad :: next :: quads, hnone => by
      simp only [List.map_cons, List.cons_append] at hnone ⊢
      by_cases hhigh : High quad.value
      · by_cases hpair : Low next.value
        · have hrest := decodeUnits_reaches hcut quads fun index =>
            mt (stranded_pair hpair).mpr (hnone _)
          rw [decodeUnits_pair quad next _ hhigh hpair, hrest]
          rfl
        · exact absurd (stranded_high hhigh hpair) (hnone 0)
      · by_cases hlow : Low quad.value
        · exact absurd (stranded_low hlow) (hnone 0)
        · have hrest := decodeUnits_reaches hcut (next :: quads) fun index =>
            mt (stranded_succ hhigh).mpr (hnone _)
          rw [List.map_cons, List.cons_append] at hrest
          rw [decodeUnits_plain quad _ hhigh hlow, hrest]
          rfl

/-- It stops before at the first stranded surrogate, whatever follows. -/
theorem decodeUnits_stranded {index lone : Nat} : (quads : List Quad) →
    First (Stranded (quads.map Quad.value)) index → lone ∈ (quads.map Quad.value)[index]? →
    decodeUnits (quads.map Quad.digits ++ cuts) = .error (.invalidCodePoint (UInt32.ofNat lone))
  | [], _, hlone => by cases hlone
  | [quad], hfirst, hlone => by
      have hhigh : ¬High quad.value := fun hhigh => not_stranded_end hhigh hfirst.1
      by_cases hlow : Low quad.value
      · obtain rfl := hfirst.eq_zero (stranded_low hlow)
        cases hlone
        exact decodeUnits_low quad cuts hlow
      · obtain ⟨later, rfl, hlater⟩ :=
          hfirst.shift (fun _ hlt hstranded => not_lone_plain hhigh hlow hlt hstranded.1)
            fun _ => stranded_succ hhigh
        cases hlone
  | quad :: next :: quads, hfirst, hlone => by
      simp only [List.map_cons, List.cons_append] at hfirst hlone ⊢
      by_cases hhigh : High quad.value
      · by_cases hpair : Low next.value
        · obtain ⟨later, rfl, hlater⟩ :=
            hfirst.shift (fun _ hlt hstranded => not_lone_pair hhigh hpair hlt hstranded.1)
              fun _ => stranded_pair hpair
          rw [decodeUnits_pair quad next _ hhigh hpair, decodeUnits_stranded quads hlater hlone]
          rfl
        · obtain rfl := hfirst.eq_zero (stranded_high hhigh hpair)
          cases hlone
          exact decodeUnits_high quad next _ hhigh hpair
      · by_cases hlow : Low quad.value
        · obtain rfl := hfirst.eq_zero (stranded_low hlow)
          cases hlone
          exact decodeUnits_low quad _ hlow
        · obtain ⟨later, rfl, hlater⟩ :=
            hfirst.shift (fun _ hlt hstranded => not_lone_plain hhigh hlow hlt hstranded.1)
              fun _ => stranded_succ hhigh
          have hrest := decodeUnits_stranded (next :: quads) hlater hlone
          rw [List.map_cons, List.cons_append] at hrest
          rw [decodeUnits_plain quad _ hhigh hlow, hrest]
          rfl

end Malformed

/-! ## Spans by index -/

/-- The digits of the unit at an index of a span. -/
def digitsAt (bytes : List UInt8) (index : Nat) : List UInt8 :=
  (bytes.drop (6 * index + 1)).take 4

/-- The first units of a span. -/
def unitsIn (bytes : List UInt8) (count : Nat) : List Nat :=
  (List.range count).map fun index => number (digitsAt bytes index)

/-- The first units of a span have no bytes but digits. -/
def HexTo (bytes : List UInt8) (count : Nat) : Prop :=
  ∀ index < count, ∀ byte ∈ digitsAt bytes index, isHex byte = true

theorem digitsAt_length {bytes : List UInt8} {count index : Nat}
    (hlength : bytes.length + 1 = 6 * count) (hindex : index < count) :
    (digitsAt bytes index).length = 4 := by
  unfold digitsAt
  rw [List.length_take, List.length_drop]
  omega

/-- The cuts of a span are its digits by index. -/
theorem quads?_eq_some {bytes : List UInt8} {count : Nat} (hcount : 0 < count)
    (hlength : bytes.length + 1 = 6 * count) :
    quads? bytes = some ((List.range count).map (digitsAt bytes)) := by
  fun_induction quads? bytes generalizing count with
  | case1 marker a b c d =>
      obtain rfl : count = 1 := by
        simp only [List.length_cons, List.length_nil] at hlength
        omega
      rfl
  | case2 marker a b c d separator rest ih =>
      obtain ⟨others, rfl⟩ := Nat.exists_eq_succ_of_ne_zero (Nat.ne_of_gt hcount)
      simp only [List.length_cons] at hlength
      have hlength' : rest.length + 1 = 6 * others := by omega
      rw [ih (by omega) hlength', List.range_succ_eq_map, List.map_cons, List.map_map]
      rfl
  | case3 bytes hfive hsix =>
      exfalso
      match bytes, hfive, hsix, hlength with
      | [], _, _, hlength | [_], _, _, hlength | [_, _], _, _, hlength
      | [_, _, _], _, _, hlength | [_, _, _, _], _, _, hlength =>
          simp only [List.length_cons, List.length_nil] at hlength
          omega
      | [_, _, _, _, _], hfive, _, _ => exact hfive _ _ _ _ _ rfl
      | _ :: _ :: _ :: _ :: _ :: _ :: _, _, hsix, _ => exact hsix _ _ _ _ _ _ _ rfl

theorem quads?_eq_none {bytes : List UInt8} (h : ∀ count, bytes.length + 1 ≠ 6 * count) :
    quads? bytes = none := by
  fun_induction quads? bytes with
  | case1 => exact absurd rfl (h 1)
  | case2 marker a b c d separator rest ih =>
      rw [ih fun count hlength => h (count + 1) (by simp only [List.length_cons]; omega)]
      rfl
  | case3 => rfl

section Runs

variable {bytes : List UInt8} {count : Nat}

theorem decode_eq_decodeUnits (hcount : 0 < count) (hlength : bytes.length + 1 = 6 * count) :
    Decoder.utf16Run.decode bytes = decodeUnits ((List.range count).map (digitsAt bytes)) := by
  have hcuts := quads?_eq_some hcount hlength
  simp only [Decoder.decode, hcuts]

/-- Units whose bytes are digits are quads. -/
theorem HexTo.exists_quads {known : Nat} (h : HexTo bytes known) (hknown : known ≤ count)
    (hlength : bytes.length + 1 = 6 * count) :
    ∃ quads : List Quad, quads.map Quad.digits = (List.range known).map (digitsAt bytes) ∧
      quads.map Quad.value = unitsIn bytes known := by
  have hcuts : ∀ cut ∈ (List.range known).map (digitsAt bytes),
      cut.length = 4 ∧ ∀ byte ∈ cut, isHex byte = true := by
    intro cut hmem
    obtain ⟨index, hindex, rfl⟩ := List.mem_map.mp hmem
    have hlt := List.mem_range.mp hindex
    exact ⟨digitsAt_length hlength (Nat.lt_of_lt_of_le hlt hknown), h index hlt⟩
  obtain ⟨quads, hdigits, hvalues⟩ := Escape.exists_quads hcuts
  exact ⟨quads, hdigits, hvalues.trans List.map_map⟩

/-- The cuts of a span around one of them. -/
theorem range_split (bytes : List UInt8) {bad : Nat} (hbad : bad < count) :
    ∃ cuts, (List.range count).map (digitsAt bytes)
      = (List.range bad).map (digitsAt bytes) ++ digitsAt bytes bad :: cuts := by
  obtain ⟨behind, rfl⟩ := Nat.exists_eq_add_of_lt hbad
  refine ⟨(List.range behind).map fun index => digitsAt bytes (bad + 1 + index), ?_⟩
  rw [show bad + behind + 1 = (bad + 1) + behind from by omega, List.range_add, List.map_append,
    List.range_succ, List.map_append, List.append_assoc, List.map_map]
  rfl

theorem decode_eq_decodedTo (hcount : 0 < count) (hlength : bytes.length + 1 = 6 * count)
    (hhex : HexTo bytes count) :
    Decoder.utf16Run.decode bytes = Grammar.decodedTo (unitsIn bytes count) := by
  obtain ⟨quads, hdigits, hvalues⟩ := hhex.exists_quads (Nat.le_refl count) hlength
  rw [decode_eq_decodeUnits hcount hlength, ← hdigits, ← hvalues]
  exact Grammar.decodeUnits_eq quads

theorem unitsIn_lt (hlength : bytes.length + 1 = 6 * count) (hhex : HexTo bytes count) :
    ∀ unit ∈ unitsIn bytes count, unit < 0x10000 := by
  obtain ⟨quads, -, hvalues⟩ := hhex.exists_quads (Nat.le_refl count) hlength
  intro unit hmem
  rw [← hvalues] at hmem
  obtain ⟨quad, -, rfl⟩ := List.mem_map.mp hmem
  exact quad.value_lt

end Runs

/-! ## The walk by index -/

/-- Why a walk through a span ends early. -/
inductive Stop where
  | outOfRange
  | cause (cause : Cause)

/-- The unit whose digits start at an index, which must all be there. -/
def unitAt (bytes : List UInt8) (start : Nat) : Except Stop UInt32 :=
  if start + 4 ≤ bytes.length then (unitOf ((bytes.drop start).take 4)).mapError .cause
  else .error .outOfRange

/-- Decodes a span from an index on, one or two units at a time. -/
def walk (bytes : List UInt8) (start : Nat) : Except Stop (List UInt8) :=
  if start < bytes.length then do
    let unit ← unitAt bytes start
    if Utf16.isHigh unit ∧ start + 6 < bytes.length then
      let second ← unitAt bytes (start + 6)
      if Utf16.isLow second then
        return (← (encoded (Utf16.combine unit second)).mapError .cause)
          ++ (← walk bytes (start + 12))
    return (← (encoded unit).mapError .cause) ++ (← walk bytes (start + 6))
  else
    return []
termination_by bytes.length - start

theorem unitAt_eq {bytes : List UInt8} {count index : Nat}
    (hlength : bytes.length + 1 = 6 * count) (hindex : index < count) :
    unitAt bytes (6 * index + 1) = (unitOf (digitsAt bytes index)).mapError .cause :=
  if_pos (by omega)

theorem encoded_high {unit : UInt32} (h : Utf16.isHigh unit = true) :
    encoded unit = .error (.invalidCodePoint unit) := by
  unfold Utf16.isHigh at h
  simp only [Bool.and_eq_true, decide_eq_true_eq, UInt32.le_iff_toNat_le,
    UInt32.reduceToNat] at h
  have hunit : UInt32.ofNat unit.toNat = unit := UInt32.ofNat_toNat
  rw [← hunit]
  exact encoded_surrogate h.1 (Nat.le_trans h.2 (by decide))

theorem mapError_append (first second : Except Cause (List UInt8)) :
    (do return (← first.mapError Stop.cause) ++ (← second.mapError Stop.cause))
      = (do return (← first) ++ (← second)).mapError Stop.cause := by
  cases first with
  | error cause => rfl
  | ok bytes => cases second <;> rfl

/-- From every unit on the walk decodes what is left of the cuts. -/
theorem walk_eq_decodeUnits {bytes : List UInt8} {count : Nat}
    (hlength : bytes.length + 1 = 6 * count) : (index left : Nat) → index + left = count →
    walk bytes (6 * index + 1)
      = (decodeUnits ((List.range' index left).map (digitsAt bytes))).mapError .cause
  | index, 0, hleft => by
      rw [walk, if_neg (by omega)]
      rfl
  | index, 1, hleft => by
      have hend := walk_eq_decodeUnits hlength (index + 1) 0 hleft
      rw [walk, if_pos (by omega), unitAt_eq hlength (show index < count by omega)]
      show _ = (do encoded (← unitOf (digitsAt bytes index))).mapError Stop.cause
      cases unitOf (digitsAt bytes index) with
      | error cause => rfl
      | ok unit =>
          show (if Utf16.isHigh unit = true ∧ 6 * index + 1 + 6 < bytes.length then _ else _) = _
          rw [if_neg (by omega), show 6 * index + 1 + 6 = 6 * (index + 1) + 1 from by omega, hend,
            mapError_append]
          show _ = (encoded unit).mapError Stop.cause
          cases encoded unit with
          | error cause => rfl
          | ok first => exact congrArg Except.ok (List.append_nil first)
  | index, left + 2, hleft => by
      have hrest := walk_eq_decodeUnits hlength (index + 1) (left + 1) (by omega)
      have hbehind := walk_eq_decodeUnits hlength (index + 2) left (by omega)
      rw [List.range'_succ, List.map_cons] at hrest
      rw [List.range'_succ, List.range'_succ, List.map_cons, List.map_cons]
      rw [walk, if_pos (by omega), unitAt_eq hlength (show index < count by omega),
        show 6 * index + 1 + 6 = 6 * (index + 1) + 1 from by omega,
        show 6 * index + 1 + 12 = 6 * (index + 2) + 1 from by omega,
        unitAt_eq hlength (show index + 1 < count by omega), hrest, hbehind]
      simp only [mapError_append, decodeUnits]
      cases unitOf (digitsAt bytes index) with
      | error cause => rfl
      | ok unit =>
          by_cases hhigh : Utf16.isHigh unit = true
          · show (if Utf16.isHigh unit = true ∧ 6 * (index + 1) + 1 < bytes.length then _ else _)
              = Except.mapError Stop.cause (if Utf16.isHigh unit = true then _ else _)
            rw [if_pos ⟨hhigh, by omega⟩, if_pos hhigh]
            cases unitOf (digitsAt bytes (index + 1)) with
            | error cause => rfl
            | ok second =>
                by_cases hlow : Utf16.isLow second = true
                · show (if Utf16.isLow second = true then _ else _)
                    = Except.mapError Stop.cause (if Utf16.isLow second = true then _ else _)
                  rw [if_pos hlow, if_pos hlow]
                · show (if Utf16.isLow second = true then _ else _)
                    = Except.mapError Stop.cause (if Utf16.isLow second = true then _ else _)
                  rw [if_neg hlow, if_neg hlow, encoded_high hhigh]
                  rfl
          · show (if Utf16.isHigh unit = true ∧ 6 * (index + 1) + 1 < bytes.length then _ else _)
              = Except.mapError Stop.cause (if Utf16.isHigh unit = true then _ else _)
            rw [if_neg fun h => hhigh h.1, if_neg hhigh]

/-- The walk through a span is its decoding: it takes no slice that is out of range. -/
theorem walk_eq {bytes : List UInt8} {count : Nat} (hcount : 0 < count)
    (hlength : bytes.length + 1 = 6 * count) :
    walk bytes 1 = (Decoder.utf16Run.decode bytes).mapError .cause := by
  rw [decode_eq_decodeUnits hcount hlength, List.range_eq_range']
  exact walk_eq_decodeUnits hlength 0 count (Nat.zero_add count)

/-! ## Every span -/

/-- The failure names the place where the span starts, and the output stays as it was. -/
def Refuses (span : Span) (out : List UInt8) (cause : Cause) (fatal : Bool) : Prop :=
  Decoder.utf16Run.apply span out = .error ⟨cause, span.start.toPlace⟩ out ∧ cause.isFatal = fatal

/-- What becomes of a span of so many units. -/
structure Transcodes (span : Span) (count : Nat) (out : List UInt8) : Prop where
  accepts_iff : (∃ out', Decoder.utf16Run.apply span out = .ok () out') ↔
    HexTo span.bytes count ∧ ∀ index, ¬Lone (unitsIn span.bytes count) index
  /-- Units without a lone surrogate are the encoding of characters. -/
  wellFormed : HexTo span.bytes count → (∀ index, ¬Lone (unitsIn span.bytes count) index) →
    ∃ chars : List Char, chars.flatMap Utf16.encode = unitsIn span.bytes count
  /-- Those characters are appended, in UTF-8. -/
  appended : HexTo span.bytes count → ∀ chars : List Char,
    chars.flatMap Utf16.encode = unitsIn span.bytes count →
    Decoder.utf16Run.apply span out = .ok () (out ++ chars.flatMap String.utf8EncodeChar)
  /-- The first lone surrogate is named. -/
  illFormed : HexTo span.bytes count → ∀ index, First (Lone (unitsIn span.bytes count)) index →
    ∀ lone ∈ (unitsIn span.bytes count)[index]?,
      Refuses span out (.invalidCodePoint (UInt32.ofNat lone)) false
  /-- The first unit that is no number is reached if no surrogate is stranded before it. -/
  notHex : ∀ bad < count, HexTo span.bytes bad →
    ∀ byte ∈ (digitsAt span.bytes bad).find? (fun byte => !isHex byte),
      (∀ index, ¬Stranded (unitsIn span.bytes bad) index) →
      Refuses span out (.violation (.notHex byte)) true
  /-- Otherwise the first stranded one is named. -/
  stranded : ∀ bad < count, HexTo span.bytes bad →
    ∀ index, First (Stranded (unitsIn span.bytes bad)) index →
      ∀ lone ∈ (unitsIn span.bytes bad)[index]?,
        Refuses span out (.invalidCodePoint (UInt32.ofNat lone)) false
  /-- Markers and backslashes may be any bytes. -/
  separators : ∀ bytes : List UInt8, bytes.length = span.bytes.length →
    (∀ index < count, digitsAt bytes index = digitsAt span.bytes index) →
    Decoder.utf16Run.apply { span with bytes } out = Decoder.utf16Run.apply span out
  /-- No slice is out of range. -/
  inRange : walk span.bytes 1 = (Decoder.utf16Run.decode span.bytes).mapError .cause

section Spans

variable {span : Span} {count : Nat} {out : List UInt8}

theorem refuses_of_decode {cause : Cause} (h : Decoder.utf16Run.decode span.bytes = .error cause) :
    Refuses span out cause cause.isFatal :=
  ⟨Decoder.apply_error h out, rfl⟩

theorem decode_wellFormed (hcount : 0 < count) (hlength : span.bytes.length + 1 = 6 * count)
    (hhex : HexTo span.bytes count) {chars : List Char}
    (hchars : chars.flatMap Utf16.encode = unitsIn span.bytes count) :
    Decoder.utf16Run.decode span.bytes = .ok (chars.flatMap String.utf8EncodeChar) := by
  rw [decode_eq_decodedTo hcount hlength hhex, ← hchars]
  unfold Grammar.decodedTo Grammar.textOf
  rw [utf16_encode]
  rfl

theorem decode_illFormed (hcount : 0 < count) (hlength : span.bytes.length + 1 = 6 * count)
    (hhex : HexTo span.bytes count) {index lone : Nat}
    (hfirst : First (Lone (unitsIn span.bytes count)) index)
    (hlone : lone ∈ (unitsIn span.bytes count)[index]?) :
    Decoder.utf16Run.decode span.bytes = .error (.invalidCodePoint (UInt32.ofNat lone)) := by
  rw [decode_eq_decodedTo hcount hlength hhex]
  unfold Grammar.decodedTo Grammar.textOf
  rw [utf16_illFormed hfirst hlone]
  rfl

theorem decode_notHex (hlength : span.bytes.length + 1 = 6 * count) {bad : Nat}
    (hbad : bad < count) (hhex : HexTo span.bytes bad) {byte : UInt8}
    (hbyte : (digitsAt span.bytes bad).find? (fun byte => !isHex byte) = some byte)
    (hnone : ∀ index, ¬Stranded (unitsIn span.bytes bad) index) :
    Decoder.utf16Run.decode span.bytes = .error (.violation (.notHex byte)) := by
  obtain ⟨cuts, hcuts⟩ := range_split span.bytes hbad
  obtain ⟨quads, hdigits, hvalues⟩ := hhex.exists_quads (Nat.le_of_lt hbad) hlength
  rw [decode_eq_decodeUnits (Nat.zero_lt_of_lt hbad) hlength, hcuts, ← hdigits]
  exact decodeUnits_reaches (unitOf_notHex hbyte) quads (hvalues ▸ hnone)

theorem decode_stranded (hlength : span.bytes.length + 1 = 6 * count) {bad : Nat}
    (hbad : bad < count) (hhex : HexTo span.bytes bad) {index lone : Nat}
    (hfirst : First (Stranded (unitsIn span.bytes bad)) index)
    (hlone : lone ∈ (unitsIn span.bytes bad)[index]?) :
    Decoder.utf16Run.decode span.bytes = .error (.invalidCodePoint (UInt32.ofNat lone)) := by
  obtain ⟨cuts, hcuts⟩ := range_split span.bytes hbad
  obtain ⟨quads, hdigits, hvalues⟩ := hhex.exists_quads (Nat.le_of_lt hbad) hlength
  rw [decode_eq_decodeUnits (Nat.zero_lt_of_lt hbad) hlength, hcuts, ← hdigits]
  exact decodeUnits_stranded quads (hvalues ▸ hfirst) (hvalues ▸ hlone)

/-- Where something holds of an index, it has a first one. -/
theorem exists_first {P : Nat → Prop} {index : Nat} (h : P index) : ∃ first, First P first := by
  classical
  exact ⟨Nat.find ⟨index, h⟩, Nat.find_spec ⟨index, h⟩, fun _ hlt => Nat.find_min ⟨index, h⟩ hlt⟩

/-- Where not all units are numbers, there is a first one that is none, and it has a first byte
that is no digit. -/
theorem exists_bad (h : ¬HexTo span.bytes count) : ∃ bad < count, HexTo span.bytes bad ∧
    ∃ byte, (digitsAt span.bytes bad).find? (fun byte => !isHex byte) = some byte := by
  induction count with
  | zero => exact absurd (fun _ hindex => absurd hindex (Nat.not_lt_zero _)) h
  | succ count ih =>
      by_cases hbefore : HexTo span.bytes count
      · refine ⟨count, Nat.lt_succ_self count, hbefore, Option.isSome_iff_exists.mp ?_⟩
        rw [List.find?_isSome]
        by_contra hnone
        refine h fun index hindex byte hmem => ?_
        rcases Nat.lt_succ_iff_lt_or_eq.mp hindex with hlt | rfl
        · exact hbefore index hlt byte hmem
        · by_contra hbyte
          exact hnone ⟨byte, hmem, by simpa using hbyte⟩
      · obtain ⟨bad, hbad, hfound⟩ := ih hbefore
        exact ⟨bad, Nat.lt_succ_of_lt hbad, hfound⟩

theorem accepts_iff (hcount : 0 < count) (hlength : span.bytes.length + 1 = 6 * count) :
    (∃ out', Decoder.utf16Run.apply span out = .ok () out') ↔
      HexTo span.bytes count ∧ ∀ index, ¬Lone (unitsIn span.bytes count) index := by
  constructor
  · rintro ⟨out', haccepts⟩
    have hdecode : ∀ cause, Decoder.utf16Run.decode span.bytes ≠ .error cause := by
      intro cause herror
      rw [(refuses_of_decode herror).1] at haccepts
      cases haccepts
    have hhex : HexTo span.bytes count := by
      by_contra hnot
      obtain ⟨bad, hbad, hbefore, byte, hbyte⟩ := exists_bad hnot
      by_cases hstranded : ∃ index, Stranded (unitsIn span.bytes bad) index
      · obtain ⟨index, hindex⟩ := hstranded
        obtain ⟨first, hfirst⟩ := exists_first hindex
        obtain ⟨lone, hlone, -⟩ := hfirst.1.1
        exact hdecode _ (decode_stranded hlength hbad hbefore hfirst hlone)
      · exact hdecode _ (decode_notHex hlength hbad hbefore hbyte (not_exists.mp hstranded))
    refine ⟨hhex, fun index hindex => ?_⟩
    obtain ⟨first, hfirst⟩ := exists_first hindex
    obtain ⟨lone, hlone, -⟩ := hfirst.1
    exact hdecode _ (decode_illFormed hcount hlength hhex hfirst hlone)
  · rintro ⟨hhex, hnone⟩
    obtain ⟨chars, hchars⟩ := exists_encode (unitsIn_lt hlength hhex) hnone
    exact ⟨_, Decoder.apply_ok (decode_wellFormed hcount hlength hhex hchars) out⟩

/-- Only the digits of a span matter. -/
theorem decode_congr (hcount : 0 < count) (hlength : span.bytes.length + 1 = 6 * count)
    {bytes : List UInt8} (hbytes : bytes.length = span.bytes.length)
    (hdigits : ∀ index < count, digitsAt bytes index = digitsAt span.bytes index) :
    Decoder.utf16Run.decode bytes = Decoder.utf16Run.decode span.bytes := by
  rw [decode_eq_decodeUnits hcount hlength, decode_eq_decodeUnits hcount (hbytes ▸ hlength)]
  congr 1
  exact List.map_congr_left fun index hmem => hdigits index (List.mem_range.mp hmem)

end Spans

/-- **Transcoding.** A span that no run of escapes is as long as is refused for its length. Of all
others the units decide: well-formed ones are appended in UTF-8, of others the first fault is
named. -/
theorem utf16Run_transcodes (span : Span) (out : List UInt8) :
    (span.bytes = [] ∨ (∀ count, span.bytes.length ≠ 6 * count - 1) →
      Refuses span out (.violation (.malformed span.bytes.length)) true) ∧
    ∀ count > 0, span.bytes.length = 6 * count - 1 → Transcodes span count out := by
  refine ⟨fun hlength => ?_, fun count hcount hlength => ?_⟩
  · have hmisfit : ∀ count, span.bytes.length + 1 ≠ 6 * count := by
      intro count
      rcases hlength with hempty | hmisfit
      · rw [hempty, List.length_nil]
        omega
      · have hcount := hmisfit count
        omega
    refine refuses_of_decode ?_
    simp only [Decoder.decode, quads?_eq_none hmisfit]
  · have hlength : span.bytes.length + 1 = 6 * count := by omega
    exact {
      accepts_iff := accepts_iff hcount hlength
      wellFormed := fun hhex hnone => exists_encode (unitsIn_lt hlength hhex) hnone
      appended := fun hhex chars hchars => by
        simp only [Decoder.apply, decode_wellFormed hcount hlength hhex hchars]
      illFormed := fun hhex index hfirst lone hlone =>
        refuses_of_decode (decode_illFormed hcount hlength hhex hfirst hlone)
      notHex := fun bad hbad hhex byte hbyte hnone =>
        refuses_of_decode (decode_notHex hlength hbad hhex hbyte hnone)
      stranded := fun bad hbad hhex index hfirst lone hlone =>
        refuses_of_decode (decode_stranded hlength hbad hhex hfirst hlone)
      separators := fun bytes hbytes hdigits => by
        simp only [Decoder.apply, decode_congr hcount hlength hbytes hdigits]
      inRange := walk_eq hcount hlength
    }

/-- A pair of surrogates, and a high one before a unit with a byte that is no digit. -/
theorem utf16Run_transcodes_of_pair :
    Decoder.utf16Run.apply ⟨[117, 68, 56, 51, 68, 92, 117, 68, 69, 48, 48], ⟨⟨1, 1, 2⟩, 1⟩, "doc"⟩ []
        = .ok () [0xF0, 0x9F, 0x98, 0x80] ∧
      Refuses ⟨[117, 68, 56, 51, 68, 92, 117, 68, 69, 48, 103], ⟨⟨1, 1, 2⟩, 1⟩, "doc"⟩ []
        (.violation (.notHex 103)) true := by
  constructor
  · have hspan := (utf16Run_transcodes
      ⟨[117, 68, 56, 51, 68, 92, 117, 68, 69, 48, 48], ⟨⟨1, 1, 2⟩, 1⟩, "doc"⟩ []).2 2
      (by decide) (by decide)
    exact hspan.appended (by unfold HexTo; decide +kernel) ['😀'] (by decide +kernel)
  · have hspan := (utf16Run_transcodes
      ⟨[117, 68, 56, 51, 68, 92, 117, 68, 69, 48, 103], ⟨⟨1, 1, 2⟩, 1⟩, "doc"⟩ []).2 2
      (by decide) (by decide)
    exact hspan.notHex 1 (by decide) (by unfold HexTo; decide +kernel) 103 (by decide +kernel)
      fun index => not_stranded_end (by unfold High; decide +kernel)

end Escape

end Lookahead
