import Lookahead.Proofs.Documents
import Lookahead.Proofs.Writing

/-!
# Text in, text out

A value is put together from stretches of the document, single bytes and decoded units, and none of
them looks at characters. It is text all the same, because every byte the grammar looks for is
ASCII. In well-formed text such a byte is a character of its own, so a cut in front of it or behind
it is a cut between characters, wherever the reads cut. `Keeps` carries that through the grammar:
what an expression leaves of text is text, and its value is text. Decoders encode whole characters
only, and one that fails leaves the output it found.
-/

namespace Lookahead

namespace Utf8

/-! ## Well-formed text -/

/-- Bytes that encode characters. -/
def WellFormed (bytes : List UInt8) : Prop :=
  bytes.toByteArray.IsValidUTF8

instance (bytes : List UInt8) : Decidable (WellFormed bytes) :=
  inferInstanceAs (Decidable (ByteArray.IsValidUTF8 _))

variable {bytes more before after : List UInt8} {byte : UInt8}

theorem wellFormed_iff :
    WellFormed bytes ↔ ∃ chars : List Char, bytes = chars.flatMap String.utf8EncodeChar := by
  constructor
  · rintro ⟨chars, h⟩
    exact ⟨chars, List.toByteArray_inj.mp h⟩
  · rintro ⟨chars, rfl⟩
    exact ⟨chars, rfl⟩

theorem wellFormed_encode (chars : List Char) :
    WellFormed (chars.flatMap String.utf8EncodeChar) :=
  wellFormed_iff.mpr ⟨chars, rfl⟩

theorem wellFormed_char (c : Char) : WellFormed (String.utf8EncodeChar c) := by
  rw [← List.flatMap_singleton String.utf8EncodeChar]
  exact wellFormed_encode [c]

theorem WellFormed.append (h : WellFormed bytes) (h' : WellFormed more) :
    WellFormed (bytes ++ more) := by
  obtain ⟨chars, rfl⟩ := wellFormed_iff.mp h
  obtain ⟨others, rfl⟩ := wellFormed_iff.mp h'
  rw [← List.flatMap_append]
  exact wellFormed_encode _

theorem wellFormed_flatten {pieces : List (List UInt8)} (h : ∀ piece ∈ pieces, WellFormed piece) :
    WellFormed pieces.flatten := by
  induction pieces with
  | nil => exact wellFormed_encode []
  | cons piece pieces ih =>
      rw [List.flatten_cons]
      exact (h piece List.mem_cons_self).append
        (ih fun other hmem => h other (List.mem_cons_of_mem _ hmem))

theorem wellFormed_ascii (h : byte < 0x80) : WellFormed [byte] :=
  Grammar.forall_byte (P := fun byte => byte < 0x80 → WellFormed [byte]) (by decide +kernel) byte h

/-- Where an ASCII byte is part of a character, it is all of it. -/
theorem encode_of_ascii {c : Char} (hmem : byte ∈ String.utf8EncodeChar c) (hascii : byte < 0x80) :
    String.utf8EncodeChar c = [byte] := by
  have hlt : byte.toNat < 0x80 := UInt8.lt_iff_toNat_lt.mp hascii
  revert hmem
  fun_cases String.utf8EncodeChar c with
  | case1 => exact fun hmem => by rw [List.mem_singleton.mp hmem]
  | case2 =>
      simp only [List.mem_cons, List.not_mem_nil, or_false]
      rintro (rfl | rfl) <;> simp only [UInt8.toNat_ofNat'] at hlt <;> omega
  | case3 =>
      simp only [List.mem_cons, List.not_mem_nil, or_false]
      rintro (rfl | rfl | rfl) <;> simp only [UInt8.toNat_ofNat'] at hlt <;> omega
  | case4 =>
      simp only [List.mem_cons, List.not_mem_nil, or_false]
      rintro (rfl | rfl | rfl | rfl) <;> simp only [UInt8.toNat_ofNat'] at hlt <;> omega

/-- Text can be cut on both sides of an ASCII byte. -/
theorem WellFormed.cut (h : WellFormed (before ++ byte :: after)) (hascii : byte < 0x80) :
    WellFormed before ∧ WellFormed after := by
  obtain ⟨chars, hchars⟩ := wellFormed_iff.mp h
  clear h
  induction chars generalizing before with
  | nil => simp at hchars
  | cons c chars ih =>
      have hfirst := wellFormed_char c
      rw [List.flatMap_cons] at hchars
      rcases List.append_eq_append_iff.mp hchars with ⟨rest, hcut, hrest⟩ | ⟨rest, rfl, hrest⟩
      · cases rest with
        | nil =>
            rw [List.append_nil] at hcut
            obtain ⟨-, hafter⟩ := @ih [] hrest
            exact ⟨hcut ▸ hfirst, hafter⟩
        | cons inner rest =>
            -- the byte lies within the first character, so it is that character
            obtain ⟨rfl, rfl⟩ := List.cons.inj hrest
            have hmem : byte ∈ String.utf8EncodeChar c := by
              rw [hcut]
              exact List.mem_append_right _ List.mem_cons_self
            have halone := encode_of_ascii hmem hascii
            rw [hcut, List.append_eq_singleton_iff] at halone
            rcases halone with ⟨rfl, hinner⟩ | ⟨-, hnone⟩
            · obtain ⟨-, rfl⟩ := List.cons.inj hinner
              exact ⟨wellFormed_encode [], wellFormed_encode chars⟩
            · cases hnone
      · obtain ⟨hbefore, hafter⟩ := ih hrest.symm
        exact ⟨hfirst.append hbefore, hafter⟩

theorem WellFormed.tail (h : WellFormed (byte :: after)) (hascii : byte < 0x80) :
    WellFormed after := by
  rw [← List.nil_append (byte :: after)] at h
  exact (h.cut hascii).2

/-- Text can be cut in front of an ASCII byte and at its end. -/
theorem WellFormed.split (h : WellFormed (before ++ after))
    (hascii : ∀ byte ∈ after.head?, byte < 0x80) : WellFormed before ∧ WellFormed after := by
  cases after with
  | nil =>
      rw [List.append_nil] at h
      exact ⟨h, wellFormed_encode []⟩
  | cons byte after =>
      have hbyte := hascii byte rfl
      obtain ⟨hbefore, hafter⟩ := h.cut hbyte
      exact ⟨hbefore, (wellFormed_ascii hbyte).append hafter⟩

end Utf8

namespace Peg

open Utf8

/-! ## Expressions that cut between characters -/

/-- Of text the expression leaves text, and `R` holds of its value. -/
def Keeps {α : Type} (R : α → Prop) (p : Peg α) : Prop :=
  ∀ input a rest, WellFormed input → p input = .matched a rest → WellFormed rest ∧ R a

variable {α β : Type} {R : α → Prop} {S : β → Prop} {p q : Peg α}

theorem keeps_pure {a : α} (h : R a) : Keeps R (pure a : Peg α) := by
  intro input a rest hinput hmatched
  cases hmatched
  exact ⟨hinput, h⟩

theorem Keeps.bind {next : α → Peg β} (hp : Keeps R p) (hnext : ∀ a, R a → Keeps S (next a)) :
    Keeps S (p >>= next) := by
  intro input b rest hinput hmatched
  obtain ⟨a, middle, hfirst, hrest⟩ := eq_matched_of_bind hmatched
  obtain ⟨hmiddle, ha⟩ := hp input a middle hinput hfirst
  exact hnext a ha middle b rest hmiddle hrest

theorem Keeps.mono {R' : α → Prop} (hp : Keeps R p) (h : ∀ a, R a → R' a) : Keeps R' p := by
  intro input a rest hinput hmatched
  obtain ⟨hrest, ha⟩ := hp input a rest hinput hmatched
  exact ⟨hrest, h a ha⟩

theorem Keeps.orElse (hp : Keeps R p) (hq : Keeps R q) : Keeps R (p.orElse q) := by
  intro input a rest hinput hmatched
  cases hfirst : p input with
  | matched a' rest' =>
      rw [orElse_matched hfirst] at hmatched
      cases hmatched
      exact hp input a rest hinput hfirst
  | mismatch =>
      rw [orElse_mismatch hfirst] at hmatched
      exact hq input a rest hinput hmatched
  | aborted number left =>
      rw [orElse_aborted hfirst] at hmatched
      cases hmatched

theorem Keeps.star (hp : Keeps R p) : Keeps (fun values => ∀ a ∈ values, R a) (star p) := by
  intro input values
  induction values generalizing input with
  | nil =>
      intro rest hinput hmatched
      rw [star_eq_nil hmatched]
      exact ⟨hinput, fun a hmem => (by cases hmem)⟩
  | cons first others ih =>
      intro rest hinput hmatched
      obtain ⟨middle, hfirst, hothers⟩ := star_eq_cons hmatched
      obtain ⟨hmiddle, ha⟩ := hp input first middle hinput hfirst
      obtain ⟨hrest, hall⟩ := ih middle rest hmiddle hothers
      exact ⟨hrest, List.forall_mem_cons.mpr ⟨ha, hall⟩⟩

theorem Keeps.plus (hp : Keeps R p) : Keeps (fun values => ∀ a ∈ values, R a) (plus p) :=
  hp.bind fun _ hfirst => hp.star.bind fun _ hothers =>
    keeps_pure (List.forall_mem_cons.mpr ⟨hfirst, hothers⟩)

theorem Keeps.decoded {decode : α → Except Nat β} (hp : Keeps R p)
    (hdecode : ∀ a b, R a → decode a = .ok b → S b) : Keeps S (p.decoded decode) := by
  intro input b rest hinput hmatched
  unfold Peg.decoded at hmatched
  split at hmatched
  · rename_i a rest' hfirst
    split at hmatched
    · rename_i b' hb
      cases hmatched
      obtain ⟨hrest, ha⟩ := hp input a rest hinput hfirst
      exact ⟨hrest, hdecode a b ha hb⟩
    · cases hmatched
  · cases hmatched
  · cases hmatched

theorem keeps_token {meaning : UInt8 → Option α}
    (h : ∀ byte a, meaning byte = some a → byte < 0x80 ∧ R a) : Keeps R (token meaning) := by
  intro input a rest hinput hmatched
  obtain ⟨byte, rfl, hmeaning⟩ := eq_cons_of_token hmatched
  obtain ⟨hascii, ha⟩ := h byte a hmeaning
  exact ⟨hinput.tail hascii, ha⟩

theorem keeps_sat {accepts : UInt8 → Bool} (h : ∀ byte, accepts byte = true → byte < 0x80) :
    Keeps (fun byte => accepts byte = true) (sat accepts) := by
  refine keeps_token fun byte a hmeaning => ?_
  split at hmeaning
  · rename_i haccepts
    cases hmeaning
    exact ⟨h byte haccepts, haccepts⟩
  · cases hmeaning

/-- A run of bytes is text if it is only ASCII bytes that end it. -/
theorem keeps_run {accepts : UInt8 → Bool} (h : ∀ byte, ¬accepts byte = true → byte < 0x80) :
    Keeps WellFormed (plus (sat accepts)) := by
  intro input run rest hinput hmatched
  rw [plus_sat] at hmatched
  split at hmatched
  · cases hmatched
  · cases hmatched
    rw [← List.takeWhile_append_dropWhile (p := accepts) (l := input)] at hinput
    refine (hinput.split fun byte hmem => h byte ?_).symm
    have hstop := List.head?_dropWhile_not accepts input
    rw [Option.mem_def.mp hmem] at hstop
    exact Bool.eq_false_iff.mp hstop

end Peg

namespace Grammar

open Peg Utf8 Entries

/-! ## The grammar looks for ASCII only -/

theorem keyByte_ascii (byte : UInt8) : keyByte byte = true → byte < 0x80 :=
  forall_byte (P := fun byte => keyByte byte = true → byte < 0x80) (by decide +kernel) byte

theorem blankByte_ascii (byte : UInt8) : blankByte byte = true → byte < 0x80 :=
  forall_byte (P := fun byte => blankByte byte = true → byte < 0x80) (by decide +kernel) byte

theorem plainByte_ascii (byte : UInt8) : ¬plainByte byte = true → byte < 0x80 :=
  forall_byte (P := fun byte => ¬plainByte byte = true → byte < 0x80) (by decide +kernel) byte

theorem hexValue?_ascii (byte : UInt8) : (hexValue? byte).isSome = true → byte < 0x80 := by
  rw [hexValue?_eq, Option.isSome_map]
  exact forall_byte (P := fun byte => (Hex.digit? byte).isSome = true → byte < 0x80)
    (by decide +kernel) byte

/-- Both columns of the table are ASCII. -/
theorem meant?_ascii {byte meaning : UInt8} (h : meant? byte = some meaning) :
    byte < 0x80 ∧ meaning < 0x80 := by
  have hpairs : ∀ pair ∈ simpleEscapes.pairs, pair.1 < 0x80 ∧ pair.2 < 0x80 := by
    simp [simpleEscapes, lineFeed, quote, backslash]
  rw [meant?_eq] at h
  obtain ⟨before, after, hsplit, -⟩ := List.lookup_eq_some_iff.mp h
  exact hpairs (byte, meaning) (hsplit ▸ List.mem_append_right _ List.mem_cons_self)

theorem keeps_byte {byte : UInt8} (h : byte < 0x80) : Keeps (fun _ => True) (sat (· == byte)) := by
  refine (keeps_sat fun other hother => ?_).mono fun _ _ => trivial
  rw [beq_iff_eq.mp hother]
  exact h

/-! ## Values -/

theorem keeps_number (count value : Nat) : Keeps (fun _ => True) (number count value) := by
  induction count generalizing value with
  | zero => exact keeps_pure trivial
  | succ count ih =>
      have hdigit : Keeps (fun _ => True) hexDigit := keeps_token fun byte digit hdigit =>
        ⟨hexValue?_ascii byte (by rw [hdigit]; rfl), trivial⟩
      exact hdigit.bind fun digit _ => ih (16 * value + digit)

theorem keeps_unit : Keeps (fun _ => True) unit :=
  (keeps_byte (by decide)).bind fun _ _ => keeps_number 4 0

theorem keeps_nextUnit : Keeps (fun _ => True) nextUnit :=
  (keeps_byte (by decide)).bind fun _ _ => keeps_unit

theorem keeps_units : Keeps (fun _ => True) units :=
  keeps_unit.bind fun _ _ => keeps_nextUnit.star.bind fun _ _ => keeps_pure trivial

theorem textOf_wellFormed {units : List Nat} {bytes : List UInt8} (h : textOf units = .ok bytes) :
    WellFormed bytes := by
  unfold textOf at h
  cases hchars : utf16 units with
  | error unit =>
      rw [hchars] at h
      cases h
  | ok chars =>
      rw [hchars] at h
      cases h
      exact wellFormed_encode chars

theorem keeps_simple : Keeps WellFormed simple := by
  refine keeps_token fun byte bytes hmeaning => ?_
  obtain ⟨meaning, hmeant, rfl⟩ := Option.map_eq_some_iff.mp hmeaning
  obtain ⟨hbyte, hascii⟩ := meant?_ascii hmeant
  exact ⟨hbyte, wellFormed_ascii hascii⟩

theorem keeps_escape : Keeps WellFormed escape :=
  (keeps_byte (by decide)).bind fun _ _ =>
    keeps_simple.orElse (keeps_units.decoded fun _ _ _ => textOf_wellFormed)

theorem keeps_piece : Keeps WellFormed piece :=
  keeps_escape.orElse (keeps_run plainByte_ascii)

theorem keeps_value : Keeps WellFormed value :=
  (keeps_byte (by decide)).bind fun _ _ => keeps_piece.star.bind fun _ hpieces =>
    (keeps_byte (by decide)).bind fun _ _ => keeps_pure (wellFormed_flatten hpieces)

/-! ## Lines -/

/-- A key of letters, digits and underscores, and a value that is text. -/
structure Textual (entry : Entry) : Prop where
  key_chars : ∀ c ∈ entry.key.toList, c.isAlphanum = true ∨ c = '_'
  key_wellFormed : entry.key.toByteArray.IsValidUTF8
  value_wellFormed : WellFormed entry.value

theorem keeps_lineEnd : Keeps (fun _ => True) lineEnd := by
  have hfeed : Keeps (fun _ => True) (sat (· == lineFeed)) := keeps_byte (by decide)
  have hreturn : Keeps (fun _ => True) (sat (· == carriageReturn)) := keeps_byte (by decide)
  exact (hfeed.bind fun _ _ => keeps_pure trivial).orElse
    (hreturn.bind fun _ _ => hfeed.bind fun _ _ => keeps_pure trivial)

theorem keeps_blanks : Keeps (fun _ => True) blanks :=
  (keeps_sat blankByte_ascii).star.bind fun _ _ => keeps_pure trivial

theorem keeps_key : Keeps (fun key => ∀ c ∈ key.toList, c.isAlphanum = true ∨ c = '_') key := by
  refine (keeps_sat keyByte_ascii).plus.bind fun bytes hbytes => keeps_pure fun c hmem => ?_
  rw [String.toList_ofList] at hmem
  obtain ⟨byte, hbyte, rfl⟩ := List.mem_map.mp hmem
  have hkey := hbytes byte hbyte
  unfold keyByte at hkey
  rwa [Bool.or_eq_true, beq_iff_eq] at hkey

theorem keeps_atEnd : Keeps (fun _ => True) atEnd := by
  intro input a rest hinput hmatched
  cases input with
  | nil =>
      cases hmatched
      exact ⟨hinput, trivial⟩
  | cons byte input => cases hmatched

theorem keeps_assignment : Keeps Textual assignment :=
  keeps_blanks.bind fun _ _ => keeps_key.bind fun key hkey =>
    keeps_blanks.bind fun _ _ => (keeps_byte (by decide)).bind fun _ _ =>
      keeps_blanks.bind fun _ _ => keeps_value.bind fun _ hvalue =>
        keeps_blanks.bind fun _ _ => (keeps_lineEnd.orElse keeps_atEnd).bind fun _ _ =>
          keeps_pure ⟨hkey, key.isValidUTF8, hvalue⟩

theorem keeps_line : Keeps (fun found => ∀ entry ∈ found, Textual entry) line := by
  have hblank : Keeps (fun found => ∀ entry ∈ found, Textual entry)
      (do lineEnd; return none : Peg (Option Entry)) :=
    keeps_lineEnd.bind fun _ _ => keeps_pure fun entry hmem => (by cases hmem)
  refine hblank.orElse (keeps_assignment.bind fun entry hentry => keeps_pure ?_)
  rintro _ ⟨⟩
  exact hentry

/-- The entries of a document that is text are text. -/
theorem parse_textual {label : String} {doc : List UInt8} (hdoc : WellFormed doc)
    {entries : List Entry} (h : parse label doc = .ok entries) :
    ∀ entry ∈ entries, Textual entry := by
  unfold parse at h
  cases hlines : star line doc with
  | matched lines left =>
      obtain ⟨-, hall⟩ := keeps_line.star doc lines left hdoc hlines
      rw [hlines] at h
      cases left with
      | nil =>
          cases h
          intro entry hmem
          obtain ⟨found, hfound, hentry⟩ := List.mem_filterMap.mp hmem
          exact hall found hfound entry hentry
      | cons byte left => cases h
  | mismatch =>
      rw [hlines] at h
      cases h
  | aborted number left =>
      rw [hlines] at h
      cases h

end Grammar

namespace Escape

open Utf8

/-! ## Decoders -/

/-- If there is a result it is text. -/
def GivesText (result : Except Cause (List UInt8)) : Prop :=
  ∀ bytes, result = .ok bytes → WellFormed bytes

variable {first rest : Except Cause (List UInt8)}

theorem givesText_ok {bytes : List UInt8} (h : WellFormed bytes) : GivesText (.ok bytes) := by
  rintro _ ⟨⟩
  exact h

theorem givesText_error (cause : Cause) : GivesText (.error cause) := by
  rintro _ ⟨⟩

theorem givesText_bind {α : Type} (result : Except Cause α)
    {next : α → Except Cause (List UInt8)} (h : ∀ a, GivesText (next a)) :
    GivesText (result >>= next) := by
  cases result with
  | error cause => exact givesText_error cause
  | ok a => exact h a

theorem givesText_append (hfirst : GivesText first) (hrest : GivesText rest) :
    GivesText (do return (← first) ++ (← rest)) := by
  cases first with
  | error cause => exact givesText_error cause
  | ok bytes =>
      cases rest with
      | error cause => exact givesText_error cause
      | ok more => exact givesText_ok ((hfirst bytes rfl).append (hrest more rfl))

/-- Only characters are encoded. -/
theorem givesText_encoded (codePoint : UInt32) : GivesText (encoded codePoint) := by
  unfold encoded Utf8.encode?
  by_cases hvalid : codePoint.isValidChar
  · rw [dif_pos hvalid]
    exact givesText_ok (wellFormed_char _)
  · rw [dif_neg hvalid]
    exact givesText_error _

theorem givesText_decodeUnits : (cuts : List (List UInt8)) → GivesText (decodeUnits cuts)
  | [] => givesText_ok (wellFormed_encode [])
  | [_] => givesText_bind _ givesText_encoded
  | digits :: next :: cuts => by
      have hbehind := givesText_decodeUnits cuts
      have hrest := givesText_decodeUnits (next :: cuts)
      unfold decodeUnits
      refine givesText_bind _ fun unit => ?_
      split
      · refine givesText_bind _ fun second => ?_
        split
        · exact givesText_append (givesText_encoded _) hbehind
        · exact givesText_error _
      · exact givesText_append (givesText_encoded _) hrest

/-- A decoder of characters, and not of bytes that may be none. -/
def Decoder.IsTextual (decoder : Decoder) : Prop :=
  decoder = .codePoint ∨ decoder = .utf16Run

theorem givesText_decode {decoder : Decoder} (hdecoder : decoder.IsTextual) (bytes : List UInt8) :
    GivesText (decoder.decode bytes) := by
  rcases hdecoder with rfl | rfl
  · rw [decode_codePoint]
    exact givesText_bind _ givesText_encoded
  · simp only [Decoder.decode]
    split
    · exact givesText_decodeUnits _
    · exact givesText_error _

/-- What a decoder leaves of an output. -/
def Decoder.leaves (decoder : Decoder) (bytes out : List UInt8) : List UInt8 :=
  match decoder.decode bytes with
  | .ok text => out ++ text
  | .error _ => out

theorem leaves_wellFormed {decoder : Decoder} (hdecoder : decoder.IsTextual) (bytes : List UInt8)
    {out : List UInt8} (hout : WellFormed out) : WellFormed (decoder.leaves bytes out) := by
  have htext := givesText_decode hdecoder bytes
  unfold Decoder.leaves
  split
  · rename_i text hdecode
    exact hout.append (htext text hdecode)
  · exact hout

theorem stateOf_apply (decoder : Decoder) (span : Span) (out : List UInt8) :
    stateOf (decoder.apply span out) = decoder.leaves span.bytes out := by
  unfold Decoder.apply Decoder.leaves
  cases decoder.decode span.bytes <;> rfl

theorem stateOf_tryApply (decoder : Decoder) (span : Span) (out : List UInt8) :
    stateOf (decoder.tryApply span out) = decoder.leaves span.bytes out := by
  unfold Decoder.tryApply Decoder.leaves
  cases decoder.decode span.bytes with
  | ok text => rfl
  | error cause => cases cause <;> rfl

/-- However it is asked to, and whether at once or in place, a decoder leaves text. -/
structure LeavesText (decoder : Decoder) (span : Span) (out : List UInt8) : Prop where
  apply : WellFormed (stateOf (decoder.apply span out))
  tryApply : WellFormed (stateOf (decoder.tryApply span out))
  write : WellFormed (stateOf (decoder.write span out))

theorem leavesText {decoder : Decoder} (hdecoder : decoder.IsTextual) (span : Span)
    {out : List UInt8} (hout : WellFormed out) : LeavesText decoder span out := by
  have hleaves := leaves_wellFormed hdecoder span.bytes hout
  exact
    { apply := by rwa [stateOf_apply]
      tryApply := by rwa [stateOf_tryApply]
      write := by rwa [write_eq, stateOf_adaptExcept, stateOf_apply] }

theorem tryCodePoint_wellFormed (span : Span) {out : List UInt8} (hout : WellFormed out) :
    WellFormed (stateOf (tryCodePoint span out)) := by
  rw [tryCodePoint_eq, stateOf_adaptExcept]
  exact (leavesText (.inl rfl) span hout).tryApply

theorem tryRun_wellFormed (span : Span) {out : List UInt8} (hout : WellFormed out) :
    WellFormed (stateOf (tryRun span out)) := by
  rw [tryRun_eq, stateOf_adaptExcept]
  exact (leavesText (.inr rfl) span hout).tryApply

end Escape

namespace Entries

open Buffer Grammar Utf8

variable {σ : Type} [ByteSource σ] {doc : List UInt8}

/-- Whatever cuts the reads make, what is read of a document that is text is text. -/
theorem read_textual {limits : Limits} (valid : limits.Valid) (label : String) {source : σ}
    (h : Serves source doc) (hdoc : WellFormed doc) {entries : List Entry}
    (hread : answerOf (read (ofLimits limits .lfOrCrlf label source)) = .ok (some entries)) :
    ∀ entry ∈ entries, Textual entry := by
  rcases answer_read (comes_readOn #[] (between_ofLimits valid label h)) with
    hexact | ⟨requested, capacity, hoverflow, -⟩
  · change _ = (Grammar.parse label doc).map some at hexact
    rw [hread] at hexact
    cases hparse : Grammar.parse label doc with
    | error fault =>
        rw [hparse] at hexact
        cases hexact
    | ok parsed =>
        rw [hparse] at hexact
        cases hexact
        exact parse_textual hdoc hparse
  · rw [hread] at hoverflow
    cases hoverflow

/-- **Text in, text out.** Whatever source serves a document that is text, and however it cuts it,
the keys and values that are read of it are text. The decoders of characters leave text of text
whatever they are handed and however they end. -/
theorem text_in_text_out (limits : Limits) (label : String) (source : σ) (doc : List UInt8) :
    (limits.Valid → Serves source doc → WellFormed doc →
      ∃ b, Buffer.start limits .lfOrCrlf label source = .ok b ∧
        ∀ entries, answerOf (read b) = .ok (some entries) → ∀ entry ∈ entries, Textual entry) ∧
    ∀ (span : Span) (out : List UInt8), WellFormed out →
      (∀ decoder : Escape.Decoder, decoder.IsTextual → Escape.LeavesText decoder span out) ∧
        WellFormed (stateOf (Escape.tryCodePoint span out)) ∧
        WellFormed (stateOf (Escape.tryRun span out)) := by
  refine ⟨fun valid hserves hdoc => ⟨_, start_of_valid valid .lfOrCrlf label source, ?_⟩, ?_⟩
  · intro entries hread
    exact read_textual valid label hserves hdoc hread
  · intro span out hout
    exact ⟨fun decoder hdecoder => Escape.leavesText hdecoder span hout,
      Escape.tryCodePoint_wellFormed span hout, Escape.tryRun_wellFormed span hout⟩

/-- A value with an accented letter and with the escape of one, read byte by byte, and an escape
that is followed by half a pair. -/
theorem text_in_text_out_of_slice :
    let doc : List UInt8 := [107, 61, 34, 0xC3, 0xA9, 92, 117, 48, 48, 69, 57, 34]
    let entry : Entry := ⟨"k", [0xC3, 0xA9, 0xC3, 0xA9]⟩
    let span : Span := ⟨[117, 48, 48, 69, 57, 92, 117, 68, 56, 48, 48], ⟨⟨1, 1, 2⟩, 1⟩, "doc"⟩
    (⟨16, 4⟩ : Limits).Valid ∧ Serves (⟨doc, some 1⟩ : Slice) doc ∧ WellFormed doc ∧
      (∃ b, Buffer.start ⟨16, 4⟩ .lfOrCrlf "doc" (⟨doc, some 1⟩ : Slice) = .ok b ∧
        answerOf (read b) = .ok (some [entry]) ∧ Textual entry) ∧
      WellFormed [0xC3, 0xA9] ∧ Escape.LeavesText .utf16Run span [0xC3, 0xA9] := by
  intro doc entry span
  have hvalid : (⟨16, 4⟩ : Limits).Valid := by decide
  have hserves : Serves (⟨doc, some 1⟩ : Slice) doc := serves_slice (by decide)
  have hdoc : WellFormed doc := by decide +kernel
  have hout : WellFormed [0xC3, 0xA9] := by decide +kernel
  have hfits : Fits 16 doc := fits_of_length (by decide)
  have hread : answerOf (read (ofLimits ⟨16, 4⟩ .lfOrCrlf "doc" (⟨doc, some 1⟩ : Slice)))
      = .ok (some [entry]) := by
    rw [answer_of_fits hvalid "doc" hserves hfits]
    cbv
  obtain ⟨hleft, hright⟩ := text_in_text_out ⟨16, 4⟩ "doc" (⟨doc, some 1⟩ : Slice) doc
  obtain ⟨b, hstart, htext⟩ := hleft hvalid hserves hdoc
  obtain ⟨hdecoders, -, -⟩ := hright span [0xC3, 0xA9] hout
  cases (start_of_valid hvalid .lfOrCrlf "doc" _).symm.trans hstart
  exact ⟨hvalid, hserves, hdoc, ⟨_, hstart, hread, htext [entry] hread entry List.mem_cons_self⟩,
    hout, hdecoders .utf16Run (.inr rfl)⟩

end Entries

end Lookahead
