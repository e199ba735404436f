import Mathlib
import Lookahead.Proofs.Documents
import Lookahead.Proofs.Surrogates

/-!
# Printed documents

A list of entries can be set as a document in many ways: with blanks around the equals sign, with
empty lines, with line endings of either kind, and without one behind the last line. Whatever way is
taken, the grammar reads the entries back, and so does the reader if its limits have room for the
longest line.

Within a value four bytes have to be escaped. Three of them have an escape of one character. A
carriage return is a unit, and units that stand next to each other are one escape: the grammar takes
carriage returns by the run, as it takes bytes that stand for themselves.
-/

namespace Lookahead

namespace Print

open Entries

/-! ## Printing -/

/-- A byte of a value, as it stands between quotes. -/
def byte (byte : UInt8) : List UInt8 :=
  if byte = quote then [backslash, quote]
  else if byte = backslash then [backslash, backslash]
  else if byte = lineFeed then [backslash, 0x6E]
  else if byte = carriageReturn then [backslash, 0x75, 0x30, 0x30, 0x30, 0x64]
  else [byte]

def value (bytes : List UInt8) : List UInt8 :=
  bytes.flatMap byte

def key (key : String) : List UInt8 :=
  key.toList.map Char.toUInt8

/-- An entry, and the blanks before and behind the equals sign on its line. -/
structure Line where
  entry : Entry
  before : List UInt8
  after : List UInt8
  key_ne : entry.key ≠ ""
  key_chars : ∀ c ∈ entry.key.toList, c.isAlphanum = true ∨ c = '_'
  before_blank : ∀ byte ∈ before, byte = 0x20 ∨ byte = 0x09
  after_blank : ∀ byte ∈ after, byte = 0x20 ∨ byte = 0x09

def Line.text (line : Line) : List UInt8 :=
  key line.entry.key ++ line.before ++ 0x3D :: line.after
    ++ quote :: value line.entry.value ++ [quote]

inductive Terminator where
  | lf
  | crlf

def Terminator.bytes : Terminator → List UInt8
  | .lf => [lineFeed]
  | .crlf => [carriageReturn, lineFeed]

/-- The text of a line that may be empty. -/
def textOf : Option Line → List UInt8
  | none => []
  | some line => line.text

/-- A line of a document, empty if it has no entry, and how it ends. -/
structure Row where
  line : Option Line
  terminator : Terminator

def Row.text (row : Row) : List UInt8 :=
  textOf row.line ++ row.terminator.bytes

/-- A document: some rows, and maybe a last line that nothing ends. -/
structure Sheet where
  rows : List Row
  last : Option Line

namespace Sheet

def text (sheet : Sheet) : List UInt8 :=
  sheet.rows.flatMap Row.text ++ textOf sheet.last

def lines (sheet : Sheet) : List Line :=
  sheet.rows.filterMap Row.line ++ sheet.last.toList

def entries (sheet : Sheet) : List Entry :=
  sheet.lines.map Line.entry

end Sheet

end Print

/-! ## Runs of bytes -/

namespace Peg

/-- What a run of accepted bytes stops at. -/
def Stops (accepts : UInt8 → Bool) (rest : List UInt8) : Prop :=
  ∀ byte ∈ rest.head?, ¬accepts byte = true

variable {accepts : UInt8 → Bool} {run rest : List UInt8}

theorem stops_cons {byte : UInt8} (h : ¬accepts byte = true) : Stops accepts (byte :: rest) := by
  intro found hfound
  cases hfound
  exact h

theorem stops_dropWhile (accepts : UInt8 → Bool) (input : List UInt8) :
    Stops accepts (input.dropWhile accepts) := by
  induction input with
  | nil => exact fun _ hnone => by cases hnone
  | cons byte input ih =>
      by_cases haccepts : accepts byte = true
      · rwa [List.dropWhile_cons_of_pos haccepts]
      · rw [List.dropWhile_cons_of_neg haccepts]
        exact stops_cons haccepts

theorem takeWhile_run (hrun : ∀ byte ∈ run, accepts byte = true) (hrest : Stops accepts rest) :
    (run ++ rest).takeWhile accepts = run := by
  rw [List.takeWhile_append_of_pos hrun]
  cases rest with
  | nil => exact List.append_nil run
  | cons byte rest => rw [List.takeWhile_cons_of_neg (hrest byte rfl), List.append_nil]

theorem dropWhile_run (hrun : ∀ byte ∈ run, accepts byte = true) (hrest : Stops accepts rest) :
    (run ++ rest).dropWhile accepts = rest := by
  rw [List.dropWhile_append_of_pos hrun]
  cases rest with
  | nil => rfl
  | cons byte rest => rw [List.dropWhile_cons_of_neg (hrest byte rfl)]

theorem star_run (hrun : ∀ byte ∈ run, accepts byte = true) (hrest : Stops accepts rest) :
    star (sat accepts) (run ++ rest) = .matched run rest := by
  rw [star_sat, takeWhile_run hrun hrest, dropWhile_run hrun hrest]

theorem plus_run (hne : run ≠ []) (hrun : ∀ byte ∈ run, accepts byte = true)
    (hrest : Stops accepts rest) : plus (sat accepts) (run ++ rest) = .matched run rest := by
  rw [plus_sat, takeWhile_run hrun hrest, dropWhile_run hrun hrest, if_neg hne]

end Peg

theorem Grammar.plainByte_iff {byte : UInt8} : plainByte byte = true ↔
    byte ≠ Entries.quote ∧ byte ≠ Entries.backslash ∧ byte ≠ lineFeed ∧ byte ≠ carriageReturn := by
  rw [plainByte_eq]
  simp only [Entries.isPlain, Bool.not_eq_true', Bool.or_eq_false_iff, beq_eq_false_iff_ne, ne_eq,
    and_assoc]

namespace Print

theorem byte_plain {character : UInt8} (h : Grammar.plainByte character = true) :
    byte character = [character] := by
  obtain ⟨hquote, hbackslash, hlineFeed, hreturn⟩ := Grammar.plainByte_iff.mp h
  unfold byte
  rw [if_neg hquote, if_neg hbackslash, if_neg hlineFeed, if_neg hreturn]

theorem byte_ne_nil (character : UInt8) : byte character ≠ [] := by
  unfold byte
  split_ifs <;> exact List.cons_ne_nil _ _

theorem value_cons (character : UInt8) (bytes : List UInt8) :
    value (character :: bytes) = byte character ++ value bytes :=
  List.flatMap_cons

theorem value_append (first second : List UInt8) :
    value (first ++ second) = value first ++ value second :=
  List.flatMap_append

theorem value_run {run : List UInt8} (h : ∀ character ∈ run, Grammar.plainByte character = true) :
    value run = run := by
  induction run with
  | nil => rfl
  | cons character run ih =>
      rw [value_cons, byte_plain (h character List.mem_cons_self),
        ih fun other hmem => h other (List.mem_cons_of_mem _ hmem), List.singleton_append]

/-- Less is printed of less. -/
theorem value_append_lt {first : List UInt8} (hne : first ≠ []) (left rest : List UInt8) :
    (value left ++ rest).length < (value (first ++ left) ++ rest).length := by
  obtain ⟨character, others, rfl⟩ := List.exists_cons_of_ne_nil hne
  have hpos := List.length_pos_of_ne_nil (byte_ne_nil character)
  rw [value_append, value_cons]
  simp only [List.length_append]
  omega

end Print

namespace Grammar

open Peg Entries

/-! ## Pieces -/

theorem piece_plain {run rest : List UInt8} (hne : run ≠ [])
    (hrun : ∀ byte ∈ run, plainByte byte = true) (hrest : Stops plainByte rest) :
    piece (run ++ rest) = .matched run rest := by
  obtain ⟨byte, others, rfl⟩ := List.exists_cons_of_ne_nil hne
  have hbackslash := (plainByte_iff.mp (hrun byte List.mem_cons_self)).2.1
  have hescape : escape (byte :: others ++ rest) = .mismatch :=
    bind_mismatch (sat_other hbackslash _)
  unfold piece
  rw [orElse_mismatch hescape, plus_run hne hrun hrest]

theorem piece_simple {character byte : UInt8} (h : meant? character = some byte)
    (rest : List UInt8) : piece (backslash :: character :: rest) = .matched [byte] rest := by
  have hsimple : simple (character :: rest) = .matched [byte] rest := by
    unfold simple
    rw [token, h]
    rfl
  have hescape : escape (backslash :: character :: rest) = .matched [byte] rest := by
    unfold escape
    rw [bind_matched (sat_byte _ _), orElse_matched hsimple]
  exact orElse_matched hescape

/-! ## Carriage returns -/

theorem unit_return (rest : List UInt8) :
    unit ([0x75, 0x30, 0x30, 0x30, 0x64] ++ rest) = .matched 13 rest := by
  have hnought : hexValue? 0x30 = some 0 := by rw [hexValue?_eq]; rfl
  have hlast : hexValue? 0x64 = some 13 := by rw [hexValue?_eq]; rfl
  have hdigit : ∀ {byte : UInt8} {digit : Nat}, hexValue? byte = some digit →
      ∀ input, hexDigit (byte :: input) = .matched digit input := by
    intro byte digit hvalue input
    unfold hexDigit
    rw [token, hvalue]
  unfold unit
  rw [List.cons_append, bind_matched (sat_byte _ _), number, List.cons_append,
    bind_matched (hdigit hnought _), number, List.cons_append, bind_matched (hdigit hnought _),
    number, List.cons_append, bind_matched (hdigit hnought _), number, List.cons_append,
    bind_matched (hdigit hlast _)]
  rfl

theorem value_return (bytes rest : List UInt8) :
    Print.value (carriageReturn :: bytes) ++ rest
      = backslash :: ([0x75, 0x30, 0x30, 0x30, 0x64] ++ (Print.value bytes ++ rest)) := by
  rw [Print.value_cons, List.append_assoc]
  rfl

theorem nextUnits_returns (count : Nat) {rest : List UInt8} (hrest : nextUnit rest = .mismatch) :
    star nextUnit (Print.value (List.replicate count carriageReturn) ++ rest)
      = .matched (List.replicate count 13) rest := by
  induction count with
  | zero => exact star_mismatch hrest
  | succ count ih =>
      have hnext : nextUnit (Print.value (List.replicate (count + 1) carriageReturn) ++ rest)
          = .matched 13 (Print.value (List.replicate count carriageReturn) ++ rest) := by
        rw [List.replicate_succ, value_return]
        unfold nextUnit
        rw [bind_matched (sat_byte _ _), unit_return]
      rw [star_matched hnext (Print.value_append_lt (List.cons_ne_nil _ []) _ _), ih]
      rfl

theorem textOf_returns (count : Nat) :
    Grammar.textOf (List.replicate count 13) = .ok (List.replicate count carriageReturn) := by
  induction count with
  | zero => rfl
  | succ count ih =>
      rw [List.replicate_succ, textOf_plain (by decide), ih]
      rfl

/-- Carriage returns next to each other are one escape. -/
theorem piece_returns (count : Nat) {rest : List UInt8} (hrest : nextUnit rest = .mismatch) :
    piece (Print.value (List.replicate (count + 1) carriageReturn) ++ rest)
      = .matched (List.replicate (count + 1) carriageReturn) rest := by
  have hunits : units ([0x75, 0x30, 0x30, 0x30, 0x64]
        ++ (Print.value (List.replicate count carriageReturn) ++ rest))
      = .matched (List.replicate (count + 1) 13) rest := by
    unfold units
    rw [bind_matched (unit_return _), bind_matched (nextUnits_returns count hrest)]
    rfl
  have hdecoded : units.decoded Grammar.textOf ([0x75, 0x30, 0x30, 0x30, 0x64]
        ++ (Print.value (List.replicate count carriageReturn) ++ rest))
      = .matched (List.replicate (count + 1) carriageReturn) rest := by
    unfold decoded
    rw [hunits]
    simp only [textOf_returns]
  have hsimple : simple ([0x75, 0x30, 0x30, 0x30, 0x64]
      ++ (Print.value (List.replicate count carriageReturn) ++ rest)) = .mismatch := by
    have hnone : meant? 0x75 = none := by rw [meant?_eq]; rfl
    unfold simple
    rw [List.cons_append, token, hnone]
    rfl
  have hescape : escape (Print.value (List.replicate (count + 1) carriageReturn) ++ rest)
      = .matched (List.replicate (count + 1) carriageReturn) rest := by
    rw [List.replicate_succ, value_return]
    unfold escape
    rw [bind_matched (sat_byte _ _), orElse_mismatch hsimple, hdecoded]
    rfl
  exact orElse_matched hescape

/-- What is printed of anything else is no unit. -/
theorem nextUnit_mismatch {left : List UInt8} (h : left.head? ≠ some carriageReturn)
    (rest : List UInt8) : nextUnit (Print.value left ++ quote :: rest) = .mismatch := by
  have hother : ∀ {character : UInt8}, character ≠ 0x75 → ∀ input,
      nextUnit (backslash :: character :: input) = .mismatch := by
    intro character hne input
    unfold nextUnit
    rw [bind_matched (sat_byte _ _)]
    exact bind_mismatch (sat_other hne _)
  cases left with
  | nil => exact bind_mismatch (sat_other (by decide) _)
  | cons character left =>
      rw [Print.value_cons, List.append_assoc, Print.byte]
      split_ifs with hquote hbackslash hlineFeed hreturn
      · exact hother (by decide) _
      · exact hother (by decide) _
      · exact hother (by decide) _
      · exact absurd (congrArg some hreturn) h
      · exact bind_mismatch (sat_other hbackslash _)

/-! ## Values -/

theorem stops_backslash (rest : List UInt8) : Stops plainByte (backslash :: rest) :=
  stops_cons fun hplain => (plainByte_iff.mp hplain).2.1 rfl

/-- What is printed of anything but a plain byte is where a plain run stops. -/
theorem stops_value {left : List UInt8} (h : Stops plainByte left) (rest : List UInt8) :
    Stops plainByte (Print.value left ++ quote :: rest) := by
  cases left with
  | nil => exact stops_cons fun hplain => (plainByte_iff.mp hplain).1 rfl
  | cons character left =>
      have hplain := mt plainByte_iff.mpr (h character rfl)
      rw [Print.value_cons, List.append_assoc, Print.byte]
      split_ifs with hquote hbackslash hlineFeed hreturn
      · exact stops_backslash _
      · exact stops_backslash _
      · exact stops_backslash _
      · exact stops_backslash _
      · exact absurd ⟨hquote, hbackslash, hlineFeed, hreturn⟩ hplain

/-- The first bytes of a value are printed as one piece. -/
theorem exists_piece (character : UInt8) (others rest : List UInt8) :
    ∃ first left, first ≠ [] ∧ character :: others = first ++ left ∧
      piece (Print.value (first ++ left) ++ quote :: rest)
        = .matched first (Print.value left ++ quote :: rest) := by
  by_cases hplain : plainByte character = true
  · refine ⟨character :: others.takeWhile plainByte, others.dropWhile plainByte,
      List.cons_ne_nil _ _, by rw [List.cons_append, List.takeWhile_append_dropWhile], ?_⟩
    have hrun : ∀ byte ∈ character :: others.takeWhile plainByte, plainByte byte = true := by
      intro byte hmem
      rcases List.mem_cons.mp hmem with rfl | hmem
      · exact hplain
      · exact List.mem_takeWhile_imp hmem
    rw [Print.value_append, Print.value_run hrun, List.append_assoc]
    exact piece_plain (List.cons_ne_nil _ _) hrun (stops_value (stops_dropWhile _ _) rest)
  by_cases hreturn : character = carriageReturn
  · subst hreturn
    obtain ⟨count, hcount⟩ : ∃ count, others.takeWhile (· == carriageReturn)
        = List.replicate count carriageReturn :=
      ⟨_, List.eq_replicate_of_mem fun byte hmem => by
        simpa using List.mem_takeWhile_imp hmem⟩
    refine ⟨List.replicate (count + 1) carriageReturn, others.dropWhile (· == carriageReturn),
      List.cons_ne_nil _ _, ?_, ?_⟩
    · rw [List.replicate_succ, List.cons_append, ← hcount, List.takeWhile_append_dropWhile]
    · have hhead : (others.dropWhile (· == carriageReturn)).head? ≠ some carriageReturn :=
        fun hhead => stops_dropWhile _ _ _ hhead (beq_self_eq_true _)
      rw [Print.value_append, List.append_assoc]
      exact piece_returns count (nextUnit_mismatch hhead rest)
  · refine ⟨[character], others, List.cons_ne_nil _ _, rfl, ?_⟩
    rw [List.singleton_append, Print.value_cons, Print.byte]
    split_ifs with hquote hbackslash hlineFeed
    · subst hquote
      exact piece_simple (by rw [meant?_eq]; rfl) _
    · subst hbackslash
      exact piece_simple (by rw [meant?_eq]; rfl) _
    · subst hlineFeed
      exact piece_simple (by rw [meant?_eq]; rfl) _
    · exact absurd (plainByte_iff.mpr ⟨hquote, hbackslash, hlineFeed, hreturn⟩) hplain

/-- A printed value is read up to its quote. -/
theorem star_piece (bytes rest : List UInt8) :
    ∃ pieces, star piece (Print.value bytes ++ quote :: rest) = .matched pieces (quote :: rest) ∧
      pieces.flatten = bytes := by
  -- By induction on the length: a piece may be many bytes.
  induction hlength : bytes.length using Nat.strongRecOn generalizing bytes with
  | ind length ih =>
      subst hlength
      cases bytes with
      | nil => exact ⟨[], star_mismatch (Entries.piece_quote rest), rfl⟩
      | cons character others =>
          obtain ⟨first, left, hne, hsplit, hpiece⟩ := exists_piece character others rest
          have hless : left.length < (character :: others).length := by
            rw [hsplit, List.length_append]
            exact Nat.lt_add_of_pos_left (List.length_pos_of_ne_nil hne)
          obtain ⟨pieces, hpieces, hflatten⟩ := ih left.length hless left rfl
          refine ⟨first :: pieces, ?_, by rw [List.flatten_cons, hflatten, hsplit]⟩
          rw [hsplit, star_matched hpiece (Print.value_append_lt hne _ _), hpieces]
          rfl

theorem value_print (bytes rest : List UInt8) :
    value (quote :: (Print.value bytes ++ quote :: rest)) = .matched bytes rest := by
  obtain ⟨pieces, hpieces, hflatten⟩ := star_piece bytes rest
  unfold value
  rw [bind_matched (sat_byte _ _), bind_matched hpieces,
    bind_matched (sat_byte _ _), hflatten]
  rfl

/-! ## Keys -/

theorem char_toUInt8 {c : Char} (h : c.toNat < 256) : char c.toUInt8 = c := by
  have hbyte : c.toUInt8.toNat = c.toNat := (UInt32.toNat_toUInt8 c.val).trans (Nat.mod_eq_of_lt h)
  unfold char
  rw [hbyte, Char.ofNat_toNat]

theorem toNat_lt_of_keyChar {c : Char} (h : c.isAlphanum = true ∨ c = '_') : c.toNat < 256 := by
  rcases h with h | rfl
  · simp only [Char.isAlphanum, Char.isAlpha, Char.isUpper, Char.isLower, Char.isDigit,
      Bool.or_eq_true, Bool.and_eq_true, decide_eq_true_eq, UInt32.le_iff_toNat_le] at h
    have hval : c.toNat = c.val.toNat := rfl
    have hbounds : c.val.toNat ≤ 122 := by
      rcases h with (⟨-, h⟩ | ⟨-, h⟩) | ⟨-, h⟩ <;> exact Nat.le_trans h (by decide)
    omega
  · decide

theorem keyByte_toUInt8 {c : Char} (h : c.isAlphanum = true ∨ c = '_') :
    keyByte c.toUInt8 = true := by
  unfold keyByte
  rw [char_toUInt8 (toNat_lt_of_keyChar h), Bool.or_eq_true, beq_iff_eq]
  exact h

end Grammar

namespace Print

open Grammar Peg

namespace Line

variable (line : Line) {rest : List UInt8}

theorem keyByte_of_mem {byte : UInt8} (h : byte ∈ key line.entry.key) : keyByte byte = true := by
  obtain ⟨c, hc, rfl⟩ := List.mem_map.mp h
  exact keyByte_toUInt8 (line.key_chars c hc)

theorem exists_keyByte : ∃ first others, key line.entry.key = first :: others ∧
    keyByte first = true := by
  have hne : key line.entry.key ≠ [] := fun hnil =>
    line.key_ne (String.toList_eq_nil_iff.mp (List.map_eq_nil_iff.mp hnil))
  obtain ⟨first, others, hcons⟩ := List.exists_cons_of_ne_nil hne
  exact ⟨first, others, hcons, line.keyByte_of_mem (hcons ▸ List.mem_cons_self)⟩

theorem key_print (h : Stops keyByte rest) :
    Grammar.key (key line.entry.key ++ rest) = .matched line.entry.key rest := by
  obtain ⟨first, others, hcons, -⟩ := line.exists_keyByte
  have hne : key line.entry.key ≠ [] := hcons ▸ List.cons_ne_nil _ _
  have hchars : (key line.entry.key).map char = line.entry.key.toList := by
    unfold key
    rw [List.map_map]
    exact (List.map_congr_left fun c hc =>
      char_toUInt8 (toNat_lt_of_keyChar (line.key_chars c hc))).trans (List.map_id _)
  unfold Grammar.key
  rw [bind_matched (plus_run hne (fun byte => line.keyByte_of_mem) h), hchars, String.ofList_toList]
  rfl

end Line

theorem blankByte_of_eq {byte : UInt8} (h : byte = 0x20 ∨ byte = 0x09) : blankByte byte = true := by
  rw [blankByte_eq]
  rcases h with rfl | rfl <;> rfl

/-- Blanks are taken up to what is none. -/
theorem blanks_print {run rest : List UInt8} (hrun : ∀ byte ∈ run, byte = 0x20 ∨ byte = 0x09)
    (hrest : Stops blankByte rest) : blanks (run ++ rest) = .matched () rest := by
  unfold blanks
  rw [bind_matched (star_run (fun byte hmem => blankByte_of_eq (hrun byte hmem)) hrest)]
  rfl

theorem blanks_none {rest : List UInt8} (h : Stops blankByte rest) :
    blanks rest = .matched () rest :=
  blanks_print (fun _ hmem => absurd hmem List.not_mem_nil) h

/-- The bytes of a key are no blanks and end no line. -/
theorem keyByte_apart (byte : UInt8) (h : keyByte byte = true) :
    ¬blankByte byte = true ∧ byte ≠ lineFeed ∧ byte ≠ carriageReturn :=
  forall_byte (P := fun byte => keyByte byte = true →
    ¬blankByte byte = true ∧ byte ≠ lineFeed ∧ byte ≠ carriageReturn) (by decide +kernel) byte h

theorem stops_blank {byte : UInt8} (h : keyByte byte = true) (rest : List UInt8) :
    Stops blankByte (byte :: rest) :=
  stops_cons (keyByte_apart byte h).1

/-- Blanks, and what is neither a blank nor a byte of a key, end a key. -/
theorem stops_key {run : List UInt8} (hrun : ∀ byte ∈ run, byte = 0x20 ∨ byte = 0x09)
    {next : UInt8} (hnext : ¬keyByte next = true) (rest : List UInt8) :
    Stops keyByte (run ++ next :: rest) := by
  cases run with
  | nil => exact stops_cons hnext
  | cons byte run =>
      exact stops_cons fun hkey =>
        (keyByte_apart byte hkey).1 (blankByte_of_eq (hrun byte List.mem_cons_self))

namespace Line

variable (line : Line) {rest left : List UInt8}

/-- A printed line is an assignment if it ends there. -/
theorem assignment_print (hrest : Stops blankByte rest)
    (hend : (lineEnd.orElse atEnd) rest = .matched () left) :
    assignment (line.text ++ rest) = .matched line.entry left := by
  obtain ⟨first, others, hcons, hfirst⟩ := line.exists_keyByte
  have hsplit : line.text ++ rest = key line.entry.key ++ (line.before ++ 0x3D :: (line.after
      ++ Entries.quote :: (value line.entry.value ++ Entries.quote :: rest))) := by
    unfold text
    simp only [List.append_assoc, List.cons_append, List.nil_append]
  have hfront : ∀ input, blanks (key line.entry.key ++ input)
      = .matched () (key line.entry.key ++ input) := by
    intro input
    rw [hcons]
    exact blanks_none (stops_blank hfirst _)
  have hkey : ∀ input, Grammar.key (key line.entry.key ++ (line.before ++ 0x3D :: input))
      = .matched line.entry.key (line.before ++ 0x3D :: input) := fun input =>
    line.key_print (stops_key line.before_blank (by rw [keyByte_eq]; decide) input)
  have hbefore : ∀ input, blanks (line.before ++ 0x3D :: input) = .matched () (0x3D :: input) :=
    fun input => blanks_print line.before_blank (stops_cons (by rw [blankByte_eq]; decide))
  have hafter : ∀ input, blanks (line.after ++ Entries.quote :: input)
      = .matched () (Entries.quote :: input) :=
    fun input => blanks_print line.after_blank (stops_cons (by rw [blankByte_eq]; decide))
  rw [hsplit]
  unfold assignment
  rw [bind_matched (hfront _), bind_matched (hkey _), bind_matched (hbefore _),
    bind_matched (sat_byte _ _),
    bind_matched (hafter _), bind_matched (value_print _ _), bind_matched (blanks_none hrest),
    bind_matched hend]
  rfl

theorem lineEnd_mismatch (rest : List UInt8) : lineEnd (line.text ++ rest) = .mismatch := by
  obtain ⟨first, others, hcons, hfirst⟩ := line.exists_keyByte
  obtain ⟨-, hlineFeed, hreturn⟩ := keyByte_apart first hfirst
  have hsplit : ∃ others, line.text ++ rest = first :: others := by
    unfold text
    rw [hcons]
    exact ⟨_, rfl⟩
  obtain ⟨behind, hbehind⟩ := hsplit
  rw [hbehind]
  unfold lineEnd
  rw [orElse_mismatch (bind_mismatch (sat_other hlineFeed _))]
  exact bind_mismatch (sat_other hreturn _)

theorem line_print (hrest : Stops blankByte rest)
    (hend : (lineEnd.orElse atEnd) rest = .matched () left) :
    Grammar.line (line.text ++ rest) = .matched (some line.entry) left := by
  unfold Grammar.line
  rw [orElse_mismatch (bind_mismatch (line.lineEnd_mismatch rest)),
    bind_matched (line.assignment_print hrest hend)]
  rfl

end Line

/-! ## Documents -/

namespace Terminator

theorem lineEnd_print (terminator : Terminator) (rest : List UInt8) :
    lineEnd (terminator.bytes ++ rest) = .matched () rest := by
  cases terminator <;> rfl

theorem stops_blank (terminator : Terminator) (rest : List UInt8) :
    Stops blankByte (terminator.bytes ++ rest) := by
  cases terminator <;> exact stops_cons (by rw [blankByte_eq]; decide)

theorem bytes_ne_nil (terminator : Terminator) : terminator.bytes ≠ [] := by
  cases terminator <;> exact List.cons_ne_nil _ _

end Terminator

theorem Row.line_print (row : Row) (rest : List UInt8) :
    Grammar.line (row.text ++ rest) = .matched (row.line.map Line.entry) rest := by
  have hend := row.terminator.lineEnd_print rest
  unfold Row.text
  rw [List.append_assoc]
  cases row.line with
  | none => exact orElse_matched (bind_matched hend)
  | some line =>
      exact line.line_print (row.terminator.stops_blank rest) (orElse_matched hend)

theorem Row.text_ne_nil (row : Row) : row.text ≠ [] :=
  List.append_ne_nil_of_right_ne_nil _ row.terminator.bytes_ne_nil

theorem star_last (last : Option Line) :
    star Grammar.line (textOf last)
      = .matched (last.toList.map fun line => some line.entry) [] := by
  cases last with
  | none => exact star_mismatch Entries.line_nil
  | some line =>
      have hline : Grammar.line line.text = .matched (some line.entry) [] := by
        have hatEnd : (lineEnd.orElse atEnd) [] = .matched () [] := rfl
        rw [← List.append_nil line.text]
        exact line.line_print (fun _ hnone => by cases hnone) hatEnd
      have hless : ([] : List UInt8).length < line.text.length := by
        unfold Line.text
        simp
      rw [textOf, star_matched hline hless, star_mismatch Entries.line_nil]
      rfl

theorem star_rows (rows : List Row) (last : Option Line) :
    star Grammar.line (rows.flatMap Row.text ++ textOf last)
      = .matched (rows.map (fun row => row.line.map Line.entry)
          ++ last.toList.map fun line => some line.entry) [] := by
  induction rows with
  | nil => exact star_last last
  | cons row rows ih =>
      have hless : (rows.flatMap Row.text ++ textOf last).length
          < (row.text ++ (rows.flatMap Row.text ++ textOf last)).length := by
        have hpos := List.length_pos_of_ne_nil row.text_ne_nil
        simp only [List.length_append]
        omega
      rw [List.flatMap_cons, List.append_assoc, star_matched (row.line_print _) hless, ih]
      rfl

theorem parse_print (label : String) (sheet : Sheet) :
    Grammar.parse label sheet.text = .ok sheet.entries := by
  have hvalues : (sheet.rows.map (fun row => row.line.map Line.entry)
      ++ sheet.last.toList.map fun line => some line.entry).filterMap id = sheet.entries := by
    unfold Sheet.entries Sheet.lines
    rw [List.filterMap_append, List.filterMap_map, List.map_append, List.map_filterMap]
    congr 1
    cases sheet.last <;> rfl
  unfold Grammar.parse Sheet.text
  rw [star_rows, conclude, hvalues]

/-! ## Room -/

theorem prefix_of_append {run first second : List UInt8} {separator : UInt8}
    (h : run <+: first ++ separator :: second) (hlacks : separator ∉ run) : run <+: first := by
  induction first generalizing run with
  | nil =>
      cases run with
      | nil => exact List.nil_prefix
      | cons byte run =>
          obtain ⟨rfl, -⟩ := List.cons_prefix_cons.mp h
          exact absurd List.mem_cons_self hlacks
  | cons byte first ih =>
      cases run with
      | nil => exact List.nil_prefix
      | cons other run =>
          obtain ⟨rfl, hothers⟩ := List.cons_prefix_cons.mp h
          have hprefix := ih hothers (mt (List.mem_cons_of_mem _) hlacks)
          exact List.cons_prefix_cons.mpr ⟨rfl, hprefix⟩

/-- What is within a text and lacks a byte of it is on one side of that byte. -/
theorem infix_or_infix {run first second : List UInt8} {separator : UInt8}
    (h : run <:+: first ++ separator :: second) (hlacks : separator ∉ run) :
    run <:+: first ∨ run <:+: second := by
  induction first with
  | nil =>
      refine (List.infix_cons_iff.mp h).imp_left fun hprefix => ?_
      exact (prefix_of_append (show run <+: [] ++ separator :: second from hprefix) hlacks).isInfix
  | cons byte first ih =>
      rcases List.infix_cons_iff.mp h with hprefix | hinfix
      · exact .inl (prefix_of_append hprefix hlacks).isInfix
      · exact (ih hinfix).imp_left fun hinfix => List.infix_cons hinfix

theorem Terminator.infix_or_infix {run first second : List UInt8} (terminator : Terminator)
    (hinline : Inline run) (h : run <:+: first ++ (terminator.bytes ++ second)) :
    run <:+: first ∨ run <:+: second := by
  have hlineFeed : lineFeed ∉ run := fun hmem => (hinline _ hmem).1 rfl
  have hreturn : carriageReturn ∉ run := fun hmem => (hinline _ hmem).2 rfl
  cases terminator with
  | lf => exact Print.infix_or_infix h hlineFeed
  | crlf =>
      rcases Print.infix_or_infix h hreturn with hfirst | hsecond
      · exact .inl hfirst
      · refine (List.infix_cons_iff.mp hsecond).imp_left fun hprefix => ?_
        have hnil : run <+: [] := prefix_of_append hprefix hlineFeed
        rw [List.prefix_nil.mp hnil]
        exact List.nil_infix

/-- Bytes that could stand on one line do stand on one. -/
theorem exists_line {run : List UInt8} (hinline : Inline run) {rows : List Row}
    {last : Option Line} (h : run <:+: rows.flatMap Row.text ++ textOf last) :
    run = [] ∨ ∃ line ∈ rows.filterMap Row.line ++ last.toList, run <:+: line.text := by
  have hone : ∀ {content : Option Line}, run <:+: textOf content →
      run = [] ∨ ∃ line ∈ content, run <:+: line.text := by
    intro content hcontent
    cases content with
    | none => exact .inl (List.infix_nil.mp hcontent)
    | some line => exact .inr ⟨line, rfl, hcontent⟩
  induction rows with
  | nil =>
      refine (hone h).imp_right ?_
      rintro ⟨line, hmem, hline⟩
      exact ⟨line, Option.mem_toList.mpr hmem, hline⟩
  | cons row rows ih =>
      rw [List.flatMap_cons, List.append_assoc, Row.text, List.append_assoc] at h
      rcases row.terminator.infix_or_infix hinline h with hrow | hrows
      · refine (hone hrow).imp_right ?_
        rintro ⟨line, hmem, hline⟩
        refine ⟨line, List.mem_append_left _ (List.mem_filterMap.mpr ⟨row, ?_, hmem⟩), hline⟩
        exact List.mem_cons_self
      · refine (ih hrows).imp_right ?_
        rintro ⟨line, hmem, hline⟩
        refine ⟨line, ?_, hline⟩
        rcases List.mem_append.mp hmem with hmem | hmem
        · obtain ⟨other, hother, hcontent⟩ := List.mem_filterMap.mp hmem
          exact List.mem_append_left _
            (List.mem_filterMap.mpr ⟨other, List.mem_cons_of_mem _ hother, hcontent⟩)
        · exact List.mem_append_right _ hmem

theorem fits_print {maximum : Nat} {sheet : Sheet} (hleast : 2 ≤ maximum)
    (hlines : ∀ line ∈ sheet.lines, line.text.length + 2 ≤ maximum) :
    Entries.Fits maximum sheet.text := by
  intro _ run hrun hinline
  rcases exists_line hinline hrun with rfl | ⟨line, hmem, hline⟩
  · exact hleast
  · exact Nat.le_trans (Nat.add_le_add_right hline.length_le 2) (hlines line hmem)

end Print

namespace Entries

open Buffer

variable {σ : Type} [ByteSource σ]

/-- **Parsing undoes printing.** However entries are set as a document, and however a source serves
it, the reader gives them back in order if the longest line fits. -/
theorem read_print {limits : Limits} (valid : limits.Valid) (label : String) (sheet : Print.Sheet)
    (hleast : 2 ≤ limits.maximum)
    (hroom : ∀ line ∈ sheet.lines, line.text.length + 2 ≤ limits.maximum) {source : σ}
    (h : Serves source sheet.text) :
    ∃ b, Buffer.start limits .lfOrCrlf label source = .ok b ∧
      answerOf (read b) = .ok (some sheet.entries) := by
  have hanswer := answer_of_fits valid label h (Print.fits_print hleast hroom)
  rw [Print.parse_print] at hanswer
  exact ⟨_, start_of_valid valid .lfOrCrlf label source, hanswer⟩

/-- An empty line, a value with all four bytes that are escaped, and a last line without an end,
read a byte at a time. -/
theorem read_print_of_slice :
    let first : Print.Line :=
      { entry := ⟨"k", [13, 13, 34, 65, 10, 92]⟩, before := [0x20], after := [0x09]
        key_ne := by simp, key_chars := by simp
        before_blank := by simp, after_blank := by simp }
    let last : Print.Line :=
      { entry := ⟨"_1", []⟩, before := [], after := []
        key_ne := by simp, key_chars := by simp
        before_blank := by simp, after_blank := by simp }
    let sheet : Print.Sheet :=
      { rows := [⟨none, .crlf⟩, ⟨some first, .lf⟩, ⟨none, .lf⟩], last := some last }
    (⟨32, 3⟩ : Limits).Valid ∧ (∀ line ∈ sheet.lines, line.text.length + 2 ≤ 32) ∧
      ∃ b, Buffer.start ⟨32, 3⟩ .lfOrCrlf "doc" (⟨sheet.text, some 1⟩ : Slice) = .ok b ∧
        answerOf (read b) = .ok (some [⟨"k", [13, 13, 34, 65, 10, 92]⟩, ⟨"_1", []⟩]) := by
  intro first last sheet
  have hvalid : (⟨32, 3⟩ : Limits).Valid := by decide
  have hroom : ∀ line ∈ sheet.lines, line.text.length + 2 ≤ 32 := by decide +kernel
  have hserves : Serves (⟨sheet.text, some 1⟩ : Slice) sheet.text := serves_slice (by decide)
  exact ⟨hvalid, hroom, read_print hvalid "doc" sheet (by decide) hroom hserves⟩

end Entries

end Lookahead
