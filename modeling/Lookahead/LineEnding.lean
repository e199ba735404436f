/-!
# Line endings

A policy names the byte sequences that end a line. It answers two separate questions: which single
byte advances the line counter when bytes are consumed (`lineByte`), and how wide the line ending at
the front of a byte sequence is (`match?`). The two may disagree, for instance on a lone carriage
return under a policy that counts line feeds.
-/

namespace Lookahead

def lineFeed : UInt8 := 10

def carriageReturn : UInt8 := 13

inductive LineEnding where
  | lf
  | cr
  | crlf
  | lfOrCrlf
  | crOrLf
  | crOrCrlf
  | crOrLfOrCrlf
deriving DecidableEq, Repr

namespace LineEnding

def all : List LineEnding :=
  [.lf, .cr, .crlf, .lfOrCrlf, .crOrLf, .crOrCrlf, .crOrLfOrCrlf]

def name : LineEnding → String
  | .lf => "lf"
  | .cr => "cr"
  | .crlf => "crlf"
  | .lfOrCrlf => "lf_crlf"
  | .crOrLf => "cr_lf"
  | .crOrCrlf => "cr_crlf"
  | .crOrLfOrCrlf => "cr_lf_crlf"

def ofName? (text : String) : Option LineEnding :=
  all.find? (fun policy => policy.name == text)

/-- The line endings of a policy, longest first, so that the first one that fits is the longest. -/
def terminators : LineEnding → List (List UInt8)
  | .lf => [[lineFeed]]
  | .cr => [[carriageReturn]]
  | .crlf => [[carriageReturn, lineFeed]]
  | .lfOrCrlf => [[carriageReturn, lineFeed], [lineFeed]]
  | .crOrLf => [[carriageReturn], [lineFeed]]
  | .crOrCrlf => [[carriageReturn, lineFeed], [carriageReturn]]
  | .crOrLfOrCrlf => [[carriageReturn, lineFeed], [carriageReturn], [lineFeed]]

/-- The byte that advances the line counter: a carriage return where a lone one ends a line and a
lone line feed does not, and a line feed otherwise. -/
def lineByte : LineEnding → UInt8
  | .cr => carriageReturn
  | .crOrCrlf => carriageReturn
  | _ => lineFeed

def maxWidth (policy : LineEnding) : Nat :=
  (policy.terminators.map List.length).foldl max 0

/-- The width of the longest line ending of the policy at the front of `bytes`. -/
def match? (policy : LineEnding) (bytes : List UInt8) : Option Nat :=
  (policy.terminators.find? (fun ending => ending.isPrefixOf bytes)).map List.length

/-- What is matched is a line ending at the front. -/
theorem exists_of_match? {policy : LineEnding} {bytes : List UInt8} {width : Nat}
    (h : policy.match? bytes = some width) :
    ∃ ending ∈ policy.terminators, ending <+: bytes ∧ ending.length = width := by
  obtain ⟨ending, found, hwidth⟩ := Option.map_eq_some_iff.1 h
  have fits : ending.isPrefixOf bytes = true :=
    List.find?_some (p := fun e : List UInt8 => e.isPrefixOf bytes) found
  exact ⟨ending, List.mem_of_find?_eq_some found, List.isPrefixOf_iff_prefix.1 fits, hwidth⟩

/-- A matched line ending lies within the bytes it was matched in. -/
theorem match?_le {policy : LineEnding} {bytes : List UInt8} {width : Nat}
    (h : policy.match? bytes = some width) : width ≤ bytes.length := by
  obtain ⟨ending, -, fits, rfl⟩ := exists_of_match? h
  exact fits.length_le

theorem maxWidth_le (policy : LineEnding) : policy.maxWidth ≤ 2 := by
  cases policy <;> decide

theorem match?_pos {policy : LineEnding} {bytes : List UInt8} {width : Nat}
    (h : policy.match? bytes = some width) : 0 < width := by
  obtain ⟨ending, hmem, -, rfl⟩ := exists_of_match? h
  cases policy <;> simp [terminators] at hmem <;> grind

end LineEnding

end Lookahead
