import Lookahead.Limits
import Lookahead.Place

/-!
# Records of named fields

Limits, marks and positions in a form that can be stored: a list of named fields. Reading takes the
fields it needs, wherever they stand, and ignores others; a number has to fit into a word, and
nothing else about it is checked. So whatever is written reads back, unless a number in it is too
large for a word.
-/

namespace Lookahead

inductive Field where
  | number (n : Nat)
  | text (s : String)
  /-- A value of some other kind, which no field here has. -/
  | other
deriving DecidableEq, Repr

abbrev Record := List (String × Field)

namespace Record

/-- A field that is a number no larger than a word. -/
def word? (record : Record) (name : String) : Option Nat :=
  match record.lookup name with
  | some (.number n) => if n < wordLimit then some n else none
  | _ => none

def text? (record : Record) (name : String) : Option String :=
  match record.lookup name with
  | some (.text s) => some s
  | _ => none

/-- The numbers of a record fit into words. -/
def Fits (record : Record) : Prop :=
  ∀ name n, (name, Field.number n) ∈ record → n < wordLimit

variable {record : Record} {name : String} {n : Nat} {s : String}

@[simp] theorem fits_nil : Fits [] :=
  fun _ _ hmem => absurd hmem List.not_mem_nil

@[simp] theorem fits_number : Fits ((name, .number n) :: record) ↔ n < wordLimit ∧ record.Fits := by
  constructor
  · intro h
    exact ⟨h name n List.mem_cons_self, fun other m hmem => h other m (List.mem_cons_of_mem _ hmem)⟩
  · rintro ⟨hn, hrest⟩ other m hmem
    rcases List.mem_cons.mp hmem with hsame | hmem
    · cases hsame
      exact hn
    · exact hrest other m hmem

@[simp] theorem fits_text : Fits ((name, .text s) :: record) ↔ record.Fits := by
  simp [Fits]

theorem word?_eq_some :
    record.word? name = some n ↔ record.lookup name = some (.number n) ∧ n < wordLimit := by
  unfold word?
  split
  · rename_i m hlookup
    rw [hlookup, Option.some.injEq, Field.number.injEq]
    by_cases hfits : m < wordLimit
    · rw [if_pos hfits, Option.some.injEq]
      exact ⟨fun hsame => ⟨hsame, hsame ▸ hfits⟩, And.left⟩
    · rw [if_neg hfits]
      refine ⟨nofun, ?_⟩
      rintro ⟨rfl, hn⟩
      exact absurd hn hfits
  · rename_i hother
    exact ⟨nofun, fun h => absurd h.1 (hother n)⟩

theorem text?_eq_some :
    record.text? name = some s ↔ record.lookup name = some (.text s) := by
  unfold text?
  split
  · rename_i t hlookup
    simp [hlookup]
  · rename_i hother
    exact ⟨nofun, fun h => absurd h (hother s)⟩

end Record

namespace Limits

def toRecord (limits : Limits) : Record :=
  [("maximum", .number limits.maximum), ("chunk_size", .number limits.chunk)]

def ofRecord? (record : Record) : Option Limits := do
  return ⟨← record.word? "maximum", ← record.word? "chunk_size"⟩

theorem ofRecord?_eq_some {record : Record} {limits : Limits} :
    ofRecord? record = some limits ↔ record.word? "maximum" = some limits.maximum ∧
      record.word? "chunk_size" = some limits.chunk := by
  obtain ⟨maximum, chunk⟩ := limits
  simp [ofRecord?, Option.bind_eq_some_iff]

/-- Limits read back if and only if they fit into words; so do places, marks and positions. -/
theorem ofRecord?_toRecord {limits : Limits} :
    ofRecord? limits.toRecord = some limits ↔ limits.toRecord.Fits := by
  simp [ofRecord?_eq_some, Record.word?_eq_some, toRecord, List.lookup_cons]

end Limits

namespace Place

def toRecord (place : Place) : Record :=
  [("byte", .number place.byte), ("line", .number place.line), ("column", .number place.column)]

def ofRecord? (record : Record) : Option Place := do
  return ⟨← record.word? "byte", ← record.word? "line", ← record.word? "column"⟩

theorem ofRecord?_eq_some {record : Record} {place : Place} :
    ofRecord? record = some place ↔ record.word? "byte" = some place.byte ∧
      record.word? "line" = some place.line ∧ record.word? "column" = some place.column := by
  obtain ⟨byte, line, column⟩ := place
  simp only [ofRecord?, bind, Option.bind_eq_some_iff, pure, Option.some.injEq, mk.injEq]
  constructor
  · rintro ⟨_, hbyte, _, hline, _, hcolumn, rfl, rfl, rfl⟩
    exact ⟨hbyte, hline, hcolumn⟩
  · rintro ⟨hbyte, hline, hcolumn⟩
    exact ⟨_, hbyte, _, hline, _, hcolumn, rfl, rfl, rfl⟩

theorem ofRecord?_toRecord {place : Place} :
    ofRecord? place.toRecord = some place ↔ place.toRecord.Fits := by
  simp [ofRecord?_eq_some, Record.word?_eq_some, toRecord, List.lookup_cons]

end Place

namespace Mark

def toRecord (mark : Mark) : Record :=
  ("offset", .number mark.offset) :: mark.toPlace.toRecord

def ofRecord? (record : Record) : Option Mark := do
  return ⟨← Place.ofRecord? record, ← record.word? "offset"⟩

theorem ofRecord?_eq_some {record : Record} {mark : Mark} :
    ofRecord? record = some mark ↔ Place.ofRecord? record = some mark.toPlace ∧
      record.word? "offset" = some mark.offset := by
  obtain ⟨place, offset⟩ := mark
  simp [ofRecord?, Option.bind_eq_some_iff]

theorem ofRecord?_toRecord {mark : Mark} :
    ofRecord? mark.toRecord = some mark ↔ mark.toRecord.Fits := by
  simp [ofRecord?_eq_some, Place.ofRecord?_eq_some, Record.word?_eq_some, toRecord,
    Place.toRecord, List.lookup_cons, and_comm]

end Mark

namespace Position

def toRecord (position : Position) : Record :=
  position.toPlace.toRecord ++ [("source", .text position.source)]

def ofRecord? (record : Record) : Option Position := do
  return ⟨← Place.ofRecord? record, ← record.text? "source"⟩

theorem ofRecord?_eq_some {record : Record} {position : Position} :
    ofRecord? record = some position ↔ Place.ofRecord? record = some position.toPlace ∧
      record.text? "source" = some position.source := by
  obtain ⟨place, source⟩ := position
  simp [ofRecord?, Option.bind_eq_some_iff]

theorem ofRecord?_toRecord {position : Position} :
    ofRecord? position.toRecord = some position ↔ position.toRecord.Fits := by
  simp [ofRecord?_eq_some, Place.ofRecord?_eq_some, Record.word?_eq_some, Record.text?_eq_some,
    toRecord, Place.toRecord, List.lookup_cons]

end Position

end Lookahead
