import Lookahead.Entries.Value

/-!
# Lines and documents

A line is an assignment or empty. Reading a document repeats: let the buffer compact, then take the
next item.
-/

namespace Lookahead.Entries

open Scan

variable {σ : Type} [ByteSource σ]

/-! ## Lines -/

def key : Scan σ (Option String) := do
  let span ← capture (skipWhile isKeyByte)
  return if span.bytes.isEmpty then none else some (keyText span.bytes)

def blanks : Scan σ Unit :=
  skipWhile isBlank

/-- Whether the line is over, by a line ending or by the end of the input. -/
def lineDone : Scan σ Bool := do
  if ← ask Buffer.consumeLineEnding then return true
  ask Buffer.isAtEnd

def assignment : Scan σ (Option Entry) :=
  attempt do
    blanks
    let some key ← key | return none
    blanks
    let some _ ← byteIf (· == 0x3D) | return none
    blanks
    let some value ← value | return none
    blanks
    return if ← lineDone then some ⟨key, value⟩ else none

/-! ## Documents -/

inductive Item where
  | finished
  | blank
  | entry (entry : Entry)
deriving DecidableEq, Repr

/-- Reads the next item, after the buffer had the chance to compact. A line that is none fails at
the place where it starts. -/
def item : Scan σ Item := do
  modify Buffer.discard
  if ← ask Buffer.isAtEnd then return .finished
  if ← ask Buffer.consumeLineEnding then return .blank
  match ← assignment with
  | some entry => return .entry entry
  | none => throw (.noRule (← get).position)

/-- One turn of reading, behind the entries read so far: what to go on with, or how the reading
ends. -/
def turn (entries : Array Entry) (b : Buffer σ) :
    (Array Entry × Buffer σ) ⊕ EStateM.Result Fault (Buffer σ) (Array Entry) :=
  match item b with
  | .error fault b' => .inr (.error fault b')
  | .ok .finished b' => .inr (.ok entries b')
  | .ok .blank b' => .inl (entries, b')
  | .ok (.entry entry) b' => .inl (entries.push entry, b')

/-- Reads item by item, behind the entries read so far, until the input ends or an item fails. There
is no answer where neither ever happens. -/
def readOn (entries : Array Entry) (b : Buffer σ) :
    Option (EStateM.Result Fault (Buffer σ) (Array Entry)) :=
  have : Nonempty (EStateM.Result Fault (Buffer σ) (Array Entry)) := ⟨.ok entries b⟩
  repeatM (fun state => some (turn state.1 state.2)) (entries, b)

theorem readOn_eq (entries : Array Entry) (b : Buffer σ) :
    readOn entries b = match turn entries b with
      | .inl (entries, b) => readOn entries b
      | .inr result => some result := by
  have : Nonempty (EStateM.Result Fault (Buffer σ) (Array Entry)) := ⟨.ok entries b⟩
  unfold readOn
  rw [repeatM_eq_of_monadTail]
  unfold repeatM.body
  simp only
  cases turn entries b <;> rfl

/-- Reads a whole document. A document may have no end, and its reading none either: `none` stands
for that, and no run arrives at it. -/
def read : Scan σ (Option (List Entry)) := fun b =>
  match readOn #[] b with
  | none => .ok none b
  | some (.ok entries b') => .ok (some entries.toList) b'
  | some (.error fault b') => .error fault b'

end Lookahead.Entries
