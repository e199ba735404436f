import Lookahead.Buffer.Rewind

/-!
# Transactions

A guard marks a choice point. While it is open the bytes from its snapshot on are pinned; closed
without a commit it puts the cursor back where it was opened. Guards nest: the pin is the earliest
snapshot of those that are open, and each guard remembers the pin it found.
-/

namespace Lookahead

/-- Whether a guard takes a snapshot at all. An inactive guard is for rules that cannot fail once
they have consumed something. -/
inductive Guard.Mode where
  | active
  | inactive
deriving DecidableEq, Repr

instance : Inhabited Guard.Mode := ⟨.active⟩

def Guard.Mode.name : Guard.Mode → String
  | .active => "active"
  | .inactive => "inactive"

/-- Where a guard was opened, and the pin in force before. -/
structure Guard.Snapshot where
  mark : Mark
  outerPin : Option Nat
deriving DecidableEq, Repr

structure Guard where
  snapshot : Option Guard.Snapshot
deriving DecidableEq, Repr

namespace Guard

variable {σ : Type}

def mode (guard : Guard) : Mode :=
  if guard.snapshot.isSome then .active else .inactive

/-- The pin after a snapshot at `byte` joins those before it. -/
def pinnedBy (pin : Option Nat) (byte : Nat) : Nat :=
  match pin with
  | none => byte
  | some earlier => min earlier byte

def begin (mode : Mode) (b : Buffer σ) : Guard × Buffer σ :=
  match mode with
  | .active => (⟨some ⟨b.mark, b.pin⟩⟩, { b with pin := some (pinnedBy b.pin b.place.byte) })
  | .inactive => (⟨none⟩, b)

/-- Closes a guard and keeps what was consumed under it. -/
def commit (guard : Guard) (b : Buffer σ) : Buffer σ :=
  match guard.snapshot with
  | none => b
  | some snapshot => { b with pin := snapshot.outerPin }

/-- Closes a guard and goes back to where it was opened. -/
def rollBack (guard : Guard) : EStateM Misuse (Buffer σ) Unit := fun b =>
  match guard.snapshot with
  | none => .ok () b
  | some snapshot =>
      if held : b.Holds snapshot.mark.toPlace then
        .ok () { b.moveTo snapshot.mark.toPlace held.1 held.2 with pin := snapshot.outerPin }
      else .error .snapshotLost b

end Guard

end Lookahead
