/-!
# Limits

How much a buffer may hold. A buffer holds `maximum + chunk` bytes; the extra chunk is the slack
that lets a request of `maximum` bytes be met although the window does not start at the front.
-/

namespace Lookahead

/-- Counters are 64-bit words: no count reaches this one. -/
def wordLimit : Nat := 18446744073709551616

structure Limits where
  /-- The longest lookahead that will be asked for. -/
  maximum : Nat := 4096
  /-- The least number of bytes to ask the source for, and the number of consumed bytes that may
  stay in the buffer before compaction moves anything. -/
  chunk : Nat := 64
deriving DecidableEq, Repr

instance : Inhabited Limits := ⟨{}⟩

inductive LimitsFault where
  /-- A pull could ask for nothing. -/
  | zeroChunk
  /-- The buffer would have more bytes than can be counted. -/
  | tooLarge
deriving DecidableEq, Repr

def LimitsFault.message : LimitsFault → String
  | .zeroChunk => "chunk_size must be non-zero"
  | .tooLarge => "maximum + chunk_size overflows usize"

namespace Limits

def capacity (limits : Limits) : Nat :=
  limits.maximum + limits.chunk

def capacity? (limits : Limits) : Option Nat :=
  if limits.capacity < wordLimit then some limits.capacity else none

/-- What is wrong with the limits. A chunk of nought is reported before a sum too large. -/
def fault? (limits : Limits) : Option LimitsFault :=
  if limits.chunk = 0 then some .zeroChunk
  else if limits.capacity < wordLimit then none
  else some .tooLarge

/-- The limits a buffer can be made with. -/
def Valid (limits : Limits) : Prop :=
  0 < limits.chunk ∧ limits.capacity < wordLimit

instance (limits : Limits) : Decidable limits.Valid :=
  inferInstanceAs (Decidable (_ ∧ _))

theorem fault?_eq_none_iff {limits : Limits} : limits.fault? = none ↔ limits.Valid := by
  unfold fault? Valid
  split
  · simp; omega
  · split <;> simp <;> omega

end Limits

end Lookahead
