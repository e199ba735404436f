import Lookahead.Source.Basic

/-!
# A source without an end

Always fills the whole room. Its bytes count up and start again after 251 of them, a prime, so the
pattern falls in step with no buffer size.
-/

namespace Lookahead

/-- The number of bytes handed over so far. -/
structure Endless where
  served : Nat := 0
deriving DecidableEq, Repr

namespace Endless

def byteAt (index : Nat) : UInt8 :=
  UInt8.ofNat (index % 251)

def pull (source : Endless) (room : Nat) : Reply room × Endless :=
  (.delivered ((List.range room).map (fun i => byteAt (source.served + i))) (by simp),
    ⟨source.served + room⟩)

instance : ByteSource Endless where
  pull := pull

end Endless

end Lookahead
