import Lookahead.Source.Basic

/-!
# Recording a source

Wraps a source so that every pull made through it is kept: how much room it offered and what came
back. The wrapped source answers exactly as the bare one does, and leaves the same behind.
-/

namespace Lookahead

structure Pulled where
  room : Nat
  reply : Reply room

/-- A source and the pulls made from it so far, oldest first. -/
structure Recorded (σ : Type) where
  source : σ
  history : Array Pulled := #[]

namespace Recorded

variable {σ : Type}

/-- Pulls from the wrapped source and keeps a record of it. -/
def pull [ByteSource σ] (recorded : Recorded σ) (room : Nat) : Reply room × Recorded σ :=
  let (reply, source) := ByteSource.pull recorded.source room
  (reply, ⟨source, recorded.history.push ⟨room, reply⟩⟩)

instance [ByteSource σ] : ByteSource (Recorded σ) where
  pull := pull
  residue recorded room := ByteSource.residue recorded.source room

def delivered (recorded : Recorded σ) : List UInt8 :=
  recorded.history.toList.flatMap (fun pulled => pulled.reply.bytes)

theorem history_pull [ByteSource σ] (recorded : Recorded σ) (room : Nat) :
    (ByteSource.pull recorded room).2.history
      = recorded.history.push ⟨room, (ByteSource.pull recorded room).1⟩ :=
  rfl

theorem delivered_pull [ByteSource σ] (recorded : Recorded σ) (room : Nat) :
    (ByteSource.pull recorded room).2.delivered
      = recorded.delivered ++ (ByteSource.pull recorded room).1.bytes := by
  simp [ByteSource.pull, pull, delivered]

end Recorded

end Lookahead
