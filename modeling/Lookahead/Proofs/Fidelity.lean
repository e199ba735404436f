import Lookahead.Proofs.Steps
import Lookahead.Source.Script

/-!
# The window shows the stream

Whatever is done to a buffer, its window is the end of what its source has handed over so far, from
the cursor on. The invariant behind it is `Mirrors`: the retained bytes are the end of the stream,
and the stream index behind them is its length. Pulls make the stream and the retained bytes longer
by the same bytes, compaction moves the front of both on, and neither the cursor nor the pin has a
part in it. So it survives every operation, failed and abandoned ones included, in any order.
-/

namespace Lookahead

variable {σ : Type}

namespace Buffer

/-- The buffer retains the end of a stream. -/
structure Mirrors (b : Buffer σ) (stream : List UInt8) : Prop where
  stop_eq : b.stop = stream.length
  retained_eq : b.retained = stream.drop b.base

variable {b c : Buffer σ} {stream bytes : List UInt8} {count : Nat}

namespace Mirrors

theorem window_eq (h : Mirrors b stream) : b.window = stream.drop b.place.byte := by
  rw [Buffer.window_eq, h.retained_eq, List.drop_drop, b.base_add_offset]

theorem peek_eq (h : Mirrors b stream) (index : Nat) :
    b.peek index = stream[b.place.byte + index]? := by
  rw [Buffer.peek_eq, h.window_eq, List.getElem?_drop]

/-- What the arena has between an index and the cursor is that stretch of the stream. -/
theorem slice_eq (h : Mirrors b stream) {index : Nat} (hbase : b.base ≤ index) :
    Arena.slice b.arena (index - b.base) b.offset = (stream.take b.place.byte).drop index := by
  rw [slice_consumed, h.retained_eq, List.take_drop, b.base_add_offset, List.drop_drop,
    Nat.add_sub_cancel' hbase]

theorem base_le_length (h : Mirrors b stream) : b.base ≤ stream.length := by
  rw [← h.stop_eq]
  exact Nat.le_add_right _ _

theorem of_extends (h : Mirrors b stream) (hextends : Extends b c bytes) :
    Mirrors c (stream ++ bytes) where
  stop_eq := by rw [hextends.stop_eq, h.stop_eq, List.length_append]
  retained_eq := by
    rw [hextends.retained_eq, h.retained_eq, hextends.base_eq,
      List.drop_append_of_le_length h.base_le_length]

theorem of_moves (h : Mirrors b stream) (hmoves : Moves b c) : Mirrors c stream where
  stop_eq := by rw [hmoves.stop_eq, h.stop_eq]
  retained_eq := by rw [hmoves.retained_eq, h.retained_eq, hmoves.base_eq]

theorem of_drops (h : Mirrors b stream) (hdrops : Drops b c count) : Mirrors c stream where
  stop_eq := by rw [hdrops.stop_eq, h.stop_eq]
  retained_eq := by rw [hdrops.retained_eq, h.retained_eq, List.drop_drop, hdrops.base_eq]

end Mirrors

/-- A buffer over a recorded source retains the end of what the source handed over. -/
def Faithful (b : Buffer (Recorded σ)) : Prop :=
  Mirrors b b.source.delivered

theorem Faithful.of_evolves {b c : Buffer (Recorded σ)} (h : Faithful b) (hevolves : Evolves b c) :
    Faithful c := by
  induction hevolves with
  | draws hdraws =>
      obtain ⟨bytes, hextends, hdelivered⟩ := hdraws
      unfold Faithful
      rw [hdelivered]
      exact Mirrors.of_extends h hextends
  | moves hmoves =>
      unfold Faithful
      rw [hmoves.source_eq]
      exact Mirrors.of_moves h hmoves
  | discards b =>
      unfold Faithful
      rw [b.drops_discard.source_eq]
      exact Mirrors.of_drops h b.drops_discard
  | trans _ _ ih ih' => exact ih' (ih h)

end Buffer

namespace Session

open Buffer

/-- All bytes that a session's source handed over so far, in order. -/
def delivered (s : Session σ) : List UInt8 :=
  s.buffer.source.delivered

theorem mirrors_delivered {s : Session σ} (h : Faithful s.buffer) : Mirrors s.buffer s.delivered :=
  h

theorem faithful_step [ByteSource σ] (op : Op) (s : Session σ) (h : Faithful s.buffer) :
    Faithful (s.step op).2.buffer := by
  rcases (transition_step op s).evolves_or_moves with hevolves | hmoves
  · exact h.of_evolves hevolves
  · unfold Faithful
    rw [hmoves.source_eq]
    have hpinned : Mirrors { s.buffer with pin := (s.step op).2.buffer.pin } s.delivered :=
      ⟨h.stop_eq, h.retained_eq⟩
    exact hpinned.of_moves hmoves

theorem delivered_step [ByteSource σ] (op : Op) (s : Session σ) :
    s.delivered <+: (s.step op).2.delivered := by
  rcases (transition_step op s).evolves_or_moves with hevolves | hmoves
  · exact hevolves.delivered_prefix
  · unfold delivered
    exact hmoves.source_eq ▸ List.prefix_rfl

theorem delivered_play [ByteSource σ] (ops : List Op) (s : Session σ) :
    s.delivered <+: (s.play ops).2.delivered :=
  play_induction (P := fun t => s.delivered <+: t.delivered)
    (fun op t h => h.trans (delivered_step op t)) ops List.prefix_rfl

theorem faithful_start (limits : Limits) (lineEnding : LineEnding) (label : String) (source : σ) :
    Faithful (ofLimits limits lineEnding label (⟨source, #[]⟩ : Recorded σ)) :=
  ⟨rfl, rfl⟩

/-- What a session shows of the stream that its source has delivered. -/
structure ShowsStream (limits : Limits) (s : Session σ) : Prop where
  offset_le_filled : s.buffer.offset ≤ s.buffer.filled
  filled_le_capacity : s.buffer.filled ≤ s.buffer.capacity
  capacity_eq : s.buffer.capacity = limits.maximum + limits.chunk
  byte_eq : s.buffer.place.byte = s.buffer.base + s.buffer.offset
  length_eq : s.buffer.base + s.buffer.filled = s.delivered.length
  window_eq : s.buffer.window = s.delivered.drop s.buffer.place.byte
  peek_eq : ∀ index, s.buffer.peek index = s.delivered[s.buffer.place.byte + index]?

theorem showsStream_of_faithful {limits : Limits} {s : Session σ}
    (hlimits : s.buffer.limits = limits) (h : Faithful s.buffer) : ShowsStream limits s where
  offset_le_filled := s.buffer.offset_le_filled
  filled_le_capacity := s.buffer.filled_le_capacity
  capacity_eq := by
    rw [Buffer.capacity_eq, hlimits]
    rfl
  byte_eq := s.buffer.base_add_offset.symm
  length_eq := h.stop_eq
  window_eq := h.window_eq
  peek_eq := h.peek_eq

/-- **The window shows the stream.** A buffer can be made with any valid limits, and after any run
of operations it shows exactly what its source has handed over, from the cursor on. -/
theorem shows_stream [ByteSource σ] {limits : Limits} (valid : limits.Valid)
    (lineEnding : LineEnding) (label : String) (source : σ) :
    ∃ s, start limits lineEnding label source = .ok s ∧
      ∀ ops, ShowsStream limits (s.play ops).2 := by
  refine ⟨_, start_ok valid lineEnding label source, fun ops => ?_⟩
  obtain ⟨hfaithful, hlimits⟩ := play_induction
    (P := fun s => Faithful s.buffer ∧ s.buffer.limits = limits)
    (fun op s h => ⟨faithful_step op s h.1, (limits_step op s).trans h.2⟩) ops
    (s := { buffer := ofLimits limits lineEnding label ⟨source, #[]⟩ })
    ⟨faithful_start limits lineEnding label source, rfl⟩
  exact showsStream_of_faithful hlimits hfaithful

theorem shows_stream_of_script :
    (⟨4, 4⟩ : Limits).Valid ∧
      ∃ s, start ⟨4, 4⟩ .lf "input"
          (⟨[.data [97, 61], .failure "later", .overReport 3, .data [98]]⟩ : Script) = .ok s ∧
        ∀ ops, ShowsStream ⟨4, 4⟩ (s.play ops).2 :=
  ⟨by decide, shows_stream (by decide) .lf "input" _⟩

end Session

end Lookahead
