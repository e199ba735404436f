import Lookahead.Proofs.Fidelity
import Lookahead.Source.Script

/-!
# Spans are stretches of the stream

A span is cut out of the arena at an index worked out from the byte of a mark and the front of the
retained bytes. What makes it the right stretch is `Mirrors`: the retained bytes are the end of the
stream, so the arena index of a stream byte is its distance from `base`, after any number of
compactions. Nothing is asked of the mark. Its byte alone decides between a span and the two ways
there is none, and every byte falls under exactly one of the three.
-/

namespace Lookahead

variable {σ : Type}

namespace Buffer

variable {b : Buffer σ} {stream : List UInt8} {mark : Mark} {span : Span}

/-! ## One span -/

/-- The span from a mark to the cursor is that stretch of the stream, and begins where the mark says
and where the arena now has it. -/
structure Lends (b : Buffer σ) (stream : List UInt8) (mark : Mark) (span : Span) : Prop where
  bytes_eq : span.bytes = (stream.take b.place.byte).drop mark.byte
  length_eq : span.bytes.length = b.place.byte - mark.byte
  start_eq : span.start = ⟨mark.toPlace, mark.byte - b.base⟩
  arena_eq : Arena.slice b.arena span.start.offset b.offset = span.bytes
  source_eq : span.source = b.label

theorem lends_of_span (hmirrors : Mirrors b stream) (h : b.span mark.toPlace = .ok span) :
    Lends b stream mark span := by
  unfold Buffer.span at h
  split at h
  · rename_i held
    split at h
    · cases h
    · rename_i hahead
      cases h
      have hcut : Arena.slice b.arena (mark.byte - b.base) b.offset
          = (stream.take b.place.byte).drop mark.byte := hmirrors.slice_eq held.1
      have hbound : b.place.byte ≤ stream.length := by
        rw [← hmirrors.stop_eq]
        exact b.byte_le_stop
      refine ⟨hcut, ?_, rfl, rfl, rfl⟩
      rw [hcut, List.length_drop, List.length_take_of_le hbound]
  · cases h

end Buffer

namespace Session

open Buffer

/-! ## The three answers -/

def Answer.ofSpan : Except BufferError Span → Answer
  | .ok cut => .span cut
  | .error error => .failed error

/-- What asking a buffer for the span from a mark comes to, by the byte of the mark alone. -/
structure Answers (b : Buffer σ) (mark : Mark) (answer : Answer) : Prop where
  span_iff : (∃ span, answer = .span span) ↔ b.base ≤ mark.byte ∧ mark.byte ≤ b.place.byte
  ahead_iff : answer = .failed (.markAhead mark.byte b.place.byte) ↔
    b.place.byte < mark.byte ∧ mark.byte ≤ b.base + b.filled
  lost_iff : answer = .failed (.rewindPastWindow mark.byte b.base) ↔
    mark.byte < b.base ∨ b.base + b.filled < mark.byte

theorem answers_span (b : Buffer σ) (mark : Mark) :
    Answers b mark (.ofSpan (b.span mark.toPlace)) := by
  have hstop : b.place.byte ≤ b.base + b.filled := b.byte_le_stop
  by_cases held : b.Holds mark.toPlace
  · have hwithin : b.base ≤ mark.byte ∧ mark.byte ≤ b.base + b.filled := held
    by_cases consumed : mark.byte ≤ b.place.byte
    · rw [span_of_holds held consumed]
      constructor
      · exact ⟨fun _ => ⟨hwithin.1, consumed⟩, fun _ => ⟨_, rfl⟩⟩
      · exact ⟨fun h => (by cases h), fun hahead => by omega⟩
      · exact ⟨fun h => (by cases h), fun hlost => by omega⟩
    · rw [span_of_ahead held (Nat.lt_of_not_le consumed)]
      constructor
      · exact ⟨fun ⟨_, h⟩ => (by cases h), fun hspan => absurd hspan.2 consumed⟩
      · exact ⟨fun _ => ⟨Nat.lt_of_not_le consumed, hwithin.2⟩, fun _ => rfl⟩
      · exact ⟨fun h => (by cases h), fun hlost => by omega⟩
  · have hwithout : ¬(b.base ≤ mark.byte ∧ mark.byte ≤ b.base + b.filled) := held
    rw [span_of_lost held]
    constructor
    · exact ⟨fun ⟨_, h⟩ => (by cases h), fun hspan => absurd ⟨hspan.1, by omega⟩ hwithout⟩
    · have hbase := b.base_le_byte
      exact ⟨fun h => (by cases h), fun hahead => by omega⟩
    · exact ⟨fun _ => by omega, fun _ => rfl⟩

/-! ## Asking a session -/

variable [ByteSource σ]

theorem step_span (s : Session σ) (target : Target) :
    s.step (.span target) = (.ofSpan (s.buffer.span (s.resolve target).toPlace), s) := by
  show s.withSpan target (fun span => (.span span, s)) = _
  unfold withSpan
  cases s.buffer.span (s.resolve target).toPlace <;> rfl

/-- What asking a session for a span comes to: the byte of the mark decides the answer, a span is
the stretch of the delivered bytes from the mark to the cursor, and the session stays as it was. -/
structure LendsSpans (s : Session σ) (target : Target) : Prop
    extends Answers s.buffer (s.resolve target) (s.step (.span target)).1 where
  lends : ∀ span, (s.step (.span target)).1 = .span span →
    Lends s.buffer s.delivered (s.resolve target) span
  unchanged : (s.step (.span target)).2 = s

theorem lendsSpans_of_faithful {s : Session σ} (h : Faithful s.buffer) (target : Target) :
    LendsSpans s target := by
  have hstep := step_span s target
  refine ⟨?_, fun span hspan => ?_, ?_⟩
  · rw [hstep]
    exact answers_span s.buffer (s.resolve target)
  · rw [hstep] at hspan
    cases hcut : s.buffer.span (s.resolve target).toPlace with
    | error error =>
        rw [hcut] at hspan
        cases hspan
    | ok cut =>
        rw [hcut] at hspan
        obtain rfl : cut = span := Answer.span.inj hspan
        exact lends_of_span (mirrors_delivered h) hcut
  · rw [hstep]

/-- **Spans are stretches of the stream.** After any run of operations, and for any mark, saved or
made up: there is a span exactly if the byte of the mark is retained and not beyond the cursor, the
two failures tell the other marks apart, and the span holds the delivered bytes from there on. -/
theorem spans_lent {limits : Limits} (valid : limits.Valid) (lineEnding : LineEnding)
    (label : String) (source : σ) :
    ∃ fresh, start limits lineEnding label source = .ok fresh ∧
      ∀ ops target, LendsSpans (fresh.play ops).2 target := by
  refine ⟨_, start_ok valid lineEnding label source, fun ops target => ?_⟩
  have hfaithful := play_induction (P := fun s : Session σ => Faithful s.buffer)
    (fun op s h => faithful_step op s h) ops
    (s := { buffer := ofLimits limits lineEnding label ⟨source, #[]⟩ })
    (faithful_start limits lineEnding label source)
  exact lendsSpans_of_faithful hfaithful target

omit [ByteSource σ] in
/-- A mark is saved under a guard that is then abandoned, more is pulled and consumed, and
compaction moves its byte: its span is still the stretch it began, and the bytes on either side of
those retained have none. -/
theorem spans_lent_of_script :
    let ops : List Op := [.ensure 4, .consume 3, .openGuard .active, .consume 1, .save "m",
      .close .drop, .discard, .fill 4, .fill 4, .consume 2]
    (⟨4, 2⟩ : Limits).Valid ∧
      ∃ fresh, start ⟨4, 2⟩ .lf "input"
          (⟨[.data [97, 98, 99, 100], .failure "later", .data [101, 102, 103]]⟩ : Script)
          = .ok fresh ∧
        let s := (fresh.play ops).2
        s.resolve (.slot "m") = ⟨⟨4, 1, 5⟩, 4⟩ ∧
          (s.step (.span (.slot "m"))).1 = .span ⟨[101], ⟨⟨4, 1, 5⟩, 1⟩, "input"⟩ ∧
          (∀ offset, (s.step (.span (.mark ⟨⟨6, 9, 9⟩, offset⟩))).1
            = .failed (.markAhead 6 5)) ∧
          ∀ offset, (s.step (.span (.mark ⟨⟨2, 1, 3⟩, offset⟩))).1
            = .failed (.rewindPastWindow 2 3) := by
  intro ops
  have hvalid : (⟨4, 2⟩ : Limits).Valid := by decide
  obtain ⟨fresh, hstart, hlent⟩ := spans_lent hvalid .lf "input"
    (⟨[.data [97, 98, 99, 100], .failure "later", .data [101, 102, 103]]⟩ : Script)
  obtain rfl := Except.ok.inj ((start_ok hvalid .lf "input" _).symm.trans hstart)
  refine ⟨hvalid, _, hstart, ?_⟩
  intro s
  have hbase : s.buffer.base = 3 := by decide +kernel
  have hbyte : s.buffer.place.byte = 5 := by decide +kernel
  have hfilled : s.buffer.filled = 4 := by decide +kernel
  refine ⟨by decide +kernel, by decide +kernel, fun offset => ?_, fun offset => ?_⟩
  · have hahead := (hlent ops (.mark ⟨⟨6, 9, 9⟩, offset⟩)).ahead_iff
    rw [hbyte, hbase, hfilled] at hahead
    exact hahead.mpr ⟨(by decide : 5 < 6), (by decide : 6 ≤ 3 + 4)⟩
  · have hlost := (hlent ops (.mark ⟨⟨2, 1, 3⟩, offset⟩)).lost_iff
    rw [hbase] at hlost
    exact hlost.mpr (.inl (by decide : 2 < 3))

end Session

end Lookahead
