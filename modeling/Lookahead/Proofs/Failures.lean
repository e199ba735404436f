import Lookahead.Proofs.Overflow
import Lookahead.Proofs.Speculation
import Lookahead.Proofs.Twins
import Lookahead.Source.Script

/-!
# Failed operations leave the buffer as it was

An operation that fails may have pulled, and the pull that failed may have written anything into the
room it was given. Neither shows. All checks come before the first change (`Harmless`), and what a
failed pull wrote is behind the retained bytes, where twins differ. Filling alone can get somewhere
before it fails: the bytes of the pulls that went well are in the window then, as if they had come
with one pull. So what is left behind is the session before the operation but for these bytes, the
state of the source and the log, and nothing done later tells the difference.
-/

namespace Lookahead

variable {σ : Type} {ε α β : Type}

namespace Buffer

variable {b c : Buffer (Recorded σ)} {bytes : List UInt8}

/-! ## Operations that fail before they change anything -/

/-- The second buffer is the first after pulls that handed over `bytes`. -/
structure Gains (b c : Buffer (Recorded σ)) (bytes : List UInt8) : Prop where
  extends_by : Extends b c bytes
  delivered_eq : c.source.delivered = b.source.delivered ++ bytes

theorem Gains.of_same_source (h : Extends b c []) (hsource : c.source = b.source) :
    Gains b c [] :=
  ⟨h, by rw [hsource, List.append_nil]⟩

theorem Gains.refl (b : Buffer (Recorded σ)) : Gains b b [] :=
  .of_same_source (.refl b) rfl

/-- If the operation fails, the buffer has gained no byte and lost none. -/
def Harmless (operation : EStateM ε (Buffer (Recorded σ)) α) : Prop :=
  ∀ b failure c, operation b = .error failure c → Gains b c []

/-- What comes after the first operation and never fails has no part in its failures. -/
theorem Harmless.bind {first : EStateM ε (Buffer (Recorded σ)) α}
    {next : α → EStateM ε (Buffer (Recorded σ)) β} (hfirst : Harmless first)
    (hnext : ∀ a c failure d, next a c ≠ .error failure d) : Harmless (first >>= next) := by
  intro b failure c h
  rw [bind_apply] at h
  cases hanswer : first b with
  | ok a d =>
      rw [hanswer] at h
      cases hnext a d failure c h
  | error failure' d =>
      rw [hanswer] at h
      cases h
      exact hfirst b failure c hanswer

theorem harmless_consume (count : Nat) : Harmless (σ := σ) (consume count) := by
  intro b misuse c h
  unfold consume at h
  split at h
  · cases h
  · cases h
    exact .refl b

theorem harmless_consumeInLine (count : Nat) : Harmless (σ := σ) (consumeInLine count) := by
  intro b misuse c h
  unfold consumeInLine at h
  split at h
  · split at h
    · cases h
      exact .refl b
    · cases h
  · cases h
    exact .refl b

theorem harmless_consumeToNextLine (count : Nat) :
    Harmless (σ := σ) (consumeToNextLine count) := by
  intro b misuse c h
  unfold consumeToNextLine at h
  split at h
  · cases h
  · cases h
    exact .refl b

theorem harmless_restore (place : Place) : Harmless (σ := σ) (restore place) := by
  intro b error c h
  unfold restore at h
  split at h
  · cases h
  · cases h
    exact .refl b

section Requests

variable [ByteSource σ]

theorem harmless_request (amount : Nat) : Harmless (σ := σ) (request amount) := by
  intro b error c h
  unfold request at h
  split at h
  · cases h
  · split at h
    · cases h
      exact .of_same_source { Extends.refl b with } rfl
    · have hdelivered := b.source.delivered_pull (b.want amount)
      unfold pull at h
      obtain ⟨-, hnone, hextends, hsource, -⟩ := settle_error h
      rw [hnone] at hdelivered
      exact ⟨hextends, by rw [hsource, hdelivered]⟩

theorem harmless_ensure (amount : Nat) : Harmless (σ := σ) (ensure amount) :=
  (harmless_request amount).bind fun _ _ _ _ => nofun

theorem harmless_countAhead (amount : Nat) : Harmless (σ := σ) (countAhead amount) :=
  (harmless_ensure amount).bind fun _ _ _ _ => nofun

theorem harmless_lookAhead (amount : Nat) : Harmless (σ := σ) (lookAhead amount) :=
  (harmless_ensure amount).bind fun _ _ _ _ => nofun

theorem harmless_isAtEnd : Harmless (σ := σ) isAtEnd :=
  (harmless_ensure 1).bind fun _ _ _ _ => nofun

theorem harmless_consumeLineEnding : Harmless (σ := σ) consumeLineEnding := by
  intro b error c h
  have hasked : Harmless (σ := σ) (ensure b.lineEnding.maxWidth >>= fun _ => passLineEnding) :=
    (harmless_ensure _).bind fun _ c error d => passLineEnding_ne_error c d error
  exact hasked b error c h

end Requests

/-! ## Bytes that came before a failure -/

/-- The buffer with `bytes` more in its window, its source in another state, and another log. -/
def advanced (b : Buffer σ) (source : σ) (log : Array Event) (bytes : List UInt8)
    (fits : bytes.length ≤ b.free) : Buffer σ :=
  { b.absorb source bytes bytes.length fits with log }

theorem Extends.length_le_free {b c : Buffer σ} (h : Extends b c bytes) :
    bytes.length ≤ b.free := by
  have hfilled := h.filled_eq
  have hcapacity : c.capacity = b.capacity := by
    rw [c.capacity_eq, b.capacity_eq, h.limits_eq]
  have hle := c.filled_le_capacity
  have hfree := b.filled_add_free
  omega

/-- However the bytes came, the buffer is a twin of the one they came to at once. -/
theorem twins_advanced {b c : Buffer σ} (h : Extends b c bytes) :
    Twins (b.advanced c.source c.log bytes h.length_le_free) c where
  limits_eq := h.limits_eq
  lineEnding_eq := h.lineEnding_eq
  label_eq := h.label_eq
  source_eq := rfl
  base_eq := h.base_eq
  pin_eq := h.pin_eq
  log_eq := rfl
  retained_eq := by
    have habsorbed := b.retained_absorb c.source h.length_le_free h.length_le_free (Nat.le_refl _)
    rw [List.take_length] at habsorbed
    exact h.retained_eq.trans habsorbed.symm
  cursor_eq := h.cursor_eq

end Buffer

namespace Session

open Buffer

/-! ## Failing steps -/

def Op.isFill : Op → Bool
  | .fill _ => true
  | _ => false

/-- The session after an operation that brought `bytes` and did nothing else. -/
structure Brings (s t : Session σ) (bytes : List UInt8) : Prop where
  gains : Gains s.buffer t.buffer bytes
  session_eq : t = { s with buffer := t.buffer }

theorem Brings.refl (s : Session σ) : Brings s s [] :=
  ⟨.refl s.buffer, rfl⟩

variable {s t : Session σ} {bytes : List UInt8}

/-- An operation whose values are no faults fails when it answers with one. -/
theorem perform_fault {operation : EStateM ε (Buffer (Recorded σ)) α} {onValue : α → Answer}
    {onFailure : ε → Answer} (hvalue : ∀ a, (onValue a).isFault = false)
    (hfault : (s.perform operation onValue onFailure).1.isFault = true) :
    ∃ failure c, operation s.buffer = .error failure c := by
  unfold perform at hfault
  cases hanswer : operation s.buffer with
  | ok a c =>
      rw [hanswer] at hfault
      cases (hvalue a).symm.trans hfault
  | error failure c => exact ⟨failure, c, rfl⟩

theorem brings_perform {operation : EStateM ε (Buffer (Recorded σ)) α} {onValue : α → Answer}
    {onFailure : ε → Answer} (hharmless : Harmless operation)
    (hvalue : ∀ a, (onValue a).isFault = false)
    (hfault : (s.perform operation onValue onFailure).1.isFault = true) :
    Brings s (s.perform operation onValue onFailure).2 [] := by
  obtain ⟨failure, c, hanswer⟩ := perform_fault hvalue hfault
  rw [perform_session, hanswer]
  exact ⟨hharmless _ _ _ hanswer, rfl⟩

theorem brings_withSpan {target : Target} {next : Span → Answer × Session σ}
    (hnext : ∀ span, (next span).1.isFault = false)
    (hfault : (s.withSpan target next).1.isFault = true) :
    Brings s (s.withSpan target next).2 [] := by
  unfold withSpan at hfault ⊢
  cases hspan : s.buffer.span (s.resolve target).toPlace with
  | ok span =>
      rw [hspan] at hfault
      cases (hnext span).symm.trans hfault
  | error error => exact .refl s

variable [ByteSource σ]

/-- Only filling can bring bytes and still fail. -/
theorem brings_step (hpinned : Pinned s) {op : Op} (hfault : (s.step op).1.isFault = true) :
    ∃ bytes, (op.isFill = false → bytes = []) ∧ Brings s (s.step op).2 bytes := by
  have hnone : Brings s (s.step op).2 [] →
      ∃ bytes, (op.isFill = false → bytes = []) ∧ Brings s (s.step op).2 bytes :=
    fun h => ⟨[], fun _ => rfl, h⟩
  cases op with
  | ensure amount => exact hnone (brings_perform (harmless_ensure amount) (fun _ => rfl) hfault)
  | countAhead amount =>
      exact hnone (brings_perform (harmless_countAhead amount) (fun _ => rfl) hfault)
  | isAtEnd => exact hnone (brings_perform harmless_isAtEnd (fun _ => rfl) hfault)
  | lookAhead amount =>
      exact hnone (brings_perform (harmless_lookAhead amount) (fun _ => rfl) hfault)
  | consume count => exact hnone (brings_perform (harmless_consume count) (fun _ => rfl) hfault)
  | consumeInLine count =>
      exact hnone (brings_perform (harmless_consumeInLine count) (fun _ => rfl) hfault)
  | consumeToNextLine count =>
      exact hnone (brings_perform (harmless_consumeToNextLine count) (fun _ => rfl) hfault)
  | consumeLineEnding =>
      exact hnone (brings_perform harmless_consumeLineEnding (fun _ => rfl) hfault)
  | restore target => exact hnone (brings_perform (harmless_restore _) (fun _ => rfl) hfault)
  | span target => exact hnone (brings_withSpan (fun _ => rfl) hfault)
  | decode target decoding =>
      refine hnone (brings_withSpan (fun span => ?_) hfault)
      cases decoding <;> rfl
  | fill amount =>
      obtain ⟨bytes, hextends, hdelivered⟩ := draws_fill amount s.buffer
      refine ⟨bytes, fun hother => (by cases hother), ?_⟩
      show Brings s (s.perform (Buffer.fill amount) .count .failed).2 bytes
      rw [perform_session]
      exact ⟨⟨hextends, hdelivered⟩, rfl⟩
  | close how => cases (close_answer how hpinned).symm.trans hfault
  | window | peek index | discard | save slot | position | positionAt target | label | describe
  | openGuard mode | openAttempt => cases hfault

/-! ## Failed operations -/

/-- What a failed operation that brought `bytes` leaves: everything about the buffer that can be
seen is as it was, with the bytes behind the window, and later operations are answered as if the
source had only been advanced to hand them over. -/
structure Unharmed (s t : Session σ) (bytes : List UInt8) : Prop where
  mark_eq : t.buffer.mark = s.buffer.mark
  base_eq : t.buffer.base = s.buffer.base
  filled_eq : t.buffer.filled = s.buffer.filled + bytes.length
  pin_eq : t.buffer.pin = s.buffer.pin
  capacity_eq : t.buffer.capacity = s.buffer.capacity
  window_eq : t.buffer.window = s.buffer.window ++ bytes
  delivered_eq : t.delivered = s.delivered ++ bytes
  session_eq : t = { s with buffer := t.buffer }
  later : ∃ fits : bytes.length ≤ s.buffer.free, ∀ ops, (t.play ops).1
    = ({ s with buffer := s.buffer.advanced t.buffer.source t.buffer.log bytes fits }.play ops).1

theorem Brings.unharmed (h : Brings s t bytes) : Unharmed s t bytes := by
  obtain ⟨⟨hextends, hdelivered⟩, hsession⟩ := h
  let advanced := s.buffer.advanced t.buffer.source t.buffer.log bytes hextends.length_le_free
  have htwins : Twins { s with buffer := advanced } t := ⟨hsession, twins_advanced hextends⟩
  exact {
    mark_eq := hextends.cursor_eq
    base_eq := hextends.base_eq
    filled_eq := hextends.filled_eq
    pin_eq := hextends.pin_eq
    capacity_eq := by rw [t.buffer.capacity_eq, s.buffer.capacity_eq, hextends.limits_eq]
    window_eq := hextends.window_eq
    delivered_eq := hdelivered
    session_eq := hsession
    later := ⟨hextends.length_le_free, fun ops => (play_twins ops htwins).1⟩ }

/-- **Failed operations leave the buffer as it was.** After any run from a fresh session an
operation that fails or is misused harms nothing, and brings nothing unless it is a filling: then
the bytes of its pulls that did not fail are in the window. -/
theorem failures_harmless {limits : Limits} (valid : limits.Valid) (lineEnding : LineEnding)
    (label : String) (source : σ) :
    ∃ fresh, start limits lineEnding label source = .ok fresh ∧ ∀ ops op,
      let s := (fresh.play ops).2
      (s.step op).1.isFault = true →
        ∃ bytes, (op.isFill = false → bytes = []) ∧ Unharmed s (s.step op).2 bytes := by
  refine ⟨_, start_ok valid lineEnding label source, fun ops op => ?_⟩
  intro s hfault
  have hpinned : Pinned s := play_induction (P := Pinned) pinned_step ops
    (pinned_ofLimits limits lineEnding label source)
  obtain ⟨bytes, hnone, hbrings⟩ := brings_step hpinned hfault
  exact ⟨bytes, hnone, hbrings.unharmed⟩

/-- A request that does not fit behind the cursor brings nothing; a filling gets one of the bytes it
lacks before the source fails. -/
theorem failures_harmless_of_script :
    let ops : List Op := [.ensure 2, .consume 1]
    (⟨6, 2⟩ : Limits).Valid ∧
      ∃ fresh, start ⟨6, 2⟩ .lf "input"
          (⟨[.data [97, 98], .data [99], .failure "later", .data [100]]⟩ : Script) = .ok fresh ∧
        let s := (fresh.play ops).2
        (s.step (.ensure 8)).1 = .failed (.overflow 8 8) ∧ Unharmed s (s.step (.ensure 8)).2 [] ∧
          (s.step (.fill 6)).1 = .failed (.source ⟨"later"⟩) ∧
          Unharmed s (s.step (.fill 6)).2 [99] := by
  intro ops
  have hvalid : (⟨6, 2⟩ : Limits).Valid := by decide
  obtain ⟨fresh, hstart, hharmless⟩ := failures_harmless hvalid .lf "input"
    (⟨[.data [97, 98], .data [99], .failure "later", .data [100]]⟩ : Script)
  obtain rfl := Except.ok.inj ((start_ok hvalid .lf "input" _).symm.trans hstart)
  refine ⟨hvalid, _, hstart, ?_⟩
  intro s
  have hrefused : (s.step (.ensure 8)).1 = .failed (.overflow 8 8) := by decide +kernel
  have hfailed : (s.step (.fill 6)).1 = .failed (.source ⟨"later"⟩) := by decide +kernel
  have hbefore : s.buffer.window = [98] := by decide +kernel
  have hafter : (s.step (.fill 6)).2.buffer.window = [98, 99] := by decide +kernel
  obtain ⟨none, hnone, hunharmed⟩ := hharmless ops (.ensure 8) (by rw [hrefused]; rfl)
  obtain rfl := hnone rfl
  obtain ⟨bytes, -, hunharmed'⟩ := hharmless ops (.fill 6) (by rw [hfailed]; rfl)
  have hwindow := hunharmed'.window_eq
  rw [hafter, hbefore] at hwindow
  obtain rfl : bytes = [99] := (List.cons.inj hwindow).2.symm
  exact ⟨hrefused, hunharmed, hfailed, hunharmed'⟩

end Session

end Lookahead
