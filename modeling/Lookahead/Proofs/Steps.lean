import Lookahead.Effect
import Lookahead.Session.Run

/-!
# What a step does to a session

Every operation of a session is one of three things: it works within the open frames, opens a frame,
or closes the innermost one. Within the frames the buffer changes in three ways only, alone or one
after the other: pulls put bytes behind the window (`Draws`), the cursor moves within the retained
bytes, and compaction drops bytes from the front. `transition_step` says so once; what holds along
every run is proved from it, case by case, without opening an operation again.
-/

namespace Lookahead

variable {σ : Type}

namespace Buffer

/-! ## Pulls -/

/-- The second buffer is the first after some pulls, those that failed included: the bytes now
behind the window are those that the source handed over in between. -/
def Draws (b c : Buffer (Recorded σ)) : Prop :=
  ∃ bytes, Extends b c bytes ∧ c.source.delivered = b.source.delivered ++ bytes

theorem Draws.of_same_source {b c : Buffer (Recorded σ)} (h : Extends b c [])
    (hsource : c.source = b.source) : Draws b c :=
  ⟨[], h, by rw [hsource, List.append_nil]⟩

theorem Draws.refl (b : Buffer (Recorded σ)) : Draws b b :=
  .of_same_source (.refl b) rfl

theorem Draws.trans {b c d : Buffer (Recorded σ)} (h : Draws b c) (h' : Draws c d) : Draws b d := by
  obtain ⟨bytes, hbytes, hsource⟩ := h
  obtain ⟨more, hmore, hsource'⟩ := h'
  exact ⟨bytes ++ more, hbytes.trans hmore, by rw [hsource', hsource, List.append_assoc]⟩

variable [ByteSource σ]

theorem draws_pull (amount : Nat) (b : Buffer (Recorded σ)) :
    Draws b (stateOf (pull amount b)) := by
  have hdelivered := b.source.delivered_pull (b.want amount)
  cases h : pull amount b with
  | ok received c =>
      unfold pull at h
      obtain ⟨-, hextends, hsource, -⟩ := settle_ok h
      exact ⟨_, hextends, by rw [stateOf_ok, hsource, hdelivered]⟩
  | error error c =>
      unfold pull at h
      obtain ⟨-, hnone, hextends, hsource, -⟩ := settle_error h
      rw [hnone] at hdelivered
      exact ⟨[], hextends, by rw [stateOf_error, hsource, hdelivered]⟩

theorem draws_request (amount : Nat) (b : Buffer (Recorded σ)) :
    Draws b (stateOf (request amount b)) := by
  unfold request
  split
  · exact .refl b
  · split
    · have hnoted : Extends b (b.note (.overflow amount b.capacity b.offset)) [] :=
        { Extends.refl b with }
      exact .of_same_source hnoted rfl
    · exact draws_pull amount b

theorem stateOf_ensure (amount : Nat) (b : Buffer σ) :
    stateOf (ensure amount b) = stateOf (request amount b) := by
  unfold ensure
  rw [bind_apply]
  cases request amount b <;> rfl

theorem draws_ensure (amount : Nat) (b : Buffer (Recorded σ)) :
    Draws b (stateOf (ensure amount b)) := by
  rw [stateOf_ensure]
  exact draws_request amount b

theorem draws_countAhead (amount : Nat) (b : Buffer (Recorded σ)) :
    Draws b (stateOf (countAhead amount b)) := by
  unfold countAhead
  rw [stateOf_bind_get]
  exact draws_ensure amount b

theorem draws_lookAhead (amount : Nat) (b : Buffer (Recorded σ)) :
    Draws b (stateOf (lookAhead amount b)) := by
  unfold lookAhead
  rw [stateOf_bind_get]
  exact draws_ensure amount b

theorem draws_isAtEnd (b : Buffer (Recorded σ)) : Draws b (stateOf (isAtEnd b)) := by
  unfold isAtEnd
  rw [stateOf_bind_get]
  exact draws_ensure 1 b

theorem draws_fill (amount : Nat) (b : Buffer (Recorded σ)) :
    Draws b (stateOf (fill amount b)) := by
  fun_induction fill amount b with
  | case1 b _ error c h =>
      have hstep := draws_request amount b
      rwa [h] at hstep
  | case2 b _ c h =>
      have hstep := draws_request amount b
      rwa [h] at hstep
  | case3 b _ received c h ih =>
      have hstep := draws_request amount b
      rw [h] at hstep
      exact hstep.trans ih
  | case4 b _ => exact .refl b

/-! ## All that happens within the frames -/

omit [ByteSource σ] in
/-- The first buffer turns into the second by operations that open and close no guard. -/
inductive Evolves : Buffer (Recorded σ) → Buffer (Recorded σ) → Prop where
  | draws {b c : Buffer (Recorded σ)} (h : Draws b c) : Evolves b c
  | moves {b c : Buffer (Recorded σ)} (h : Moves b c) : Evolves b c
  | discards (b : Buffer (Recorded σ)) : Evolves b b.discard
  | trans {b c d : Buffer (Recorded σ)} (h : Evolves b c) (h' : Evolves c d) : Evolves b d

namespace Evolves

variable {b c : Buffer (Recorded σ)}

omit [ByteSource σ]

theorem refl (b : Buffer (Recorded σ)) : Evolves b b :=
  .draws (.refl b)

theorem limits_eq (h : Evolves b c) : c.limits = b.limits := by
  induction h with
  | draws hdraws =>
      obtain ⟨bytes, hextends, -⟩ := hdraws
      exact hextends.limits_eq
  | moves hmoves => exact hmoves.limits_eq
  | discards b => exact b.drops_discard.limits_eq
  | trans _ _ ih ih' => exact ih'.trans ih

theorem lineEnding_eq (h : Evolves b c) : c.lineEnding = b.lineEnding := by
  induction h with
  | draws hdraws =>
      obtain ⟨bytes, hextends, -⟩ := hdraws
      exact hextends.lineEnding_eq
  | moves hmoves => exact hmoves.lineEnding_eq
  | discards b => exact b.drops_discard.lineEnding_eq
  | trans _ _ ih ih' => exact ih'.trans ih

theorem pin_eq (h : Evolves b c) : c.pin = b.pin := by
  induction h with
  | draws hdraws =>
      obtain ⟨bytes, hextends, -⟩ := hdraws
      exact hextends.pin_eq
  | moves hmoves => exact hmoves.pin_eq
  | discards b => exact b.drops_discard.pin_eq
  | trans _ _ ih ih' => exact ih'.trans ih

theorem delivered_prefix (h : Evolves b c) : b.source.delivered <+: c.source.delivered := by
  induction h with
  | draws hdraws =>
      obtain ⟨bytes, -, hdelivered⟩ := hdraws
      rw [hdelivered]
      exact List.prefix_append _ _
  | moves hmoves => exact hmoves.source_eq ▸ List.prefix_rfl
  | discards b => exact b.drops_discard.source_eq ▸ List.prefix_rfl
  | trans _ _ ih ih' => exact ih.trans ih'

end Evolves

theorem evolves_consumeLineEnding (b : Buffer (Recorded σ)) :
    Evolves b (stateOf (consumeLineEnding b)) := by
  have hdraws := draws_request b.lineEnding.maxWidth b
  rw [consumeLineEnding_eq]
  cases hrequest : request b.lineEnding.maxWidth b with
  | error error c =>
      rw [hrequest] at hdraws
      exact .draws hdraws
  | ok received c =>
      rw [hrequest] at hdraws
      exact .trans (.draws hdraws) (.moves (moves_passLineEnding c))

end Buffer

namespace Guard

/-! ## Guards -/

/-- Opening and closing a guard sets the pin and at most moves the cursor. -/
theorem moves_begin (mode : Mode) (b : Buffer σ) :
    Buffer.Moves { b with pin := (begin mode b).2.pin } (begin mode b).2 := by
  cases mode with
  | active => exact .refl _
  | inactive => exact .refl _

theorem moves_commit (guard : Guard) (b : Buffer σ) :
    Buffer.Moves { b with pin := (guard.commit b).pin } (guard.commit b) := by
  unfold commit
  split
  · exact .refl _
  · exact .refl _

theorem moves_rollBack (guard : Guard) (b : Buffer σ) :
    Buffer.Moves { b with pin := (stateOf (guard.rollBack b)).pin }
      (stateOf (guard.rollBack b)) := by
  unfold rollBack
  split
  · exact .refl _
  · split
    · exact ⟨rfl, rfl, rfl, rfl, rfl, rfl, rfl, rfl⟩
    · exact .refl _

end Guard

namespace Session

open Buffer

/-! ## Steps by their effect on the frames -/

def Frame.held : Frame → Guard
  | .guard g => g
  | .attempt g => g

/-- The mode of the frame that an operation opens. -/
def Op.opens : Op → Option Guard.Mode
  | .openGuard mode => some mode
  | .openAttempt => some .active
  | _ => none

def Op.closes : Op → Option Close
  | .close how => some how
  | _ => none

theorem Op.eq_close {op : Op} {how : Close} (h : op.closes = some how) : op = .close how := by
  cases op with
  | close how' =>
      cases h
      rfl
  | _ => cases h

/-- Whether an operation failed or was misused. -/
def Answer.isFault : Answer → Bool
  | .failed _ | .misused _ => true
  | _ => false

/-- Whether a frame closed this way keeps what was consumed under it. -/
def Close.keeps : Close → Bool
  | .commit => true
  | .finish success => success
  | .error | .unwind | .drop => false

theorem perform_session {ε α : Type} (operation : EStateM ε (Buffer (Recorded σ)) α)
    (onValue : α → Answer) (onFailure : ε → Answer) (s : Session σ) :
    (s.perform operation onValue onFailure).2
      = { s with buffer := stateOf (operation s.buffer) } := by
  unfold perform
  cases operation s.buffer <;> rfl

/-- The second session is the first after an operation within its frames. -/
structure Works (s t : Session σ) : Prop where
  frames_eq : t.frames = s.frames
  evolves : Evolves s.buffer t.buffer

theorem Works.refl (s : Session σ) : Works s s :=
  ⟨rfl, .refl s.buffer⟩

theorem works_perform {ε α : Type} {operation : EStateM ε (Buffer (Recorded σ)) α}
    (onValue : α → Answer) (onFailure : ε → Answer) {s : Session σ}
    (h : Evolves s.buffer (stateOf (operation s.buffer))) :
    Works s (s.perform operation onValue onFailure).2 := by
  rw [perform_session]
  exact ⟨rfl, h⟩

/-- Taking a span leaves the session to what is done with the span, if there is one. -/
theorem withSpan_cases {P : Session σ → Prop} (target : Target) {next : Span → Answer × Session σ}
    {s : Session σ} (h : ∀ span, P (next span).2) (hs : P s) : P (s.withSpan target next).2 := by
  unfold withSpan
  split
  · exact h _
  · exact hs

theorem works_step [ByteSource σ] {op : Op} (hopens : op.opens = none) (hcloses : op.closes = none)
    (s : Session σ) : Works s (s.step op).2 := by
  cases op with
  | ensure amount => exact works_perform _ _ (.draws (draws_ensure amount _))
  | fill amount => exact works_perform _ _ (.draws (draws_fill amount _))
  | countAhead amount => exact works_perform _ _ (.draws (draws_countAhead amount _))
  | isAtEnd => exact works_perform _ _ (.draws (draws_isAtEnd _))
  | lookAhead amount => exact works_perform _ _ (.draws (draws_lookAhead amount _))
  | consume count => exact works_perform _ _ (.moves (moves_consume count _))
  | consumeInLine count => exact works_perform _ _ (.moves (moves_consumeInLine count _))
  | consumeToNextLine count => exact works_perform _ _ (.moves (moves_consumeToNextLine count _))
  | consumeLineEnding => exact works_perform _ _ (evolves_consumeLineEnding _)
  | discard => exact ⟨rfl, .discards s.buffer⟩
  | restore target => exact works_perform _ _ (.moves (moves_restore _ _))
  | save slot => exact ⟨rfl, .refl s.buffer⟩
  | span target => exact withSpan_cases target (fun _ => .refl s) (.refl s)
  | decode target decoding =>
      refine withSpan_cases target (fun span => ?_) (.refl s)
      cases decoding with
      | error misuse => exact .refl s
      | ok decoding => exact ⟨rfl, .refl s.buffer⟩
  | openGuard mode => cases hopens
  | openAttempt => cases hopens
  | close how => cases hcloses
  | window | peek index | position | positionAt target | label | describe => exact .refl s

theorem enter_session [ByteSource σ] {op : Op} {mode : Guard.Mode} (hopens : op.opens = some mode)
    (s : Session σ) :
    ∃ frame : Frame, frame.held = (Guard.begin mode s.buffer).1 ∧
      (s.step op).2 = { s with
        buffer := (Guard.begin mode s.buffer).2
        frames := frame :: s.frames } := by
  cases op with
  | openGuard opened =>
      cases hopens
      exact ⟨.guard _, rfl, rfl⟩
  | openAttempt =>
      cases hopens
      exact ⟨.attempt _, rfl, rfl⟩
  | _ => cases hopens

/-- The innermost frame is closed by a commit or a roll-back of its guard, whichever kind of frame
it is and however it is closed. -/
theorem leave_session (how : Close) {s : Session σ} {frame : Frame} {frames : List Frame}
    (h : s.frames = frame :: frames) :
    (s.leave how).2 =
      if how.keeps then { s with frames, buffer := frame.held.commit s.buffer }
      else { s with frames, buffer := stateOf (frame.held.rollBack s.buffer) } := by
  unfold leave
  rw [h]
  cases frame with
  | guard guard =>
      cases how with
      | finish success => cases success <;> first | rfl | exact perform_session ..
      | commit => rfl
      | error | unwind | drop => exact perform_session ..
  | attempt guard =>
      cases how with
      | finish success => cases success <;> first | rfl | exact perform_session ..
      | commit => rfl
      | error | unwind | drop => exact perform_session ..

/-- A frame is closed with a word or a flag, unless its guard cannot go back. -/
theorem leave_answer {P : Answer → Prop} (how : Close) (s : Session σ)
    (text : ∀ word, P (.text word)) (flag : ∀ value, P (.flag value))
    (lost : ∀ frame frames misuse b, s.frames = frame :: frames →
      frame.held.rollBack s.buffer = .error misuse b → P (.misused misuse)) :
    P (s.leave how).1 := by
  cases hframes : s.frames with
  | nil =>
      unfold leave
      rw [hframes]
      exact text _
  | cons frame frames =>
      have hundo : ∀ {answer : Answer}, P answer →
          P (undo frame.held answer { s with frames }).1 := by
        intro answer hanswer
        unfold undo perform
        cases hrollBack : frame.held.rollBack s.buffer with
        | ok _ b => exact hanswer
        | error misuse b => exact lost frame frames misuse b hframes hrollBack
      unfold leave
      rw [hframes]
      cases frame with
      | guard guard =>
          cases how with
          | commit => exact text _
          | finish success =>
              cases success with
              | true => exact flag _
              | false => exact hundo (flag _)
          | error | unwind | drop => exact hundo (text _)
      | attempt guard =>
          cases how with
          | commit => exact flag _
          | finish success =>
              cases success with
              | true => exact flag _
              | false => exact hundo (flag _)
          | error | unwind => exact hundo (text _)
          | drop => exact hundo (flag _)

/-- What one operation can do to a session, but for its answer, saved marks and output. -/
inductive Transition (s t : Session σ) : Prop where
  | works (h : Works s t)
  | opens (mode : Guard.Mode) (frame : Frame) (held_eq : frame.held = (Guard.begin mode s.buffer).1)
      (frames_eq : t.frames = frame :: s.frames)
      (buffer_eq : t.buffer = (Guard.begin mode s.buffer).2)
  | keeps (frame : Frame) (frames_eq : s.frames = frame :: t.frames)
      (buffer_eq : t.buffer = frame.held.commit s.buffer)
  | undoes (frame : Frame) (frames_eq : s.frames = frame :: t.frames)
      (buffer_eq : t.buffer = stateOf (frame.held.rollBack s.buffer))

theorem transition_leave (how : Close) (s : Session σ) : Transition s (s.leave how).2 := by
  cases hframes : s.frames with
  | nil =>
      unfold leave
      rw [hframes]
      exact .works (.refl s)
  | cons frame frames =>
      rw [leave_session how hframes]
      cases how.keeps with
      | true => exact .keeps frame hframes rfl
      | false => exact .undoes frame hframes rfl

/-- Each operation works within the frames, opens one, or closes the innermost. -/
theorem transition_step [ByteSource σ] (op : Op) (s : Session σ) : Transition s (s.step op).2 := by
  cases hopens : op.opens with
  | some mode =>
      obtain ⟨frame, hheld, hsession⟩ := enter_session hopens s
      rw [hsession]
      exact .opens mode frame hheld rfl rfl
  | none =>
      cases op with
      | close how => exact transition_leave how s
      | _ => exact .works (works_step hopens rfl s)

theorem Transition.evolves_or_moves {s t : Session σ} (h : Transition s t) :
    Evolves s.buffer t.buffer ∨ Moves { s.buffer with pin := t.buffer.pin } t.buffer := by
  cases h with
  | works hworks => exact .inl hworks.evolves
  | opens mode frame _ _ hbuffer =>
      rw [hbuffer]
      exact .inr (Guard.moves_begin mode s.buffer)
  | keeps frame _ hbuffer =>
      rw [hbuffer]
      exact .inr (frame.held.moves_commit s.buffer)
  | undoes frame _ hbuffer =>
      rw [hbuffer]
      exact .inr (frame.held.moves_rollBack s.buffer)

theorem limits_step [ByteSource σ] (op : Op) (s : Session σ) :
    (s.step op).2.buffer.limits = s.buffer.limits := by
  rcases (transition_step op s).evolves_or_moves with hevolves | hmoves
  · exact hevolves.limits_eq
  · exact hmoves.limits_eq

theorem lineEnding_step [ByteSource σ] (op : Op) (s : Session σ) :
    (s.step op).2.buffer.lineEnding = s.buffer.lineEnding := by
  rcases (transition_step op s).evolves_or_moves with hevolves | hmoves
  · exact hevolves.lineEnding_eq
  · exact hmoves.lineEnding_eq

/-! ## What every step preserves -/

/-- Closing a frame sets the pin and at most moves the cursor. -/
theorem moves_leave (how : Close) (s : Session σ) :
    Moves { s.buffer with pin := (s.leave how).2.buffer.pin } (s.leave how).2.buffer := by
  cases hframes : s.frames with
  | nil =>
      unfold leave
      rw [hframes]
      exact .refl _
  | cons frame frames =>
      rw [leave_session how hframes]
      cases how.keeps with
      | true => exact frame.held.moves_commit s.buffer
      | false => exact frame.held.moves_rollBack s.buffer

/-- A property of buffers that survives whatever an operation can do to one: a request, met or
refused; a move of the cursor, the pin changed or not; compaction. -/
structure Lasting [ByteSource σ] (P : Buffer (Recorded σ) → Prop) : Prop where
  request (amount : Nat) {b : Buffer (Recorded σ)} (h : P b) : P (stateOf (request amount b))
  moves {b c : Buffer (Recorded σ)} (h : P b) (hmoves : Moves { b with pin := c.pin } c) : P c
  discard {b : Buffer (Recorded σ)} (h : P b) : P b.discard

namespace Lasting

variable [ByteSource σ] {P : Buffer (Recorded σ) → Prop}

theorem ensure (hP : Lasting P) (amount : Nat) {b : Buffer (Recorded σ)} (h : P b) :
    P (stateOf (Buffer.ensure amount b)) := by
  rw [stateOf_ensure]
  exact hP.request amount h

theorem fill (hP : Lasting P) (amount : Nat) {b : Buffer (Recorded σ)} (h : P b) :
    P (stateOf (Buffer.fill amount b)) := by
  fun_induction Buffer.fill amount b with
  | case1 b _ error c hrequest =>
      have hstep := hP.request amount h
      rwa [hrequest] at hstep
  | case2 b _ c hrequest =>
      have hstep := hP.request amount h
      rwa [hrequest] at hstep
  | case3 b _ received c hrequest ih =>
      have hstep := hP.request amount h
      rw [hrequest] at hstep
      exact ih hstep
  | case4 b _ => exact h

/-- The cursor alone is moved, and the pin left. -/
theorem moved (hP : Lasting P) {b c : Buffer (Recorded σ)} (h : P b) (hmoves : Moves b c) : P c :=
  hP.moves h (by rw [hmoves.pin_eq]; exact hmoves)

theorem consumeLineEnding (hP : Lasting P) {b : Buffer (Recorded σ)} (h : P b) :
    P (stateOf (Buffer.consumeLineEnding b)) := by
  have hpulled := hP.request b.lineEnding.maxWidth h
  rw [consumeLineEnding_eq]
  cases hrequest : Buffer.request b.lineEnding.maxWidth b with
  | error error c =>
      rw [hrequest] at hpulled
      exact hpulled
  | ok received c =>
      rw [hrequest] at hpulled
      exact hP.moved hpulled (moves_passLineEnding c)

omit [ByteSource σ] in
theorem perform {ε α : Type} {operation : EStateM ε (Buffer (Recorded σ)) α}
    (onValue : α → Answer) (onFailure : ε → Answer) {s : Session σ}
    (h : P (stateOf (operation s.buffer))) :
    P (s.perform operation onValue onFailure).2.buffer := by
  rw [perform_session]
  exact h

theorem step (hP : Lasting P) (op : Op) (s : Session σ) (h : P s.buffer) :
    P (s.step op).2.buffer := by
  cases op with
  | ensure amount => exact perform _ _ (hP.ensure amount h)
  | fill amount => exact perform _ _ (hP.fill amount h)
  | countAhead amount =>
      refine perform _ _ ?_
      unfold countAhead
      rw [stateOf_bind_get]
      exact hP.ensure amount h
  | lookAhead amount =>
      refine perform _ _ ?_
      unfold lookAhead
      rw [stateOf_bind_get]
      exact hP.ensure amount h
  | isAtEnd =>
      refine perform _ _ ?_
      unfold isAtEnd
      rw [stateOf_bind_get]
      exact hP.ensure 1 h
  | consume count => exact perform _ _ (hP.moved h (moves_consume count _))
  | consumeInLine count => exact perform _ _ (hP.moved h (moves_consumeInLine count _))
  | consumeToNextLine count => exact perform _ _ (hP.moved h (moves_consumeToNextLine count _))
  | consumeLineEnding => exact perform _ _ (hP.consumeLineEnding h)
  | discard => exact hP.discard h
  | restore target => exact perform _ _ (hP.moved h (moves_restore _ _))
  | span target => exact withSpan_cases (P := fun t => P t.buffer) target (fun _ => h) h
  | decode target decoding =>
      refine withSpan_cases (P := fun t => P t.buffer) target (fun span => ?_) h
      cases decoding <;> exact h
  | openGuard mode => exact hP.moves h (Guard.moves_begin mode s.buffer)
  | openAttempt => exact hP.moves h (Guard.moves_begin .active s.buffer)
  | close how => exact hP.moves h (moves_leave how s)
  | save slot | window | peek index | position | positionAt target | label | describe => exact h

end Lasting

/-! ## Runs -/

/-- What every operation preserves holds after any run. -/
theorem play_induction [ByteSource σ] {P : Session σ → Prop}
    (step : ∀ op s, P s → P (s.step op).2) (ops : List Op) {s : Session σ} (h : P s) :
    P (s.play ops).2 := by
  induction ops generalizing s with
  | nil => exact h
  | cons op ops ih => exact ih (step op s h)

theorem play_append [ByteSource σ] (first second : List Op) (s : Session σ) :
    (s.play (first ++ second)).2 = ((s.play first).2.play second).2 := by
  induction first generalizing s with
  | nil => rfl
  | cons op first ih => exact ih (s.step op).2

theorem start_ok {limits : Limits} (valid : limits.Valid) (lineEnding : LineEnding) (label : String)
    (source : σ) :
    start limits lineEnding label source
      = .ok { buffer := ofLimits limits lineEnding label ⟨source, #[]⟩ } := by
  unfold start
  rw [start_of_valid valid]
  rfl

end Session

end Lookahead
