import Lookahead.Proofs.Steps

/-!
# The free space is never looked at

Behind the retained bytes an arena holds whatever came there: noughts, bytes that compaction moved
away, what a source wrote and did not hand over. Two buffers that differ in that alone are `Twins`.
Every operation answers the same from twins and leaves twins, since it reads the arena through the
retained bytes and through nothing else. One rule for each building block carries that from the
parts of an operation to the whole, and a run is one operation after the other: no report tells
twins apart.
-/

namespace Lookahead

variable {σ : Type} {ε α β : Type}

namespace Buffer

/-- The two buffers are the same but for what is behind their retained bytes. -/
structure Twins (b c : Buffer σ) : Prop extends Moves b c where
  cursor_eq : c.cursor = b.cursor

variable {b c b' c' : Buffer σ} {place : Place}

namespace Twins

/-! ## What twins show -/

theorem offset_eq (h : Twins b c) : c.offset = b.offset :=
  congrArg Mark.offset h.cursor_eq

theorem place_eq (h : Twins b c) : c.place = b.place :=
  congrArg Mark.toPlace h.cursor_eq

theorem capacity_eq (h : Twins b c) : c.capacity = b.capacity := by
  rw [c.capacity_eq, b.capacity_eq, h.limits_eq]

theorem free_eq (h : Twins b c) : c.free = b.free := by
  rw [free, h.capacity_eq, h.filled_eq, ← free]

theorem window_eq (h : Twins b c) : c.window = b.window := by
  rw [Buffer.window_eq, h.retained_eq, h.offset_eq, ← Buffer.window_eq]

theorem occupied_eq (h : Twins b c) : c.occupied = b.occupied := by
  rw [occupied, h.filled_eq, h.offset_eq, ← occupied]

theorem front_eq (h : Twins b c) (count : Nat) : c.front count = b.front count := by
  rw [Buffer.front_eq, h.window_eq, ← Buffer.front_eq]

theorem peek_eq (h : Twins b c) (index : Nat) : c.peek index = b.peek index := by
  rw [Buffer.peek_eq, h.window_eq, ← Buffer.peek_eq]

theorem position_eq (h : Twins b c) : c.position = b.position := by
  rw [position, h.place_eq, h.label_eq, ← position]

theorem describe_eq (h : Twins b c) : c.describe = b.describe := by
  unfold describe mark
  rw [h.label_eq, h.cursor_eq, h.filled_eq, h.capacity_eq, h.pin_eq]

theorem holds_iff (h : Twins b c) : c.Holds place ↔ b.Holds place := by
  unfold Holds
  rw [h.base_eq, h.stop_eq]

theorem span_eq (h : Twins b c) (place : Place) : c.span place = b.span place := by
  unfold span
  rw [slice_consumed, slice_consumed, h.retained_eq, h.offset_eq, h.base_eq, h.place_eq, h.label_eq]
  simp only [h.holds_iff]

/-! ## Changes made to both -/

theorem note (h : Twins b c) (event : Event) : Twins (b.note event) (c.note event) where
  toMoves := { h.toMoves with log_eq := congrArg (fun log => log.push event) h.log_eq }
  cursor_eq := h.cursor_eq

theorem with_pin (h : Twins b c) (pin : Option Nat) : Twins { b with pin } { c with pin } where
  toMoves := { h.toMoves with pin_eq := rfl }
  cursor_eq := h.cursor_eq

theorem moveTo (h : Twins b c) {base_le : b.base ≤ place.byte} {le_stop : place.byte ≤ b.stop}
    {base_le' : c.base ≤ place.byte} {le_stop' : place.byte ≤ c.stop} :
    Twins (b.moveTo place base_le le_stop) (c.moveTo place base_le' le_stop') where
  toMoves := { h.toMoves with }
  cursor_eq := by
    show (⟨place, place.byte - c.base⟩ : Mark) = ⟨place, place.byte - b.base⟩
    rw [h.base_eq]

theorem stepTo (h : Twins b c) {place' : Place} {count count' : Nat} (hplace : place' = place)
    {at_count : place.byte = b.place.byte + count} {within : count ≤ b.occupied}
    {at_count' : place'.byte = c.place.byte + count'} {within' : count' ≤ c.occupied} :
    Twins (b.stepTo place count at_count within) (c.stepTo place' count' at_count' within') := by
  subst hplace
  exact h.moveTo

theorem absorb (h : Twins b c) (source : σ) {written : List UInt8} {count : Nat}
    (fits : count ≤ b.free) (fits' : count ≤ c.free) (hroom : written.length ≤ b.free)
    (hcount : count ≤ written.length) :
    Twins (b.absorb source written count fits) (c.absorb source written count fits') where
  toMoves := { h.toMoves with
    source_eq := rfl
    retained_eq := by
      rw [c.retained_absorb source fits' (h.free_eq.symm ▸ hroom) hcount,
        b.retained_absorb source fits hroom hcount, h.retained_eq] }
  cursor_eq := h.cursor_eq

theorem dropFront (h : Twins b c) {count count' : Nat} (hcount : count' = count)
    (consumed : count ≤ b.offset) (consumed' : count' ≤ c.offset) :
    Twins (b.dropFront count consumed) (c.dropFront count' consumed') := by
  subst hcount
  have hleft := b.drops_dropFront consumed
  have hright := c.drops_dropFront consumed'
  constructor
  · exact { h.toMoves with
      base_eq := congrArg (· + count') h.base_eq
      retained_eq := by rw [hright.retained_eq, hleft.retained_eq, h.retained_eq] }
  · show ({ c.cursor with offset := c.offset - count' } : Mark)
      = { b.cursor with offset := b.offset - count' }
    rw [h.cursor_eq, h.offset_eq]

theorem droppable_eq (h : Twins b c) : c.droppable = b.droppable := by
  unfold droppable
  rw [h.pin_eq, h.base_eq, h.offset_eq]

theorem discard (h : Twins b c) : Twins b.discard c.discard := by
  unfold Buffer.discard
  rw [h.limits_eq]
  by_cases hchunk : b.limits.chunk < b.droppable
  · have hchunk' : b.limits.chunk < c.droppable := by
      rw [h.droppable_eq]
      exact hchunk
    have hdropped := h.dropFront h.droppable_eq b.droppable_le_offset c.droppable_le_offset
    have hevent : Event.compacted c.droppable (c.dropFront c.droppable c.droppable_le_offset).filled
        = .compacted b.droppable (b.dropFront b.droppable b.droppable_le_offset).filled := by
      rw [hdropped.filled_eq, h.droppable_eq]
    rw [if_pos hchunk, if_pos hchunk']
    simp only
    rw [hevent]
    exact hdropped.note _
  · have hchunk' : ¬b.limits.chunk < c.droppable := by
      rw [h.droppable_eq]
      exact hchunk
    rw [if_neg hchunk, if_neg hchunk', h.droppable_eq, h.offset_eq]
    split
    · exact h.note _
    · exact h

end Twins

/-! ## Operations that cannot tell twins apart -/

/-- Two results answer or fail the same, and leave twins. -/
inductive Echo : EStateM.Result ε (Buffer σ) α → EStateM.Result ε (Buffer σ) α → Prop where
  | ok {a : α} {b c : Buffer σ} (twins : Twins b c) : Echo (.ok a b) (.ok a c)
  | error {failure : ε} {b c : Buffer σ} (twins : Twins b c) :
      Echo (.error failure b) (.error failure c)

/-- From twins the operation ends in the same way. -/
def Blind (operation : EStateM ε (Buffer σ) α) : Prop :=
  ∀ b c, Twins b c → Echo (operation b) (operation c)

namespace Blind

theorem bind {first : EStateM ε (Buffer σ) α} {next : α → EStateM ε (Buffer σ) β}
    (hfirst : Blind first) (hnext : ∀ a, Blind (next a)) : Blind (first >>= next) := by
  intro b c h
  have hecho := hfirst b c h
  rw [bind_apply, bind_apply]
  generalize first b = result at hecho ⊢
  generalize first c = result' at hecho ⊢
  cases hecho with
  | ok twins => exact hnext _ _ _ twins
  | error twins => exact .error twins

/-- Reading something off a buffer that twins agree on. -/
theorem reading {read : Buffer σ → α} (hread : ∀ {b c}, Twins b c → read c = read b) :
    Blind (ε := ε) (get >>= fun b => pure (read b)) := by
  intro b c h
  show Echo (.ok (read b) b) (.ok (read c) c)
  rw [hread h]
  exact .ok h

theorem pure (a : α) : Blind (ε := ε) (σ := σ) (Pure.pure a) :=
  fun _ _ h => .ok h

end Blind

/-! ## Consuming and going back -/

theorem blind_consume (count : Nat) : Blind (σ := σ) (consume count) := by
  intro b c h
  have hoccupied := h.occupied_eq
  unfold consume
  by_cases within : count ≤ b.occupied
  · rw [dif_pos within, dif_pos (by omega)]
    exact .ok (h.stepTo (by rw [h.place_eq, h.lineEnding_eq, h.front_eq]))
  · rw [dif_neg within, dif_neg (by omega)]
    exact .error h

theorem blind_consumeInLine (count : Nat) : Blind (σ := σ) (consumeInLine count) := by
  intro b c h
  have hoccupied := h.occupied_eq
  unfold consumeInLine
  rw [h.front_eq, h.lineEnding_eq]
  by_cases within : count ≤ b.occupied
  · rw [dif_pos within, dif_pos (by omega)]
    split
    · exact .error h
    · exact .ok (h.stepTo (by rw [h.place_eq]))
  · rw [dif_neg within, dif_neg (by omega)]
    exact .error h

theorem blind_consumeToNextLine (count : Nat) : Blind (σ := σ) (consumeToNextLine count) := by
  intro b c h
  have hoccupied := h.occupied_eq
  unfold consumeToNextLine
  by_cases within : count ≤ b.occupied
  · rw [dif_pos within, dif_pos (by omega)]
    exact .ok (h.stepTo (by rw [h.place_eq]))
  · rw [dif_neg within, dif_neg (by omega)]
    exact .error h

theorem blind_passLineEnding : Blind (σ := σ) passLineEnding := by
  intro b c h
  have hmatch : c.lineEnding.match? (c.front c.lineEnding.maxWidth)
      = b.lineEnding.match? (b.front b.lineEnding.maxWidth) := by
    rw [h.lineEnding_eq, h.front_eq]
  unfold passLineEnding
  split
  · rename_i hnone
    split
    · exact .ok h
    · rename_i hsome
      cases hsome.symm.trans (hmatch.trans hnone)
  · rename_i width hsome
    split
    · rename_i hnone
      cases hnone.symm.trans (hmatch.trans hsome)
    · rename_i width' hsome'
      obtain rfl : width' = width := Option.some.inj (hsome'.symm.trans (hmatch.trans hsome))
      exact .ok (h.stepTo (by rw [h.place_eq]))

theorem blind_restore (place : Place) : Blind (σ := σ) (restore place) := by
  intro b c h
  unfold restore
  by_cases held : b.Holds place
  · rw [dif_pos held, dif_pos (h.holds_iff.mpr held)]
    exact .ok h.moveTo
  · rw [dif_neg held, dif_neg (mt h.holds_iff.mp held), h.base_eq]
    exact .error h

/-! ## Requests -/

/-- A pull, for whatever room it is made. -/
theorem pull_eq [ByteSource σ] {amount room : Nat} (hroom : b.want amount = room)
    (within : room ≤ b.free) :
    pull amount b = b.settle within (ByteSource.pull b.source room).1
      (ByteSource.pull b.source room).2 (ByteSource.residue b.source room) := by
  subst hroom
  rfl

theorem echo_settle (h : Twins b c) {room : Nat} (within : room ≤ b.free) (within' : room ≤ c.free)
    (reply : Reply room) (source : σ) (residue : List UInt8) :
    Echo (b.settle within reply source residue) (c.settle within' reply source residue) := by
  have hroom := Nat.le_trans (reply.written_length_le residue) within
  cases reply with
  | failed error => exact .error (h.absorb source _ _ hroom (Nat.zero_le _))
  | overrun count exceeds => exact .error (h.absorb source _ _ hroom (Nat.zero_le _))
  | delivered bytes fits =>
      have habsorbed := h.absorb source (Nat.le_trans fits within) (Nat.le_trans fits within') hroom
        (Reply.bytes_length_le_written (.delivered bytes fits) residue)
      simp only [settle]
      rw [habsorbed.filled_eq]
      exact .ok (habsorbed.note _)

variable [ByteSource σ]

theorem blind_request (amount : Nat) : Blind (σ := σ) (request amount) := by
  intro b c h
  unfold request
  rw [h.occupied_eq, h.capacity_eq, h.offset_eq]
  split
  · exact .ok h
  · split
    · exact .error (h.note _)
    · have hwant : c.want amount = b.want amount := by
        unfold want
        rw [h.occupied_eq, h.limits_eq, h.free_eq]
      have within : b.want amount ≤ c.free := by
        rw [h.free_eq]
        exact b.want_le_free amount
      rw [pull_eq rfl (b.want_le_free amount), pull_eq hwant within, h.source_eq]
      exact echo_settle h _ _ _ _ _

theorem blind_ensure (amount : Nat) : Blind (σ := σ) (ensure amount) :=
  (blind_request amount).bind fun _ => .pure ()

theorem blind_countAhead (amount : Nat) : Blind (σ := σ) (countAhead amount) :=
  (blind_ensure amount).bind fun _ => .reading Twins.occupied_eq

theorem blind_lookAhead (amount : Nat) : Blind (σ := σ) (lookAhead amount) :=
  (blind_ensure amount).bind fun _ => .reading Twins.window_eq

theorem blind_isAtEnd : Blind (σ := σ) isAtEnd :=
  (blind_ensure 1).bind fun _ => .reading fun h => by rw [h.occupied_eq]

theorem blind_consumeLineEnding : Blind (σ := σ) consumeLineEnding := by
  intro b c h
  have hasked : Blind (σ := σ) (ensure b.lineEnding.maxWidth >>= fun _ => passLineEnding) :=
    (blind_ensure _).bind fun _ => blind_passLineEnding
  show Echo ((ensure b.lineEnding.maxWidth >>= fun _ => passLineEnding) b)
    ((ensure c.lineEnding.maxWidth >>= fun _ => passLineEnding) c)
  rw [h.lineEnding_eq]
  exact hasked b c h

/-- How a filling goes on by the answer to its next request. -/
theorem fill_eq (amount : Nat) (b : Buffer σ) :
    fill amount b =
      if b.occupied < amount then
        match request amount b with
        | .error error b' => .error error b'
        | .ok 0 b' => .ok b'.occupied b'
        | .ok (_ + 1) b' => fill amount b'
      else .ok b.occupied b := by
  rw [fill]
  split
  · split <;> simp_all
  · rfl

theorem blind_fill (amount : Nat) : Blind (σ := σ) (fill amount) := by
  intro b c h
  have hecho := blind_request amount b c h
  rw [fill_eq amount c, h.occupied_eq]
  -- along the filling of the first; that of the second takes the same branch at every request
  fun_induction fill amount b generalizing c with
  | case1 b hmore error b' hrequest =>
      rw [hrequest] at hecho
      rw [if_pos hmore]
      generalize request amount c = answer at hecho ⊢
      cases hecho with
      | error twins => exact .error twins
  | case2 b hmore b' hrequest =>
      rw [hrequest] at hecho
      rw [if_pos hmore]
      generalize request amount c = answer at hecho ⊢
      cases hecho with
      | ok twins =>
          simp only
          rw [twins.occupied_eq]
          exact .ok twins
  | case3 b hmore received b' hrequest ih =>
      rw [hrequest] at hecho
      rw [if_pos hmore]
      generalize request amount c = answer at hecho ⊢
      cases hecho with
      | ok twins =>
          rename_i c'
          simp only
          rw [fill_eq amount c', twins.occupied_eq]
          exact ih c' twins (blind_request amount b' c' twins)
  | case4 b henough =>
      rw [if_neg henough]
      exact .ok h

end Buffer

namespace Guard

/-! ## Guards -/

variable {b c : Buffer σ}

theorem begin_eq (mode : Mode) (h : Buffer.Twins b c) :
    (begin mode c).1 = (begin mode b).1 := by
  cases mode with
  | inactive => rfl
  | active =>
      show (⟨some ⟨c.cursor, c.pin⟩⟩ : Guard) = ⟨some ⟨b.cursor, b.pin⟩⟩
      rw [h.cursor_eq, h.pin_eq]

theorem begin_twins (mode : Mode) (h : Buffer.Twins b c) :
    Buffer.Twins (begin mode b).2 (begin mode c).2 := by
  cases mode with
  | inactive => exact h
  | active =>
      show Buffer.Twins { b with pin := some (pinnedBy b.pin b.place.byte) }
        { c with pin := some (pinnedBy c.pin c.place.byte) }
      rw [h.pin_eq, h.place_eq]
      exact h.with_pin _

theorem commit_twins (guard : Guard) (h : Buffer.Twins b c) :
    Buffer.Twins (guard.commit b) (guard.commit c) := by
  unfold commit
  split
  · exact h
  · exact h.with_pin _

theorem blind_rollBack (guard : Guard) : Buffer.Blind (σ := σ) guard.rollBack := by
  intro b c h
  unfold rollBack
  split
  · exact .ok h
  · rename_i snapshot hsnapshot
    by_cases held : b.Holds snapshot.mark.toPlace
    · rw [dif_pos held, dif_pos (h.holds_iff.mpr held)]
      exact .ok (h.moveTo.with_pin _)
    · rw [dif_neg held, dif_neg (mt h.holds_iff.mp held)]
      exact .error h

end Guard

namespace Session

open Buffer

/-! ## Sessions over twins -/

/-- The two sessions are the same but for what is behind the retained bytes of their buffers. -/
structure Twins (s t : Session σ) : Prop where
  session_eq : t = { s with buffer := t.buffer }
  buffer : Buffer.Twins s.buffer t.buffer

/-- Two steps have the same answer and leave twins. -/
structure Echoes (left right : Answer × Session σ) : Prop where
  answer_eq : right.1 = left.1
  twins : Twins left.2 right.2

variable {s t : Session σ}

section Steps

variable {c : Buffer (Recorded σ)}

/-! The steps are taken from `s` and from the session that has `c` for the buffer of `s`. -/

theorem echoes_perform {operation : EStateM ε (Buffer (Recorded σ)) α} (hblind : Blind operation)
    (onValue : α → Answer) (onFailure : ε → Answer) (h : Buffer.Twins s.buffer c) :
    Echoes (s.perform operation onValue onFailure)
      ({ s with buffer := c }.perform operation onValue onFailure) := by
  have hecho := hblind _ _ h
  unfold perform
  simp only
  generalize operation s.buffer = result at hecho ⊢
  generalize operation c = result' at hecho ⊢
  cases hecho with
  | ok twins => exact ⟨rfl, rfl, twins⟩
  | error twins => exact ⟨rfl, rfl, twins⟩

theorem echoes_withSpan (target : Target) {next next' : Span → Answer × Session σ}
    (h : Buffer.Twins s.buffer c) (hnext : ∀ span, Echoes (next span) (next' span)) :
    Echoes (s.withSpan target next) ({ s with buffer := c }.withSpan target next') := by
  have hspan : ({ s with buffer := c } : Session σ).buffer.span
      (({ s with buffer := c } : Session σ).resolve target).toPlace
      = s.buffer.span (s.resolve target).toPlace := h.span_eq _
  unfold withSpan
  rw [hspan]
  cases s.buffer.span (s.resolve target).toPlace with
  | ok span => exact hnext span
  | error error => exact ⟨rfl, rfl, h⟩

theorem echoes_enter (mode : Guard.Mode) (frame : Guard → Frame) (answer : Guard → Answer)
    (h : Buffer.Twins s.buffer c) :
    Echoes (s.enter mode frame answer) ({ s with buffer := c }.enter mode frame answer) := by
  have hguard := Guard.begin_eq mode h
  have htwins := Guard.begin_twins mode h
  refine ⟨?_, ?_, htwins⟩
  · exact congrArg answer hguard
  · show ({ s with
      buffer := (Guard.begin mode c).2
      frames := frame (Guard.begin mode c).1 :: s.frames } : Session σ) = _
    rw [hguard]
    rfl

theorem echoes_leave (how : Close) (h : Buffer.Twins s.buffer c) :
    Echoes (s.leave how) ({ s with buffer := c }.leave how) := by
  have hkeep : ∀ (guard : Guard) (answer : Answer) (frames : List Frame),
      Echoes (keep guard answer { s with frames })
        (keep guard answer { s with buffer := c, frames }) :=
    fun guard answer frames => ⟨rfl, rfl, guard.commit_twins h⟩
  have hundo : ∀ (guard : Guard) (answer : Answer) (frames : List Frame),
      Echoes (undo guard answer { s with frames })
        (undo guard answer { s with buffer := c, frames }) :=
    fun guard answer frames => echoes_perform (s := { s with frames }) guard.blind_rollBack _ _ h
  obtain ⟨b, frames, slots, out⟩ := s
  cases frames with
  | nil => exact ⟨rfl, rfl, h⟩
  | cons frame frames =>
      cases frame with
      | guard guard | attempt guard =>
          cases how with
          | finish success => cases success <;> first | exact hkeep .. | exact hundo ..
          | commit => exact hkeep ..
          | error | unwind | drop => exact hundo ..

theorem echoes_step_buffer [ByteSource σ] (op : Op) (h : Buffer.Twins s.buffer c) :
    Echoes (s.step op) ({ s with buffer := c }.step op) := by
  cases op with
  | ensure amount => exact echoes_perform (blind_ensure amount) _ _ h
  | fill amount => exact echoes_perform (blind_fill amount) _ _ h
  | countAhead amount => exact echoes_perform (blind_countAhead amount) _ _ h
  | isAtEnd => exact echoes_perform blind_isAtEnd _ _ h
  | lookAhead amount => exact echoes_perform (blind_lookAhead amount) _ _ h
  | consume count => exact echoes_perform (blind_consume count) _ _ h
  | consumeInLine count => exact echoes_perform (blind_consumeInLine count) _ _ h
  | consumeToNextLine count => exact echoes_perform (blind_consumeToNextLine count) _ _ h
  | consumeLineEnding => exact echoes_perform blind_consumeLineEnding _ _ h
  | restore target => exact echoes_perform (blind_restore _) _ _ h
  | window => exact ⟨congrArg Answer.bytes h.window_eq, rfl, h⟩
  | peek index => exact ⟨congrArg Answer.byte (h.peek_eq index), rfl, h⟩
  | position => exact ⟨congrArg Answer.position h.position_eq, rfl, h⟩
  | positionAt target =>
      have hposition := congrArg (Position.ofPlace (s.resolve target).toPlace) h.label_eq
      exact ⟨congrArg Answer.position hposition, rfl, h⟩
  | label => exact ⟨congrArg Answer.text h.label_eq, rfl, h⟩
  | describe => exact ⟨congrArg Answer.text h.describe_eq, rfl, h⟩
  | discard => exact ⟨rfl, rfl, h.discard⟩
  | save slot =>
      refine ⟨congrArg Answer.mark h.cursor_eq, ?_, h⟩
      show ({ s with buffer := c, slots := (slot, c.cursor) :: s.slots } : Session σ) = _
      rw [h.cursor_eq]
      rfl
  | span target => exact echoes_withSpan target h fun span => ⟨rfl, rfl, h⟩
  | decode target decoding =>
      refine echoes_withSpan target h fun span => ?_
      cases decoding with
      | error misuse => exact ⟨rfl, rfl, h⟩
      | ok decoding => exact ⟨rfl, rfl, h⟩
  | openGuard mode => exact echoes_enter mode _ _ h
  | openAttempt => exact echoes_enter .active .attempt (fun _ => .text "attempt") h
  | close how => exact echoes_leave how h

end Steps

/-! ## Runs over twins -/

variable [ByteSource σ]

theorem echoes_step (op : Op) (h : Twins s t) : Echoes (s.step op) (t.step op) := by
  obtain ⟨hsession, hbuffer⟩ := h
  rw [hsession]
  exact echoes_step_buffer op hbuffer

omit [ByteSource σ] in
theorem report_eq {s' t' : Session σ} (h : Twins s t) (h' : Twins s' t') (answer : Answer) :
    report answer t t' = report answer s s' := by
  unfold report
  rw [h'.buffer.occupied_eq, h'.buffer.free_eq, h'.buffer.window_eq, h'.buffer.source_eq,
    h'.buffer.log_eq, h.buffer.source_eq, h.buffer.log_eq]
  exact congrArg (fun mark => (⟨answer, mark, _, _, _, _, _⟩ : Report)) h'.buffer.cursor_eq

/-- No run tells sessions over twins apart. -/
theorem play_twins (ops : List Op) (h : Twins s t) :
    (t.play ops).1 = (s.play ops).1 ∧ Twins (s.play ops).2 (t.play ops).2 := by
  induction ops generalizing s t with
  | nil => exact ⟨rfl, h⟩
  | cons op ops ih =>
      obtain ⟨hanswer, htwins⟩ := echoes_step op h
      obtain ⟨hreports, hlast⟩ := ih htwins
      refine ⟨?_, hlast⟩
      show report (t.step op).1 t (t.step op).2 :: ((t.step op).2.play ops).1
        = report (s.step op).1 s (s.step op).2 :: ((s.step op).2.play ops).1
      rw [hanswer, report_eq h htwins, hreports]

end Session

end Lookahead
