import Lookahead.Proofs.Fidelity
import Lookahead.Proofs.Grammar
import Lookahead.Proofs.Pinning
import Lookahead.Source.Script

/-!
# Positions count the consumed bytes

Lines and columns are never worked out anew. They go on with each portion that is consumed, and are
put back when the cursor is. Still a place says the same as a count over everything before it. The
reason is that the cursor gets to a place in two ways only (`Arrives`): it goes on over bytes of the
stream, counting them, or back to a place it was at before. The marks a session keeps are of such
places, and the bytes before a place never change, so they stay counted while the stream grows.

Two kinds of operations are left out because the caller vouches for the place: a forced line break,
and going back to a mark that was made up. A line ending is counted as one line whatever it holds.
That agrees with the count if it ends with the one byte of it that counts, and under three policies
it need not.
-/

namespace Lookahead

variable {σ : Type}

namespace Place

variable {lineByte : UInt8} {stream bytes : List UInt8} {place : Place}

/-! ## Places of a stream -/

/-- The place lies behind the first bytes of the stream, as many as it says. -/
structure Located (lineByte : UInt8) (stream : List UInt8) (place : Place) : Prop where
  byte_le : place.byte ≤ stream.length
  place_eq : place = behind lineByte (stream.take place.byte)

theorem located_start (lineByte : UInt8) (stream : List UInt8) : Located lineByte stream {} :=
  ⟨Nat.zero_le _, rfl⟩

namespace Located

theorem of_longer (h : Located lineByte stream place) {longer : List UInt8}
    (hlonger : stream <+: longer) : Located lineByte longer place := by
  obtain ⟨more, rfl⟩ := hlonger
  obtain ⟨hle, hplace⟩ := h
  constructor
  · rw [List.length_append]
    exact Nat.le_add_right_of_le hle
  · rw [List.take_append_of_le_length hle]
    exact hplace

theorem advance (h : Located lineByte stream place) (hahead : bytes <+: stream.drop place.byte) :
    Located lineByte stream (place.advance lineByte bytes) := by
  have htake : stream.take (place.byte + bytes.length) = stream.take place.byte ++ bytes := by
    rw [List.take_add, List.prefix_iff_eq_take.mp hahead |>.symm]
  have hlength := hahead.length_le
  rw [List.length_drop] at hlength
  have hle := h.byte_le
  constructor
  · rw [advance_byte]
    omega
  · rw [advance_byte, htake, behind_append, ← h.place_eq]

end Located

/-- What the place says, spelled out: its line counts the line bytes before it, and its column the
bytes since the last of them. -/
structure Counted (lineByte : UInt8) (stream : List UInt8) (place : Place) : Prop
    extends Located lineByte stream place where
  line_eq : place.line = 1 + (stream.take place.byte).count lineByte
  column_of_last : ∀ last, last < place.byte → stream[last]? = some lineByte →
    lineByte ∉ (stream.take place.byte).drop (last + 1) → place.column = place.byte - last
  column_of_none : lineByte ∉ stream.take place.byte → place.column = place.byte + 1

theorem behind_column_of_not_mem (h : lineByte ∉ bytes) :
    (behind lineByte bytes).column = bytes.length + 1 := by
  have hwhole := behind_append lineByte [] bytes
  rw [List.nil_append, advance_of_not_mem h] at hwhole
  rw [hwhole]
  exact Nat.add_comm _ _

theorem behind_column_of_last {last : Nat} (hlast : bytes[last]? = some lineByte)
    (hnone : lineByte ∉ bytes.drop (last + 1)) :
    (behind lineByte bytes).column = bytes.length - last := by
  obtain ⟨hlt, hget⟩ := List.getElem?_eq_some_iff.mp hlast
  have hsplit : bytes = bytes.take last ++ [lineByte] ++ bytes.drop (last + 1) := by
    rw [← hget, List.append_assoc, List.singleton_append, ← List.drop_eq_getElem_cons hlt,
      List.take_append_drop]
  have hcolumn : (behind lineByte (bytes.take last ++ [lineByte] ++ bytes.drop (last + 1))).column
      = 1 + (bytes.drop (last + 1)).length := by
    rw [behind_append, advance_of_not_mem hnone, behind_concat, step, if_pos rfl]
    rfl
  rw [← hsplit, List.length_drop] at hcolumn
  omega

theorem Located.counted (h : Located lineByte stream place) : Counted lineByte stream place := by
  obtain ⟨hle, hplace⟩ := h
  have hlength : (stream.take place.byte).length = place.byte := List.length_take_of_le hle
  refine ⟨⟨hle, hplace⟩, congrArg line hplace, fun last hlast hbyte hnone => ?_, fun hnone => ?_⟩
  · have hget : (stream.take place.byte)[last]? = some lineByte := by
      rw [List.getElem?_take_of_lt hlast]
      exact hbyte
    calc place.column = (behind lineByte (stream.take place.byte)).column := congrArg column hplace
      _ = place.byte - last := by rw [behind_column_of_last hget hnone, hlength]
  · calc place.column = (behind lineByte (stream.take place.byte)).column := congrArg column hplace
      _ = place.byte + 1 := by rw [behind_column_of_not_mem hnone, hlength]

end Place

/-- The policies under which every line ending ends with the one byte of it that counts a line. -/
def LineEnding.countsEndings (policy : LineEnding) : Bool :=
  [lf, cr, crlf, lfOrCrlf].contains policy

theorem LineEnding.advance_ending {policy : LineEnding} (h : policy.countsEndings = true)
    {ending : List UInt8} (hmem : ending ∈ policy.terminators) (place : Place) :
    place.advance policy.lineByte ending = place.toNextLine ending.length := by
  cases policy with
  | lf | cr | crlf =>
      obtain rfl := List.mem_singleton.mp hmem
      rfl
  | lfOrCrlf =>
      rcases List.mem_cons.mp hmem with rfl | hmem
      · rfl
      · obtain rfl := List.mem_singleton.mp hmem
        rfl
  | crOrLf | crOrCrlf | crOrLfOrCrlf => cases h

namespace Session

open Buffer Place

/-! ## The places a session keeps -/

/-- The marks a session can go back to on its own account: the saved ones and those of the open
guards. -/
def marks (s : Session σ) : List Mark :=
  s.slots.map Prod.snd ++ s.snapshots.map Guard.Snapshot.mark

/-- A property of the cursor's place and of every mark's. -/
structure Everywhere (P : Place → Prop) (s : Session σ) : Prop where
  cursor : P s.buffer.place
  marks : ∀ mark ∈ s.marks, P mark.toPlace

theorem Everywhere.imp {P Q : Place → Prop} {s : Session σ} (h : Everywhere P s)
    (himp : ∀ place, P place → Q place) : Everywhere Q s :=
  ⟨himp _ h.cursor, fun mark hmem => himp _ (h.marks mark hmem)⟩

theorem resolve_slot (s : Session σ) (name : String) :
    s.resolve (.slot name) = {} ∨ s.resolve (.slot name) ∈ s.marks := by
  show (s.slots.lookup name).getD {} = {} ∨ (s.slots.lookup name).getD {} ∈ s.marks
  cases hslot : s.slots.lookup name with
  | none => exact .inl rfl
  | some mark =>
      obtain ⟨before, after, hslots, -⟩ := List.lookup_eq_some_iff.mp hslot
      refine .inr (List.mem_append_left _ (List.mem_map.mpr ⟨(name, mark), ?_, rfl⟩))
      rw [hslots]
      exact List.mem_append_right _ List.mem_cons_self

theorem mem_snapshots {s : Session σ} {snapshot : Guard.Snapshot} :
    snapshot ∈ s.snapshots ↔ ∃ frame ∈ s.frames, frame.snapshot = some snapshot :=
  List.mem_filterMap

theorem mem_marks_of_frame {s : Session σ} {frame : Frame} {frames : List Frame}
    (hframes : s.frames = frame :: frames) {snapshot : Guard.Snapshot}
    (hsnapshot : frame.snapshot = some snapshot) : snapshot.mark ∈ s.marks := by
  have hmem : frame ∈ s.frames := by
    rw [hframes]
    exact List.mem_cons_self
  have hopen : snapshot ∈ s.snapshots := mem_snapshots.mpr ⟨frame, hmem, hsnapshot⟩
  exact List.mem_append_right _ (List.mem_map_of_mem hopen)

variable [ByteSource σ]

theorem slots_step (op : Op) (s : Session σ) :
    ∀ slot ∈ (s.step op).2.slots, slot ∈ s.slots ∨ slot.2 = s.buffer.mark := by
  have hsame : ∀ {t : Session σ}, t.slots = s.slots →
      ∀ slot ∈ t.slots, slot ∈ s.slots ∨ slot.2 = s.buffer.mark := by
    intro t hslots slot hmem
    rw [hslots] at hmem
    exact .inl hmem
  cases op with
  | save name =>
      intro slot hmem
      rcases List.mem_cons.mp hmem with rfl | hmem
      · exact .inr rfl
      · exact .inl hmem
  | ensure | fill | countAhead | isAtEnd | lookAhead | consume | consumeInLine | consumeToNextLine
  | consumeLineEnding | restore =>
      refine hsame ?_
      show (s.perform _ _ _).2.slots = s.slots
      rw [perform_session]
  | span target =>
      exact hsame (withSpan_cases (P := fun t => t.slots = s.slots) target (fun _ => rfl) rfl)
  | decode target decoding =>
      refine hsame (withSpan_cases (P := fun t => t.slots = s.slots) target (fun span => ?_) rfl)
      cases decoding <;> rfl
  | close how =>
      refine hsame ?_
      show (s.leave how).2.slots = s.slots
      cases hframes : s.frames with
      | nil =>
          unfold leave
          rw [hframes]
      | cons frame frames =>
          rw [leave_session how hframes]
          split <;> rfl
  | window | peek | discard | position | positionAt | label | describe | openGuard
  | openAttempt => exact hsame rfl

theorem snapshots_step (op : Op) (s : Session σ) :
    ∀ snapshot ∈ (s.step op).2.snapshots,
      snapshot ∈ s.snapshots ∨ snapshot.mark = s.buffer.mark := by
  intro snapshot hmem
  obtain ⟨inner, hinner, hsnapshot⟩ := mem_snapshots.mp hmem
  cases transition_step op s with
  | works hworks =>
      rw [hworks.frames_eq] at hinner
      exact .inl (mem_snapshots.mpr ⟨inner, hinner, hsnapshot⟩)
  | opens mode frame hheld hframes _ =>
      rw [hframes] at hinner
      rcases List.mem_cons.mp hinner with rfl | hinner
      · cases mode with
        | active =>
            cases (snapshot_active hheld).symm.trans hsnapshot
            exact .inr rfl
        | inactive => cases (snapshot_inactive hheld).symm.trans hsnapshot
      · exact .inl (mem_snapshots.mpr ⟨inner, hinner, hsnapshot⟩)
  | keeps frame hframes _ | undoes frame hframes _ =>
      have hbefore : inner ∈ s.frames := by
        rw [hframes]
        exact List.mem_cons_of_mem _ hinner
      exact .inl (mem_snapshots.mpr ⟨inner, hbefore, hsnapshot⟩)

/-- A mark that is kept was kept before or is taken now. -/
theorem marks_step (op : Op) (s : Session σ) :
    ∀ mark ∈ (s.step op).2.marks, mark ∈ s.marks ∨ mark = s.buffer.mark := by
  intro mark hkept
  rcases List.mem_append.mp hkept with hslot | hsnapshot
  · obtain ⟨slot, hmem, rfl⟩ := List.mem_map.mp hslot
    rcases slots_step op s slot hmem with hbefore | hnow
    · exact .inl (List.mem_append_left _ (List.mem_map_of_mem hbefore))
    · exact .inr hnow
  · obtain ⟨snapshot, hmem, rfl⟩ := List.mem_map.mp hsnapshot
    rcases snapshots_step op s snapshot hmem with hbefore | hnow
    · exact .inl (List.mem_append_right _ (List.mem_map_of_mem hbefore))
    · exact .inr hnow

/-! ## How the cursor gets where it is -/

omit [ByteSource σ] in
/-- How the cursor got from one session to the next: on over bytes of the stream, which it counted,
or back to the start or to a mark. -/
inductive Arrives (s t : Session σ) : Prop where
  | onward (bytes : List UInt8) (ahead : bytes <+: t.delivered.drop s.buffer.place.byte)
      (place_eq : t.buffer.place = s.buffer.place.advance s.buffer.lineEnding.lineByte bytes)
  | toStart (place_eq : t.buffer.place = {})
  | back (mark : Mark) (mem : mark ∈ s.marks) (place_eq : t.buffer.place = mark.toPlace)

omit [ByteSource σ] in
theorem Arrives.stays {s t : Session σ} (h : t.buffer.place = s.buffer.place) : Arrives s t :=
  .onward [] List.nil_prefix h

/-- The operations that leave the counting of lines to the buffer. -/
def Op.isTracked (policy : LineEnding) : Op → Bool
  | .consumeToNextLine _ => false
  | .restore (.mark _) => false
  | .consumeLineEnding => policy.countsEndings
  | _ => true

variable {s : Session σ}

omit [ByteSource σ] in
theorem arrives_perform {ε α : Type} {operation : EStateM ε (Buffer (Recorded σ)) α}
    (onValue : α → Answer) (onFailure : ε → Answer)
    (h : Arrives s { s with buffer := stateOf (operation s.buffer) }) :
    Arrives s (s.perform operation onValue onFailure).2 := by
  rw [perform_session]
  exact h

omit [ByteSource σ] in
theorem arrives_draws {b : Buffer (Recorded σ)} (h : Draws s.buffer b) :
    Arrives s { s with buffer := b } := by
  obtain ⟨bytes, hextends, -⟩ := h
  exact .stays hextends.place_eq

omit [ByteSource σ] in
/-- The cursor goes on over the first bytes of the window and counts them. -/
theorem arrives_moves (hfaithful : Faithful s.buffer) {b : Buffer (Recorded σ)}
    (hmoves : Moves s.buffer b) (count : Nat)
    (hplace : b.place
      = s.buffer.place.advance s.buffer.lineEnding.lineByte (s.buffer.window.take count)) :
    Arrives s { s with buffer := b } := by
  refine .onward _ ?_ hplace
  unfold delivered
  rw [hmoves.source_eq, hfaithful.window_eq]
  exact List.take_prefix _ _

omit [ByteSource σ] in
theorem arrives_consume (hfaithful : Faithful s.buffer) (count : Nat) :
    Arrives s { s with buffer := stateOf (consume count s.buffer) } := by
  have hmoves := moves_consume count s.buffer
  by_cases hwithin : count ≤ s.buffer.occupied
  · obtain ⟨c, hconsume, hplace⟩ := consume_ok hwithin
    rw [hconsume] at hmoves ⊢
    exact arrives_moves hfaithful hmoves count hplace
  · unfold consume
    rw [dif_neg hwithin]
    exact .stays rfl

omit [ByteSource σ] in
theorem arrives_consumeInLine (hfaithful : Faithful s.buffer) (count : Nat) :
    Arrives s { s with buffer := stateOf (consumeInLine count s.buffer) } := by
  by_cases hwithin : count ≤ s.buffer.occupied
  · by_cases hline : s.buffer.lineEnding.lineByte ∈ s.buffer.window.take count
    · rw [consumeInLine_over hwithin hline]
      exact .stays rfl
    · rw [consumeInLine_eq_consume hwithin hline]
      exact arrives_consume hfaithful count
  · rw [consumeInLine_past hwithin]
    exact .stays rfl

omit [ByteSource σ] in
/-- A line ending is passed as it would be counted. -/
theorem passLineEnding_counted {b : Buffer (Recorded σ)} (hfaithful : Faithful b)
    (hcounts : b.lineEnding.countsEndings = true) :
    ∃ bytes, bytes <+: b.source.delivered.drop b.place.byte ∧
      (stateOf (passLineEnding b)).place = b.place.advance b.lineEnding.lineByte bytes := by
  cases hmatch : b.lineEnding.match? (b.front b.lineEnding.maxWidth) with
  | none =>
      rw [passLineEnding_none hmatch]
      exact ⟨[], List.nil_prefix, rfl⟩
  | some width =>
      obtain ⟨c, hpass, hplace⟩ := passLineEnding_some hmatch
      obtain ⟨ending, hmem, hbegins, rfl⟩ := LineEnding.exists_of_match? hmatch
      refine ⟨ending, ?_, ?_⟩
      · rw [← hfaithful.window_eq]
        rw [front_eq] at hbegins
        exact hbegins.trans (List.take_prefix _ _)
      · rw [hpass, stateOf_ok, hplace, LineEnding.advance_ending hcounts hmem]

theorem arrives_consumeLineEnding (hfaithful : Faithful s.buffer)
    (hcounts : s.buffer.lineEnding.countsEndings = true) :
    Arrives s { s with buffer := stateOf (consumeLineEnding s.buffer) } := by
  have hdraws := draws_request s.buffer.lineEnding.maxWidth s.buffer
  rw [consumeLineEnding_eq]
  cases hrequest : request s.buffer.lineEnding.maxWidth s.buffer with
  | error error c =>
      rw [hrequest] at hdraws
      exact arrives_draws hdraws
  | ok received c =>
      rw [hrequest, stateOf_ok] at hdraws
      have hpulled := hfaithful.of_evolves (.draws hdraws)
      obtain ⟨pulled, hextends, -⟩ := hdraws
      rw [← hextends.lineEnding_eq] at hcounts
      obtain ⟨bytes, hahead, hplace⟩ := passLineEnding_counted hpulled hcounts
      rw [hextends.place_eq] at hahead hplace
      rw [hextends.lineEnding_eq] at hplace
      refine .onward bytes ?_ hplace
      unfold delivered
      rw [(moves_passLineEnding c).source_eq]
      exact hahead

omit [ByteSource σ] in
theorem arrives_restore (name : String) :
    Arrives s { s with buffer := stateOf (restore (s.resolve (.slot name)).toPlace s.buffer) } := by
  unfold restore
  split
  · rcases s.resolve_slot name with hstart | hkept
    · exact .toStart (congrArg Mark.toPlace hstart)
    · exact .back _ hkept rfl
  · exact .stays rfl

omit [ByteSource σ] in
theorem arrives_leave (how : Close) : Arrives s (s.leave how).2 := by
  cases hframes : s.frames with
  | nil =>
      unfold leave
      rw [hframes]
      exact .stays rfl
  | cons frame frames =>
      rw [leave_session how hframes]
      cases hsnapshot : frame.held.snapshot with
      | none =>
          rw [Guard.commit_inactive hsnapshot, Guard.rollBack_inactive hsnapshot]
          split <;> exact .stays rfl
      | some snapshot =>
          rw [Guard.commit_active hsnapshot]
          split
          · exact .stays rfl
          · by_cases held : s.buffer.Holds snapshot.mark.toPlace
            · rw [Guard.rollBack_ok hsnapshot held]
              exact .back snapshot.mark (mem_marks_of_frame hframes hsnapshot) rfl
            · unfold Guard.rollBack
              rw [hsnapshot]
              simp only
              rw [dif_neg held]
              exact .stays rfl

theorem arrives_step {op : Op} (hfaithful : Faithful s.buffer)
    (htracked : op.isTracked s.buffer.lineEnding = true) : Arrives s (s.step op).2 := by
  cases op with
  | ensure amount => exact arrives_perform _ _ (arrives_draws (draws_ensure amount _))
  | fill amount => exact arrives_perform _ _ (arrives_draws (draws_fill amount _))
  | countAhead amount => exact arrives_perform _ _ (arrives_draws (draws_countAhead amount _))
  | isAtEnd => exact arrives_perform _ _ (arrives_draws (draws_isAtEnd _))
  | lookAhead amount => exact arrives_perform _ _ (arrives_draws (draws_lookAhead amount _))
  | consume count => exact arrives_perform _ _ (arrives_consume hfaithful count)
  | consumeInLine count => exact arrives_perform _ _ (arrives_consumeInLine hfaithful count)
  | consumeLineEnding =>
      exact arrives_perform _ _ (arrives_consumeLineEnding hfaithful htracked)
  | restore target =>
      cases target with
      | slot name => exact arrives_perform _ _ (arrives_restore name)
      | mark mark => cases htracked
  | consumeToNextLine count => cases htracked
  | discard => exact .stays s.buffer.drops_discard.place_eq
  | span target => exact withSpan_cases target (fun _ => .stays rfl) (.stays rfl)
  | decode target decoding =>
      refine withSpan_cases target (fun span => ?_) (.stays rfl)
      cases decoding <;> exact .stays rfl
  | openGuard mode => cases mode <;> exact .stays rfl
  | openAttempt => exact .stays rfl
  | close how => exact arrives_leave how
  | save | window | peek | position | positionAt | label | describe => exact .stays rfl

/-! ## Runs -/

/-- What the counting of lines rests on: the window shows the stream, and every place the session
can be at is one of the stream. -/
structure Tracks (policy : LineEnding) (s : Session σ) : Prop where
  lineEnding_eq : s.buffer.lineEnding = policy
  faithful : Faithful s.buffer
  located : Everywhere (Located policy.lineByte s.delivered) s

variable {policy : LineEnding}

theorem tracks_step {op : Op} (h : Tracks policy s) (htracked : op.isTracked policy = true) :
    Tracks policy (s.step op).2 := by
  obtain ⟨hpolicy, hfaithful, hlocated⟩ := h
  have hgrown := hlocated.imp fun place hplace => hplace.of_longer (delivered_step op s)
  rw [← hpolicy] at htracked
  refine ⟨(lineEnding_step op s).trans hpolicy, faithful_step op s hfaithful, ?_, ?_⟩
  · cases arrives_step hfaithful htracked with
    | onward bytes hahead hplace =>
        rw [hplace, hpolicy]
        exact hgrown.cursor.advance hahead
    | toStart hplace =>
        rw [hplace]
        exact located_start _ _
    | back mark hmem hplace =>
        rw [hplace]
        exact hgrown.marks mark hmem
  · intro mark hmem
    rcases marks_step op s mark hmem with hbefore | rfl
    · exact hgrown.marks mark hbefore
    · exact hgrown.cursor

theorem tracks_play {ops : List Op} (h : Tracks policy s)
    (htracked : ∀ op ∈ ops, op.isTracked policy = true) : Tracks policy (s.play ops).2 := by
  induction ops generalizing s with
  | nil => exact h
  | cons op ops ih =>
      have hstep := tracks_step h (htracked op List.mem_cons_self)
      exact ih hstep fun op hmem => htracked op (List.mem_cons_of_mem _ hmem)

/-- **Positions count the consumed bytes.** After any run of operations that leave the counting of
lines to the buffer, the cursor, every saved mark and every place an open guard goes back to has the
line and the column that a count over the delivered bytes before it gives. -/
theorem positions_counted {limits : Limits} (valid : limits.Valid) (policy : LineEnding)
    (label : String) (source : σ) :
    ∃ fresh, start limits policy label source = .ok fresh ∧
      ∀ ops, (∀ op ∈ ops, op.isTracked policy = true) →
        let s := (fresh.play ops).2
        Everywhere (Counted policy.lineByte s.delivered) s := by
  refine ⟨_, start_ok valid policy label source, fun ops htracked => ?_⟩
  have hfresh : Tracks policy
      ({ buffer := ofLimits limits policy label ⟨source, #[]⟩ } : Session σ) := by
    refine ⟨rfl, faithful_start limits policy label source, located_start _ _, ?_⟩
    intro mark hmem
    cases hmem
  exact (tracks_play hfresh htracked).located.imp fun place hplace => hplace.counted

/-- A line ending passed at once and undone, and then consumed in two portions. -/
theorem positions_counted_of_script :
    let ops : List Op := [.openGuard .active, .ensure 4, .consumeInLine 1, .save "m",
      .consumeLineEnding, .consume 1, .close .drop, .restore (.slot "m"), .consume 1, .consume 1]
    (⟨4, 4⟩ : Limits).Valid ∧ (∀ op ∈ ops, op.isTracked .crlf = true) ∧
      ∃ fresh, start ⟨4, 4⟩ .crlf "input" (⟨[.data [97, 13, 10, 98]]⟩ : Script) = .ok fresh ∧
        (fresh.play ops).2.buffer.place = ⟨3, 2, 1⟩ ∧
        Everywhere (Counted lineFeed (fresh.play ops).2.delivered) (fresh.play ops).2 := by
  intro ops
  have hvalid : (⟨4, 4⟩ : Limits).Valid := by decide
  have htracked : ∀ op ∈ ops, op.isTracked .crlf = true := by decide
  obtain ⟨fresh, hstart, hcounted⟩ := positions_counted hvalid .crlf "input"
    (⟨[.data [97, 13, 10, 98]]⟩ : Script)
  refine ⟨hvalid, htracked, fresh, hstart, ?_, hcounted ops htracked⟩
  obtain rfl := Except.ok.inj ((start_ok hvalid .crlf "input" _).symm.trans hstart)
  decide +kernel

end Session

end Lookahead
