import Lookahead.Proofs.Cursor
import Lookahead.Proofs.Serving

/-!
# A buffer is as good as the data at hand

A client that looks ahead through a buffer sees what it would see with the whole data at hand, until
a bound is met: more lookahead than fits, or a place to go back to that was compacted away. The
proof is a simulation: `Follows` relates a session to a cursor, every command keeps them together,
and what the limits, the splitting of the reads and the moments of compaction make of the arena is
not part of the relation's other side.
-/

namespace Lookahead

variable {σ : Type}

namespace Session

open Buffer

/-! ## A client of a session -/

/-- Whether an answer reports a bound of the buffer that was met. -/
def Answer.isBound : Answer → Bool
  | .failed (.overflow _ _) | .failed (.rewindPastWindow _ _) => true
  | _ => false

variable [ByteSource σ]

/-- Carries out one operation that shows nothing but where it leaves the cursor. -/
def act (op : Op) (s : Session σ) : Except Answer Seen × Session σ :=
  let (answer, t) := s.step op
  (if answer.isFault then .error answer else .ok { place := t.buffer.place }, t)

/-- Fills the window, reads off what was asked for and consumes some of it. -/
def takeOff (amount : Nat) (count : List UInt8 → Nat) (s : Session σ) :
    Except Answer Seen × Session σ :=
  match s.step (.fill amount) with
  | (.count held, filled) =>
      let bytes := filled.buffer.window.take (min amount held)
      let (answer, t) := filled.step (.consume (min (count bytes) bytes.length))
      (if answer.isFault then .error answer else .ok ⟨min amount held, bytes, t.buffer.place⟩, t)
  | (answer, t) => (.error answer, t)

/-- Carries out a command: what it shows, or the answer it fails with. -/
def obey (s : Session σ) : Command → Except Answer Seen × Session σ
  | .take amount count => s.takeOff amount count
  | .discard => s.act .discard
  | .save slot => s.act (.save slot)
  | .restore slot => s.act (.restore (.slot slot))
  | .openGuard mode => s.act (.openGuard mode)
  | .openAttempt => s.act .openAttempt
  | .close how => s.act (.close how)

/-- What a client saw, and the answer that ended its run too early, if one did. -/
structure Served where
  seen : List Seen
  fault : Option Answer
deriving DecidableEq, Repr

/-- Carries out commands up to the first that fails. -/
def serve (s : Session σ) : List Command → Served
  | [] => ⟨[], none⟩
  | command :: commands =>
      match s.obey command with
      | (.ok seen, t) =>
          let served := serve t commands
          { served with seen := seen :: served.seen }
      | (.error fault, _) => ⟨[], some fault⟩

/-! ## The simulation -/

omit [ByteSource σ] in
/-- The place that a frame goes back to. -/
def Frame.back (frame : Frame) : Option Place :=
  frame.snapshot.map (fun snapshot => snapshot.mark.toPlace)

/-- A session that reads `data` is where a cursor is: at its place, in frames that go back to the
same places, and with the same places saved. -/
structure Follows (data : List UInt8) (lineByte : UInt8) (s : Session σ) (c : Cursor) : Prop where
  reads : Reads data s.buffer
  lineByte_eq : s.buffer.lineEnding.lineByte = lineByte
  pinned : Pinned s
  place_eq : s.buffer.place = c.place
  frames_eq : s.frames.map Frame.back = c.frames
  saved_eq : ∀ name, (s.resolve (.slot name)).toPlace = c.saved name

variable {data : List UInt8} {lineByte : UInt8} {s : Session σ} {c : Cursor}

theorem Follows.of_step (h : Follows data lineByte s c) (op : Op) {d : Cursor}
    (hreads : Reads data (s.step op).2.buffer) (hplace : (s.step op).2.buffer.place = d.place)
    (hframes : (s.step op).2.frames.map Frame.back = d.frames)
    (hsaved : ∀ name, ((s.step op).2.resolve (.slot name)).toPlace = d.saved name) :
    Follows data lineByte (s.step op).2 d where
  reads := hreads
  lineByte_eq := by rw [lineEnding_step, h.lineByte_eq]
  pinned := pinned_step op s h.pinned
  place_eq := hplace
  frames_eq := hframes
  saved_eq := hsaved

/-- What came of a command keeps to a cursor: it shows what it should and follows the cursor, or it
met a bound. -/
def KeepsTo (data : List UInt8) (lineByte : UInt8) (seen : Seen) (d : Cursor) :
    Except Answer Seen × Session σ → Prop
  | (.ok shown, t) => shown = seen ∧ Follows data lineByte t d
  | (.error fault, _) => fault.isBound = true

theorem keepsTo_act {op : Op} {d : Cursor} (hanswer : (s.step op).1.isFault = false)
    (h : Follows data lineByte (s.step op).2 d) :
    KeepsTo data lineByte { place := d.place } d (s.act op) := by
  unfold act
  simp only [hanswer]
  exact ⟨by rw [h.place_eq], h⟩

theorem keepsTo_bound {op : Op} {seen : Seen} {d : Cursor}
    (hanswer : (s.step op).1.isBound = true) :
    KeepsTo data lineByte seen d (s.act op) := by
  have hfault : (s.step op).1.isFault = true := by
    revert hanswer
    cases (s.step op).1 with
    | failed error => exact fun _ => rfl
    | _ => exact fun hanswer => nomatch hanswer
  unfold act
  simp only [hfault]
  exact hanswer

/-! ## Taking -/

/-- A session that is asked to fill its window meets its bound or can show what the cursor looks
at. -/
theorem follows_fill (h : Follows data lineByte s c) (amount : Nat) :
    (∃ capacity t, s.step (.fill amount) = (.failed (.overflow amount capacity), t)) ∨
      ∃ held t, s.step (.fill amount) = (.count held, t) ∧ Follows data lineByte t c ∧
        t.buffer.window.take (min amount held) = (data.drop c.place.byte).take amount ∧
        min amount held = ((data.drop c.place.byte).take amount).length := by
  cases hfill : Buffer.fill amount s.buffer with
  | error error b =>
      obtain ⟨capacity, rfl⟩ := h.reads.fill_refused hfill
      refine .inl ⟨capacity, { s with buffer := b }, ?_⟩
      show s.perform (Buffer.fill amount) .count .failed = _
      unfold perform
      rw [hfill]
  | ok held b =>
      obtain ⟨hfilled, rfl⟩ := h.reads.filled hfill
      have hstep : s.step (.fill amount) = (.count b.occupied, { s with buffer := b }) := by
        show s.perform (Buffer.fill amount) .count .failed = _
        unfold perform
        rw [hfill]
      have hwindow := hfilled.take_window
      rw [h.place_eq] at hwindow
      obtain ⟨hreads, ⟨pulled, hextends⟩, -⟩ := hfilled
      refine .inr ⟨b.occupied, { s with buffer := b }, hstep, ?_, ?_, ?_⟩
      · have hfollows := h.of_step (.fill amount) (d := c)
        rw [hstep] at hfollows
        exact hfollows hreads (by rw [hextends.place_eq, h.place_eq]) h.frames_eq h.saved_eq
      · show b.window.take (min amount b.occupied) = _
        rw [← b.window_length, ← List.take_eq_take_min, hwindow]
      · rw [← hwindow, List.length_take, b.window_length]

theorem follows_consume (h : Follows data lineByte s c) {bytes : List UInt8}
    (hbytes : bytes <+: s.buffer.window) (count : Nat) :
    ∃ t, s.step (.consume (min count bytes.length)) = (.done, t) ∧
      Follows data lineByte t { c with place := c.place.advance lineByte (bytes.take count) } := by
  have hwithin : min count bytes.length ≤ s.buffer.occupied := by
    have hlength := hbytes.length_le
    rw [s.buffer.window_length] at hlength
    omega
  have hfront : s.buffer.window.take (min count bytes.length) = bytes.take count := by
    obtain ⟨others, hothers⟩ := hbytes
    rw [← hothers, List.take_append_of_le_length (Nat.min_le_right _ _), ← List.take_eq_take_min]
  obtain ⟨b, hconsume, hplace⟩ := consume_ok hwithin
  have hmoves := moves_consume (min count bytes.length) s.buffer
  rw [hconsume] at hmoves
  have hstep : s.step (.consume (min count bytes.length)) = (.done, { s with buffer := b }) := by
    show s.perform (Buffer.consume _) (fun _ => .done) .misused = _
    unfold perform
    rw [hconsume]
  refine ⟨{ s with buffer := b }, hstep, ?_⟩
  have hfollows := h.of_step (.consume (min count bytes.length))
    (d := { c with place := c.place.advance lineByte (bytes.take count) })
  rw [hstep] at hfollows
  refine hfollows (h.reads.of_moves hmoves) ?_ h.frames_eq h.saved_eq
  show b.place = c.place.advance lineByte (bytes.take count)
  rw [hplace, hfront, h.place_eq, h.lineByte_eq]

theorem keepsTo_take (h : Follows data lineByte s c) (amount : Nat) (count : List UInt8 → Nat) :
    KeepsTo data lineByte (c.see data lineByte (.take amount count))
      (c.next data lineByte (.take amount count)) (s.takeOff amount count) := by
  rcases follows_fill h amount with ⟨capacity, t, hstep⟩ | ⟨held, t, hstep, hfollows, hbytes, hheld⟩
  · unfold takeOff
    rw [hstep]
    rfl
  · have hbegins : (data.drop c.place.byte).take amount <+: t.buffer.window := by
      rw [← hbytes]
      exact List.take_prefix _ _
    obtain ⟨u, hconsume, hlast⟩ :=
      follows_consume hfollows hbegins (count ((data.drop c.place.byte).take amount))
    unfold takeOff
    rw [hstep]
    simp only [hbytes, hconsume]
    refine ⟨?_, hlast⟩
    rw [hlast.place_eq, hheld]
    rfl

/-! ## The other commands -/

theorem keepsTo_discard (h : Follows data lineByte s c) :
    KeepsTo data lineByte { place := c.place } c (s.act .discard) := by
  have hdrops := s.buffer.drops_discard
  refine keepsTo_act rfl (h.of_step .discard (h.reads.of_drops hdrops) ?_ h.frames_eq h.saved_eq)
  exact hdrops.place_eq.trans h.place_eq

theorem keepsTo_save (h : Follows data lineByte s c) (slot : String) :
    KeepsTo data lineByte { place := c.place } (c.next data lineByte (.save slot))
      (s.act (.save slot)) := by
  refine keepsTo_act (d := c.next data lineByte (.save slot)) rfl
    (h.of_step (.save slot) h.reads h.place_eq h.frames_eq fun name => ?_)
  show (((((slot, s.buffer.mark) :: s.slots).lookup name).getD {}).toPlace
    = if name = slot then c.place else c.saved name)
  rw [List.lookup_cons]
  by_cases hname : name = slot
  · rw [if_pos hname, beq_iff_eq.mpr hname]
    exact h.place_eq
  · rw [if_neg hname, beq_eq_false_iff_ne.mpr hname]
    exact h.saved_eq name

theorem keepsTo_restore (h : Follows data lineByte s c) (slot : String) :
    KeepsTo data lineByte { place := c.saved slot } (c.next data lineByte (.restore slot))
      (s.act (.restore (.slot slot))) := by
  have hstep : s.step (.restore (.slot slot))
      = s.perform (Buffer.restore (c.saved slot)) (fun _ => .done) .failed := by
    rw [← h.saved_eq slot]
    rfl
  have hmoves := moves_restore (c.saved slot) s.buffer
  by_cases hheld : s.buffer.Holds (c.saved slot)
  · have hrestore : Buffer.restore (c.saved slot) s.buffer
        = .ok () (s.buffer.moveTo (c.saved slot) hheld.1 hheld.2) := dif_pos hheld
    rw [hrestore, stateOf_ok] at hmoves
    unfold perform at hstep
    rw [hrestore] at hstep
    refine keepsTo_act (d := c.next data lineByte (.restore slot)) (by rw [hstep]; rfl)
      (h.of_step (.restore (.slot slot)) ?_ ?_ ?_ ?_)
    · rw [hstep]
      exact h.reads.of_moves hmoves
    · rw [hstep]
      rfl
    · rw [hstep]
      exact h.frames_eq
    · rw [hstep]
      exact h.saved_eq
  · have hrestore : Buffer.restore (c.saved slot) s.buffer
        = .error (.rewindPastWindow (c.saved slot).byte s.buffer.base) s.buffer := dif_neg hheld
    unfold perform at hstep
    rw [hrestore] at hstep
    exact keepsTo_bound (by rw [hstep]; rfl)

/-! ## Frames -/

theorem Follows.enter (h : Follows data lineByte s c) {op : Op} {mode : Guard.Mode}
    (hopens : op.opens = some mode) : Follows data lineByte (s.step op).2 (c.enter mode) := by
  obtain ⟨frame, hheld, hstep⟩ := enter_session hopens s
  refine h.of_step op ?_ ?_ ?_ ?_
  · have hmoves := Guard.moves_begin mode s.buffer
    rw [hstep]
    exact h.reads.of_same hmoves.limits_eq hmoves.base_eq hmoves.retained_eq hmoves.source_eq
  · rw [hstep]
    cases mode with
    | active => exact h.place_eq
    | inactive => exact h.place_eq
  · rw [hstep]
    cases mode with
    | active =>
        have hback : frame.back = some c.place := by
          unfold Frame.back
          rw [snapshot_active hheld, ← h.place_eq]
          rfl
        show frame.back :: s.frames.map Frame.back = some c.place :: c.frames
        rw [hback, h.frames_eq]
    | inactive =>
        have hback : frame.back = none := by
          unfold Frame.back
          rw [snapshot_inactive hheld]
          rfl
        show frame.back :: s.frames.map Frame.back = none :: c.frames
        rw [hback, h.frames_eq]
  · rw [hstep]
    cases mode with
    | active => exact h.saved_eq
    | inactive => exact h.saved_eq

omit [ByteSource σ] in
theorem place_commit (guard : Guard) (b : Buffer (Recorded σ)) :
    (guard.commit b).place = b.place := by
  unfold Guard.commit
  split <;> rfl

omit [ByteSource σ] in
theorem place_rollBack (hpinned : Pinned s) {frame : Frame} {frames : List Frame}
    (hopen : s.frames = frame :: frames) :
    (stateOf (frame.held.rollBack s.buffer)).place = frame.back.getD s.buffer.place := by
  unfold Frame.back
  cases hsnapshot : frame.snapshot with
  | none => rw [Guard.rollBack_inactive hsnapshot, stateOf_ok, Option.map_none, Option.getD_none]
  | some snapshot =>
      obtain ⟨held, hrollBack⟩ := hpinned.rollBack_eq hopen hsnapshot
      rw [hrollBack, stateOf_ok, Option.map_some, Option.getD_some]
      rfl

theorem Follows.leave (h : Follows data lineByte s c) (how : Close) :
    Follows data lineByte (s.step (.close how)).2 (c.leave how) := by
  have hframes := h.frames_eq
  cases hopen : s.frames with
  | nil =>
      have hsession : (s.step (.close how)).2 = s := by
        show (Session.leave how s).2 = s
        unfold Session.leave
        rw [hopen]
      have hcursor : c.leave how = c := by
        unfold Cursor.leave
        rw [← hframes, hopen]
        rfl
      rw [hsession, hcursor]
      exact h
  | cons frame frames =>
      have hsession : (s.step (.close how)).2 = _ := leave_session how hopen
      have hcursor : c.leave how = { c with
          frames := frames.map Frame.back
          place := if how.keeps then c.place else frame.back.getD c.place } := by
        unfold Cursor.leave
        rw [← hframes, hopen]
        rfl
      rw [hcursor]
      cases hkeeps : how.keeps with
      | true =>
          have hmoves := frame.held.moves_commit s.buffer
          rw [hkeeps, if_pos rfl] at hsession
          refine h.of_step (.close how) ?_ ?_ ?_ ?_
          · rw [hsession]
            exact h.reads.of_same hmoves.limits_eq hmoves.base_eq hmoves.retained_eq
              hmoves.source_eq
          · rw [hsession]
            exact (place_commit frame.held s.buffer).trans h.place_eq
          · rw [hsession]
          · rw [hsession]
            exact h.saved_eq
      | false =>
          have hmoves := frame.held.moves_rollBack s.buffer
          rw [hkeeps, if_neg Bool.false_ne_true] at hsession
          refine h.of_step (.close how) ?_ ?_ ?_ ?_
          · rw [hsession]
            exact h.reads.of_same hmoves.limits_eq hmoves.base_eq hmoves.retained_eq
              hmoves.source_eq
          · rw [hsession, if_neg Bool.false_ne_true, ← h.place_eq]
            exact place_rollBack h.pinned hopen
          · rw [hsession]
          · rw [hsession]
            exact h.saved_eq

theorem keepsTo_enter (h : Follows data lineByte s c) (op : Op) {mode : Guard.Mode}
    (hopens : op.opens = some mode) :
    KeepsTo data lineByte { place := (c.enter mode).place } (c.enter mode) (s.act op) := by
  have hanswer : (s.step op).1.isFault = false := by
    cases op with
    | openGuard => rfl
    | openAttempt => rfl
    | _ => cases hopens
  exact keepsTo_act hanswer (h.enter hopens)

/-- Every command keeps the session and the cursor together or meets a bound. -/
theorem keepsTo_obey (h : Follows data lineByte s c) (command : Command) :
    KeepsTo data lineByte (c.see data lineByte command) (c.next data lineByte command)
      (s.obey command) := by
  cases command with
  | take amount count => exact keepsTo_take h amount count
  | discard => exact keepsTo_discard h
  | save slot => exact keepsTo_save h slot
  | restore slot => exact keepsTo_restore h slot
  | openGuard mode => exact keepsTo_enter h (.openGuard mode) rfl
  | openAttempt => exact keepsTo_enter h .openAttempt rfl
  | close how => exact keepsTo_act (close_answer how h.pinned) (h.leave how)

/-! ## Runs -/

/-- What was served of a run keeps to what the cursor shows of it. -/
structure Keeps (shown : List Seen) (served : Served) : Prop where
  prefix_of : served.seen <+: shown
  all : served.fault = none → served.seen = shown
  bound : ∀ fault, served.fault = some fault → fault.isBound = true

theorem keeps_serve (h : Follows data lineByte s c) (commands : List Command) :
    Keeps (c.watch data lineByte commands) (s.serve commands) := by
  induction commands generalizing s c with
  | nil =>
      refine ⟨List.prefix_rfl, fun _ => rfl, fun fault hfault => ?_⟩
      exact absurd hfault.symm (Option.some_ne_none _)
  | cons command commands ih =>
      have hkeeps := keepsTo_obey h command
      unfold serve Cursor.watch
      cases hobey : s.obey command with
      | mk outcome t =>
          rw [hobey] at hkeeps
          cases outcome with
          | error fault =>
              refine ⟨List.nil_prefix, fun hnone => absurd hnone (Option.some_ne_none _), ?_⟩
              rintro _ ⟨⟩
              exact hkeeps
          | ok seen =>
              obtain ⟨rfl, hfollows⟩ := hkeeps
              obtain ⟨hseen, hall, hbound⟩ := ih hfollows
              refine ⟨?_, fun hnone => ?_, hbound⟩
              · exact List.cons_prefix_cons.mpr ⟨rfl, hseen⟩
              · exact congrArg (List.cons _) (hall hnone)

/-- Whatever a client asks of the session, it sees what a cursor over `data` would show it. -/
def Refines (data : List UInt8) (lineByte : UInt8) (s : Session σ) : Prop :=
  ∀ commands, Keeps (Cursor.watch data lineByte {} commands) (s.serve commands)

/-- What two sessions show does not depend on what sets them apart, nor on when they compact,
nor on what was tried out and undone. It holds as far as no bound is met. -/
structure Agrees {τ : Type} [ByteSource τ] (s : Session σ) (t : Session τ) : Prop where
  same_commands : ∀ commands, (s.serve commands).fault = none → (t.serve commands).fault = none →
    (s.serve commands).seen = (t.serve commands).seen
  other_discards : ∀ first second : List Command,
    first.filter (fun command => !command.isDiscard)
      = second.filter (fun command => !command.isDiscard) →
    (s.serve first).fault = none → (t.serve second).fault = none →
    Command.besidesDiscards first (s.serve first).seen
      = Command.besidesDiscards second (t.serve second).seen
  no_speculation : ∀ (before : List Command) (opening : Command) (body : List Command)
      (closing : Command) (how : Close) (after : List Command),
    Framing.opens opening = some .active → WellNested body → Framing.closes closing = some how →
    how.keeps = false → Command.Avoids (body.filterMap Command.saves) after →
    (s.serve (before ++ opening :: (body ++ closing :: after))).fault = none →
    (t.serve (before ++ after)).fault = none →
    (s.serve (before ++ opening :: (body ++ closing :: after))).seen.take before.length
        = (t.serve (before ++ after)).seen.take before.length ∧
      (s.serve (before ++ opening :: (body ++ closing :: after))).seen.drop
          (before.length + (body.length + 2))
        = (t.serve (before ++ after)).seen.drop before.length

theorem agrees_of_refines {τ : Type} [ByteSource τ] {t : Session τ} (hs : Refines data lineByte s)
    (ht : Refines data lineByte t) : Agrees s t := by
  constructor
  · intro commands hsNone htNone
    rw [(hs commands).all hsNone, (ht commands).all htNone]
  · intro first second hsame hsNone htNone
    rw [(hs first).all hsNone, (ht second).all htNone, ← Cursor.watch_besidesDiscards, hsame,
      Cursor.watch_besidesDiscards]
  · intro before opening body closing how after hopens hnested hcloses hkeeps havoids hsNone htNone
    rw [(hs _).all hsNone, (ht _).all htNone]
    have hsplit : before ++ opening :: (body ++ closing :: after)
        = before ++ ((opening :: (body ++ [closing])) ++ after) := by simp
    have hlength : (opening :: (body ++ [closing])).length = body.length + 2 := by simp
    rw [hsplit, Cursor.watch_append, Cursor.watch_append, Cursor.watch_append]
    constructor
    · rw [List.take_left' (Cursor.length_watch _ _), List.take_left' (Cursor.length_watch _ _)]
    · rw [← List.drop_drop, List.drop_left' (Cursor.length_watch _ _),
        List.drop_left' (Cursor.length_watch _ _),
        List.drop_left' ((Cursor.length_watch _ _).trans hlength)]
      refine Cursor.watch_congr ?_ havoids
      exact Cursor.agreesBut_speculation _ hopens hnested hcloses hkeeps

theorem refines_start {limits : Limits} (valid : limits.Valid) (lineEnding : LineEnding)
    (label : String) {source : σ} (serves : Serves source data) :
    ∃ s, start limits lineEnding label source = .ok s ∧ Refines data lineEnding.lineByte s := by
  refine ⟨_, start_ok valid lineEnding label source, fun commands => keeps_serve ?_ commands⟩
  exact {
    reads := reads_ofLimits valid lineEnding label (serves_recorded serves #[])
    lineByte_eq := rfl
    pinned := pinned_ofLimits limits lineEnding label source
    place_eq := rfl
    frames_eq := rfl
    saved_eq := fun name => rfl }

/-- **A buffer is as good as the data at hand.** Over a source that serves `data`, a client sees
what a cursor over `data` shows, up to a bound that is met; and so it sees the same with other
limits and another source of the same data. -/
theorem refines_cursor {limits : Limits} (valid : limits.Valid) (lineEnding : LineEnding)
    (label : String) {source : σ} (serves : Serves source data) :
    ∃ s, start limits lineEnding label source = .ok s ∧ Refines data lineEnding.lineByte s ∧
      ∀ (τ : Type) [ByteSource τ] (otherLimits : Limits) (otherLabel : String) (other : τ),
        otherLimits.Valid → Serves other data →
          ∃ t, start otherLimits lineEnding otherLabel other = .ok t ∧ Agrees s t := by
  obtain ⟨s, hstart, hrefines⟩ := refines_start valid lineEnding label serves
  refine ⟨s, hstart, hrefines, ?_⟩
  intro τ _ otherLimits otherLabel other otherValid otherServes
  obtain ⟨t, hother, hothers⟩ := refines_start otherValid lineEnding otherLabel otherServes
  exact ⟨t, hother, agrees_of_refines hrefines hothers⟩

theorem refines_cursor_of_slice :
    (⟨2, 3⟩ : Limits).Valid ∧ Serves (⟨[97, 61, 98], some 1⟩ : Slice) [97, 61, 98] ∧
      ∃ s, start ⟨2, 3⟩ .lf "input" (⟨[97, 61, 98], some 1⟩ : Slice) = .ok s ∧
        Refines [97, 61, 98] LineEnding.lf.lineByte s ∧
        ∀ (τ : Type) [ByteSource τ] (otherLimits : Limits) (otherLabel : String) (other : τ),
          otherLimits.Valid → Serves other [97, 61, 98] →
            ∃ t, start otherLimits .lf otherLabel other = .ok t ∧ Agrees s t := by
  have hserves : Serves (⟨[97, 61, 98], some 1⟩ : Slice) [97, 61, 98] := serves_slice (by decide)
  exact ⟨by decide, hserves, refines_cursor (by decide) .lf "input" hserves⟩

end Session

end Lookahead
