import Lookahead.Proofs.Fidelity
import Lookahead.Proofs.Pinning

/-!
# Speculation

A body of operations between the opening and the closing of a frame. Whatever the body does, as long
as it closes the frames it opens itself, the closing meets the frame of the opening again. Closed
without a commit the frame then puts the cursor back to where it stood, shows what was pulled in the
meantime behind what the window held, and puts the pin back. That it always can is what the pin is
for.
-/

namespace Lookahead.Session

open Buffer

variable {σ : Type}

/-! ## Well-nested runs -/

/-- Instructions some of which open a frame and some of which close the innermost one. -/
class Framing (α : Type) where
  opens : α → Option Guard.Mode
  closes : α → Option Close

instance : Framing Op where
  opens := Op.opens
  closes := Op.closes

/-- A run that closes every frame it opens, and no other. -/
inductive WellNested {α : Type} [Framing α] : List α → Prop where
  | nil : WellNested []
  | within {step : α} {steps : List α} (opens_eq : Framing.opens step = none)
      (closes_eq : Framing.closes step = none) (rest : WellNested steps) :
      WellNested (step :: steps)
  | frame {opening closing : α} {mode : Guard.Mode} {how : Close} {body steps : List α}
      (opens_eq : Framing.opens opening = some mode) (inside : WellNested body)
      (closes_eq : Framing.closes closing = some how) (rest : WellNested steps) :
      WellNested (opening :: (body ++ closing :: steps))

variable [ByteSource σ]

/-- The second session has the frames and the pin of the first. -/
structure Rebalances (s t : Session σ) : Prop where
  frames_eq : t.frames = s.frames
  pin_eq : t.buffer.pin = s.buffer.pin

/-! ## Closing what an operation opened

In the next lemmas `s` is the session before a frame is opened, and `last` one that has the frames
it is opened in as they were behind the opening. -/

theorem close_inactive {s last : Session σ} {opening : Op} (hopens : opening.opens = some .inactive)
    (hframes : last.frames = (s.step opening).2.frames) (how : Close) :
    (last.step (.close how)).2 = { last with frames := s.frames } := by
  obtain ⟨frame, hheld, hopened⟩ := enter_session hopens s
  rw [hopened] at hframes
  have hsnapshot := snapshot_inactive hheld
  have hclosed := leave_session how hframes
  rw [Guard.commit_inactive hsnapshot, Guard.rollBack_inactive hsnapshot, stateOf_ok, ite_self]
    at hclosed
  exact hclosed

theorem close_kept {s last : Session σ} {opening : Op} (hopens : opening.opens = some .active)
    (hframes : last.frames = (s.step opening).2.frames) {how : Close} (hkeeps : how.keeps = true) :
    (last.step (.close how)).2 = { last with
      frames := s.frames
      buffer := { last.buffer with pin := s.buffer.pin } } := by
  obtain ⟨frame, hheld, hopened⟩ := enter_session hopens s
  rw [hopened] at hframes
  have hclosed := leave_session how hframes
  rw [if_pos hkeeps, Guard.commit_active (snapshot_active hheld)] at hclosed
  exact hclosed

theorem close_abandoned {s last : Session σ} {opening : Op} (hopens : opening.opens = some .active)
    (hpinned : Pinned last) (hframes : last.frames = (s.step opening).2.frames) {how : Close}
    (hkeeps : how.keeps = false) :
    ∃ held : last.buffer.Holds s.buffer.place,
      (last.step (.close how)).2 = { last with
        frames := s.frames
        buffer := { last.buffer.moveTo s.buffer.place held.1 held.2 with
          pin := s.buffer.pin } } := by
  obtain ⟨frame, hheld, hopened⟩ := enter_session hopens s
  rw [hopened] at hframes
  obtain ⟨held, hrollBack⟩ := hpinned.rollBack_eq hframes (snapshot_active hheld)
  have hclosed := leave_session how hframes
  rw [hkeeps, if_neg Bool.false_ne_true, hrollBack, stateOf_ok] at hclosed
  exact ⟨held, hclosed⟩

/-- A frame that is opened and, some time later, closed leaves the frames and the pin as they were
before. -/
theorem rebalances_close {s last : Session σ} {opening : Op} {mode : Guard.Mode}
    (hopens : opening.opens = some mode) (hpinned : Pinned last)
    (hbody : Rebalances (s.step opening).2 last) (how : Close) :
    Rebalances s (last.step (.close how)).2 := by
  obtain ⟨hframes, hpin⟩ := hbody
  cases mode with
  | inactive =>
      rw [close_inactive hopens hframes]
      obtain ⟨frame, -, hopened⟩ := enter_session hopens s
      rw [hopened] at hpin
      exact ⟨rfl, hpin⟩
  | active =>
      cases hkeeps : how.keeps with
      | true =>
          rw [close_kept hopens hframes hkeeps]
          exact ⟨rfl, rfl⟩
      | false =>
          obtain ⟨held, hclosed⟩ := close_abandoned hopens hpinned hframes hkeeps
          rw [hclosed]
          exact ⟨rfl, rfl⟩

theorem rebalances_play {ops : List Op} (hnested : WellNested ops) {s : Session σ}
    (hpinned : Pinned s) : Rebalances s (s.play ops).2 := by
  induction hnested generalizing s with
  | nil => exact ⟨rfl, rfl⟩
  | @within op ops hopens hcloses _ ih =>
      have hworks := works_step hopens hcloses s
      obtain ⟨hframes, hpin⟩ := ih (pinned_step op s hpinned)
      exact ⟨hframes.trans hworks.frames_eq, hpin.trans hworks.evolves.pin_eq⟩
  | @frame opening closing mode how body ops hopens _ hcloses _ ihbody ihrest =>
      obtain rfl := Op.eq_close hcloses
      have hopened := pinned_step opening s hpinned
      have hlast := play_induction pinned_step body hopened
      have hclosed := rebalances_close hopens hlast (ihbody hopened) how
      have hrest := ihrest (pinned_step (.close how) _ hlast)
      have hplay : (s.play (opening :: (body ++ .close how :: ops))).2
          = ((((s.step opening).2.play body).2.step (.close how)).2.play ops).2 :=
        play_append body (.close how :: ops) (s.step opening).2
      rw [hplay]
      exact ⟨hrest.frames_eq.trans hclosed.frames_eq, hrest.pin_eq.trans hclosed.pin_eq⟩

/-! ## Answers -/

/-- What the open guards have to go back to is retained, so no frame is closed with a failure. -/
theorem close_answer (how : Close) {s : Session σ} (hpinned : Pinned s) :
    (s.step (.close how)).1.isFault = false := by
  refine leave_answer (P := fun answer => answer.isFault = false) how s (fun _ => rfl)
    (fun _ => rfl) fun frame frames misuse b hframes hlost => ?_
  cases hsnapshot : frame.snapshot with
  | none => cases (Guard.rollBack_inactive hsnapshot _).symm.trans hlost
  | some snapshot =>
      obtain ⟨held, hrollBack⟩ := hpinned.rollBack_eq hframes hsnapshot
      cases hrollBack.symm.trans hlost

/-! ## How speculations end -/

omit [ByteSource σ] in
/-- What an abandoned speculation leaves: `s` is the session before it, `last` the one at the end of
its body, and `closed` the one behind its closing. -/
structure Returns (s last closed : Session σ) : Prop where
  moves : Moves { last.buffer with pin := s.buffer.pin } closed.buffer
  place_eq : closed.buffer.place = s.buffer.place
  base_le : closed.buffer.base ≤ s.buffer.place.byte
  offset_eq : closed.buffer.offset = s.buffer.place.byte - closed.buffer.base
  window_eq : closed.buffer.window = closed.delivered.drop s.buffer.place.byte
  /-- Nothing that was pulled is lost: it stands behind what the window held. -/
  window_grown : ∃ pulled, closed.delivered = s.delivered ++ pulled ∧
    closed.buffer.window = s.buffer.window ++ pulled

omit [ByteSource σ] in
theorem returns_of_moveTo {s last closed : Session σ} (hfaithful : Faithful s.buffer)
    (hlast : Faithful last.buffer) (hdelivered : s.delivered <+: last.delivered)
    (held : last.buffer.Holds s.buffer.place)
    (hclosed : closed.buffer = { last.buffer.moveTo s.buffer.place held.1 held.2 with
      pin := s.buffer.pin }) : Returns s last closed := by
  have hmoves : Moves { last.buffer with pin := s.buffer.pin } closed.buffer := by
    rw [hclosed]
    exact ⟨rfl, rfl, rfl, rfl, rfl, rfl, rfl, rfl⟩
  have hplace : closed.buffer.place = s.buffer.place := by
    rw [hclosed]
    rfl
  have hsource : closed.delivered = last.delivered :=
    congrArg Recorded.delivered hmoves.source_eq
  have hmirrors : Mirrors closed.buffer closed.delivered := by
    have hpinned : Mirrors { last.buffer with pin := s.buffer.pin } last.delivered :=
      ⟨hlast.stop_eq, hlast.retained_eq⟩
    rw [hsource]
    exact hpinned.of_moves hmoves
  have hwindow : closed.buffer.window = closed.delivered.drop s.buffer.place.byte := by
    rw [hmirrors.window_eq, hplace]
  refine ⟨hmoves, hplace, ?_, ?_, hwindow, ?_⟩
  · rw [hmoves.base_eq]
    exact held.1
  · rw [hclosed]
    rfl
  · obtain ⟨pulled, hpulled⟩ := hdelivered
    refine ⟨pulled, by rw [hsource, hpulled], ?_⟩
    have hbefore := mirrors_delivered hfaithful
    have hwithin : s.buffer.place.byte ≤ s.delivered.length := by
      rw [← hbefore.stop_eq]
      exact s.buffer.byte_le_stop
    rw [hwindow, hsource, ← hpulled, List.drop_append_of_le_length hwithin, hbefore.window_eq]

omit [ByteSource σ] in
/-- How a speculation ends that was opened in some mode and is closed in some way: `opened` is the
session behind its opening. -/
structure Settles (mode : Guard.Mode) (how : Close) (s opened last closed : Session σ)
    (answer : Answer) : Prop where
  succeeds : answer.isFault = false
  frames_eq : closed.frames = s.frames
  pin_eq : closed.buffer.pin = s.buffer.pin
  of_inactive : mode = .inactive → opened.buffer = s.buffer ∧ closed.buffer = last.buffer
  of_active : mode = .active → opened.buffer = { s.buffer with pin := opened.buffer.pin }
  of_kept : mode = .active → how.keeps = true →
    closed.buffer = { last.buffer with pin := s.buffer.pin }
  of_abandoned : mode = .active → how.keeps = false → Returns s last closed

/-- The pin is the earliest snapshot of the open guards, and all their snapshots are retained. -/
structure PinsSnapshots (s : Session σ) : Prop where
  pin_eq : s.buffer.pin = (s.snapshots.map (fun snapshot => snapshot.mark.byte)).min?
  retains : ∀ snapshot ∈ s.snapshots,
    s.buffer.base ≤ snapshot.mark.byte ∧ snapshot.mark.byte ≤ s.buffer.base + s.buffer.filled

theorem settles_close {s : Session σ} (hfaithful : Faithful s.buffer) (hpinned : Pinned s)
    {opening : Op} {mode : Guard.Mode} (hopens : opening.opens = some mode) {body : List Op}
    (hnested : WellNested body) (how : Close) :
    let opened := (s.step opening).2
    let last := (opened.play body).2
    Settles mode how s opened last (last.step (.close how)).2 (last.step (.close how)).1 := by
  intro opened last
  have hopened : Pinned opened := pinned_step opening s hpinned
  have hlast : Pinned last := play_induction pinned_step body hopened
  have hbody : Rebalances opened last := rebalances_play hnested hopened
  have hclosed := rebalances_close hopens hlast hbody how
  obtain ⟨frame, hheld, henter⟩ := enter_session hopens s
  have hbuffer : opened.buffer = (Guard.begin mode s.buffer).2 := congrArg Session.buffer henter
  constructor
  · exact close_answer how hlast
  · exact hclosed.frames_eq
  · exact hclosed.pin_eq
  · rintro rfl
    rw [close_inactive hopens hbody.frames_eq, hbuffer]
    exact ⟨rfl, rfl⟩
  · rintro rfl
    rw [hbuffer]
    rfl
  · rintro rfl hkeeps
    rw [close_kept hopens hbody.frames_eq hkeeps]
  · rintro rfl hkeeps
    obtain ⟨held, habandoned⟩ := close_abandoned hopens hlast hbody.frames_eq hkeeps
    have hdelivered : s.delivered <+: last.delivered :=
      (delivered_step opening s).trans (delivered_play body opened)
    have hlastFaithful : Faithful last.buffer :=
      play_induction faithful_step body (faithful_step opening s hfaithful)
    exact returns_of_moveTo hfaithful hlastFaithful hdelivered held
      (congrArg Session.buffer habandoned)

/-- **Speculation is transactional.** After any run from a fresh session the pin is the earliest of
the open snapshots and all of them are retained; and whatever is then done between opening a frame
and closing it, closing it never fails and settles it. -/
theorem speculation_settles {limits : Limits} (valid : limits.Valid) (lineEnding : LineEnding)
    (label : String) (source : σ) :
    ∃ fresh, start limits lineEnding label source = .ok fresh ∧ ∀ ops,
      let s := (fresh.play ops).2
      PinsSnapshots s ∧
        ∀ opening mode body how, opening.opens = some mode → WellNested body →
          let opened := (s.step opening).2
          let last := (opened.play body).2
          Settles mode how s opened last (last.step (.close how)).2 (last.step (.close how)).1 := by
  refine ⟨_, start_ok valid lineEnding label source, fun ops => ?_⟩
  intro s
  have hfaithful : Faithful s.buffer := play_induction faithful_step ops
    (s := { buffer := ofLimits limits lineEnding label ⟨source, #[]⟩ })
    (faithful_start limits lineEnding label source)
  have hpinned : Pinned s :=
    play_induction pinned_step ops (pinned_ofLimits limits lineEnding label source)
  refine ⟨⟨hpinned.stacked.pin_eq, hpinned.holds⟩, ?_⟩
  intro opening mode body how hopens hnested
  exact settles_close hfaithful hpinned hopens hnested how

theorem speculation_settles_of_script :
    (⟨4, 4⟩ : Limits).Valid ∧
      ∃ fresh, start ⟨4, 4⟩ .lf "input"
          (⟨[.data [97, 61], .failure "later", .data [98]]⟩ : Script) = .ok fresh ∧ ∀ ops,
        let s := (fresh.play ops).2
        PinsSnapshots s ∧
          ∀ opening mode body how, opening.opens = some mode → WellNested body →
            let opened := (s.step opening).2
            let last := (opened.play body).2
            Settles mode how s opened last (last.step (.close how)).2 (last.step (.close how)).1 :=
  ⟨by decide, speculation_settles (by decide) .lf "input" _⟩

end Lookahead.Session
