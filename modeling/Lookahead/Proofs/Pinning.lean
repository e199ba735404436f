import Lookahead.Proofs.Steps

/-!
# What the pin stands for

A buffer has one pin, whatever the number of guards that are open on it. The invariant `Stacked`
says what the one number means: it is the one the innermost guard set, and the pin that guard found
is what it was for the guards below. So it is the earliest of the open snapshots, and since
compaction stops at it, none of them is ever dropped.
-/

namespace Lookahead

variable {σ : Type}

namespace Buffer

variable {b c : Buffer (Recorded σ)} {place : Place}

/-! ## Pinned places are retained -/

theorem Holds.of_bounds {b c : Buffer σ} (h : b.Holds place) (hbase : c.base = b.base)
    (hstop : b.stop ≤ c.stop) : c.Holds place := by
  obtain ⟨hle, hge⟩ := h
  constructor
  · rw [hbase]
    exact hle
  · exact Nat.le_trans hge hstop

theorem holds_place (b : Buffer σ) : b.Holds b.place :=
  ⟨b.base_le_byte, b.byte_le_stop⟩

/-- Compaction stops at the pin. -/
theorem holds_discard {b : Buffer σ} {pin : Nat} (hpin : b.pin = some pin) (hle : pin ≤ place.byte)
    (h : b.Holds place) : b.discard.Holds place := by
  obtain ⟨hbase, hstop⟩ := h
  have hdrops := b.drops_discard
  constructor
  · have hshift := b.shift_le_droppable
    unfold droppable at hshift
    rw [hpin] at hshift
    simp only at hshift
    rw [hdrops.base_eq]
    omega
  · rw [hdrops.stop_eq]
    exact hstop

/-- Within the frames no place from the pin on is lost. -/
theorem Evolves.holds (h : Evolves b c) {pin : Nat} (hpin : b.pin = some pin)
    (hle : pin ≤ place.byte) (hholds : b.Holds place) : c.Holds place := by
  induction h with
  | draws hdraws =>
      obtain ⟨bytes, hextends, -⟩ := hdraws
      refine hholds.of_bounds hextends.base_eq ?_
      rw [hextends.stop_eq]
      exact Nat.le_add_right _ _
  | moves hmoves => exact hholds.of_bounds hmoves.base_eq (Nat.le_of_eq hmoves.stop_eq.symm)
  | discards b => exact holds_discard hpin hle hholds
  | trans h _ ih ih' => exact ih' (h.pin_eq.trans hpin) (ih hpin hholds)

end Buffer

namespace Guard

/-! ## Opening and closing one guard -/

theorem rollBack_ok {guard : Guard} {snapshot : Snapshot} {b : Buffer σ}
    (hsnapshot : guard.snapshot = some snapshot) (held : b.Holds snapshot.mark.toPlace) :
    guard.rollBack b
      = .ok () { b.moveTo snapshot.mark.toPlace held.1 held.2 with pin := snapshot.outerPin } := by
  unfold rollBack
  rw [hsnapshot]
  exact dif_pos held

theorem rollBack_inactive {guard : Guard} (hsnapshot : guard.snapshot = none) (b : Buffer σ) :
    guard.rollBack b = .ok () b := by
  unfold rollBack
  rw [hsnapshot]

theorem commit_active {guard : Guard} {snapshot : Snapshot}
    (hsnapshot : guard.snapshot = some snapshot) (b : Buffer σ) :
    guard.commit b = { b with pin := snapshot.outerPin } := by
  unfold commit
  rw [hsnapshot]

theorem commit_inactive {guard : Guard} (hsnapshot : guard.snapshot = none) (b : Buffer σ) :
    guard.commit b = b := by
  unfold commit
  rw [hsnapshot]

end Guard

namespace Session

open Buffer

/-! ## The stack of snapshots -/

/-- The snapshot of the guard that a frame holds open. -/
def Frame.snapshot (frame : Frame) : Option Guard.Snapshot :=
  frame.held.snapshot

theorem snapshot_inactive {frame : Frame} {b : Buffer σ}
    (hheld : frame.held = (Guard.begin .inactive b).1) : frame.snapshot = none := by
  unfold Frame.snapshot
  rw [hheld]
  rfl

theorem snapshot_active {frame : Frame} {b : Buffer σ}
    (hheld : frame.held = (Guard.begin .active b).1) : frame.snapshot = some ⟨b.mark, b.pin⟩ := by
  unfold Frame.snapshot
  rw [hheld]
  rfl

/-- The snapshots of the open active guards, innermost first. -/
def snapshots (s : Session σ) : List Guard.Snapshot :=
  s.frames.filterMap Frame.snapshot

/-- The pin that guards with these snapshots, innermost first, leave in force. -/
def Stacked : List Guard.Snapshot → Option Nat → Prop
  | [], pin => pin = none
  | snapshot :: outer, pin =>
      pin = some (Guard.pinnedBy snapshot.outerPin snapshot.mark.byte) ∧
        Stacked outer snapshot.outerPin

theorem Stacked.pin_eq {snapshots : List Guard.Snapshot} {pin : Option Nat}
    (h : Stacked snapshots pin) :
    pin = (snapshots.map (fun snapshot => snapshot.mark.byte)).min? := by
  induction snapshots generalizing pin with
  | nil => exact h
  | cons snapshot outer ih =>
      obtain ⟨hpin, houter⟩ := h
      have hmin := ih houter
      rw [hpin, List.map_cons, List.min?_cons, ← hmin]
      cases snapshot.outerPin with
      | none => rfl
      | some earlier => exact congrArg some (Nat.min_comm _ _)

theorem Stacked.pin_le {snapshots : List Guard.Snapshot} {pin : Option Nat}
    (h : Stacked snapshots pin) {snapshot : Guard.Snapshot} (hmem : snapshot ∈ snapshots) :
    ∃ earliest, pin = some earliest ∧ earliest ≤ snapshot.mark.byte := by
  have hbyte := List.mem_map_of_mem (f := fun snapshot => snapshot.mark.byte) hmem
  have hmin := h.pin_eq
  cases pin with
  | none =>
      rw [List.min?_eq_none_iff.mp hmin.symm] at hbyte
      cases hbyte
  | some earliest =>
      obtain ⟨-, hle⟩ := List.min?_eq_some_iff.mp hmin.symm
      exact ⟨earliest, rfl, hle _ hbyte⟩

/-- The pin is the one of the open guards, and what they have to go back to is retained. -/
structure Pinned (s : Session σ) : Prop where
  stacked : Stacked s.snapshots s.buffer.pin
  holds : ∀ snapshot ∈ s.snapshots, s.buffer.Holds snapshot.mark.toPlace

namespace Pinned

variable {s t : Session σ}

theorem of_works (h : Pinned s) (hworks : Works s t) : Pinned t := by
  have hsnapshots : t.snapshots = s.snapshots := by
    unfold snapshots
    rw [hworks.frames_eq]
  constructor
  · rw [hsnapshots, hworks.evolves.pin_eq]
    exact h.stacked
  · intro snapshot hmem
    rw [hsnapshots] at hmem
    obtain ⟨pin, hpin, hle⟩ := h.stacked.pin_le hmem
    exact hworks.evolves.holds hpin hle (h.holds snapshot hmem)

theorem of_opens (h : Pinned s) {mode : Guard.Mode} {frame : Frame}
    (hheld : frame.held = (Guard.begin mode s.buffer).1) (hframes : t.frames = frame :: s.frames)
    (hbuffer : t.buffer = (Guard.begin mode s.buffer).2) : Pinned t := by
  cases mode with
  | inactive =>
      have hsnapshots : t.snapshots = s.snapshots := by
        unfold snapshots
        rw [hframes, List.filterMap_cons_none (snapshot_inactive hheld)]
      constructor
      · rw [hsnapshots, hbuffer]
        exact h.stacked
      · rw [hsnapshots, hbuffer]
        exact h.holds
  | active =>
      have hsnapshots : t.snapshots = ⟨s.buffer.mark, s.buffer.pin⟩ :: s.snapshots := by
        unfold snapshots
        rw [hframes, List.filterMap_cons_some (snapshot_active hheld)]
      constructor
      · rw [hsnapshots, hbuffer]
        exact ⟨rfl, h.stacked⟩
      · rw [hsnapshots, hbuffer]
        intro snapshot hmem
        rcases List.mem_cons.mp hmem with rfl | hmem
        · exact s.buffer.holds_place
        · exact h.holds snapshot hmem

/-- What is left of the stack once its innermost frame is gone. -/
theorem of_closes (h : Pinned s) {frame : Frame} (hframes : s.frames = frame :: t.frames)
    (hinactive : frame.snapshot = none → t.buffer = s.buffer)
    (hactive : ∀ snapshot, frame.snapshot = some snapshot →
      t.buffer.pin = snapshot.outerPin ∧ t.buffer.base = s.buffer.base ∧
        t.buffer.stop = s.buffer.stop) : Pinned t := by
  cases hsnapshot : frame.snapshot with
  | none =>
      have hsnapshots : t.snapshots = s.snapshots := by
        unfold snapshots
        rw [hframes, List.filterMap_cons_none hsnapshot]
      constructor
      · rw [hsnapshots, hinactive hsnapshot]
        exact h.stacked
      · rw [hsnapshots, hinactive hsnapshot]
        exact h.holds
  | some snapshot =>
      have hsnapshots : s.snapshots = snapshot :: t.snapshots := by
        unfold snapshots
        rw [hframes, List.filterMap_cons_some hsnapshot]
      obtain ⟨hpin, hbase, hstop⟩ := hactive snapshot hsnapshot
      obtain ⟨hstacked, hholds⟩ := h
      rw [hsnapshots] at hstacked hholds
      constructor
      · rw [hpin]
        exact hstacked.2
      · intro outer hmem
        exact (hholds outer (List.mem_cons_of_mem _ hmem)).of_bounds hbase (Nat.le_of_eq hstop.symm)

theorem rollBack_eq (h : Pinned s) {frame : Frame} {frames : List Frame} {snapshot : Guard.Snapshot}
    (hframes : s.frames = frame :: frames) (hsnapshot : frame.snapshot = some snapshot) :
    ∃ held : s.buffer.Holds snapshot.mark.toPlace,
      frame.held.rollBack s.buffer
        = .ok () { s.buffer.moveTo snapshot.mark.toPlace held.1 held.2 with
            pin := snapshot.outerPin } := by
  have hmem : snapshot ∈ s.snapshots := by
    unfold snapshots
    rw [hframes, List.filterMap_cons_some hsnapshot]
    exact List.mem_cons_self
  exact ⟨h.holds snapshot hmem, Guard.rollBack_ok hsnapshot (h.holds snapshot hmem)⟩

end Pinned

theorem pinned_step [ByteSource σ] (op : Op) (s : Session σ) (h : Pinned s) :
    Pinned (s.step op).2 := by
  cases transition_step op s with
  | works hworks => exact h.of_works hworks
  | opens mode frame hheld hframes hbuffer => exact h.of_opens hheld hframes hbuffer
  | keeps frame hframes hbuffer =>
      refine h.of_closes hframes (fun hnone => ?_) (fun snapshot hsnapshot => ?_)
      · rw [hbuffer, Guard.commit_inactive hnone]
      · rw [hbuffer, Guard.commit_active hsnapshot]
        exact ⟨rfl, rfl, rfl⟩
  | undoes frame hframes hbuffer =>
      refine h.of_closes hframes (fun hnone => ?_) (fun snapshot hsnapshot => ?_)
      · rw [hbuffer, Guard.rollBack_inactive hnone, stateOf_ok]
      · obtain ⟨held, hrollBack⟩ := h.rollBack_eq hframes hsnapshot
        rw [hbuffer, hrollBack, stateOf_ok]
        exact ⟨rfl, rfl, rfl⟩

theorem pinned_ofLimits (limits : Limits) (lineEnding : LineEnding) (label : String) (source : σ) :
    Pinned ({ buffer := ofLimits limits lineEnding label ⟨source, #[]⟩ } : Session σ) := by
  constructor
  · rfl
  · intro snapshot hmem
    cases hmem

end Session

end Lookahead
