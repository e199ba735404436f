import Lookahead.Proofs.Fidelity
import Lookahead.Proofs.Pinning
import Lookahead.Source.Script

/-!
# Saved marks last as long as their bytes

A saved mark is a copy of the cursor, and the session it was taken from goes on without it. Two
bounds decide whether there is a way back. The stream never gets shorter, whatever is rolled back,
so the byte of a saved mark lies within what was delivered for good. The lower bound is the front of
the retained bytes, which only compaction moves, and never past the snapshot of an open guard.

The offset in a mark is that of the day it was saved. It has no part in any of this.
-/

namespace Lookahead.Session

open Buffer

variable {σ : Type}

/-! ## One way back -/

/-- What going back to a mark leaves: the session with its cursor there, all else unchanged. -/
structure Regains (s : Session σ) (mark : Mark) (t : Session σ) : Prop where
  session_eq : t = { s with buffer := t.buffer }
  moves : Moves s.buffer t.buffer
  mark_eq : t.buffer.mark = ⟨mark.toPlace, mark.byte - s.buffer.base⟩
  window_eq : t.buffer.window = s.delivered.drop mark.byte

/-- What an attempt to go back to a mark comes to: it succeeds if the byte of the mark is still
retained, and otherwise it says from where on bytes are, and changes nothing. -/
structure Restores [ByteSource σ] (s : Session σ) (mark : Mark) : Prop where
  done_iff : (s.step (.restore (.mark mark))).1 = .done ↔ s.buffer.base ≤ mark.byte
  of_retained : s.buffer.base ≤ mark.byte → Regains s mark (s.step (.restore (.mark mark))).2
  of_dropped : mark.byte < s.buffer.base →
    s.step (.restore (.mark mark))
      = (.failed (.rewindPastWindow mark.byte s.buffer.base), s)

variable [ByteSource σ] {s : Session σ} {mark : Mark}

theorem step_restore_held (held : s.buffer.Holds mark.toPlace) :
    s.step (.restore (.mark mark))
      = (.done, { s with buffer := s.buffer.moveTo mark.toPlace held.1 held.2 }) := by
  have hrestore : restore mark.toPlace s.buffer
      = .ok () (s.buffer.moveTo mark.toPlace held.1 held.2) := dif_pos held
  show s.perform (restore mark.toPlace) (fun _ => .done) .failed = _
  unfold perform
  rw [hrestore]

theorem step_restore_lost (lost : ¬s.buffer.Holds mark.toPlace) :
    s.step (.restore (.mark mark))
      = (.failed (.rewindPastWindow mark.byte s.buffer.base), s) := by
  have hrestore : restore mark.toPlace s.buffer
      = .error (.rewindPastWindow mark.byte s.buffer.base) s.buffer := dif_neg lost
  show s.perform (restore mark.toPlace) (fun _ => .done) .failed = _
  unfold perform
  rw [hrestore]

omit [ByteSource σ] in
/-- Of a place within the stream only the front of the retained bytes decides. -/
theorem holds_iff_of_delivered (hfaithful : Faithful s.buffer) {place : Place}
    (hdelivered : place.byte ≤ s.delivered.length) :
    s.buffer.Holds place ↔ s.buffer.base ≤ place.byte := by
  have hstop : place.byte ≤ s.buffer.stop := by
    rw [hfaithful.stop_eq]
    exact hdelivered
  exact ⟨fun held => held.1, fun hbase => ⟨hbase, hstop⟩⟩

theorem restores_of_delivered (hfaithful : Faithful s.buffer)
    (hdelivered : mark.byte ≤ s.delivered.length) : Restores s mark := by
  have hholds : s.buffer.Holds mark.toPlace ↔ s.buffer.base ≤ mark.byte :=
    holds_iff_of_delivered hfaithful hdelivered
  by_cases hbase : s.buffer.base ≤ mark.byte
  · have held := hholds.mpr hbase
    have hmoves : Moves s.buffer (s.buffer.moveTo mark.toPlace held.1 held.2) :=
      ⟨rfl, rfl, rfl, rfl, rfl, rfl, rfl, rfl⟩
    have hwindow := ((mirrors_delivered hfaithful).of_moves hmoves).window_eq
    constructor
    · rw [step_restore_held held]
      exact ⟨fun _ => hbase, fun _ => rfl⟩
    · rw [step_restore_held held]
      exact fun _ => ⟨rfl, hmoves, rfl, hwindow⟩
    · exact fun hdropped => absurd hbase (Nat.not_le_of_lt hdropped)
  · have hlost := step_restore_lost (mt hholds.mp hbase)
    constructor
    · rw [hlost]
      exact ⟨fun hdone => (by cases hdone), fun hle => absurd hle hbase⟩
    · exact fun hle => absurd hle hbase
    · exact fun _ => hlost

/-! ## Saved marks -/

/-- No run takes a mark out of the stream. -/
theorem saved_within (hfaithful : Faithful s.buffer) (ops : List Op) :
    s.buffer.mark.byte ≤ (s.play ops).2.delivered.length := calc
  s.buffer.mark.byte ≤ s.buffer.stop := s.buffer.byte_le_stop
  _ = s.delivered.length := hfaithful.stop_eq
  _ ≤ (s.play ops).2.delivered.length := (delivered_play ops s).length_le

/-- What the source gave is kept true, and what guards have pinned is held, through every run. -/
theorem kept_play (h : Faithful s.buffer ∧ Pinned s) (ops : List Op) :
    Faithful (s.play ops).2.buffer ∧ Pinned (s.play ops).2 :=
  play_induction (P := fun s => Faithful s.buffer ∧ Pinned s)
    (fun op t h => ⟨faithful_step op t h.1, pinned_step op t h.2⟩) ops h

/-- **Saved marks last as long as their bytes.** Whatever is done before a mark is saved and
afterwards, there is a way back to it exactly if its byte is not dropped, whatever offset is written
in it; and while a guard is open no mark from its snapshot on is lost. -/
theorem saved_mark_restores {limits : Limits} (valid : limits.Valid) (lineEnding : LineEnding)
    (label : String) (source : σ) :
    ∃ fresh, start limits lineEnding label source = .ok fresh ∧ ∀ before slot after,
      let saved := (fresh.play before).2
      let mark := saved.buffer.mark
      let s := ((saved.step (.save slot)).2.play after).2
      (saved.step (.save slot)).1 = .mark mark ∧
        s.buffer.base = s.buffer.place.byte - s.buffer.offset ∧
        (∀ stale, Restores s ⟨mark.toPlace, stale⟩) ∧
        ∀ snapshot ∈ s.snapshots, snapshot.mark.byte ≤ mark.byte →
          (s.step (.restore (.mark mark))).1 = .done := by
  refine ⟨_, start_ok valid lineEnding label source, fun before slot after => ?_⟩
  intro saved mark s
  have hsaved : Faithful saved.buffer ∧ Pinned saved := kept_play
    ⟨faithful_start limits lineEnding label source,
      pinned_ofLimits limits lineEnding label source⟩ before
  have hkept : Faithful (saved.step (.save slot)).2.buffer ∧ Pinned (saved.step (.save slot)).2 :=
    ⟨faithful_step _ _ hsaved.1, pinned_step _ _ hsaved.2⟩
  obtain ⟨hfaithful, hpinned⟩ : Faithful s.buffer ∧ Pinned s := kept_play hkept after
  have hwithin : mark.byte ≤ s.delivered.length := saved_within hkept.1 after
  have hrestores : ∀ stale, Restores s ⟨mark.toPlace, stale⟩ := fun stale =>
    restores_of_delivered hfaithful hwithin
  refine ⟨rfl, ?_, hrestores, fun snapshot hmem hle => ?_⟩
  · rw [← s.buffer.base_add_offset]
    exact (Nat.add_sub_cancel _ _).symm
  · exact (hrestores mark.offset).done_iff.mpr (Nat.le_trans (hpinned.holds snapshot hmem).1 hle)

/-- Two bytes are consumed and a mark saved; two more, and compaction drops it. -/
theorem saved_mark_restores_of_script :
    let before : List Op := [.ensure 4, .consume 2]
    let after : List Op := [.consume 2, .discard]
    (⟨4, 2⟩ : Limits).Valid ∧
      ∃ fresh, start ⟨4, 2⟩ .lf "input" (⟨[.data [97, 98, 99, 100, 101]]⟩ : Script) = .ok fresh ∧
        let saved := (fresh.play before).2
        let s := ((saved.step (.save "m")).2.play after).2
        saved.buffer.mark = ⟨⟨2, 1, 3⟩, 2⟩ ∧ s.buffer.base = 4 ∧
          s.step (.restore (.mark saved.buffer.mark)) = (.failed (.rewindPastWindow 2 4), s) := by
  intro before after
  have hvalid : (⟨4, 2⟩ : Limits).Valid := by decide
  obtain ⟨fresh, hstart, hrestores⟩ := saved_mark_restores hvalid .lf "input"
    (⟨[.data [97, 98, 99, 100, 101]]⟩ : Script)
  obtain ⟨-, -, hmark, -⟩ := hrestores before "m" after
  obtain rfl := Except.ok.inj ((start_ok hvalid .lf "input" _).symm.trans hstart)
  refine ⟨hvalid, _, hstart, by decide +kernel, by decide +kernel, ?_⟩
  exact (hmark 2).of_dropped (by decide +kernel)

end Lookahead.Session
