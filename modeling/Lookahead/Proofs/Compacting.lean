import Lookahead.Proofs.Fidelity
import Lookahead.Proofs.Pinning
import Lookahead.Source.Slice

/-!
# Compaction up to the horizon

Compaction counts in offsets into the arena, and the pin it has to respect may lie anywhere: behind
the cursor, or ahead of it once the cursor has gone back. Seen from the stream there is one number
behind all that, the `horizon`: the first byte that the cursor or an open guard may still need. The
offsets come to the same because no guard is open on a byte that was dropped, so that the distance
from the first retained byte to the pin is never cut off at nought (`base_add_droppable`).

After that there are three ends (`Discards`): everything in front of the horizon is dropped, or a
pin puts that off, or there is not enough to drop. The first leaves nothing in front of the horizon
and the others at most a chunk, so a second compaction finds nothing to do.
-/

namespace Lookahead

variable {σ : Type}

namespace Buffer

variable {b c : Buffer σ}

/-! ## The horizon -/

/-- The first byte of the stream that is still needed: that of the pin, or of the cursor if it comes
first. -/
def horizon (b : Buffer σ) : Nat :=
  match b.pin with
  | none => b.place.byte
  | some pin => min pin b.place.byte

theorem horizon_le_byte (b : Buffer σ) : b.horizon ≤ b.place.byte := by
  unfold horizon
  split
  · exact Nat.le_refl _
  · exact Nat.min_le_right _ _

theorem horizon_le_pin {pin : Nat} (hpin : b.pin = some pin) : b.horizon ≤ pin := by
  unfold horizon
  rw [hpin]
  exact Nat.min_le_left _ _

/-- In front of the cursor there is only a horizon that a pin sets. -/
theorem pin_eq_horizon (h : b.horizon < b.place.byte) : b.pin = some b.horizon := by
  cases hpin : b.pin with
  | none =>
      rw [horizon, hpin] at h
      exact absurd h (Nat.lt_irrefl _)
  | some pin =>
      have hmin : b.horizon = min pin b.place.byte := by rw [horizon, hpin]
      rw [hmin] at h ⊢
      rw [Nat.min_eq_left (by omega)]

theorem horizon_congr (hplace : c.place = b.place) (hpin : c.pin = b.pin) :
    c.horizon = b.horizon := by
  unfold horizon
  rw [hplace, hpin]

/-- What is pinned is retained. -/
def HoldsPin (b : Buffer σ) : Prop :=
  ∀ pin, b.pin = some pin → b.base ≤ pin

theorem base_add_droppable (h : b.HoldsPin) : b.base + b.droppable = b.horizon := by
  have hbyte := b.base_add_offset
  unfold droppable horizon
  cases hpin : b.pin with
  | none => exact hbyte
  | some pin =>
      have hbase := h pin hpin
      simp only
      omega

/-! ## The three ends of a compaction -/

/-- What compaction makes of a buffer. -/
inductive Discards (b : Buffer σ) : Buffer σ → Prop where
  /-- More than a chunk lies in front of the horizon, and all of it is dropped. -/
  | drops {c : Buffer σ} (far : b.limits.chunk < b.horizon - b.base)
      (dropped : Drops b c (b.horizon - b.base))
      (log_eq : c.log = b.log.push (.compacted (b.horizon - b.base) c.filled)) : Discards b c
  /-- More than a chunk lies in front of the cursor, but not in front of the horizon. -/
  | defers (near : b.horizon - b.base ≤ b.limits.chunk) (due : b.limits.chunk < b.offset) :
      Discards b (b.note (.deferred (b.horizon - b.base) b.offset))
  | rests (near : b.horizon - b.base ≤ b.limits.chunk) (early : b.offset ≤ b.limits.chunk) :
      Discards b b

theorem discards (h : b.HoldsPin) : Discards b b.discard := by
  have hdroppable : b.horizon - b.base = b.droppable := by
    have hhorizon := base_add_droppable h
    omega
  by_cases far : b.limits.chunk < b.droppable
  · have hdrops := b.drops_discard
    rw [shift, if_pos far, ← hdroppable] at hdrops
    refine .drops (by rwa [hdroppable]) hdrops ?_
    rw [hdroppable, discard, if_pos far]
    rfl
  · have near : b.horizon - b.base ≤ b.limits.chunk := by
      rw [hdroppable]
      exact Nat.le_of_not_lt far
    rw [discard, if_neg far, ← hdroppable]
    by_cases due : b.limits.chunk < b.offset
    · rw [if_pos due]
      exact .defers near due
    · rw [if_neg due]
      exact .rests near (Nat.le_of_not_lt due)

namespace Discards

/-- The first retained byte stays unless more than a chunk lies in front of the horizon. -/
theorem still_iff (h : Discards b c) :
    c.base = b.base ↔ b.horizon - b.base ≤ b.limits.chunk := by
  cases h with
  | drops far dropped =>
      refine iff_of_false ?_ (Nat.not_le_of_lt far)
      rw [dropped.base_eq]
      omega
  | defers near | rests near => exact iff_of_true rfl near

/-- Then all of it is dropped. -/
theorem of_moved (h : Discards b c) (hmoved : c.base ≠ b.base) :
    Drops b c (b.horizon - b.base) ∧
      c.log = b.log.push (.compacted (b.horizon - b.base) c.filled) := by
  cases h with
  | drops far dropped log_eq => exact ⟨dropped, log_eq⟩
  | defers | rests => exact absurd rfl hmoved

/-- Otherwise nothing is done but to tell so. -/
theorem of_still (h : Discards b c) (hstill : c.base = b.base) : c = { b with log := c.log } := by
  cases h with
  | drops far dropped =>
      have hbase := dropped.base_eq
      omega
  | defers | rests => rfl

theorem log_of_due (h : Discards b c) (hstill : c.base = b.base) (due : b.limits.chunk < b.offset) :
    c.log = b.log.push (.deferred (b.horizon - b.base) b.offset) := by
  cases h with
  | drops far dropped =>
      have hbase := dropped.base_eq
      omega
  | defers => rfl
  | rests near early => exact absurd due (Nat.not_lt_of_le early)

theorem log_of_early (h : Discards b c) (hstill : c.base = b.base)
    (early : b.offset ≤ b.limits.chunk) : c.log = b.log := by
  cases h with
  | drops far dropped =>
      have hbase := dropped.base_eq
      omega
  | defers near due => exact absurd due (Nat.not_lt_of_le early)
  | rests => rfl

/-- In front of the horizon compaction leaves a chunk at most. -/
theorem near_after (h : Discards b c) : c.horizon - c.base ≤ c.limits.chunk := by
  cases h with
  | drops far dropped =>
      rw [horizon_congr dropped.place_eq dropped.pin_eq, dropped.base_eq, dropped.limits_eq]
      omega
  | defers near | rests near => exact near

/-- It never goes beyond the horizon. -/
theorem base_le_horizon (h : Discards b c) (hbase : b.base ≤ b.horizon) : c.base ≤ b.horizon := by
  cases h with
  | drops far dropped =>
      rw [dropped.base_eq]
      omega
  | defers | rests => exact hbase

end Discards

theorem Drops.window_eq {count : Nat} (h : Drops b c count) : c.window = b.window := by
  have hbefore := b.base_add_offset
  have hafter := c.base_add_offset
  rw [h.place_eq, h.base_eq] at hafter
  rw [Buffer.window_eq, Buffer.window_eq, h.retained_eq, List.drop_drop]
  congr 1
  omega

end Buffer

namespace Session

open Buffer

/-! ## Compaction in a session -/

theorem Pinned.exists_snapshot {s : Session σ} (h : Pinned s) {pin : Nat}
    (hpin : s.buffer.pin = some pin) : ∃ snapshot ∈ s.snapshots, snapshot.mark.byte = pin := by
  have hmin := h.stacked.pin_eq
  rw [hpin] at hmin
  obtain ⟨hmem, -⟩ := List.min?_eq_some_iff.mp hmin.symm
  exact List.mem_map.mp hmem

theorem Pinned.holdsPin {s : Session σ} (h : Pinned s) : s.buffer.HoldsPin := by
  intro pin hpin
  obtain ⟨snapshot, hmem, rfl⟩ := h.exists_snapshot hpin
  exact (h.holds snapshot hmem).1

theorem Pinned.horizon_le {s : Session σ} (h : Pinned s) {snapshot : Guard.Snapshot}
    (hmem : snapshot ∈ s.snapshots) : s.buffer.horizon ≤ snapshot.mark.byte := by
  obtain ⟨pin, hpin, hle⟩ := h.stacked.pin_le hmem
  exact Nat.le_trans (horizon_le_pin hpin) hle

/-- What a compaction makes of a session, `t` being the session behind it. Distances are from the
first retained byte to the horizon, which is not before it. -/
structure Compacts (limits : Limits) (s t : Session σ) : Prop where
  /-- Frames, saved marks and output have no part in it, -/
  session_eq : t = { s with buffer := t.buffer }
  /-- and nothing is pulled. -/
  source_eq : t.buffer.source = s.buffer.source
  place_eq : t.buffer.place = s.buffer.place
  pin_eq : t.buffer.pin = s.buffer.pin
  window_eq : t.buffer.window = s.buffer.window
  stop_eq : t.buffer.base + t.buffer.filled = s.buffer.base + s.buffer.filled
  base_le_byte : t.buffer.base ≤ s.buffer.place.byte
  base_le_snapshot : ∀ snapshot ∈ s.snapshots, t.buffer.base ≤ snapshot.mark.byte
  base_le_horizon : s.buffer.base ≤ s.buffer.horizon ∧ t.buffer.base ≤ t.buffer.horizon
  bounded : t.buffer.horizon - t.buffer.base ≤ limits.chunk
  moves_iff : t.buffer.base ≠ s.buffer.base ↔ limits.chunk < s.buffer.horizon - s.buffer.base
  /-- A compaction that moves the bytes goes all the way, and tells how far. -/
  moved : t.buffer.base ≠ s.buffer.base → t.buffer.base = s.buffer.horizon ∧
    t.buffer.retained = s.buffer.retained.drop (t.buffer.base - s.buffer.base) ∧
    t.buffer.log
      = s.buffer.log.push (.compacted (t.buffer.base - s.buffer.base) t.buffer.filled)
  /-- One that does not move them changes nothing, the arena included, but what it may tell: -/
  still : t.buffer.base = s.buffer.base → t.buffer = { s.buffer with log := t.buffer.log }
  /-- that the bytes are due and a guard is open on one of them, -/
  deferred : t.buffer.base = s.buffer.base → limits.chunk < s.buffer.offset →
    t.buffer.log
      = s.buffer.log.push (.deferred (s.buffer.horizon - s.buffer.base) s.buffer.offset) ∧
    ∃ snapshot ∈ s.snapshots, snapshot.mark.byte < s.buffer.place.byte
  /-- or nothing. -/
  silent : t.buffer.base = s.buffer.base → s.buffer.offset ≤ limits.chunk →
    t.buffer.log = s.buffer.log

/-- Bytes that are due and stay are held back by a guard. -/
theorem Pinned.holds_back {s : Session σ} (h : Pinned s)
    (near : s.buffer.horizon - s.buffer.base ≤ s.buffer.limits.chunk)
    (due : s.buffer.limits.chunk < s.buffer.offset) :
    ∃ snapshot ∈ s.snapshots, snapshot.mark.byte < s.buffer.place.byte := by
  have hbyte := s.buffer.base_add_offset
  have hbehind : s.buffer.horizon < s.buffer.place.byte := by omega
  obtain ⟨snapshot, hmem, hsnapshot⟩ := h.exists_snapshot (pin_eq_horizon hbehind)
  exact ⟨snapshot, hmem, by rwa [hsnapshot]⟩

theorem compacts_of_pinned [ByteSource σ] {limits : Limits} {s : Session σ} (h : Pinned s)
    (hlimits : s.buffer.limits = limits) : Compacts limits s (s.step .discard).2 := by
  subst hlimits
  have hdiscards := discards h.holdsPin
  have hdrops := s.buffer.drops_discard
  have hbase : s.buffer.base ≤ s.buffer.horizon := by
    have hdroppable := base_add_droppable h.holdsPin
    omega
  show Compacts s.buffer.limits s { s with buffer := s.buffer.discard }
  generalize s.buffer.discard = c at hdiscards hdrops
  have hhorizon := horizon_congr hdrops.place_eq hdrops.pin_eq
  have hle := hdiscards.base_le_horizon hbase
  exact {
    session_eq := rfl
    source_eq := hdrops.source_eq
    place_eq := hdrops.place_eq
    pin_eq := hdrops.pin_eq
    window_eq := hdrops.window_eq
    stop_eq := hdrops.stop_eq
    base_le_byte := Nat.le_trans hle s.buffer.horizon_le_byte
    base_le_snapshot := fun snapshot hmem => Nat.le_trans hle (h.horizon_le hmem)
    base_le_horizon := ⟨hbase, hhorizon.symm ▸ hle⟩
    bounded := hdrops.limits_eq ▸ hdiscards.near_after
    moves_iff := (not_congr hdiscards.still_iff).trans Nat.not_le
    moved := fun hmoved => by
      obtain ⟨hdropped, hlog⟩ := hdiscards.of_moved hmoved
      have hend : c.base = s.buffer.horizon := by
        rw [hdropped.base_eq]
        omega
      rw [hend]
      exact ⟨rfl, hdropped.retained_eq, hlog⟩
    still := hdiscards.of_still
    deferred := fun hstill due =>
      ⟨hdiscards.log_of_due hstill due, h.holds_back (hdiscards.still_iff.mp hstill) due⟩
    silent := hdiscards.log_of_early
  }

/-- **Compaction is invisible, bounded and idempotent.** In every state that a session can come to,
compaction drops what lies in front of the horizon if that is more than a chunk, and otherwise does
nothing. What is shown of the stream stays as it is, what open guards may need stays retained, and a
second compaction right behind the first does nothing but tell again of bytes that are held back. -/
theorem compaction_invisible [ByteSource σ] {limits : Limits} (valid : limits.Valid)
    (lineEnding : LineEnding) (label : String) (source : σ) :
    ∃ fresh, start limits lineEnding label source = .ok fresh ∧ ∀ ops,
      let s := (fresh.play ops).2
      let t := (s.step .discard).2
      let u := (t.step .discard).2
      (s.step .discard).1 = .done ∧ Compacts limits s t ∧
        u = { t with buffer := { t.buffer with log := u.buffer.log } } := by
  refine ⟨_, start_ok valid lineEnding label source, fun ops => ?_⟩
  obtain ⟨hpinned, hlimits⟩ := play_induction
    (P := fun s => Pinned s ∧ s.buffer.limits = limits)
    (fun op s h => ⟨pinned_step op s h.1, (limits_step op s).trans h.2⟩) ops
    (s := { buffer := ofLimits limits lineEnding label ⟨source, #[]⟩ })
    ⟨pinned_ofLimits limits lineEnding label source, rfl⟩
  intro s t u
  have hfirst : Compacts limits s t := compacts_of_pinned hpinned hlimits
  have hsecond : Compacts limits t u :=
    compacts_of_pinned (pinned_step .discard s hpinned) ((limits_step .discard s).trans hlimits)
  have hnear : ¬limits.chunk < t.buffer.horizon - t.buffer.base := Nat.not_lt_of_le hfirst.bounded
  have hstill : u.buffer.base = t.buffer.base :=
    Decidable.of_not_not (mt hsecond.moves_iff.mp hnear)
  refine ⟨rfl, hfirst, ?_⟩
  rw [← hsecond.still hstill]
  exact hsecond.session_eq

/-- A guard opened behind the first byte holds the others back, until it is closed. -/
theorem compaction_invisible_of_slice :
    let held : List Op := [.ensure 6, .consume 1, .openGuard .active, .consume 4]
    let freed : List Op := held ++ [.discard, .close .commit]
    (⟨8, 2⟩ : Limits).Valid ∧
      ∃ fresh, start ⟨8, 2⟩ .lf "input" (⟨[97, 98, 99, 100, 101, 102, 103], none⟩ : Slice)
          = .ok fresh ∧
        let s := (fresh.play held).2
        let t := (fresh.play freed).2
        (s.step .discard).2.buffer.log.back? = some (.deferred 1 5) ∧
        (t.step .discard).2.buffer.log.back? = some (.compacted 5 1) ∧
        Compacts ⟨8, 2⟩ s (s.step .discard).2 ∧ Compacts ⟨8, 2⟩ t (t.step .discard).2 := by
  intro held freed
  have hvalid : (⟨8, 2⟩ : Limits).Valid := by decide
  obtain ⟨fresh, hstart, hcompacts⟩ := compaction_invisible hvalid .lf "input"
    (⟨[97, 98, 99, 100, 101, 102, 103], none⟩ : Slice)
  obtain ⟨-, hheld, -⟩ := hcompacts held
  obtain ⟨-, hfreed, -⟩ := hcompacts freed
  refine ⟨hvalid, fresh, hstart, ?_, ?_, hheld, hfreed⟩
  all_goals
    obtain rfl := Except.ok.inj ((start_ok hvalid .lf "input" _).symm.trans hstart)
    decide +kernel

end Session

end Lookahead
