import Lookahead.Proofs.Pulling
import Lookahead.Source.Script
import Lookahead.Source.Slice

/-!
# What sources hand over

A source shows itself in its pulls alone, made one after another into rooms of any size (`drawn`).
Two promises are kept by it. What was handed over, followed by what is still to come, is what there
was at first: nothing is lost on the way and nothing comes twice. And having nothing to hand over is
told only where there is nothing, or no room for it.

A script has to keep them although its reads can be interrupted. One read is `read`, and `Retries`
is reading again for as long as that happens, which by itself promises neither an end nor a result.
That it ends, and with what the script answers without its interruptions, is what has to be proved.
An interruption uses up one step and no byte, so the induction is on the steps.
-/

namespace Lookahead

/-! ## One pull after another -/

namespace Recorded

variable {σ : Type} [ByteSource σ]

/-- The source after a pull into each of these rooms, in order. -/
def drawn : List Nat → Recorded σ → Recorded σ
  | [], recorded => recorded
  | room :: rooms, recorded => drawn rooms (ByteSource.pull recorded room).2

/-- What every pull preserves holds after any number of them. -/
theorem drawn_induction {P : Recorded σ → Prop}
    (pull : ∀ room recorded, P recorded → P (ByteSource.pull recorded room).2) (rooms : List Nat)
    {recorded : Recorded σ} (h : P recorded) : P (drawn rooms recorded) := by
  induction rooms generalizing recorded with
  | nil => exact h
  | cons room rooms ih => exact ih (pull room recorded h)

end Recorded

open Recorded

/-! ## Slices -/

namespace Slice

/-- Data to be handed over, with or without a cap on the bytes of one pull. -/
def ofData (data : List UInt8) (cap : Option Nat) : Slice :=
  match cap with
  | none => { remaining := data }
  | some most => withMost { remaining := data } most

/-- What comes of a pull: some of the next bytes, no more than the room and the cap allow, and none
only if there is no room or there are none. A cap of nought counts as one. -/
structure HandsOver (cap : Option Nat) (slice : Slice) (room : Nat) (bytes : List UInt8)
    (next : Slice) : Prop where
  pull_eq : ∃ fits, ByteSource.pull slice room = (.delivered bytes fits, next)
  remaining_eq : slice.remaining = bytes ++ next.remaining
  length_le_room : bytes.length ≤ room
  length_le_cap : ∀ most, cap = some most → bytes.length ≤ max most 1
  of_nil : bytes = [] → room = 0 ∨ slice.remaining = []

theorem most_ofData (data : List UInt8) (cap : Option Nat) :
    (ofData data cap).most = cap.map (max · 1) := by
  cases cap <;> rfl

theorem handsOver {cap : Option Nat} {slice : Slice} (hmost : slice.most = cap.map (max · 1))
    (room : Nat) : HandsOver cap slice room (slice.remaining.take (slice.allowance room))
      { slice with remaining := slice.remaining.drop (slice.allowance room) } where
  pull_eq := ⟨_, rfl⟩
  remaining_eq := (List.take_append_drop _ _).symm
  length_le_room := Nat.le_trans (List.length_take_le _ _) (slice.allowance_le room)
  length_le_cap := by
    rintro most rfl
    have hle : slice.allowance room ≤ max most 1 := by
      rw [allowance, hmost]
      exact Nat.min_le_right _ _
    exact Nat.le_trans (List.length_take_le _ _) hle
  of_nil := by
    intro hnil
    have hsome : slice.most ≠ some 0 := by
      cases cap <;> simp [hmost]
    rcases List.take_eq_nil_iff.mp hnil with hnone | hnone
    · exact .inl (Nat.eq_zero_of_not_pos fun hroom =>
        Nat.ne_of_gt (allowance_pos hsome hroom) hnone)
    · exact .inr hnone

/-- The bytes handed over and those that are left are the data, and the cap stays. -/
structure Conserves (data : List UInt8) (cap : Option Nat) (recorded : Recorded Slice) : Prop where
  most_eq : recorded.source.most = cap.map (max · 1)
  data_eq : recorded.delivered ++ recorded.source.remaining = data

theorem Conserves.pull {data : List UInt8} {cap : Option Nat} {recorded : Recorded Slice}
    (h : Conserves data cap recorded) (room : Nat) :
    Conserves data cap (ByteSource.pull recorded room).2 where
  most_eq := h.most_eq
  data_eq := by
    rw [delivered_pull, List.append_assoc, ← h.data_eq]
    congr 1
    exact List.take_append_drop _ _

theorem conserves_drawn (data : List UInt8) (cap : Option Nat) (rooms : List Nat) :
    Conserves data cap (drawn rooms ⟨ofData data cap, #[]⟩) := by
  refine drawn_induction (fun room recorded h => h.pull room) rooms ⟨most_ofData data cap, ?_⟩
  cases cap <;> rfl

end Slice

/-! ## Reading again -/

namespace Script

/-- What a single read comes to. -/
inductive Outcome (room : Nat) where
  | answered (reply : Reply room)
  | interrupted

theorem lt_add_excess (room excess : Nat) : room < room + max excess 1 := by
  omega

/-- Plays one step. -/
def read (room : Nat) : List Step → Outcome room × List Step
  | [] => (.answered (.delivered [] (Nat.zero_le _)), [])
  | .interrupted :: rest => (.interrupted, rest)
  | .data bytes :: rest =>
      (.answered (.delivered (bytes.take room) (List.length_take_le _ _)),
        leftover bytes room ++ rest)
  | .endOfInput :: rest => (.answered (.delivered [] (Nat.zero_le _)), rest)
  | .failure text :: rest => (.answered (.failed ⟨text⟩), rest)
  | .overReport excess :: rest =>
      (.answered (.overrun (room + max excess 1) (lt_add_excess room excess)), rest)

/-- Reads again for as long as the read is interrupted, and comes to an answer, leaving the last
reader behind. -/
inductive Retries {ρ : Type} {room : Nat} (read : ρ → Outcome room × ρ) :
    ρ → Reply room → ρ → Prop where
  | answered {reader last : ρ} {reply : Reply room}
      (read_eq : read reader = (.answered reply, last)) : Retries read reader reply last
  | again {reader next last : ρ} {reply : Reply room}
      (read_eq : read reader = (.interrupted, next)) (retries : Retries read next reply last) :
      Retries read reader reply last

theorem Retries.unique {ρ : Type} {room : Nat} {read : ρ → Outcome room × ρ} {reader last last' : ρ}
    {reply reply' : Reply room} (h : Retries read reader reply last)
    (h' : Retries read reader reply' last') : reply = reply' ∧ last = last' := by
  induction h with
  | answered read_eq =>
      cases h' with
      | answered read_eq' =>
          cases read_eq.symm.trans read_eq'
          exact ⟨rfl, rfl⟩
      | again read_eq' => cases read_eq.symm.trans read_eq'
  | again read_eq _ ih =>
      cases h' with
      | answered read_eq' => cases read_eq.symm.trans read_eq'
      | again read_eq' retries' =>
          cases read_eq.symm.trans read_eq'
          exact ih retries'

variable {room : Nat} {steps : List Step}

/-- Reading again comes to an end. -/
theorem retries_play (room : Nat) (steps : List Step) :
    Retries (read room) steps (play room steps).1 (play room steps).2 := by
  induction steps with
  | nil => exact .answered rfl
  | cons step rest ih =>
      cases step with
      | interrupted => exact .again rfl ih
      | data | endOfInput | failure | overReport => exact .answered rfl

theorem Retries.play_eq {reply : Reply room} {rest : List Step}
    (h : Retries (read room) steps reply rest) : play room steps = (reply, rest) := by
  obtain ⟨rfl, rfl⟩ := h.unique (retries_play room steps)
  rfl

/-- The steps without the interruptions among them. -/
def uninterrupted (steps : List Step) : List Step :=
  steps.filter (· ≠ .interrupted)

theorem uninterrupted_leftover (bytes : List UInt8) (room : Nat) (rest : List Step) :
    uninterrupted (leftover bytes room ++ rest) = leftover bytes room ++ uninterrupted rest := by
  unfold leftover
  split <;> simp [uninterrupted]

/-- Without its interruptions a script answers by one read. -/
theorem read_uninterrupted (room : Nat) (steps : List Step) :
    read room (uninterrupted steps)
      = (.answered (play room steps).1, uninterrupted (play room steps).2) := by
  induction steps with
  | nil => rfl
  | cons step rest ih =>
      cases step with
      | interrupted => exact ih
      | data bytes =>
          rw [play, uninterrupted_leftover]
          rfl
      | endOfInput | failure | overReport => rfl

theorem play_uninterrupted (room : Nat) (steps : List Step) :
    play room (uninterrupted steps)
      = ((play room steps).1, uninterrupted (play room steps).2) :=
  (Retries.answered (read_uninterrupted room steps)).play_eq

def Step.bytes : Step → List UInt8
  | .data bytes => bytes
  | _ => []

/-- The bytes that the steps have yet to hand over. -/
def toCome (steps : List Step) : List UInt8 :=
  steps.flatMap Step.bytes

theorem toCome_leftover (bytes : List UInt8) (room : Nat) :
    toCome (leftover bytes room) = bytes.drop room := by
  unfold leftover
  split
  · rename_i hnone
    rw [hnone]
    rfl
  · simp [toCome, Step.bytes]

theorem bytes_append_toCome (room : Nat) (steps : List Step) :
    (play room steps).1.bytes ++ toCome (play room steps).2 = toCome steps := by
  induction steps with
  | nil => rfl
  | cons step rest ih =>
      cases step with
      | interrupted => exact ih
      | data bytes =>
          have happend : toCome (leftover bytes room ++ rest)
              = toCome (leftover bytes room) ++ toCome rest := List.flatMap_append
          rw [play, happend, toCome_leftover, Reply.bytes, ← List.append_assoc,
            List.take_append_drop]
          rfl
      | endOfInput | failure | overReport => rfl

/-- The first script went the way of the second, which was never interrupted, and lost no byte. -/
structure Persists (steps : List Step) (script calm : Recorded Script) : Prop where
  history_eq : script.history = calm.history
  steps_eq : uninterrupted script.source.steps = calm.source.steps
  data_eq : script.delivered ++ toCome script.source.steps = toCome steps

theorem Persists.pull {script calm : Recorded Script} (h : Persists steps script calm)
    (room : Nat) :
    Persists steps (ByteSource.pull script room).2 (ByteSource.pull calm room).2 := by
  have hcalm : play room calm.source.steps
      = ((play room script.source.steps).1, uninterrupted (play room script.source.steps).2) := by
    rw [← h.steps_eq]
    exact play_uninterrupted room script.source.steps
  obtain ⟨hreply, hsteps⟩ := Prod.ext_iff.mp hcalm
  have hreply : (ByteSource.pull calm room).1 = (ByteSource.pull script room).1 := hreply
  constructor
  · rw [history_pull, history_pull, h.history_eq, hreply]
  · exact hsteps.symm
  · rw [delivered_pull, List.append_assoc, ← h.data_eq]
    congr 1
    exact bytes_append_toCome room script.source.steps

theorem persists_drawn (steps : List Step) (rooms : List Nat) :
    Persists steps (drawn rooms ⟨⟨steps⟩, #[]⟩) (drawn rooms ⟨⟨uninterrupted steps⟩, #[]⟩) := by
  have hdrawn : ∀ {script calm : Recorded Script}, Persists steps script calm →
      Persists steps (drawn rooms script) (drawn rooms calm) := by
    induction rooms with
    | nil => exact id
    | cons room rooms ih => exact fun h => ih (h.pull room)
  exact hdrawn ⟨rfl, rfl, rfl⟩

/-- A pull reads again until it is not interrupted. -/
structure ReadsOn (steps : List Step) (room : Nat) (reply : Reply room) (rest : List Step) :
    Prop where
  ends : Retries (read room) steps reply rest
  unique : ∀ reply' rest', Retries (read room) steps reply' rest' → reply' = reply ∧ rest' = rest
  /-- The answer is that of a single read, were it not for the interruptions. -/
  read_eq : read room (uninterrupted steps) = (.answered reply, uninterrupted rest)

theorem readsOn_play (room : Nat) (steps : List Step) :
    ReadsOn steps room (play room steps).1 (play room steps).2 where
  ends := retries_play room steps
  unique := fun _ _ h => h.unique (retries_play room steps)
  read_eq := read_uninterrupted room steps

end Script

open Script in
/-- **Sources neither lose, repeat nor hide bytes.** However a slice is pulled, what it handed over
and what it has left are its data, and it comes back with nothing only for want of room or of bytes.
However a script is pulled, it answers as it would without its interruptions: each pull reads again
until it is not interrupted, which it comes to, and what it comes to is what a single read would
have brought. -/
theorem sources_hand_over :
    (∀ data cap rooms,
      let slice := drawn rooms ⟨Slice.ofData data cap, #[]⟩
      slice.delivered ++ slice.source.remaining = data ∧
        ∀ room, ∃ bytes next, Slice.HandsOver cap slice.source room bytes next) ∧
    ∀ steps rooms,
      let script := drawn rooms (⟨⟨steps⟩, #[]⟩ : Recorded Script)
      let calm := drawn rooms (⟨⟨uninterrupted steps⟩, #[]⟩ : Recorded Script)
      Persists steps script calm ∧
        ∀ room, ReadsOn script.source.steps room (ByteSource.pull script.source room).1
          (ByteSource.pull script.source room).2.steps := by
  constructor
  · intro data cap rooms slice
    have hconserves := Slice.conserves_drawn data cap rooms
    exact ⟨hconserves.data_eq, fun room => ⟨_, _, Slice.handsOver hconserves.most_eq room⟩⟩
  · intro steps rooms script calm
    exact ⟨persists_drawn steps rooms, fun room => readsOn_play room script.source.steps⟩

end Lookahead
