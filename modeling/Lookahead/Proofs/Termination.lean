import Lookahead.Proofs.Outcomes
import Lookahead.Source.Recorded

/-!
# Reading always gets on

A line is read by loops within loops, none of which counts. Each round of a loop consumes something,
and what attempts inside of it consumed in vain they give back before the round is over. While a
line is read nothing is dropped, so that the cursor can only go as far as the buffer has room:
`Rounds` are bounded by the room ahead of the cursor, even over a source without an end.

The loop over lines is bounded by the source alone. Each turn goes on behind what it consumed and
leaves no pin to keep the buffer from compacting, so a reading goes on for no longer than there are
bytes, and what it ends with is what `read` answers.
-/

namespace Lookahead

variable {σ : Type}

namespace Scan

variable {α : Type}

/-! ## Loops -/

/-- A scan that is run again as long as its answers ask for it: the number of rounds, and what the
last of them came to. -/
inductive Rounds (scan : Scan σ α) (again : α → Bool) :
    Nat → Buffer σ → EStateM.Result Fault (Buffer σ) α → Prop where
  | failed {b c : Buffer σ} {fault : Fault} (answer : scan b = .error fault c) :
      Rounds scan again 1 b (.error fault c)
  | last {b c : Buffer σ} {a : α} (answer : scan b = .ok a c) (enough : again a = false) :
      Rounds scan again 1 b (.ok a c)
  | next {rounds : Nat} {b c : Buffer σ} {a : α} {result : EStateM.Result Fault (Buffer σ) α}
      (answer : scan b = .ok a c) (more : again a = true)
      (rest : Rounds scan again rounds c result) : Rounds scan again (rounds + 1) b result

/-- The loop ends within the room ahead of the cursor, with what its last round left. -/
def EndsWithin (scan : Scan σ α) (again : α → Bool) (b after : Buffer σ) : Prop :=
  ∃ rounds last, Rounds scan again rounds b last ∧ rounds ≤ b.reach + 1 ∧ after = stateOf last

theorem EndsWithin.next {scan : Scan σ α} {again : α → Bool} {b c after : Buffer σ} {a : α}
    (h : EndsWithin scan again c after) (answer : scan b = .ok a c) (more : again a = true)
    (hreach : c.reach < b.reach) : EndsWithin scan again b after := by
  obtain ⟨rounds, last, hrounds, hle, hafter⟩ := h
  exact ⟨rounds + 1, last, .next answer more hrounds, by omega, hafter⟩

theorem many_endsWithin {scan : Scan σ (Option α)} (steady : Steady scan)
    (advances : Advances scan) (b : Buffer σ) :
    EndsWithin scan Option.isSome b (stateOf (many scan steady advances b)) := by
  fun_induction many scan steady advances b with
  | case1 b fault c hanswer => exact ⟨1, _, .failed hanswer, Nat.le_add_left _ _, rfl⟩
  | case2 b c hanswer => exact ⟨1, _, .last hanswer rfl, Nat.le_add_left _ _, rfl⟩
  | case3 b a c hanswer ih =>
      have hless := advances b a c hanswer
      exact ih.next hanswer rfl ((steady b _ c hanswer).reach_lt hless)

end Scan

namespace Entries

open Scan Buffer

variable [ByteSource σ]

def Piece.isText : Piece → Bool
  | .text _ => true
  | _ => false

theorem pieces_endsWithin (b : Buffer σ) :
    EndsWithin piece Piece.isText b (stateOf (pieces b)) := by
  fun_induction pieces b with
  | case1 b fault c hanswer => exact ⟨1, _, .failed hanswer, Nat.le_add_left _ _, rfl⟩
  | case2 b c hanswer | case3 b c hanswer =>
      exact ⟨1, _, .last hanswer rfl, Nat.le_add_left _ _, rfl⟩
  | case4 b bytes c hanswer fault d hrest ih | case5 b bytes c hanswer rest d hrest ih =>
      rw [hrest] at ih
      have hless := piece_text_byte_lt hanswer
      exact ih.next hanswer rfl ((steady_piece b _ c hanswer).reach_lt hless)

/-! ## Lines -/

/-- What calling `assignment` comes to. -/
inductive Assigns (b : Buffer σ) : EStateM.Result Fault (Buffer σ) (Option Entry) → Prop where
  | entry {entry : Entry} {c : Buffer σ} (base_eq : c.base = b.base) (pin_eq : c.pin = b.pin)
      (consumes : b.place.byte < c.place.byte)
      (within : c.place.byte ≤ b.place.byte + b.capacity) : Assigns b (.ok (some entry) c)
  | mismatch {c : Buffer σ} (base_eq : c.base = b.base) (pin_eq : c.pin = b.pin)
      (place_eq : c.place = b.place) : Assigns b (.ok none c)
  | failed {fault : Fault} {c : Buffer σ} (base_eq : c.base = b.base) (pin_eq : c.pin = b.pin)
      (place_eq : c.place = b.place) (outcome : Outcome (.error fault)) :
      Assigns b (.error fault c)

theorem assigns (b : Buffer σ) : Assigns b (assignment b) := by
  have hsound := sound_assignment b
  obtain ⟨body, hcloses⟩ : ∃ body, Closes b body (assignment b) := ⟨_, closes_attempt hsound⟩
  generalize assignment b = result at hsound hcloses
  cases hsound with
  | error hhalts =>
      cases hcloses with
      | failed hmoves hplace =>
          exact .failed hhalts.base_eq hmoves.pin_eq hplace (outcome_of_reason hhalts.reason)
  | @ok found c hproceeds hfound =>
      -- The arena begins where it did, so the cursor is within a buffer's room of its old place.
      have hbase := b.base_le_byte
      have hbyte := c.base_add_offset
      have hfits := c.offset_le_capacity
      rw [c.capacity_eq, hproceeds.limits_eq, ← b.capacity_eq] at hfits
      rw [hproceeds.base_eq] at hbyte
      cases hcloses with
      | back hmoves hplace => exact .mismatch hproceeds.base_eq hmoves.pin_eq hplace
      | kept =>
          have hlength := List.length_pos_of_ne_nil hfound
          rw [hproceeds.consumed_length] at hlength
          exact .entry hproceeds.base_eq hproceeds.pin_eq (by omega) (by omega)

/-! ## Readings -/

theorem delivered_of_pulls {s t : Recorded σ} {bytes : List UInt8} (h : Pulls s bytes t) :
    t.delivered = s.delivered ++ bytes := by
  induction h with
  | none => rw [List.append_nil]
  | @more t u bytes others room fits _ hpull ih =>
      have hdelivered := t.delivered_pull room
      rw [hpull, ih, List.append_assoc] at hdelivered
      exact hdelivered

/-- Between two turns no guard is open, and whatever was delivered is behind the cursor or ahead of
it. -/
structure Settled (b : Buffer (Recorded σ)) : Prop where
  pin_eq : b.pin = none
  stop_eq : b.stop = b.source.delivered.length

theorem Reaches.settled {entries others : Array Entry} {b c : Buffer (Recorded σ)}
    (h : Reaches entries b others c) (hb : Settled b) : Settled c := by
  induction h with
  | start => exact hb
  | next _ hturn ih =>
      have hgoes := goesOn_of_turn hturn
      obtain ⟨bytes, hpulls, hstop⟩ := hgoes.delivers
      refine ⟨hgoes.pin_eq.trans ih.pin_eq, ?_⟩
      rw [hstop, ih.stop_eq, delivered_of_pulls hpulls, List.length_append]

/-- What `read` answers where the reading ends: the entries, or the failure that it ended with. -/
inductive Finishes (b : Buffer σ) :
    EStateM.Result Fault (Buffer σ) (Option (List Entry)) → Prop where
  | entries {entries : Array Entry} {c : Buffer σ} (ends : Ends #[] b (.ok entries c)) :
      Finishes b (.ok (some entries.toList) c)
  | failed {fault : Fault} {c : Buffer σ} (ends : Ends #[] b (.error fault c)) :
      Finishes b (.error fault c)

theorem Ends.finishes {b : Buffer σ} {result : EStateM.Result Fault (Buffer σ) (Array Entry)}
    (h : Ends #[] b result) : Finishes b (read b) := by
  rw [h.read_eq]
  cases result with
  | ok entries c => exact .entries h
  | error fault c => exact .failed h

/-- What is bounded by the room in the buffer, over whatever source. -/
structure Progresses (b : Buffer σ) : Prop where
  loops : ∀ {α : Type} (scan : Scan σ (Option α)) (steady : Steady scan) (advances : Advances scan),
    EndsWithin scan Option.isSome b (stateOf (many scan steady advances b))
  pieces : EndsWithin piece Piece.isText b (stateOf (pieces b))
  assignment : Assigns b (assignment b)

/-- **Reading always gets on.** Wherever it is called, `assignment` ends with an entry, a mismatch
or an ordinary failure, and its loops end before the buffer is used up, whatever the source. Every
turn of a reading that goes on consumes something and leaves no pin, so the reading ends if its
source has no more than finitely many bytes for it, and `read` answers with what it ended with. -/
theorem read_progresses {limits : Limits} (valid : limits.Valid) (lineEnding : LineEnding)
    (label : String) (source : σ) :
    (∀ b : Buffer (Recorded σ), Progresses b) ∧
      ∃ b, Buffer.start limits lineEnding label (⟨source, #[]⟩ : Recorded σ) = .ok b ∧
        (∀ entries c others d, Reaches #[] b entries c → turn entries c = .inl (others, d) →
          c.place.byte < d.place.byte ∧ d.pin = none) ∧
        ∀ total, (∀ entries c, Reaches #[] b entries c → c.source.delivered.length ≤ total) →
          Finishes b (read b) := by
  have hprogresses : ∀ b : Buffer (Recorded σ), Progresses b := fun b =>
    ⟨fun scan steady advances => many_endsWithin steady advances b, pieces_endsWithin b, assigns b⟩
  have hfresh : Settled (ofLimits limits lineEnding label (⟨source, #[]⟩ : Recorded σ)) :=
    ⟨rfl, rfl⟩
  refine ⟨hprogresses, _, start_of_valid valid lineEnding label _, ?_, ?_⟩
  · intro entries c others d hreaches hturn
    exact ⟨(goesOn_of_turn hturn).byte_lt, ((hreaches.next hturn).settled hfresh).pin_eq⟩
  · intro total hfinite
    obtain ⟨result, hends⟩ := Reaches.start.exists_ends total fun entries c hreaches => by
      rw [(hreaches.settled hfresh).stop_eq]
      exact hfinite entries c hreaches
    exact hends.finishes

/-- A source that seems to end and goes on. It has twelve bytes in all, so the reading ends. -/
theorem read_progresses_of_script :
    (⟨8, 4⟩ : Limits).Valid ∧
      ∃ b, Buffer.start ⟨8, 4⟩ .lfOrCrlf "doc" (⟨⟨[.data [107, 61, 34, 97, 34], .endOfInput,
          .data [10, 107, 61, 34, 98, 34, 10]]⟩, #[]⟩ : Recorded Script) = .ok b ∧
        (∀ entries c, Reaches #[] b entries c → c.source.delivered.length ≤ 12) ∧
        Progresses b ∧ Finishes b (read b) := by
  have hvalid : (⟨8, 4⟩ : Limits).Valid := by decide
  obtain ⟨hprogresses, b, hstart, -, hends⟩ := read_progresses hvalid .lfOrCrlf "doc"
    (⟨[.data [107, 61, 34, 97, 34], .endOfInput, .data [10, 107, 61, 34, 98, 34, 10]]⟩ : Script)
  have hfinite : ∀ entries c, Reaches #[] b entries c → c.source.delivered.length ≤ 12 := by
    obtain rfl := Except.ok.inj ((start_of_valid hvalid .lfOrCrlf "doc" _).symm.trans hstart)
    intro entries c hreaches
    have hstop := (hreaches.settled ⟨rfl, rfl⟩).stop_eq
    have hsupplies : Supplies fun recorded : Recorded Script => supply recorded.source :=
      fun recorded => supplies_supply recorded.source
    have hle := hsupplies.stop_le hreaches
    rw [hstop] at hle
    exact Nat.le_trans (Nat.le_add_left _ _) hle
  exact ⟨hvalid, b, hstart, hfinite, hprogresses b, hends 12 hfinite⟩

end Entries

end Lookahead
