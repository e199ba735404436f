import Lookahead.Proofs.Pinning
import Lookahead.Source.Endless

/-!
# When lookahead overflows

A request overflows if the bytes asked for reach beyond the buffer, counted from the cursor, and for
no other reason. What the window already holds does not come into it: held bytes lie within the
buffer, so a request that they meet is one that fits.

The rest is arithmetic. Compaction leaves at most a chunk in front of the cursor, besides what a pin
holds back, and a buffer has room for a chunk more than the longest lookahead. So behind a
compaction that nothing holds back, no lookahead up to the longest ever overflows.
-/

namespace Lookahead

variable {σ : Type}

/-- What a refused request asked for, and how much there is room for in all. -/
def Event.refusal? : Event → Option (Nat × Nat)
  | .overflow requested capacity _ => some (requested, capacity)
  | _ => none

/-- The same, of the failure that the caller gets to see. -/
def BufferError.refusal? : BufferError → Option (Nat × Nat)
  | .overflow requested capacity => some (requested, capacity)
  | _ => none

namespace Buffer

/-! ## Requests and their bound -/

/-- What comes of asking for `amount` bytes: an overflow, noted and with nothing else done, if they
reach beyond the buffer, and otherwise no failure but those of the source. -/
structure Bounded {α : Type} (amount : Nat) (b : Buffer σ)
    (result : EStateM.Result BufferError (Buffer σ) α) : Prop where
  of_beyond : b.capacity < b.offset + amount →
    result = .error (.overflow amount b.capacity) (b.note (.overflow amount b.capacity b.offset))
  of_within : b.offset + amount ≤ b.capacity → ∀ error c, result = .error error c →
    ∃ cause, error = .source cause

theorem lt_of_beyond {amount : Nat} {b : Buffer σ} (h : b.capacity < b.offset + amount) :
    b.occupied < amount := by
  have hfilled := b.offset_add_occupied
  have hle := b.filled_le_capacity
  omega

variable [ByteSource σ] {α β : Type}

theorem bounded_request (amount : Nat) (b : Buffer σ) : Bounded amount b (request amount b) := by
  constructor
  · intro hbeyond
    have hmore := lt_of_beyond hbeyond
    unfold request
    rw [if_neg (Nat.not_le_of_lt hmore), if_pos hbeyond]
  · intro hwithin error c hrequest
    unfold request at hrequest
    split at hrequest
    · cases hrequest
    · rw [if_neg (Nat.not_lt_of_le hwithin)] at hrequest
      unfold pull at hrequest
      obtain ⟨hcause, -⟩ := settle_error hrequest
      exact hcause

omit [ByteSource σ] in
/-- What is done with the bytes asked for does not fail. -/
theorem Bounded.bind {first : EStateM BufferError (Buffer σ) α}
    {next : α → EStateM BufferError (Buffer σ) β} {amount : Nat} {b : Buffer σ}
    (h : Bounded amount b (first b)) (hnext : ∀ a c error d, next a c ≠ .error error d) :
    Bounded amount b ((first >>= next) b) := by
  obtain ⟨hbeyond, hwithin⟩ := h
  constructor
  · intro hlt
    rw [bind_apply, hbeyond hlt]
  · intro hle error c hfailed
    rw [bind_apply] at hfailed
    cases hfirst : first b with
    | ok a d =>
        rw [hfirst] at hfailed
        exact absurd hfailed (hnext a d error c)
    | error error' d =>
        rw [hfirst] at hfailed
        cases hfailed
        exact hwithin hle _ _ hfirst

theorem bounded_ensure (amount : Nat) (b : Buffer σ) : Bounded amount b (ensure amount b) :=
  (bounded_request amount b).bind fun _ _ _ _ hfailed => by cases hfailed

theorem bounded_countAhead (amount : Nat) (b : Buffer σ) :
    Bounded amount b (countAhead amount b) :=
  (bounded_ensure amount b).bind fun _ _ _ _ hfailed => by cases hfailed

theorem bounded_lookAhead (amount : Nat) (b : Buffer σ) : Bounded amount b (lookAhead amount b) :=
  (bounded_ensure amount b).bind fun _ _ _ _ hfailed => by cases hfailed

theorem bounded_isAtEnd (b : Buffer σ) : Bounded 1 b (isAtEnd b) :=
  (bounded_ensure 1 b).bind fun _ _ _ _ hfailed => by cases hfailed

omit [ByteSource σ] in
theorem passLineEnding_ne_error (b c : Buffer σ) (error : BufferError) :
    passLineEnding b ≠ .error error c := by
  unfold passLineEnding
  split
  · exact nofun
  · exact nofun

theorem bounded_consumeLineEnding (b : Buffer σ) :
    Bounded b.lineEnding.maxWidth b (consumeLineEnding b) := by
  have hpassed : Bounded b.lineEnding.maxWidth b
      ((ensure b.lineEnding.maxWidth >>= fun _ => passLineEnding) b) :=
    (bounded_ensure b.lineEnding.maxWidth b).bind
      fun _ c error d => passLineEnding_ne_error c d error
  exact hpassed

/-- Pulls leave the cursor where it is, so a filling that does not overflow at once never does. -/
theorem bounded_fill (amount : Nat) (b : Buffer σ) : Bounded amount b (fill amount b) := by
  constructor
  · intro hbeyond
    have hrequest := (bounded_request amount b).of_beyond hbeyond
    rw [fill, if_pos (lt_of_beyond hbeyond)]
    split
    · rename_i hanswer
      exact hanswer.symm.trans hrequest
    · rename_i hanswer
      cases hanswer.symm.trans hrequest
    · rename_i hanswer
      cases hanswer.symm.trans hrequest
  · intro hwithin error c hfill
    fun_induction fill amount b with
    | case1 b hmore error' b' hrequest =>
        cases hfill
        exact (bounded_request amount b).of_within hwithin _ _ hrequest
    | case2 b hmore b' hrequest => cases hfill
    | case3 b hmore received b' hrequest ih =>
        obtain ⟨bytes, -, hextends⟩ := extends_of_request hrequest
        refine ih ?_ hfill
        rw [hextends.offset_eq, b'.capacity_eq, hextends.limits_eq, ← b.capacity_eq]
        exact hwithin
    | case4 b henough => cases hfill

/-! ## Behind a compaction -/

omit [ByteSource σ]

/-- How far the cursor is ahead of the bytes that a pin holds back. -/
def back (b : Buffer σ) : Nat :=
  match b.pin with
  | none => 0
  | some pin => b.place.byte - min pin b.place.byte

theorem back_discard (b : Buffer σ) : b.discard.back = b.back := by
  have hdrops := b.drops_discard
  unfold back
  rw [hdrops.pin_eq, hdrops.place_eq]

theorem capacity_discard (b : Buffer σ) : b.discard.capacity = b.capacity := by
  rw [capacity_eq, capacity_eq, b.drops_discard.limits_eq]

theorem offset_le_back (b : Buffer σ) : b.offset ≤ b.droppable + b.back := by
  have hbyte := b.base_add_offset
  unfold droppable back
  cases b.pin with
  | none => exact Nat.le_add_right _ _
  | some pin =>
      simp only
      omega

/-- In front of the cursor, compaction leaves what a pin holds back and at most a chunk more. -/
theorem offset_discard_le (b : Buffer σ) : b.discard.offset ≤ b.limits.chunk + b.back := by
  have hdrops := b.drops_discard
  have hbefore := b.base_add_offset
  have hafter := b.discard.base_add_offset
  have hoffset := b.offset_le_back
  rw [hdrops.place_eq, hdrops.base_eq] at hafter
  have hshift : b.droppable ≤ b.shift + b.limits.chunk := by
    unfold shift
    split <;> omega
  omega

/-- The chunk to spare makes up for the chunk that compaction leaves. -/
theorem discard_within {b : Buffer σ} {amount : Nat} (h : b.back + amount ≤ b.limits.maximum) :
    b.discard.offset + amount ≤ b.discard.capacity := by
  have hoffset := b.offset_discard_le
  rw [capacity_discard, b.capacity_eq]
  unfold Limits.capacity
  omega

end Buffer

namespace Session

open Buffer

/-! ## Operations that ask for lookahead -/

/-- How many bytes of lookahead an operation asks for. -/
def Op.asks (lineEnding : LineEnding) : Op → Option Nat
  | .ensure amount | .fill amount | .countAhead amount | .lookAhead amount => some amount
  | .isAtEnd => some 1
  | .consumeLineEnding => some lineEnding.maxWidth
  | _ => none

def Answer.isOverflow : Answer → Bool
  | .failed (.overflow _ _) => true
  | _ => false

def Answer.refusal? : Answer → Option (Nat × Nat)
  | .failed error => error.refusal?
  | _ => none

theorem Answer.refusal?_eq_none {answer : Answer} (h : answer.isOverflow = false) :
    answer.refusal? = none := by
  cases answer with
  | failed error =>
      cases error with
      | overflow => cases h
      | _ => rfl
  | _ => rfl

/-- What comes of an operation that asks for `amount` bytes. -/
structure Answered (amount : Nat) (s : Session σ) (result : Answer × Session σ) : Prop where
  of_beyond : s.buffer.capacity < s.buffer.offset + amount →
    result = (.failed (.overflow amount s.buffer.capacity), { s with
      buffer := s.buffer.note (.overflow amount s.buffer.capacity s.buffer.offset) })
  of_within : s.buffer.offset + amount ≤ s.buffer.capacity → result.1.isOverflow = false

theorem answered_perform {α : Type} {operation : EStateM BufferError (Buffer (Recorded σ)) α}
    {onValue : α → Answer} {amount : Nat} {s : Session σ}
    (hvalue : ∀ a, (onValue a).isOverflow = false)
    (h : Bounded amount s.buffer (operation s.buffer)) :
    Answered amount s (s.perform operation onValue .failed) := by
  obtain ⟨hbeyond, hwithin⟩ := h
  unfold perform
  constructor
  · intro hlt
    rw [hbeyond hlt]
  · intro hle
    cases hresult : operation s.buffer with
    | ok a b => exact hvalue a
    | error error b =>
        obtain ⟨cause, rfl⟩ := hwithin hle error b hresult
        rfl

variable [ByteSource σ]

theorem answered_step {op : Op} {amount : Nat} {s : Session σ}
    (h : op.asks s.buffer.lineEnding = some amount) : Answered amount s (s.step op) := by
  cases op with
  | ensure n =>
      cases h
      exact answered_perform (fun _ => rfl) (bounded_ensure _ _)
  | fill n =>
      cases h
      exact answered_perform (fun _ => rfl) (bounded_fill _ _)
  | countAhead n =>
      cases h
      exact answered_perform (fun _ => rfl) (bounded_countAhead _ _)
  | lookAhead n =>
      cases h
      exact answered_perform (fun _ => rfl) (bounded_lookAhead _ _)
  | isAtEnd =>
      cases h
      exact answered_perform (fun _ => rfl) (bounded_isAtEnd _)
  | consumeLineEnding =>
      cases h
      exact answered_perform (fun _ => rfl) (bounded_consumeLineEnding _)
  | _ => cases h

/-! ## The other operations -/

omit [ByteSource σ] in
theorem withSpan_isOverflow (target : Target) {next : Span → Answer × Session σ} {s : Session σ}
    (h : ∀ span, (next span).1.isOverflow = false) :
    (s.withSpan target next).1.isOverflow = false := by
  unfold withSpan span
  split
  · exact h _
  · rename_i error hspan
    split at hspan
    · split at hspan
      · cases hspan
        rfl
      · cases hspan
    · cases hspan
      rfl

omit [ByteSource σ] in
theorem misused_isOverflow {operation : EStateM Misuse (Buffer (Recorded σ)) Unit}
    (s : Session σ) : (s.perform operation (fun _ => .done) .misused).1.isOverflow = false := by
  unfold perform
  cases operation s.buffer <;> rfl

/-- Only what asks for lookahead can overflow. -/
theorem isOverflow_of_asks_none {op : Op} {s : Session σ}
    (h : op.asks s.buffer.lineEnding = none) : (s.step op).1.isOverflow = false := by
  cases op with
  | ensure n | fill n | countAhead n | lookAhead n | isAtEnd | consumeLineEnding => cases h
  | consume n | consumeInLine n | consumeToNextLine n => exact misused_isOverflow s
  | restore target =>
      show (s.perform (restore _) _ _).1.isOverflow = false
      unfold perform restore
      split
      · rfl
      · rename_i hresult
        split at hresult
        · cases hresult
        · cases hresult
          rfl
  | span target => exact withSpan_isOverflow target fun _ => rfl
  | decode target decoding =>
      refine withSpan_isOverflow target fun span => ?_
      cases decoding <;> rfl
  | close how =>
      exact leave_answer (P := fun answer => answer.isOverflow = false) how s (fun _ => rfl)
        (fun _ => rfl) fun _ _ _ _ _ _ => rfl
  | _ => rfl

/-! ## Runs -/

/-- A run in which every operation that asks for lookahead comes right behind a compaction, asks for
`maximum` bytes at most, and has no active guard open. -/
inductive Paced (maximum : Nat) : Session σ → List Op → Prop where
  | done (s : Session σ) : Paced maximum s []
  | quiet {s : Session σ} {op : Op} {ops : List Op} (asks_eq : op.asks s.buffer.lineEnding = none)
      (rest : Paced maximum (s.step op).2 ops) : Paced maximum s (op :: ops)
  | request {s : Session σ} {op : Op} {ops : List Op} {amount : Nat}
      (asks_eq : op.asks s.buffer.lineEnding = some amount) (amount_le : amount ≤ maximum)
      (snapshots_eq : s.snapshots = []) (rest : Paced maximum ((s.step .discard).2.step op).2 ops) :
      Paced maximum s (.discard :: op :: ops)

omit [ByteSource σ] in
theorem back_eq_zero {s : Session σ} (hpinned : Pinned s) (hnone : s.snapshots = []) :
    s.buffer.back = 0 := by
  have hstacked := hpinned.stacked
  rw [hnone] at hstacked
  have hpin : s.buffer.pin = none := hstacked
  unfold back
  rw [hpin]

theorem answered_discard {op : Op} {amount : Nat} {s : Session σ}
    (h : op.asks s.buffer.lineEnding = some amount)
    (hback : s.buffer.back + amount ≤ s.buffer.limits.maximum) :
    ((s.step .discard).2.step op).1.isOverflow = false := by
  have hasks : op.asks (s.step .discard).2.buffer.lineEnding = some amount := by
    rw [lineEnding_step]
    exact h
  exact (answered_step hasks).of_within (discard_within hback)

theorem paced_play {maximum : Nat} {ops : List Op} {s : Session σ} (hpinned : Pinned s)
    (hmaximum : s.buffer.limits.maximum = maximum) (h : Paced maximum s ops) :
    ∀ report ∈ (s.play ops).1, report.answer.isOverflow = false := by
  induction h with
  | done s => exact fun report hmem => absurd hmem List.not_mem_nil
  | @quiet s op ops hasks _ ih =>
      intro report hmem
      rcases List.mem_cons.mp hmem with rfl | hmem
      · exact isOverflow_of_asks_none hasks
      · refine ih (pinned_step op s hpinned) ?_ report hmem
        rw [limits_step]
        exact hmaximum
  | @request s op ops amount hasks hle hnone _ ih =>
      intro report hmem
      rcases List.mem_cons.mp hmem with rfl | hmem
      · exact rfl
      rcases List.mem_cons.mp hmem with rfl | hmem
      · refine answered_discard hasks ?_
        rw [back_eq_zero hpinned hnone, hmaximum]
        omega
      · refine ih (pinned_step op _ (pinned_step .discard s hpinned)) ?_ report hmem
        rw [limits_step, limits_step]
        exact hmaximum

/-- What a session promises to those that ask it for lookahead. -/
structure Guarantees (limits : Limits) (s : Session σ) : Prop where
  /-- Beyond the buffer nothing is pulled: the overflow and a note of it is all that happens. -/
  of_beyond : ∀ op amount, op.asks s.buffer.lineEnding = some amount →
    limits.maximum + limits.chunk < s.buffer.offset + amount →
    s.step op = (.failed (.overflow amount (limits.maximum + limits.chunk)), { s with
      buffer := s.buffer.note
        (.overflow amount (limits.maximum + limits.chunk) s.buffer.offset) })
  of_within : ∀ op amount, op.asks s.buffer.lineEnding = some amount →
    s.buffer.offset + amount ≤ limits.maximum + limits.chunk → (s.step op).1.isOverflow = false
  of_discard : ∀ op amount, op.asks s.buffer.lineEnding = some amount →
    (s.step .discard).2.buffer.back + amount ≤ limits.maximum →
    ((s.step .discard).2.step op).1.isOverflow = false
  back_eq : s.snapshots = [] → (s.step .discard).2.buffer.back = 0

theorem guarantees_of_pinned {limits : Limits} {s : Session σ} (hpinned : Pinned s)
    (hlimits : s.buffer.limits = limits) : Guarantees limits s := by
  have hcapacity : s.buffer.capacity = limits.maximum + limits.chunk := by
    rw [capacity_eq, hlimits]
    rfl
  have hback : (s.step .discard).2.buffer.back = s.buffer.back := back_discard s.buffer
  constructor
  · intro op amount hasks hbeyond
    rw [← hcapacity] at hbeyond ⊢
    exact (answered_step hasks).of_beyond hbeyond
  · intro op amount hasks hwithin
    rw [← hcapacity] at hwithin
    exact (answered_step hasks).of_within hwithin
  · intro op amount hasks hwithin
    rw [hback, ← hlimits] at hwithin
    exact answered_discard hasks hwithin
  · intro hnone
    rw [hback]
    exact back_eq_zero hpinned hnone

/-- **Lookahead up to the longest is guaranteed.** In every state that a session can come to, a
request overflows if and only if it reaches beyond the buffer, before anything is pulled for it; and
behind a compaction it does not overflow if it asks for no more than the longest lookahead less what
open guards hold back. So a run that compacts before it asks, with no guard open, never meets an
overflow, however long the stream is. -/
theorem lookahead_guaranteed {limits : Limits} (valid : limits.Valid) (lineEnding : LineEnding)
    (label : String) (source : σ) :
    ∃ fresh, start limits lineEnding label source = .ok fresh ∧
      (∀ ops, Guarantees limits (fresh.play ops).2) ∧
      ∀ ops, Paced limits.maximum fresh ops →
        ∀ report ∈ (fresh.play ops).1, report.answer.isOverflow = false := by
  refine ⟨_, start_ok valid lineEnding label source, fun ops => ?_, fun ops hpaced => ?_⟩
  · obtain ⟨hpinned, hlimits⟩ := play_induction
      (P := fun s => Pinned s ∧ s.buffer.limits = limits)
      (fun op s h => ⟨pinned_step op s h.1, (limits_step op s).trans h.2⟩) ops
      (s := { buffer := ofLimits limits lineEnding label ⟨source, #[]⟩ })
      ⟨pinned_ofLimits limits lineEnding label source, rfl⟩
    exact guarantees_of_pinned hpinned hlimits
  · exact paced_play (pinned_ofLimits limits lineEnding label source) rfl hpaced

/-- Room for eight bytes: nine are too many, and four at a time never are. -/
theorem lookahead_guaranteed_of_endless :
    (⟨4, 4⟩ : Limits).Valid ∧
      ∃ fresh, start ⟨4, 4⟩ .lf "input" ({} : Endless) = .ok fresh ∧
        (fresh.step (.ensure 9)).1 = .failed (.overflow 9 8) ∧
        (fresh.step (.ensure 8)).1.isOverflow = false ∧
        Paced 4 fresh [.discard, .ensure 4, .consume 4, .discard, .lookAhead 4] ∧
        ∀ report ∈ (fresh.play [.discard, .ensure 4, .consume 4, .discard, .lookAhead 4]).1,
          report.answer.isOverflow = false := by
  have hvalid : (⟨4, 4⟩ : Limits).Valid := by decide
  obtain ⟨fresh, hstart, hguarantees, hpaced⟩ :=
    lookahead_guaranteed hvalid .lf "input" ({} : Endless)
  obtain ⟨hbeyond, hwithin, -, -⟩ := hguarantees []
  refine ⟨hvalid, fresh, hstart, ?_⟩
  obtain rfl := Except.ok.inj ((start_ok hvalid .lf "input" _).symm.trans hstart)
  have hrun : Paced 4
      ({ buffer := ofLimits ⟨4, 4⟩ .lf "input" ⟨{}, #[]⟩ } : Session Endless)
      [.discard, .ensure 4, .consume 4, .discard, .lookAhead 4] :=
    .request rfl (Nat.le_refl 4) rfl (.quiet rfl (.request rfl (Nat.le_refl 4) rfl (.done _)))
  refine ⟨?_, ?_, hrun, hpaced _ hrun⟩
  · exact congrArg Prod.fst (hbeyond (.ensure 9) 9 rfl (by decide))
  · exact hwithin (.ensure 8) 8 rfl (by decide)

end Session

end Lookahead
