import Mathlib
import Lookahead.Proofs.Pulling
import Lookahead.Source.Script

/-!
# The log keeps the books

Who reads the log of a buffer sees nothing else of it, and can still tell which stretch of the
stream is retained. Only two things ever move an end of that stretch. A pull that succeeds moves the
far end, a compaction the near one, and each writes an event that says by how much. So the sums of
these numbers are the two ends (`Balanced`).

This has to hold at any moment, not only between operations: one filling can make many pulls, and
what an event says of the end of the retained bytes is said right behind its pull. `Acts` is what a
buffer does at one go, with the event that it writes about it, and whatever an operation does comes
to a row of acts (`Becomes`), be it failed, misused or rolled back later on. An event stays in the
log for good, so each one leads back to the act that wrote it (`Becomes.exists_acts`).

Refusals are told twice, to the log and to the caller. That the two agree is a matter of operations
and not of acts: `Tells` says it of what an operation comes to, and reports carry it through a run.
-/

namespace Lookahead

variable {σ : Type}

/-! ## The numbers in a log -/

namespace Event

/-- How many bytes were dropped. -/
def shift : Event → Nat
  | .compacted shift _ => shift
  | _ => 0

/-- How many bytes were pulled. -/
def received : Event → Nat
  | .pulled _ received _ => received
  | _ => 0

/-- What a pull asked for, and what it brought. -/
def receipt? : Event → Option (Nat × Nat)
  | .pulled requested received _ => some (requested, received)
  | _ => none

/-- All the bytes that were dropped, by the account of these events. -/
def dropped (events : List Event) : Nat :=
  (events.map shift).sum

/-- All the bytes that were pulled. -/
def gained (events : List Event) : Nat :=
  (events.map received).sum

@[simp] theorem dropped_append (first second : List Event) :
    dropped (first ++ second) = dropped first + dropped second := by
  simp [dropped]

@[simp] theorem gained_append (first second : List Event) :
    gained (first ++ second) = gained first + gained second := by
  simp [gained]

end Event

/-- What a pull asked for, and what it brought, unless it failed. -/
def Pulled.receipt? (pulled : Pulled) : Option (Nat × Nat) :=
  match pulled.failure? with
  | none => some (pulled.room, pulled.bytes.length)
  | some _ => none

namespace Buffer

/-! ## What a buffer does at one go -/

/-- The first buffer does one thing, writes the event about it, if there is one, and is the second
then. -/
inductive Acts [ByteSource σ] (b : Buffer (Recorded σ)) :
    Option Event → Buffer (Recorded σ) → Prop where
  | pulls {amount : Nat} {pulled : Pulled} {c : Buffer (Recorded σ)}
      (makes : MakesPull amount b pulled c) (succeeds : pulled.failure? = none)
      (log_eq : c.log = b.log.push (.pulled pulled.room pulled.bytes.length c.filled)) :
      Acts b (some (.pulled pulled.room pulled.bytes.length c.filled)) c
  | fails {amount : Nat} {pulled : Pulled} {error : SourceError} {c : Buffer (Recorded σ)}
      (makes : MakesPull amount b pulled c) (fails : pulled.failure? = some error)
      (log_eq : c.log = b.log) : Acts b none c
  | refuses {amount : Nat} (exceeds : b.capacity < b.offset + amount) :
      Acts b (some (.overflow amount b.capacity b.offset))
        (b.note (.overflow amount b.capacity b.offset))
  | moves {c : Buffer (Recorded σ)} (moves : Moves { b with pin := c.pin } c) : Acts b none c
  | compacts {count : Nat} {c : Buffer (Recorded σ)} (drops : Drops b c count)
      (log_eq : c.log = b.log.push (.compacted count c.filled)) :
      Acts b (some (.compacted count c.filled)) c
  | defers : Acts b (some (.deferred b.droppable b.offset))
      (b.note (.deferred b.droppable b.offset))

variable [ByteSource σ] {b c d : Buffer (Recorded σ)} {event : Option Event}

namespace Acts

theorem log_eq (h : Acts b event c) : c.log.toList = b.log.toList ++ event.toList := by
  cases h with
  | pulls _ _ log_eq | compacts _ log_eq => simp [log_eq]
  | fails _ _ log_eq => simp [log_eq]
  | refuses | defers => simp [note]
  | moves hmoves => simp [hmoves.log_eq]

/-- The near end moves on by what is dropped, and the event says how much that is. -/
theorem base_eq (h : Acts b event c) : c.base = b.base + Event.dropped event.toList := by
  cases h with
  | pulls makes | fails makes => exact makes.extends_by.base_eq
  | refuses | defers => rfl
  | moves hmoves => exact hmoves.base_eq
  | compacts drops => simp [Event.dropped, Event.shift, drops.base_eq]

/-- The far end moves on by what is pulled. -/
theorem stop_eq (h : Acts b event c) : c.stop = b.stop + Event.gained event.toList := by
  cases h with
  | pulls makes => simp [Event.gained, Event.received, makes.extends_by.stop_eq]
  | fails makes fails =>
      simp [Event.gained, makes.extends_by.stop_eq, Pulled.bytes_of_failure fails]
  | refuses | defers => rfl
  | moves hmoves => exact hmoves.stop_eq
  | compacts drops => exact drops.stop_eq

/-- An event tells of a pull if and only if one was made and succeeded. -/
theorem receipts_eq (h : Acts b event c) : c.source.history.toList.filterMap Pulled.receipt?
    = b.source.history.toList.filterMap Pulled.receipt?
      ++ event.toList.filterMap Event.receipt? := by
  cases h with
  | pulls makes succeeds =>
      simp [makes.history_eq, Pulled.receipt?, succeeds, Event.receipt?]
  | fails makes fails => simp [makes.history_eq, Pulled.receipt?, fails]
  | refuses | defers => simp [note, Event.receipt?]
  | moves hmoves => simp [hmoves.source_eq]
  | compacts drops => simp [drops.source_eq, Event.receipt?]

end Acts

/-! ## One thing after another -/

/-- The first buffer comes to be the second by what it does, one thing after another. -/
def Becomes : Buffer (Recorded σ) → Buffer (Recorded σ) → Prop :=
  Relation.ReflTransGen fun b c => ∃ event, Acts b event c

/-- Nothing else is ever done to a buffer. -/
theorem lasting_becomes (b : Buffer (Recorded σ)) : Session.Lasting (Becomes b) where
  request amount c h := by
    have hrequests := requests amount c
    generalize request amount c = result at hrequests
    cases hrequests with
    | held => exact h
    | beyond _ exceeds => exact h.tail ⟨_, .refuses exceeds⟩
    | pulled _ makes succeeds log_eq => exact h.tail ⟨_, .pulls makes succeeds log_eq⟩
    | failed _ makes fails log_eq => exact h.tail ⟨_, .fails makes fails log_eq⟩
  moves h hmoves := h.tail ⟨_, .moves hmoves⟩
  discard {c} h := by
    by_cases far : c.limits.chunk < c.droppable
    · have hdrops := c.drops_discard
      rw [shift, if_pos far] at hdrops
      exact h.tail ⟨_, .compacts hdrops (by rw [discard, if_pos far]; rfl)⟩
    · rw [discard, if_neg far]
      split
      · exact h.tail ⟨_, .defers⟩
      · exact h

/-- The log tells where the retained bytes begin and end, and which pulls brought them. -/
structure Balanced (b : Buffer (Recorded σ)) : Prop where
  dropped_eq : Event.dropped b.log.toList = b.base
  gained_eq : Event.gained b.log.toList = b.stop
  receipts_eq : b.log.toList.filterMap Event.receipt?
    = b.source.history.toList.filterMap Pulled.receipt?

theorem Balanced.of_acts (h : Balanced b) (acts : Acts b event c) : Balanced c where
  dropped_eq := by rw [acts.log_eq, Event.dropped_append, h.dropped_eq, acts.base_eq]
  gained_eq := by rw [acts.log_eq, Event.gained_append, h.gained_eq, acts.stop_eq]
  receipts_eq := by rw [acts.log_eq, List.filterMap_append, h.receipts_eq, acts.receipts_eq]

theorem Balanced.of_becomes (h : Balanced b) (hbecomes : Becomes b c) : Balanced c := by
  induction hbecomes with
  | refl => exact h
  | tail _ hacts ih =>
      obtain ⟨event, acts⟩ := hacts
      exact ih.of_acts acts

theorem Becomes.log_grows (h : Becomes b c) : b.log.toList <+: c.log.toList := by
  induction h with
  | refl => exact List.prefix_rfl
  | tail _ hacts ih =>
      obtain ⟨event, acts⟩ := hacts
      rw [acts.log_eq]
      exact ih.trans (List.prefix_append _ _)

/-- Each event in a log was written by some act on the way there, behind the events before it. -/
theorem Becomes.exists_acts (h : Becomes b c) (hempty : b.log = #[]) {before after : List Event}
    {written : Event} (hlog : c.log.toList = before ++ written :: after) :
    ∃ d e, Becomes b d ∧ Acts d (some written) e ∧ Becomes e c ∧ d.log.toList = before := by
  induction h generalizing after with
  | refl => simp [hempty] at hlog
  | @tail d e hbecomes hacts ih =>
      obtain ⟨event, acts⟩ := hacts
      -- If it was not written just now, the last act made the log longer behind it at most.
      have hearlier : ∀ {others : List Event}, d.log.toList = before ++ written :: others →
          ∃ d' e', Becomes b d' ∧ Acts d' (some written) e' ∧ Becomes e' e ∧
            d'.log.toList = before := by
        intro others hothers
        obtain ⟨d', e', hd, hwritten, he, hbefore⟩ := ih hothers
        exact ⟨d', e', hd, hwritten, he.tail ⟨event, acts⟩, hbefore⟩
      rw [acts.log_eq] at hlog
      cases event with
      | none =>
          rw [Option.toList_none, List.append_nil] at hlog
          exact hearlier hlog
      | some event =>
          rw [Option.toList_some] at hlog
          rcases List.eq_nil_or_concat' after with rfl | ⟨others, last, rfl⟩
          · obtain ⟨hbefore, hevent⟩ := List.append_inj' hlog rfl
            obtain rfl := List.singleton_inj.mp hevent
            exact ⟨d, e, hbecomes, acts, .refl, hbefore⟩
          · rw [← List.cons_append, ← List.append_assoc] at hlog
            exact hearlier (List.append_inj' hlog rfl).1

/-! ## Refusals -/

/-- The refusals that a log tells of. -/
def refusals (b : Buffer (Recorded σ)) : List (Nat × Nat) :=
  b.log.toList.filterMap Event.refusal?

/-- A refusal is written down if and only if the operation fails with it. -/
inductive Tells {α : Type} (b : Buffer (Recorded σ)) :
    EStateM.Result BufferError (Buffer (Recorded σ)) α → Prop where
  | ok {a : α} {c : Buffer (Recorded σ)} (silent : c.refusals = b.refusals) : Tells b (.ok a c)
  | error {error : BufferError} {c : Buffer (Recorded σ)}
      (told : c.refusals = b.refusals ++ error.refusal?.toList) : Tells b (.error error c)

variable {α β : Type}

omit [ByteSource σ] in
/-- What was told of no refusal so far can be left out. -/
theorem Tells.of_silent {result : EStateM.Result BufferError (Buffer (Recorded σ)) α}
    (silent : c.refusals = b.refusals) (h : Tells c result) : Tells b result := by
  cases h with
  | ok later => exact .ok (later.trans silent)
  | error told => exact .error (silent ▸ told)

omit [ByteSource σ] in
theorem Tells.bind {first : EStateM BufferError (Buffer (Recorded σ)) α}
    {next : α → EStateM BufferError (Buffer (Recorded σ)) β} (h : Tells b (first b))
    (hnext : ∀ a c, Tells c (next a c)) : Tells b ((first >>= next) b) := by
  rw [bind_apply]
  generalize first b = result at h
  cases h with
  | error told => exact .error told
  | ok silent => exact (hnext _ _).of_silent silent

theorem tells_request (amount : Nat) (b : Buffer (Recorded σ)) : Tells b (request amount b) := by
  have hrequests := requests amount b
  generalize request amount b = result at hrequests ⊢
  cases hrequests with
  | held => exact .ok rfl
  | beyond => exact .error (by simp [refusals, note, Event.refusal?, BufferError.refusal?])
  | pulled _ _ _ log_eq => exact .ok (by simp [refusals, log_eq, Event.refusal?])
  | failed _ _ _ log_eq => exact .error (by simp [refusals, log_eq, BufferError.refusal?])

theorem tells_ensure (amount : Nat) (b : Buffer (Recorded σ)) : Tells b (ensure amount b) :=
  (tells_request amount b).bind fun _ _ => .ok rfl

theorem tells_countAhead (amount : Nat) (b : Buffer (Recorded σ)) :
    Tells b (countAhead amount b) :=
  (tells_ensure amount b).bind fun _ _ => .ok rfl

theorem tells_lookAhead (amount : Nat) (b : Buffer (Recorded σ)) : Tells b (lookAhead amount b) :=
  (tells_ensure amount b).bind fun _ _ => .ok rfl

theorem tells_isAtEnd (b : Buffer (Recorded σ)) : Tells b (isAtEnd b) :=
  (tells_ensure 1 b).bind fun _ _ => .ok rfl

theorem tells_consumeLineEnding (b : Buffer (Recorded σ)) : Tells b (consumeLineEnding b) := by
  have hpassed : ∀ (c : Buffer (Recorded σ)), Tells c (passLineEnding c) := by
    intro c
    unfold passLineEnding
    split
    · exact .ok rfl
    · exact .ok rfl
  exact (tells_ensure b.lineEnding.maxWidth b).bind fun _ c => hpassed c

omit [ByteSource σ] in
theorem refusals_discard (b : Buffer (Recorded σ)) : b.discard.refusals = b.refusals := by
  unfold discard
  split
  · simp [refusals, note, dropFront, Event.refusal?]
  · split
    · simp [refusals, note, Event.refusal?]
    · rfl

/-- A filling is over with the first request that is refused. -/
theorem tells_fill (amount : Nat) (b : Buffer (Recorded σ)) : Tells b (fill amount b) := by
  fun_induction fill amount b with
  | case1 b _ error c hrequest =>
      have hstep := tells_request amount b
      rw [hrequest] at hstep
      cases hstep with
      | error told => exact .error told
  | case2 b _ c hrequest =>
      have hstep := tells_request amount b
      rw [hrequest] at hstep
      cases hstep with
      | ok silent => exact .ok silent
  | case3 b _ received c hrequest ih =>
      have hstep := tells_request amount b
      rw [hrequest] at hstep
      cases hstep with
      | ok silent => exact ih.of_silent silent
  | case4 b _ => exact .ok rfl

end Buffer

namespace Session

open Buffer

/-! ## Operations and their reports -/

/-- What a report tells of a refusal: its answer and the events that go with it. -/
theorem told_perform {α : Type} {operation : EStateM BufferError (Buffer (Recorded σ)) α}
    {onValue : α → Answer} {s : Session σ} (hvalue : ∀ a, (onValue a).refusal? = none)
    (h : Tells s.buffer (operation s.buffer)) :
    (s.perform operation onValue .failed).2.buffer.refusals
      = s.buffer.refusals ++ (s.perform operation onValue .failed).1.refusal?.toList := by
  unfold perform
  generalize operation s.buffer = result at h
  cases h with
  | ok silent => simp [hvalue, silent]
  | error told => exact told

variable [ByteSource σ]

/-- Who asks for no lookahead writes of no refusal. -/
theorem silent_of_asks_none {op : Op} {s : Session σ} (h : op.asks s.buffer.lineEnding = none) :
    (s.step op).2.buffer.refusals = s.buffer.refusals := by
  rcases moves_or_discard_of_asks_none h with hmoves | hdiscard
  · rw [refusals, hmoves.log_eq]
    rfl
  · rw [hdiscard, refusals_discard]

theorem told_of_asks {op : Op} {amount : Nat} {s : Session σ}
    (h : op.asks s.buffer.lineEnding = some amount) :
    (s.step op).2.buffer.refusals = s.buffer.refusals ++ (s.step op).1.refusal?.toList := by
  cases op with
  | ensure n => exact told_perform (fun _ => rfl) (tells_ensure n _)
  | fill n => exact told_perform (fun _ => rfl) (tells_fill n _)
  | countAhead n => exact told_perform (fun _ => rfl) (tells_countAhead n _)
  | lookAhead n => exact told_perform (fun _ => rfl) (tells_lookAhead n _)
  | isAtEnd => exact told_perform (fun _ => rfl) (tells_isAtEnd _)
  | consumeLineEnding => exact told_perform (fun _ => rfl) (tells_consumeLineEnding _)
  | _ => cases h

theorem refusals_step (op : Op) (s : Session σ) :
    (s.step op).2.buffer.refusals = s.buffer.refusals ++ (s.step op).1.refusal?.toList := by
  cases hasks : op.asks s.buffer.lineEnding with
  | none =>
      rw [silent_of_asks_none hasks, Answer.refusal?_eq_none (isOverflow_of_asks_none hasks)]
      simp
  | some amount => exact told_of_asks hasks

theorem becomes_step (op : Op) (s : Session σ) : Becomes s.buffer (s.step op).2.buffer :=
  (lasting_becomes s.buffer).step op s .refl

theorem becomes_play (ops : List Op) (s : Session σ) :
    Becomes s.buffer (s.play ops).2.buffer :=
  play_induction (lasting_becomes s.buffer).step ops .refl

/-- The events of a report are those written on the way. -/
theorem events_step (op : Op) (s : Session σ) :
    (s.step op).2.buffer.log.toList
      = s.buffer.log.toList ++ (report (s.step op).1 s (s.step op).2).events := by
  obtain ⟨events, hevents⟩ := (becomes_step op s).log_grows
  simp [report, ← hevents]

theorem refused_step (op : Op) (s : Session σ) :
    (report (s.step op).1 s (s.step op).2).events.filterMap Event.refusal?
      = (s.step op).1.refusal?.toList := by
  have hrefusals := refusals_step op s
  rw [refusals, events_step, List.filterMap_append] at hrefusals
  exact List.append_cancel_left hrefusals

theorem events_play (ops : List Op) (s : Session σ) :
    (s.play ops).2.buffer.log.toList
      = s.buffer.log.toList ++ (s.play ops).1.flatMap Report.events := by
  induction ops generalizing s with
  | nil => simp [play]
  | cons op ops ih => simp [play, ih, events_step op s]

theorem refused_play (ops : List Op) (s : Session σ) : ∀ report ∈ (s.play ops).1,
    report.events.filterMap Event.refusal? = report.answer.refusal?.toList := by
  induction ops generalizing s with
  | nil => exact fun _ hmem => absurd hmem List.not_mem_nil
  | cons op ops ih =>
      intro told hmem
      rcases List.mem_cons.mp hmem with rfl | hmem
      · exact refused_step op s
      · exact ih (s.step op).2 told hmem

theorem refusals_play (ops : List Op) (s : Session σ) :
    (s.play ops).2.buffer.refusals
      = s.buffer.refusals ++ (s.play ops).1.filterMap fun report => report.answer.refusal? := by
  induction ops generalizing s with
  | nil => simp [play]
  | cons op ops ih =>
      rw [play, ih, refusals_step op s, List.append_assoc, List.filterMap_cons]
      simp only [report]
      cases (s.step op).1.refusal? <;> rfl

/-- What the log tells of a buffer that came of a fresh one. -/
structure Accounts (fresh b : Buffer (Recorded σ)) : Prop where
  base_eq : b.base = Event.dropped b.log.toList
  byte_sub_offset : b.place.byte - b.offset = Event.dropped b.log.toList
  base_add_filled : b.base + b.filled = Event.gained b.log.toList
  filled_eq : b.filled = Event.gained b.log.toList - Event.dropped b.log.toList
  /-- Of the pulls it tells of those that succeeded, in order, and of no other. -/
  receipts_eq : b.log.toList.filterMap Event.receipt?
    = b.source.history.toList.filterMap Pulled.receipt?
  /-- Each event of a pull was written behind the events before it, and the end of the retained
  bytes that it tells is where they ended then. -/
  pulled : ∀ before requested received windowEnd after,
    b.log.toList = before ++ .pulled requested received windowEnd :: after →
    received ≤ requested ∧ ∃ amount c pulled d, Becomes fresh c ∧ MakesPull amount c pulled d ∧
      Becomes d b ∧ c.log.toList = before ∧ pulled.failure? = none ∧ pulled.room = requested ∧
      pulled.bytes.length = received ∧ d.filled = windowEnd

/-- What the reports of a run have to do with the log behind it. -/
structure Reported (reports : List Report) (log : List Event) : Prop where
  /-- Nothing is ever taken out of the log. -/
  events_eq : log = reports.flatMap Report.events
  refusals_eq : log.filterMap Event.refusal?
    = reports.filterMap fun report => report.answer.refusal?
  /-- The refusal is written down by the operation that fails with it. -/
  refused : ∀ report ∈ reports,
    report.events.filterMap Event.refusal? = report.answer.refusal?.toList

theorem accounts_of_becomes {fresh b : Buffer (Recorded σ)} (hempty : fresh.log = #[])
    (hbalanced : Balanced b) (hbecomes : Becomes fresh b) : Accounts fresh b where
  base_eq := hbalanced.dropped_eq.symm
  byte_sub_offset := by
    rw [hbalanced.dropped_eq, ← b.base_add_offset, Nat.add_sub_cancel]
  base_add_filled := hbalanced.gained_eq.symm
  filled_eq := by
    rw [hbalanced.dropped_eq, hbalanced.gained_eq, stop, Nat.add_sub_cancel_left]
  receipts_eq := hbalanced.receipts_eq
  pulled := by
    intro before requested received windowEnd after hlog
    obtain ⟨c, d, hbefore, hacts, hafter, hwritten⟩ := hbecomes.exists_acts hempty hlog
    cases hacts with
    | @pulls amount pulled _ makes succeeds =>
        exact ⟨pulled.reply.bytes_length_le, amount, c, pulled, d, hbefore, makes, hafter,
          hwritten, succeeds, rfl, rfl, rfl⟩

/-- **The log accounts for the buffer.** After any run over any source, what the log says was
dropped is what lies in front of the retained bytes, what it says was pulled is what lies in front
of their end, and each pull that succeeded is told of with the end that it led to. The caller is
told of a refusal exactly as often as the log is, in the same words and by the same operation. -/
theorem log_accounts {limits : Limits} (valid : limits.Valid) (lineEnding : LineEnding)
    (label : String) (source : σ) :
    ∃ fresh, start limits lineEnding label source = .ok fresh ∧ ∀ ops,
      let s := (fresh.play ops).2
      Accounts fresh.buffer s.buffer ∧ Reported (fresh.play ops).1 s.buffer.log.toList := by
  refine ⟨_, start_ok valid lineEnding label source, fun ops => ⟨?_, ?_⟩⟩
  · have hbecomes := becomes_play ops
      { buffer := ofLimits limits lineEnding label (⟨source, #[]⟩ : Recorded σ) }
    exact accounts_of_becomes rfl (Balanced.of_becomes ⟨rfl, rfl, rfl⟩ hbecomes) hbecomes
  · exact ⟨events_play ops _, refusals_play ops _, refused_play ops _⟩

/-- A source that fails and claims too much before it goes on. What happened under the guard stays
in the log although the guard is rolled back. -/
theorem log_accounts_of_script :
    let steps : List Script.Step := [.data [97, 98, 99, 100], .failure "later", .overReport 1,
      .data [101], .data [102, 103]]
    let ops : List Op := [.ensure 3, .openGuard .active, .consume 3, .discard, .ensure 9, .fill 3,
      .close .drop, .consume 3, .discard, .fill 3, .fill 4]
    (⟨4, 2⟩ : Limits).Valid ∧
      ∃ fresh, start ⟨4, 2⟩ .lf "input" (⟨steps⟩ : Script) = .ok fresh ∧
        let s := (fresh.play ops).2
        s.buffer.log.toList = [.pulled 3 3 3, .deferred 0 3, .overflow 9 6 3, .pulled 3 1 4,
          .compacted 3 1, .pulled 3 1 2, .pulled 2 2 4] ∧
        Accounts fresh.buffer s.buffer ∧ Reported (fresh.play ops).1 s.buffer.log.toList := by
  intro steps ops
  have hvalid : (⟨4, 2⟩ : Limits).Valid := by decide
  obtain ⟨fresh, hstart, haccounts⟩ := log_accounts hvalid .lf "input" (⟨steps⟩ : Script)
  refine ⟨hvalid, fresh, hstart, ?_, haccounts ops⟩
  obtain rfl := Except.ok.inj ((start_ok hvalid .lf "input" _).symm.trans hstart)
  decide +kernel

end Session

end Lookahead
