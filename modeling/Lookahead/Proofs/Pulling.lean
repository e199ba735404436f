import Lookahead.Proofs.Overflow
import Lookahead.Source.Slice

/-!
# Pulls and the room they get

What a request can do is said once, by `Requests`: nothing, if the window holds enough; nothing but
a note, if the bytes reach beyond the buffer; and one pull otherwise. `MakesPull` says what such a
pull is. The room it offers is free space, right behind the retained bytes, and never less than what
is missing. Nothing checks that. It follows from the request being one that fits, so it holds of a
buffer that is all but full just as of an empty one. A source is therefore never offered no room at
all, where its having no bytes would look like the end of the input, and one that makes use of all
the room meets the request.
-/

namespace Lookahead

variable {σ : Type}

/-- Why a pull failed, if it did. -/
def Reply.failure? {room : Nat} : Reply room → Option SourceError
  | .delivered _ _ => none
  | .overrun _ _ => some .overReported
  | .failed error => some error

theorem Reply.bytes_of_failure {room : Nat} {reply : Reply room} {error : SourceError}
    (h : reply.failure? = some error) : reply.bytes = [] := by
  cases reply with
  | delivered bytes fits => cases h
  | overrun count exceeds => rfl
  | failed error => rfl

namespace Pulled

def bytes (pulled : Pulled) : List UInt8 :=
  pulled.reply.bytes

def failure? (pulled : Pulled) : Option SourceError :=
  pulled.reply.failure?

theorem bytes_of_failure {pulled : Pulled} {error : SourceError}
    (h : pulled.failure? = some error) : pulled.bytes = [] :=
  Reply.bytes_of_failure h

theorem reply_of_nil {pulled : Pulled} (hsucceeds : pulled.failure? = none)
    (hnone : pulled.bytes = []) : ∃ fits, pulled.reply = .delivered [] fits := by
  obtain ⟨room, reply⟩ := pulled
  cases reply with
  | delivered bytes fits =>
      obtain rfl : bytes = [] := hnone
      exact ⟨fits, rfl⟩
  | overrun count exceeds => cases hsucceeds
  | failed error => cases hsucceeds

end Pulled

namespace Buffer

variable [ByteSource σ] {b c d : Buffer (Recorded σ)} {amount : Nat} {pulled : Pulled}
  {pulls : List Pulled}

/-! ## One pull -/

omit [ByteSource σ] in
/-- What is missing for a request that fits has room behind the retained bytes. -/
theorem lacking_le_want {b : Buffer σ} (hfits : b.offset + amount ≤ b.capacity) :
    amount - b.occupied ≤ b.want amount := by
  have hfilled := b.offset_add_occupied
  have hfree := b.filled_add_free
  unfold want
  omega

/-- The first buffer makes a pull for a request of `amount` bytes, and becomes the second. -/
structure MakesPull (amount : Nat) (b : Buffer (Recorded σ)) (pulled : Pulled)
    (c : Buffer (Recorded σ)) : Prop where
  /-- The source is asked for as many bytes as there is room for, and answers. -/
  answer_eq : ByteSource.pull b.source pulled.room = (pulled.reply, c.source)
  room_eq : pulled.room = min (max (amount - b.occupied) b.limits.chunk) b.free
  lacking_le : amount - b.occupied ≤ pulled.room
  room_pos : 1 ≤ pulled.room
  /-- The room lies within the arena, behind the retained bytes. -/
  within : b.filled + pulled.room ≤ b.capacity
  /-- Its first bytes are those handed over, -/
  bytes_at : Arena.slice c.arena b.filled (b.filled + pulled.bytes.length) = pulled.bytes
  /-- and outside of it the arena is as it was. -/
  outside : ∀ index, index < b.filled ∨ b.filled + pulled.room ≤ index →
    c.arena[index]? = b.arena[index]?
  extends_by : Extends b c pulled.bytes
  /-- A source that makes use of the whole room meets the request. -/
  met : pulled.bytes.length = pulled.room → amount ≤ c.occupied

omit [ByteSource σ] in
/-- Where a pull put its bytes. -/
theorem Extends.slice_eq {bytes : List UInt8} (h : Extends b c bytes) :
    Arena.slice c.arena b.filled (b.filled + bytes.length) = bytes := by
  have hretained := h.retained_eq
  simp only [retained, h.filled_eq] at hretained
  rw [Arena.slice_eq, hretained, List.drop_left']
  exact b.retained_length

theorem makesPull_absorb (b : Buffer (Recorded σ)) {room : Nat} (reply : Reply room)
    {source : Recorded σ} (residue : List UInt8) (lacks : b.occupied < amount)
    (fits : b.offset + amount ≤ b.capacity) (hroom : room = b.want amount)
    (hlength : reply.bytes.length ≤ b.free)
    (hanswer : ByteSource.pull b.source room = (reply, source)) :
    MakesPull amount b ⟨room, reply⟩
      (b.absorb source (reply.written residue) reply.bytes.length hlength) := by
  have hlacking := lacking_le_want fits
  have hwithin := b.want_le_free amount
  have hfree := b.filled_add_free
  rw [← hroom] at hlacking hwithin
  have hextends := b.extends_absorb hwithin reply source residue hlength
  refine ⟨hanswer, hroom, hlacking, ?_, ?_, hextends.slice_eq, ?_, hextends, ?_⟩
  · exact Nat.le_trans (Nat.sub_pos_of_lt lacks) hlacking
  · simp only
    omega
  · intro index houtside
    have hwritten := reply.written_length_le residue
    simp only at houtside
    exact Arena.getElem?_write (by omega)
  · intro hall
    have hoccupied := hextends.occupied_eq
    simp only [Pulled.bytes] at hall
    omega

theorem MakesPull.note (h : MakesPull amount b pulled c) (event : Event) :
    MakesPull amount b pulled (c.note event) :=
  ⟨h.answer_eq, h.room_eq, h.lacking_le, h.room_pos, h.within, h.bytes_at, h.outside,
    { h.extends_by with }, h.met⟩

theorem MakesPull.history_eq (h : MakesPull amount b pulled c) :
    c.source.history = b.source.history.push pulled := by
  have hreply := congrArg Prod.fst h.answer_eq
  have hsource := congrArg Prod.snd h.answer_eq
  simp only at hreply hsource
  rw [← hsource, Recorded.history_pull, hreply]

/-- A pull is made only for a request that fits. -/
theorem MakesPull.fits (h : MakesPull amount b pulled c) : b.offset + amount ≤ b.capacity := by
  have hlacking := h.lacking_le
  have hwithin := h.within
  have hfilled := b.offset_add_occupied
  omega

theorem MakesPull.not_spared (h : MakesPull amount b pulled c) (lacks : b.occupied < amount)
    (spared : amount ≤ b.occupied ∨ b.capacity < b.offset + amount) : pulled :: pulls = [] := by
  have hfits := h.fits
  omega

/-! ## Requests -/

/-- What comes of asking for `amount` bytes. -/
inductive Requests (amount : Nat) (b : Buffer (Recorded σ)) :
    EStateM.Result BufferError (Buffer (Recorded σ)) Nat → Prop where
  | held (enough : amount ≤ b.occupied) : Requests amount b (.ok 0 b)
  | beyond (lacks : b.occupied < amount) (exceeds : b.capacity < b.offset + amount) :
      Requests amount b (.error (.overflow amount b.capacity)
        (b.note (.overflow amount b.capacity b.offset)))
  | pulled {pulled : Pulled} {c : Buffer (Recorded σ)} (lacks : b.occupied < amount)
      (makes : MakesPull amount b pulled c) (succeeds : pulled.failure? = none)
      (log_eq : c.log = b.log.push (.pulled pulled.room pulled.bytes.length c.filled)) :
      Requests amount b (.ok pulled.bytes.length c)
  | failed {pulled : Pulled} {c : Buffer (Recorded σ)} {error : SourceError}
      (lacks : b.occupied < amount) (makes : MakesPull amount b pulled c)
      (fails : pulled.failure? = some error)
      (log_eq : c.log = b.log) : Requests amount b (.error (.source error) c)

omit [ByteSource σ] in
theorem settle_eq (b : Buffer σ) {room : Nat} (within : room ≤ b.free) (reply : Reply room)
    (source : σ) (residue : List UInt8) :
    let c := b.absorb source (reply.written residue) reply.bytes.length
      (Nat.le_trans reply.bytes_length_le within)
    b.settle within reply source residue = match reply.failure? with
      | none => .ok reply.bytes.length (c.note (.pulled room reply.bytes.length c.filled))
      | some error => .error (.source error) c := by
  cases reply <;> rfl

theorem requests (amount : Nat) (b : Buffer (Recorded σ)) :
    Requests amount b (request amount b) := by
  by_cases enough : amount ≤ b.occupied
  · rw [request, if_pos enough]
    exact .held enough
  have lacks : b.occupied < amount := Nat.lt_of_not_le enough
  by_cases exceeds : b.capacity < b.offset + amount
  · rw [request, if_neg enough, if_pos exceeds]
    exact .beyond lacks exceeds
  have fits : b.offset + amount ≤ b.capacity := Nat.le_of_not_lt exceeds
  rw [request, if_neg enough, if_neg exceeds]
  simp only [pull]
  generalize hanswer : ByteSource.pull b.source (b.want amount) = answer
  obtain ⟨reply, source⟩ := answer
  have hmakes := makesPull_absorb b reply (ByteSource.residue b.source (b.want amount)) lacks fits
    rfl (Nat.le_trans reply.bytes_length_le (b.want_le_free amount)) hanswer
  rw [settle_eq]
  cases hfailure : reply.failure? with
  | none => exact .pulled lacks (hmakes.note _) hfailure rfl
  | some error => exact .failed lacks hmakes hfailure rfl

theorem makesPull_of_ok {received : Nat} (h : request amount b = .ok received c)
    (lacks : b.occupied < amount) :
    ∃ pulled, MakesPull amount b pulled c ∧ pulled.failure? = none ∧
      received = pulled.bytes.length := by
  have hrequests := requests amount b
  rw [h] at hrequests
  generalize hresult : EStateM.Result.ok received c = result at hrequests
  cases hrequests with
  | held enough => exact absurd lacks (Nat.not_lt_of_le enough)
  | pulled _ makes succeeds =>
      cases hresult
      exact ⟨_, makes, succeeds, rfl⟩
  | beyond | failed => cases hresult

/-! ## One pull after another -/

/-- Pulls that are made one after another for the same request. -/
inductive MakesPulls (amount : Nat) :
    Buffer (Recorded σ) → List Pulled → Buffer (Recorded σ) → Prop where
  | none (b : Buffer (Recorded σ)) : MakesPulls amount b [] b
  | more {b c d : Buffer (Recorded σ)} {pulled : Pulled} {pulls : List Pulled}
      (makes : MakesPull amount b pulled c) (rest : MakesPulls amount c pulls d) :
      MakesPulls amount b (pulled :: pulls) d

theorem MakesPulls.history_eq (h : MakesPulls amount b pulls c) :
    c.source.history.toList = b.source.history.toList ++ pulls := by
  induction h with
  | none b => simp
  | more makes _ ih => simp [ih, makes.history_eq]

theorem MakesPulls.extends_by (h : MakesPulls amount b pulls c) :
    Extends b c (pulls.flatMap Pulled.bytes) := by
  induction h with
  | none b => exact .refl b
  | more makes _ ih => exact makes.extends_by.trans ih

/-- What comes of filling the window up to `amount` bytes, and the pulls made on the way. -/
inductive Fills (amount : Nat) : Buffer (Recorded σ) → List Pulled →
    EStateM.Result BufferError (Buffer (Recorded σ)) Nat → Prop where
  | enough {b : Buffer (Recorded σ)} (held : amount ≤ b.occupied) :
      Fills amount b [] (.ok b.occupied b)
  | beyond {b : Buffer (Recorded σ)} (exceeds : b.capacity < b.offset + amount) :
      Fills amount b [] (.error (.overflow amount b.capacity)
        (b.note (.overflow amount b.capacity b.offset)))
  | failed {b c : Buffer (Recorded σ)} {pulled : Pulled} {error : SourceError}
      (lacks : b.occupied < amount) (makes : MakesPull amount b pulled c)
      (fails : pulled.failure? = some error) :
      Fills amount b [pulled] (.error (.source error) c)
  | ended {b c : Buffer (Recorded σ)} {pulled : Pulled} (lacks : b.occupied < amount)
      (makes : MakesPull amount b pulled c) (succeeds : pulled.failure? = none)
      (bytes_eq : pulled.bytes = []) : Fills amount b [pulled] (.ok c.occupied c)
  | more {b c : Buffer (Recorded σ)} {pulled : Pulled} {pulls : List Pulled}
      {result : EStateM.Result BufferError (Buffer (Recorded σ)) Nat}
      (lacks : b.occupied < amount) (makes : MakesPull amount b pulled c)
      (succeeds : pulled.failure? = none) (bytes_ne : pulled.bytes ≠ [])
      (rest : Fills amount c pulls result) :
      Fills amount b (pulled :: pulls) result

theorem exists_fills (amount : Nat) (b : Buffer (Recorded σ)) :
    ∃ pulls, Fills amount b pulls (fill amount b) := by
  fun_induction fill amount b with
  | case1 b lacks error c hrequest =>
      have hrequests := requests amount b
      rw [hrequest] at hrequests
      cases hrequests with
      | beyond _ exceeds => exact ⟨_, .beyond exceeds⟩
      | failed _ makes fails => exact ⟨_, .failed lacks makes fails⟩
  | case2 b lacks c hrequest =>
      obtain ⟨pulled, makes, succeeds, hnone⟩ := makesPull_of_ok hrequest lacks
      exact ⟨_, .ended lacks makes succeeds (List.eq_nil_of_length_eq_zero hnone.symm)⟩
  | case3 b lacks received c hrequest ih =>
      obtain ⟨pulled, makes, succeeds, hsome⟩ := makesPull_of_ok hrequest lacks
      obtain ⟨pulls, hrest⟩ := ih
      have hne : pulled.bytes ≠ [] := List.ne_nil_of_length_pos (by omega)
      exact ⟨_, .more lacks makes succeeds hne hrest⟩
  | case4 b held => exact ⟨_, .enough (Nat.le_of_not_lt held)⟩

/-! ## The pulls of an operation -/

/-- The second buffer is the first after these pulls for a request of `amount` bytes, as far as the
source and the arena go. -/
structure PullsFor (amount : Nat) (b : Buffer (Recorded σ)) (pulls : List Pulled)
    (c : Buffer (Recorded σ)) : Prop where
  history_eq : c.source.history.toList = b.source.history.toList ++ pulls
  makes : ∃ d, MakesPulls amount b pulls d ∧ c.source = d.source ∧ c.arena = d.arena
  /-- Where the request is met already, or never could be, there is no pull. -/
  spares : amount ≤ b.occupied ∨ b.capacity < b.offset + amount → pulls = []

theorem MakesPulls.pullsFor (h : MakesPulls amount b pulls d) (hsource : c.source = d.source)
    (harena : c.arena = d.arena)
    (hspares : amount ≤ b.occupied ∨ b.capacity < b.offset + amount → pulls = []) :
    PullsFor amount b pulls c :=
  ⟨by rw [hsource, h.history_eq], ⟨d, h, hsource, harena⟩, hspares⟩

theorem pullsFor_request (amount : Nat) (b : Buffer (Recorded σ)) :
    ∃ pulls, PullsFor amount b pulls (stateOf (request amount b)) ∧ pulls.length ≤ 1 := by
  have hspared : PullsFor amount b [] b := (MakesPulls.none b).pullsFor rfl rfl fun _ => rfl
  have hone : ∀ {pulled : Pulled} {c : Buffer (Recorded σ)}, b.occupied < amount →
      MakesPull amount b pulled c → PullsFor amount b [pulled] c := by
    intro pulled c lacks makes
    exact (MakesPulls.more makes (.none c)).pullsFor rfl rfl (makes.not_spared lacks)
  have hrequests := requests amount b
  cases hresult : request amount b with
  | ok received c =>
      rw [hresult] at hrequests
      cases hrequests with
      | held => exact ⟨[], hspared, Nat.zero_le _⟩
      | pulled lacks makes => exact ⟨_, hone lacks makes, Nat.le_refl _⟩
  | error error c =>
      rw [hresult] at hrequests
      cases hrequests with
      | beyond => exact ⟨[], ⟨hspared.history_eq, hspared.makes, hspared.spares⟩, Nat.zero_le _⟩
      | failed lacks makes => exact ⟨_, hone lacks makes, Nat.le_refl _⟩

theorem Fills.exists_makes {result : EStateM.Result BufferError (Buffer (Recorded σ)) Nat}
    (h : Fills amount b pulls result) : ∃ d, MakesPulls amount b pulls d ∧
      (stateOf result).source = d.source ∧ (stateOf result).arena = d.arena := by
  induction h with
  | enough | beyond => exact ⟨_, .none _, rfl, rfl⟩
  | failed _ makes | ended _ makes => exact ⟨_, .more makes (.none _), rfl, rfl⟩
  | more _ makes _ _ _ ih =>
      obtain ⟨d, hmakes, hsame⟩ := ih
      exact ⟨d, .more makes hmakes, hsame⟩

theorem pullsFor_fill (amount : Nat) (b : Buffer (Recorded σ)) :
    ∃ pulls, PullsFor amount b pulls (stateOf (fill amount b)) := by
  obtain ⟨pulls, hfills⟩ := exists_fills amount b
  generalize fill amount b = result at hfills
  obtain ⟨d, hmakes, hsource, harena⟩ := hfills.exists_makes
  refine ⟨pulls, hmakes.pullsFor hsource harena fun hspared => ?_⟩
  cases hfills with
  | enough | beyond => rfl
  | failed lacks makes | ended lacks makes | more lacks makes =>
      exact makes.not_spared lacks hspared

/-- The cursor is moved after the pull, over an arena that stays as it is. -/
theorem pullsFor_consumeLineEnding (b : Buffer (Recorded σ)) :
    ∃ pulls, PullsFor b.lineEnding.maxWidth b pulls (stateOf (consumeLineEnding b)) ∧
      pulls.length ≤ 1 := by
  have harena : ∀ c : Buffer (Recorded σ), (stateOf (passLineEnding c)).arena = c.arena := by
    intro c
    unfold passLineEnding
    split <;> rfl
  obtain ⟨pulls, ⟨hhistory, ⟨d, hmakes, hsource, hsame⟩, hspares⟩, hlength⟩ :=
    pullsFor_request b.lineEnding.maxWidth b
  refine ⟨pulls, hmakes.pullsFor ?_ ?_ hspares, hlength⟩ <;> rw [consumeLineEnding_eq]
  · cases hrequest : request b.lineEnding.maxWidth b with
    | ok received c =>
        rw [hrequest] at hsource
        exact (moves_passLineEnding c).source_eq.trans hsource
    | error error c => rwa [hrequest] at hsource
  · cases hrequest : request b.lineEnding.maxWidth b with
    | ok received c =>
        rw [hrequest] at hsame
        exact (harena c).trans hsame
    | error error c => rwa [hrequest] at hsame

end Buffer

namespace Session

open Buffer

variable [ByteSource σ] {s : Session σ} {op : Op}

/-- What asks for no lookahead moves the cursor or the pin at most, or else compacts. -/
theorem moves_or_discard_of_asks_none (h : op.asks s.buffer.lineEnding = none) :
    Moves { s.buffer with pin := (s.step op).2.buffer.pin } (s.step op).2.buffer ∨
      (s.step op).2.buffer = s.buffer.discard := by
  -- A session whose buffer is as before but for its cursor, and one whose buffer is as before.
  have hmoved : ∀ {t : Session σ}, Moves s.buffer t.buffer →
      Moves { s.buffer with pin := t.buffer.pin } t.buffer := by
    intro t hmoves
    rw [hmoves.pin_eq]
    exact hmoves
  have hsame : Moves { s.buffer with pin := s.buffer.pin } s.buffer := .refl _
  cases op with
  | ensure | fill | countAhead | lookAhead | isAtEnd | consumeLineEnding => cases h
  | consume count =>
      rw [step, perform_session]
      exact .inl (hmoved (moves_consume count s.buffer))
  | consumeInLine count =>
      rw [step, perform_session]
      exact .inl (hmoved (moves_consumeInLine count s.buffer))
  | consumeToNextLine count =>
      rw [step, perform_session]
      exact .inl (hmoved (moves_consumeToNextLine count s.buffer))
  | restore target =>
      rw [step, perform_session]
      exact .inl (hmoved (moves_restore _ s.buffer))
  | discard => exact .inr rfl
  | span target =>
      exact .inl (withSpan_cases
        (P := fun t => Moves { s.buffer with pin := t.buffer.pin } t.buffer) target
        (fun _ => hsame) hsame)
  | decode target decoding =>
      refine .inl (withSpan_cases
        (P := fun t => Moves { s.buffer with pin := t.buffer.pin } t.buffer) target
        (fun span => ?_) hsame)
      cases decoding <;> exact hsame
  | openGuard mode => exact .inl (Guard.moves_begin mode s.buffer)
  | openAttempt => exact .inl (Guard.moves_begin .active s.buffer)
  | close how => exact .inl (moves_leave how s)
  | save | window | peek | position | positionAt | label | describe => exact .inl hsame

/-- What asks for no lookahead leaves the source alone. -/
theorem source_of_asks_none (h : op.asks s.buffer.lineEnding = none) :
    (s.step op).2.buffer.source = s.buffer.source := by
  rcases moves_or_discard_of_asks_none h with hmoves | hdiscard
  · exact hmoves.source_eq
  · rw [hdiscard]
    exact s.buffer.drops_discard.source_eq

/-- What an operation has to do with the source. -/
structure PullsInPlace (op : Op) (s t : Session σ) : Prop where
  of_silent : op.asks s.buffer.lineEnding = none → t.buffer.source = s.buffer.source
  of_asking : ∀ amount, op.asks s.buffer.lineEnding = some amount →
    ∃ pulls, PullsFor amount s.buffer pulls t.buffer ∧
      ((∀ n, op ≠ .fill n) → pulls.length ≤ 1)

theorem pullsFor_step {amount : Nat} (h : op.asks s.buffer.lineEnding = some amount) :
    ∃ pulls, PullsFor amount s.buffer pulls (s.step op).2.buffer ∧
      ((∀ n, op ≠ .fill n) → pulls.length ≤ 1) := by
  have hone : (∃ pulls, PullsFor amount s.buffer pulls (s.step op).2.buffer ∧ pulls.length ≤ 1) →
      ∃ pulls, PullsFor amount s.buffer pulls (s.step op).2.buffer ∧
        ((∀ n, op ≠ .fill n) → pulls.length ≤ 1) := by
    rintro ⟨pulls, hpulls, hlength⟩
    exact ⟨pulls, hpulls, fun _ => hlength⟩
  cases op with
  | fill n =>
      cases h
      obtain ⟨pulls, hpulls⟩ := pullsFor_fill amount s.buffer
      rw [step, perform_session]
      exact ⟨pulls, hpulls, fun hother => absurd rfl (hother amount)⟩
  | ensure n =>
      cases h
      refine hone ?_
      rw [step, perform_session, stateOf_ensure]
      exact pullsFor_request amount s.buffer
  | countAhead n =>
      cases h
      refine hone ?_
      rw [step, perform_session, countAhead, stateOf_bind_get, stateOf_ensure]
      exact pullsFor_request amount s.buffer
  | lookAhead n =>
      cases h
      refine hone ?_
      rw [step, perform_session, lookAhead, stateOf_bind_get, stateOf_ensure]
      exact pullsFor_request amount s.buffer
  | isAtEnd =>
      cases h
      refine hone ?_
      rw [step, perform_session, isAtEnd, stateOf_bind_get, stateOf_ensure]
      exact pullsFor_request 1 s.buffer
  | consumeLineEnding =>
      cases h
      refine hone ?_
      rw [step, perform_session]
      exact pullsFor_consumeLineEnding s.buffer
  | _ => cases h

/-! ## Runs -/

/-- Pulls, oldest first, each of them made by a buffer that had made those before it. -/
inductive MadeInPlace (limits : Limits) : List Pulled → Prop where
  | none : MadeInPlace limits []
  | more {pulls : List Pulled} {pulled : Pulled} {amount : Nat} {b c : Buffer (Recorded σ)}
      (before : MadeInPlace limits pulls) (limits_eq : b.limits = limits)
      (history_eq : b.source.history.toList = pulls) (makes : MakesPull amount b pulled c) :
      MadeInPlace limits (pulls ++ [pulled])

theorem MadeInPlace.append {limits : Limits} {amount : Nat} {pulls : List Pulled}
    {b c : Buffer (Recorded σ)} (hmakes : MakesPulls amount b pulls c) (hlimits : b.limits = limits)
    (h : MadeInPlace (σ := σ) limits b.source.history.toList) :
    MadeInPlace (σ := σ) limits (b.source.history.toList ++ pulls) := by
  induction hmakes with
  | none b => rwa [List.append_nil]
  | @more b c d pulled pulls makes _ ih =>
      have hhistory : c.source.history.toList = b.source.history.toList ++ [pulled] := by
        rw [makes.history_eq, Array.toList_push]
      have hmore := ih (makes.extends_by.limits_eq.trans hlimits)
        (hhistory ▸ .more h hlimits rfl makes)
      rwa [hhistory, List.append_assoc] at hmore

theorem madeInPlace_step {limits : Limits} (op : Op) (s : Session σ)
    (h : s.buffer.limits = limits ∧ MadeInPlace (σ := σ) limits s.buffer.source.history.toList) :
    (s.step op).2.buffer.limits = limits ∧
      MadeInPlace (σ := σ) limits (s.step op).2.buffer.source.history.toList := by
  obtain ⟨hlimits, hmade⟩ := h
  refine ⟨(limits_step op s).trans hlimits, ?_⟩
  cases hasks : op.asks s.buffer.lineEnding with
  | none => rwa [source_of_asks_none hasks]
  | some amount =>
      obtain ⟨pulls, hpulls, -⟩ := pullsFor_step hasks
      obtain ⟨d, hmakes, -⟩ := hpulls.makes
      rw [hpulls.history_eq]
      exact hmade.append hmakes hlimits

/-- **A pull gets free space, and enough of it.** Whatever a session does, every pull it makes is
made in place. An operation that asks for lookahead makes one at most, filling apart, and none if
the request is met already or could never be; other operations make none. -/
theorem pulls_in_place {limits : Limits} (valid : limits.Valid) (lineEnding : LineEnding)
    (label : String) (source : σ) :
    ∃ fresh, start limits lineEnding label source = .ok fresh ∧ ∀ ops,
      let s := (fresh.play ops).2
      MadeInPlace (σ := σ) limits s.buffer.source.history.toList ∧
        ∀ op, PullsInPlace op s (s.step op).2 := by
  refine ⟨_, start_ok valid lineEnding label source, fun ops => ⟨?_, fun op => ?_⟩⟩
  · exact (play_induction madeInPlace_step ops
      (s := { buffer := ofLimits limits lineEnding label ⟨source, #[]⟩ }) ⟨rfl, .none⟩).2
  · exact ⟨source_of_asks_none, fun _ => pullsFor_step⟩

/-- Bytes that come one by one into a buffer with room for four: the last pull of the filling gets
all the room there is, which is one byte. -/
theorem pulls_in_place_of_slice :
    let ops : List Op := [.ensure 2, .consume 1]
    (⟨2, 2⟩ : Limits).Valid ∧
      ∃ fresh, start ⟨2, 2⟩ .lf "input" (⟨[97, 98, 99, 100], some 1⟩ : Slice) = .ok fresh ∧
        let s := (fresh.play ops).2
        let t := (s.step (.fill 3)).2
        t.buffer.source.history.toList.map (fun pulled => pulled.room) = [2, 3, 2, 1] ∧
        MadeInPlace (σ := Slice) ⟨2, 2⟩ s.buffer.source.history.toList ∧
        PullsInPlace (.fill 3) s t := by
  intro ops
  have hvalid : (⟨2, 2⟩ : Limits).Valid := by decide
  obtain ⟨fresh, hstart, hpulls⟩ :=
    pulls_in_place hvalid .lf "input" (⟨[97, 98, 99, 100], some 1⟩ : Slice)
  obtain ⟨hmade, hstep⟩ := hpulls ops
  refine ⟨hvalid, fresh, hstart, ?_, hmade, hstep (.fill 3)⟩
  obtain rfl := Except.ok.inj ((start_ok hvalid .lf "input" _).symm.trans hstart)
  decide +kernel

end Session

end Lookahead
