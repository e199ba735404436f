import Lookahead.Proofs.Outcomes
import Lookahead.Proofs.Pulling

/-!
# No failure is swallowed

A reader tries one thing after another, and nearly all that goes wrong on the way only means that it
tries the next. Two things must never be taken for that: a pull that fails, and a request that does
not fit. A scan is `Frank` if the first of these that befalls it is the last thing it does and is
what it answers with. That takes hardly any knowledge of the grammar. A repetition stops with the
failure of its scan, and an attempt hands on that of its body once its guard is closed, which it
always can be (`closes_attempt`). So there is one rule for each building block, and every recogniser
is frank because its parts are.

What befell a scan is not taken from its answer. Its pulls are in the source's history, and its
refused requests in the buffer's log.
-/

namespace Lookahead

namespace Fault

def refusal? : Fault → Option (Nat × Nat)
  | .buffer (.overflow requested capacity) => some (requested, capacity)
  | _ => none

def failure? : Fault → Option SourceError
  | .buffer (.source error) => some error
  | _ => none

end Fault

namespace Scan

open Buffer

variable {σ : Type} {α β : Type} {b c : Buffer (Recorded σ)} {fault : Fault}

/-- What goes wrong with the items of a list, if anything does: it does with the last of them. -/
inductive OnlyLast {ι ε : Type} (wrong : ι → Option ε) : List ι → Option ε → Prop where
  | none {items : List ι} (all : ∀ item ∈ items, wrong item = none) : OnlyLast wrong items none
  | last {items : List ι} {item : ι} {cause : ε} (before : ∀ item ∈ items, wrong item = none)
      (wrong_eq : wrong item = some cause) : OnlyLast wrong (items ++ [item]) (some cause)

/-- No pull has failed so far, and no request was refused. -/
structure Untroubled (b : Buffer (Recorded σ)) : Prop where
  pulls : ∀ pulled ∈ b.source.history.toList, pulled.failure? = none
  requests : ∀ event ∈ b.log.toList, event.refusal? = none

/-- The fault is what went wrong with a pull or a request, if anything did, and nothing was done
since. -/
structure Reports (fault : Fault) (b : Buffer (Recorded σ)) : Prop where
  pulls : OnlyLast Pulled.failure? b.source.history.toList fault.failure?
  requests : OnlyLast Event.refusal? b.log.toList fault.refusal?

/-- The result owns up to what went wrong. -/
inductive Admits : EStateM.Result Fault (Buffer (Recorded σ)) α → Prop where
  | ok {a : α} {b : Buffer (Recorded σ)} (untroubled : Untroubled b) : Admits (.ok a b)
  | error {fault : Fault} {b : Buffer (Recorded σ)} (reports : Reports fault b) :
      Admits (.error fault b)

/-- The scan stops at the first thing that goes wrong with its buffer, and says what it was. -/
def Frank (scan : Scan (Recorded σ) α) : Prop :=
  ∀ b, Untroubled b → Admits (scan b)

/-! ## What happened so far -/

theorem Untroubled.congr (h : Untroubled b) (hsource : c.source = b.source)
    (hlog : c.log = b.log) : Untroubled c :=
  ⟨by rw [hsource]; exact h.pulls, by rw [hlog]; exact h.requests⟩

theorem Untroubled.note (h : Untroubled b) {event : Event} (hevent : event.refusal? = none) :
    Untroubled (b.note event) where
  pulls := h.pulls
  requests := by
    simp only [Buffer.note, Array.toList_push, List.forall_mem_append, List.forall_mem_singleton]
    exact ⟨h.requests, hevent⟩

theorem Untroubled.discard (h : Untroubled b) : Untroubled b.discard := by
  have hdropped : Untroubled (b.dropFront b.droppable b.droppable_le_offset) := h.congr rfl rfl
  unfold Buffer.discard
  split
  · exact hdropped.note rfl
  · split
    · exact h.note rfl
    · exact h

theorem Reports.congr (h : Reports fault b) (hsource : c.source = b.source)
    (hlog : c.log = b.log) : Reports fault c :=
  ⟨by rw [hsource]; exact h.pulls, by rw [hlog]; exact h.requests⟩

/-- A fault of another kind may stand where nothing went wrong. -/
theorem Untroubled.reports (h : Untroubled b) (hfailure : fault.failure? = none)
    (hrefusal : fault.refusal? = none) : Reports fault b := by
  constructor
  · rw [hfailure]
    exact .none h.pulls
  · rw [hrefusal]
    exact .none h.requests

theorem Admits.of_ok {scan : Scan (Recorded σ) α} {a : α} (h : Admits (scan b))
    (hanswer : scan b = .ok a c) : Untroubled c := by
  rw [hanswer] at h
  cases h with
  | ok huntroubled => exact huntroubled

theorem Admits.of_error {scan : Scan (Recorded σ) α} (h : Admits (scan b))
    (hanswer : scan b = .error fault c) : Reports fault c := by
  rw [hanswer] at h
  cases h with
  | error hreports => exact hreports

/-! ## Rules -/

theorem frank_pure (a : α) : Frank (pure a : Scan (Recorded σ) α) :=
  fun _ h => .ok h

theorem frank_bind {scan : Scan (Recorded σ) α} {next : α → Scan (Recorded σ) β}
    (first : Frank scan) (rest : ∀ a, Frank (next a)) : Frank (scan >>= next) := by
  intro b h
  have hfirst := first b h
  rw [bind_apply]
  generalize scan b = result at hfirst
  cases hfirst with
  | ok huntroubled => exact rest _ _ huntroubled
  | error hreports => exact .error hreports

/-- A recogniser that goes on where another matched. -/
theorem frank_andThen {scan : Scan (Recorded σ) (Option α)}
    {next : Option α → Scan (Recorded σ) (Option β)} (first : Frank scan)
    (onMatch : ∀ a, Frank (next (some a))) (onMismatch : next none = pure none) :
    Frank (scan >>= next) := by
  refine frank_bind first fun found => ?_
  cases found with
  | none =>
      rw [onMismatch]
      exact frank_pure none
  | some a => exact onMatch a

theorem frank_get : Frank (get : Scan (Recorded σ) (Buffer (Recorded σ))) :=
  fun _ h => .ok h

theorem frank_throw {fault : Fault} (hfailure : fault.failure? = none)
    (hrefusal : fault.refusal? = none) : Frank (throw fault : Scan (Recorded σ) α) :=
  fun _ h => .error (h.reports hfailure hrefusal)

/-- What only looks at the buffer meets no trouble. -/
theorem frank_since (start : Place) : Frank (since start : Scan (Recorded σ) Span) := by
  intro b h
  unfold since
  by_cases held : b.Holds start
  · by_cases ahead : b.place.byte < start.byte
    · rw [span_of_ahead held ahead]
      exact .error (h.reports rfl rfl)
    · rw [span_of_holds held (Nat.le_of_not_lt ahead)]
      exact .ok h
  · rw [span_of_lost held]
    exact .error (h.reports rfl rfl)

theorem frank_capture {body : Scan (Recorded σ) Unit} (hbody : Frank body) :
    Frank (capture body) :=
  frank_bind frank_get fun _ => frank_bind hbody fun _ => frank_since _

theorem frank_decodeSince (start : Place) (decoder : Escape.Decoder) :
    Frank (decodeSince start decoder : Scan (Recorded σ) (List UInt8)) := by
  refine frank_bind (frank_since start) fun span => ?_
  cases decoder.apply span [] with
  | ok _ bytes => exact frank_pure bytes
  | error error _ => exact frank_throw rfl rfl

theorem frank_many {scan : Scan (Recorded σ) (Option α)} {steady : Steady scan}
    {advances : Advances scan} (hscan : Frank scan) : Frank (many scan steady advances) := by
  intro b h
  fun_induction many scan steady advances b with
  | case1 b fault c hanswer => exact .error ((hscan b h).of_error hanswer)
  | case2 b c hanswer => exact .ok ((hscan b h).of_ok hanswer)
  | case3 b a c hanswer ih => exact ih ((hscan b h).of_ok hanswer)

variable [ByteSource σ]

/-- Closing the guard touches neither the source nor the log, and what the body failed with is what
the attempt fails with. -/
theorem frank_attempt {body : Scan (Recorded σ) (Option α)} {R : Option α → List UInt8 → Prop}
    (hbody : Frank body) (hsound : ∀ b, Sound b R (attempt body b)) : Frank (attempt body) := by
  intro b h
  have hopened := hbody { b with pin := some (Guard.pinnedBy b.pin b.place.byte) } (h.congr rfl rfl)
  have hcloses := closes_attempt (hsound b)
  generalize body { b with pin := some (Guard.pinnedBy b.pin b.place.byte) } = result
    at hopened hcloses
  generalize attempt body b = closed at hcloses
  cases hcloses with
  | kept =>
      cases hopened with
      | ok huntroubled => exact .ok (huntroubled.congr rfl rfl)
  | back hmoves =>
      cases hopened with
      | ok huntroubled => exact .ok (huntroubled.congr hmoves.source_eq hmoves.log_eq)
  | failed hmoves =>
      cases hopened with
      | error hreports => exact .error (hreports.congr hmoves.source_eq hmoves.log_eq)

/-! ## Requests -/

/-- A request is where trouble comes from: the pull that fails is the last one, and so is the note
of a refusal. -/
theorem request_admits (amount : Nat) (h : Untroubled b) :
    (∃ received c, request amount b = .ok received c ∧ Untroubled c) ∨
      ∃ error c, request amount b = .error error c ∧ Reports (.buffer error) c := by
  have hrequests := requests amount b
  generalize request amount b = result at hrequests ⊢
  cases hrequests with
  | held => exact .inl ⟨_, _, rfl, h⟩
  | beyond =>
      have hlog : (b.note (.overflow amount b.capacity b.offset)).log.toList
          = b.log.toList ++ [.overflow amount b.capacity b.offset] := Array.toList_push
      refine .inr ⟨_, _, rfl, .none h.pulls, ?_⟩
      rw [hlog]
      exact .last h.requests rfl
  | pulled _ makes succeeds log_eq =>
      refine .inl ⟨_, _, rfl, ?_, ?_⟩
      · rw [makes.history_eq, Array.toList_push, List.forall_mem_append, List.forall_mem_singleton]
        exact ⟨h.pulls, succeeds⟩
      · rw [log_eq, Array.toList_push, List.forall_mem_append, List.forall_mem_singleton]
        exact ⟨h.requests, rfl⟩
  | failed _ makes fails log_eq =>
      refine .inr ⟨_, _, rfl, ?_, ?_⟩
      · rw [makes.history_eq, Array.toList_push]
        exact .last h.pulls fails
      · rw [log_eq]
        exact .none h.requests

theorem frank_isAtEnd : Frank (ask isAtEnd : Scan (Recorded σ) Bool) := by
  intro b h
  simp only [ask, adaptExcept_apply, isAtEnd, ensure, bind_apply]
  rcases request_admits 1 h with
    ⟨received, c, hrequest, huntroubled⟩ | ⟨error, c, hrequest, hreports⟩ <;> simp only [hrequest]
  · exact .ok huntroubled
  · exact .error hreports

theorem frank_consumeLineEnding : Frank (ask consumeLineEnding : Scan (Recorded σ) Bool) := by
  intro b h
  simp only [ask, adaptExcept_apply, consumeLineEnding_eq]
  rcases request_admits b.lineEnding.maxWidth h with
    ⟨received, c, hrequest, huntroubled⟩ | ⟨error, c, hrequest, hreports⟩ <;> simp only [hrequest]
  · have hmoves := moves_passLineEnding c
    cases hmatch : c.lineEnding.match? (c.front c.lineEnding.maxWidth) with
    | none =>
        rw [passLineEnding_none hmatch]
        exact .ok huntroubled
    | some width =>
        obtain ⟨d, hpass, -⟩ := passLineEnding_some hmatch
        rw [hpass, stateOf_ok] at hmoves
        rw [hpass]
        exact .ok (huntroubled.congr hmoves.source_eq hmoves.log_eq)
  · exact .error hreports

theorem frank_byteIf (accepts : UInt8 → Bool) :
    Frank (byteIf accepts : Scan (Recorded σ) (Option UInt8)) := by
  intro b h
  rw [byteIf_eq]
  rcases request_admits 1 h with
    ⟨received, c, hrequest, huntroubled⟩ | ⟨error, c, hrequest, hreports⟩ <;> simp only [hrequest]
  · have hmoves := moves_consumeInLine 1 c
    cases c.peek 0 with
    | none => exact .ok huntroubled
    | some byte =>
        simp only
        split
        · cases hconsume : consumeInLine 1 c with
          | ok _ d =>
              rw [hconsume, stateOf_ok] at hmoves
              exact .ok (huntroubled.congr hmoves.source_eq hmoves.log_eq)
          | error misuse d =>
              rw [hconsume, stateOf_error] at hmoves
              exact .error ((huntroubled.congr hmoves.source_eq hmoves.log_eq).reports rfl rfl)
        · exact .ok huntroubled
  · exact .error hreports

end Scan

namespace Entries

open Scan Buffer

variable {σ : Type} [ByteSource σ]

/-! ## The recognisers one by one -/

theorem frank_skipWhile (accepts : UInt8 → Bool) :
    Frank (skipWhile accepts : Scan (Recorded σ) Unit) :=
  frank_many (frank_byteIf accepts)

theorem frank_hexDigits (count : Nat) :
    Frank (hexDigits count : Scan (Recorded σ) (Option Unit)) := by
  induction count with
  | zero => exact frank_pure _
  | succ count ih => exact frank_andThen (frank_byteIf _) (fun _ => ih) rfl

theorem frank_unit : Frank (unit : Scan (Recorded σ) (Option Unit)) :=
  frank_andThen (frank_byteIf _) (fun _ => frank_hexDigits 4) rfl

theorem frank_nextUnit : Frank (nextUnit : Scan (Recorded σ) (Option Unit)) :=
  frank_andThen (frank_byteIf _) (fun _ => frank_unit) rfl

theorem frank_units : Frank (units : Scan (Recorded σ) (Option Unit)) := by
  have hunit : Frank (attempt nextUnit : Scan (Recorded σ) (Option Unit)) :=
    frank_attempt frank_nextUnit (sound_attempt sound_nextUnit)
  refine frank_andThen frank_unit (fun _ => ?_) rfl
  exact frank_bind (frank_many hunit) fun _ => frank_pure _

theorem frank_escaped : Frank (escaped : Scan (Recorded σ) (Option (List UInt8))) := by
  refine frank_bind frank_get fun b => frank_bind (frank_byteIf _) fun found => ?_
  split
  · exact frank_bind (frank_decodeSince _ _) fun _ => frank_pure _
  · refine frank_andThen frank_units (fun _ => ?_) rfl
    exact frank_bind (frank_decodeSince _ _) fun _ => frank_pure _

theorem frank_escape : Frank (escape : Scan (Recorded σ) (Option (List UInt8))) :=
  frank_attempt (frank_andThen (frank_byteIf _) (fun _ => frank_escaped) rfl) sound_escape

theorem frank_piece : Frank (piece : Scan (Recorded σ) Piece) := by
  refine frank_bind (frank_byteIf _) fun found => ?_
  split
  · exact frank_pure _
  · refine frank_bind frank_escape fun decoded => ?_
    cases decoded with
    | some bytes => exact frank_pure _
    | none => exact frank_bind (frank_capture (frank_skipWhile isPlain)) fun _ => frank_pure _

theorem frank_pieces : Frank (pieces : Scan (Recorded σ) (Option (List UInt8))) := by
  intro b h
  fun_induction pieces b with
  | case1 b fault c hanswer => exact .error ((frank_piece b h).of_error hanswer)
  | case2 b c hanswer | case3 b c hanswer => exact .ok ((frank_piece b h).of_ok hanswer)
  | case4 b bytes c hanswer fault d hrest ih =>
      exact .error ((ih ((frank_piece b h).of_ok hanswer)).of_error hrest)
  | case5 b bytes c hanswer rest d hrest ih =>
      exact .ok ((ih ((frank_piece b h).of_ok hanswer)).of_ok hrest)

theorem frank_value : Frank (value : Scan (Recorded σ) (Option (List UInt8))) :=
  frank_attempt (frank_andThen (frank_byteIf _) (fun _ => frank_pieces) rfl) sound_value

theorem frank_key : Frank (key : Scan (Recorded σ) (Option String)) :=
  frank_bind (frank_capture (frank_skipWhile isKeyByte)) fun _ => frank_pure _

theorem frank_lineDone : Frank (lineDone : Scan (Recorded σ) Bool) := by
  refine frank_bind frank_consumeLineEnding fun found => ?_
  split
  · exact frank_pure true
  · exact frank_isAtEnd

theorem frank_assignment : Frank (assignment : Scan (Recorded σ) (Option Entry)) := by
  have hblanks : Frank (blanks : Scan (Recorded σ) Unit) := frank_skipWhile isBlank
  refine frank_attempt (frank_bind hblanks fun _ => ?_) sound_assignment
  refine frank_andThen frank_key (fun key => frank_bind hblanks fun _ => ?_) rfl
  refine frank_andThen (frank_byteIf _) (fun _ => frank_bind hblanks fun _ => ?_) rfl
  refine frank_andThen frank_value (fun value => frank_bind hblanks fun _ => ?_) rfl
  exact frank_bind frank_lineDone fun _ => frank_pure _

theorem frank_item : Frank (item : Scan (Recorded σ) Item) := by
  have hdiscard : Frank (modify Buffer.discard : Scan (Recorded σ) PUnit) :=
    fun _ h => .ok h.discard
  refine frank_bind hdiscard fun _ => frank_bind frank_isAtEnd fun ended => ?_
  split
  · exact frank_pure Item.finished
  · refine frank_bind frank_consumeLineEnding fun found => ?_
    split
    · exact frank_pure Item.blank
    · refine frank_bind frank_assignment fun found => ?_
      cases found with
      | some entry => exact frank_pure (Item.entry entry)
      | none => exact frank_bind frank_get fun _ => frank_throw rfl rfl

/-! ## Readings -/

theorem admits_turn (entries : Array Entry) {b : Buffer (Recorded σ)} (h : Untroubled b) :
    match turn entries b with
    | .inl (_, c) => Untroubled c
    | .inr result => Admits result := by
  have hitem := frank_item b h
  unfold turn
  generalize item b = result at hitem ⊢
  cases hitem with
  | error hreports => exact .error hreports
  | @ok found c huntroubled =>
      cases found with
      | finished => exact .ok huntroubled
      | blank | entry => exact huntroubled

theorem Reaches.untroubled {entries others : Array Entry} {b c : Buffer (Recorded σ)}
    (h : Reaches entries b others c) (hb : Untroubled b) : Untroubled c := by
  induction h with
  | start => exact hb
  | @next others _ _ _ _ hturn ih =>
      have hmore := admits_turn others ih
      rwa [hturn] at hmore

theorem Ends.admits {entries : Array Entry} {b : Buffer (Recorded σ)}
    {result : EStateM.Result Fault (Buffer (Recorded σ)) (Array Entry)}
    (h : Ends entries b result) (hb : Untroubled b) : Admits result := by
  induction h with
  | @last entries _ _ hturn =>
      have hadmits := admits_turn entries hb
      rwa [hturn] at hadmits
  | @next entries _ _ _ _ hturn _ ih =>
      have hmore := admits_turn entries hb
      rw [hturn] at hmore
      exact ih hmore

/-- **No failure is swallowed.** Over any source, and with any limits a buffer can be made with: as
long as the reading goes on no pull has failed and no request was refused. A reading that is over
answers with a failure of its source if and only if a pull failed, which then is the last one made,
and with a lack of room if and only if a request was refused, which then is the last thing done. -/
theorem failures_surface {limits : Limits} (valid : limits.Valid) (lineEnding : LineEnding)
    (label : String) (source : σ) :
    ∃ b, Buffer.start limits lineEnding label (⟨source, #[]⟩ : Recorded σ) = .ok b ∧
      (∀ entries c, Reaches #[] b entries c → Untroubled c) ∧
      ∀ result, Ends #[] b result → Admits (read b) := by
  refine ⟨_, start_of_valid valid lineEnding label _, ?_⟩
  have hfresh : Untroubled (ofLimits limits lineEnding label (⟨source, #[]⟩ : Recorded σ)) :=
    ⟨fun _ hmem => absurd hmem List.not_mem_nil, fun _ hmem => absurd hmem List.not_mem_nil⟩
  refine ⟨fun entries c hreaches => hreaches.untroubled hfresh, fun result hends => ?_⟩
  have hadmits := hends.admits hfresh
  rw [hends.read_eq]
  cases hadmits with
  | ok huntroubled => exact .ok huntroubled
  | error hreports => exact .error hreports

/-- The source fails in the middle of a unit, four attempts deep, each of which would rather have
taken it for a mismatch. -/
theorem failures_surface_of_script :
    (⟨16, 8⟩ : Limits).Valid ∧
      ∃ b, Buffer.start ⟨16, 8⟩ .lfOrCrlf "doc"
          (⟨⟨[.data [107, 61, 34, 92, 117, 48, 48, 52, 49, 92], .data [117, 48],
            .failure "disk"]⟩, #[]⟩ : Recorded Script) = .ok b ∧
        Admits (read b) ∧ answerOf (read b) = .error (.buffer (.source ⟨"disk"⟩)) := by
  have hvalid : (⟨16, 8⟩ : Limits).Valid := by decide
  obtain ⟨b, hstart, -, hadmits⟩ := failures_surface hvalid .lfOrCrlf "doc"
    (⟨[.data [107, 61, 34, 92, 117, 48, 48, 52, 49, 92], .data [117, 48],
      .failure "disk"]⟩ : Script)
  have hturn : (turn #[] b).map (fun _ => ()) answerOf
      = .inr (.error (.buffer (.source ⟨"disk"⟩))) := by
    obtain rfl := Except.ok.inj ((start_of_valid hvalid .lfOrCrlf "doc" _).symm.trans hstart)
    decide +kernel
  refine ⟨hvalid, b, hstart, ?_⟩
  cases hresult : turn #[] b with
  | inl state =>
      rw [hresult] at hturn
      cases hturn
  | inr result =>
      have hends : Ends #[] b result := .last hresult
      refine ⟨hadmits result hends, ?_⟩
      rw [hresult] at hturn
      rw [hends.read_eq]
      cases result with
      | ok entries c => cases hturn
      | error fault c =>
          cases hturn
          rfl

end Entries

end Lookahead
