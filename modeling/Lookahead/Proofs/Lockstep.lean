import Lookahead.Proofs.Lines
import Lookahead.Proofs.Overflow

/-!
# Two runs over one document

Two buffers over sources that serve the same document, cut up differently, hold different windows
and pull at different times. They are `Alike` if they agree on everything else: the cursor, the
front of the retained bytes, the pin. Whether a request overflows depends on that alone, and so does
what a span holds. What the window shows depends on the cuts, but not its first byte once that was
asked for, and recognisers look no further. So a scan keeps in step with itself: from alike buffers
it answers alike and leaves alike buffers. One rule for each building block carries that from the
parts of a scan to the whole.

The one thing that looks at two bytes after a single request is a line ending. It keeps in step only
where the byte ahead was asked for before, and the rules keep track of that.
-/

namespace Lookahead.Scan

open Buffer

variable {σ τ : Type} [ByteSource σ] [ByteSource τ] {doc : List UInt8} {α β : Type}

/-- Two buffers that read the same document and differ in how much of it they hold. -/
structure Alike (doc : List UInt8) (b : Buffer σ) (c : Buffer τ) : Prop where
  left : Reads doc b
  right : Reads doc c
  limits_eq : c.limits = b.limits
  lineEnding_eq : c.lineEnding = b.lineEnding
  label_eq : c.label = b.label
  base_eq : c.base = b.base
  pin_eq : c.pin = b.pin
  place_eq : c.place = b.place

/-- The byte ahead, if there is one, is in both windows. -/
structure BothPrimed (doc : List UInt8) (b : Buffer σ) (c : Buffer τ) : Prop where
  left : Primed doc b
  right : Primed doc c

/-- Two results answer alike, and what they leave is related by `P`, or they fail alike. -/
inductive Agrees (doc : List UInt8) (b : Buffer σ) (c : Buffer τ)
    (P : α → Buffer σ → Buffer τ → Prop) :
    EStateM.Result Fault (Buffer σ) α → EStateM.Result Fault (Buffer τ) α → Prop where
  | ok {a : α} {b' : Buffer σ} {c' : Buffer τ} (left : Stays doc b b') (right : Stays doc c c')
      (place_eq : c'.place = b'.place) (related : P a b' c') :
      Agrees doc b c P (.ok a b') (.ok a c')
  | error {fault : Fault} {b' : Buffer σ} {c' : Buffer τ} (left : Stays doc b b')
      (right : Stays doc c c') : Agrees doc b c P (.error fault b') (.error fault c')

/-- From alike buffers the two scans answer alike. -/
def InStep (doc : List UInt8) (scan : Scan σ α) (other : Scan τ α) : Prop :=
  ∀ b c, Alike doc b c → Agrees doc b c (fun _ _ _ => True) (scan b) (other c)

variable {b b' : Buffer σ} {c c' : Buffer τ} {P : α → Buffer σ → Buffer τ → Prop}
  {Q : β → Buffer σ → Buffer τ → Prop}

/-! ## Alike buffers -/

namespace Alike

theorem stays (h : Alike doc b c) (hleft : Stays doc b b') (hright : Stays doc c c')
    (hplace : c'.place = b'.place) : Alike doc b' c' where
  left := hleft.reads
  right := hright.reads
  limits_eq := by rw [hright.limits_eq, hleft.limits_eq, h.limits_eq]
  lineEnding_eq := by rw [hright.lineEnding_eq, hleft.lineEnding_eq, h.lineEnding_eq]
  label_eq := by rw [hright.label_eq, hleft.label_eq, h.label_eq]
  base_eq := by rw [hright.base_eq, hleft.base_eq, h.base_eq]
  pin_eq := by rw [hright.pin_eq, hleft.pin_eq, h.pin_eq]
  place_eq := hplace

theorem with_pin (h : Alike doc b c) (pin : Option Nat) :
    Alike doc { b with pin } { c with pin } :=
  ⟨h.left.of_same rfl rfl rfl rfl, h.right.of_same rfl rfl rfl rfl, h.limits_eq, h.lineEnding_eq,
    h.label_eq, h.base_eq, rfl, h.place_eq⟩

theorem ahead_eq (h : Alike doc b c) : ahead doc c = ahead doc b := by
  unfold ahead
  rw [h.place_eq]

theorem capacity_eq (h : Alike doc b c) : c.capacity = b.capacity := by
  rw [c.capacity_eq, b.capacity_eq, h.limits_eq]

theorem offset_eq (h : Alike doc b c) : c.offset = b.offset := by
  have hleft := b.base_add_offset
  have hright := c.base_add_offset
  rw [h.base_eq, h.place_eq] at hright
  omega

theorem position_eq (h : Alike doc b c) : c.position = b.position := by
  unfold Buffer.position
  rw [h.place_eq, h.label_eq]

/-- Compaction looks at the cursor, the front and the pin only. -/
theorem discard (h : Alike doc b c) : Alike doc b.discard c.discard := by
  have hleft := b.drops_discard
  have hright := c.drops_discard
  have hshift : c.shift = b.shift := by
    unfold shift droppable
    rw [h.limits_eq, h.pin_eq, h.base_eq, h.offset_eq]
  exact {
    left := h.left.of_drops hleft
    right := h.right.of_drops hright
    limits_eq := by rw [hright.limits_eq, hleft.limits_eq, h.limits_eq]
    lineEnding_eq := by rw [hright.lineEnding_eq, hleft.lineEnding_eq, h.lineEnding_eq]
    label_eq := by rw [hright.label_eq, hleft.label_eq, h.label_eq]
    base_eq := by rw [hright.base_eq, hleft.base_eq, h.base_eq, hshift]
    pin_eq := by rw [hright.pin_eq, hleft.pin_eq, h.pin_eq]
    place_eq := by rw [hright.place_eq, hleft.place_eq, h.place_eq] }

/-- A span from a place that is not beyond the cursor depends on what was consumed only. -/
theorem span_eq (h : Alike doc b c) {start : Place} (hstart : start.byte ≤ b.place.byte) :
    c.span start = b.span start := by
  have hstop := Nat.le_trans hstart b.byte_le_stop
  have hstart' : start.byte ≤ c.place.byte := by
    rw [h.place_eq]
    exact hstart
  have hstop' := Nat.le_trans hstart' c.byte_le_stop
  by_cases hbase : b.base ≤ start.byte
  · have hbase' : c.base ≤ start.byte := by
      rw [h.base_eq]
      exact hbase
    have hheld : b.Holds start := ⟨hbase, hstop⟩
    have hheld' : c.Holds start := ⟨hbase', hstop'⟩
    rw [span_of_holds hheld hstart, span_of_holds hheld' hstart', slice_retained h.left hbase,
      slice_retained h.right hbase', h.place_eq, h.base_eq, h.label_eq]
  · have hbase' : ¬c.base ≤ start.byte := by
      rw [h.base_eq]
      exact hbase
    have hlost : ¬b.Holds start := fun held => hbase held.1
    have hlost' : ¬c.Holds start := fun held => hbase' held.1
    rw [span_of_lost hlost, span_of_lost hlost', h.base_eq]

end Alike

/-! ## Where the byte ahead was asked for -/

namespace BothPrimed

theorem take_window (h : Alike doc b c) (hprimed : BothPrimed doc b c) :
    c.window.take 1 = b.window.take 1 := by
  rw [take_window_one h.left hprimed.left, take_window_one h.right hprimed.right, h.ahead_eq]

theorem min_occupied (h : Alike doc b c) (hprimed : BothPrimed doc b c) :
    min 1 c.occupied = min 1 b.occupied := by
  have hlength := congrArg List.length (hprimed.take_window h)
  rwa [List.length_take, List.length_take, window_length, window_length] at hlength

theorem peek_zero (h : Alike doc b c) (hprimed : BothPrimed doc b c) : c.peek 0 = b.peek 0 := by
  rw [Scan.peek_zero h.left hprimed.left, Scan.peek_zero h.right hprimed.right, h.ahead_eq]

end BothPrimed

/-! ## Sequence -/

namespace Agrees

theorem pure (h : Alike doc b c) {a : α} (hP : P a b c) :
    Agrees doc b c P ((Pure.pure a : Scan σ α) b) ((Pure.pure a : Scan τ α) c) :=
  .ok (.refl h.left) (.refl h.right) h.place_eq hP

theorem mono {P' : α → Buffer σ → Buffer τ → Prop} {result : EStateM.Result Fault (Buffer σ) α}
    {other : EStateM.Result Fault (Buffer τ) α} (h : Agrees doc b c P result other)
    (hP : ∀ a b' c', P a b' c' → P' a b' c') : Agrees doc b c P' result other := by
  cases h with
  | ok hleft hright hplace hrelated => exact .ok hleft hright hplace (hP _ _ _ hrelated)
  | error hleft hright => exact .error hleft hright

theorem of_stays {result : EStateM.Result Fault (Buffer σ) α}
    {other : EStateM.Result Fault (Buffer τ) α} (h : Agrees doc b' c' P result other)
    (hleft : Stays doc b b') (hright : Stays doc c c') : Agrees doc b c P result other := by
  cases h with
  | ok hleft' hright' hplace hrelated =>
      exact .ok (hleft.trans hleft') (hright.trans hright') hplace hrelated
  | error hleft' hright' => exact .error (hleft.trans hleft') (hright.trans hright')

/-- The cursor alone is moved on, to the same place on both sides. -/
theorem of_moves (h : Alike doc b c) (hmoves : Moves b b') (hmoves' : Moves c c')
    (hbyte : b.place.byte ≤ b'.place.byte) (hplace : c'.place = b'.place) {a : α}
    (hP : P a b' c') : Agrees doc b c P (.ok a b') (.ok a c') := by
  refine .ok (.of_moves h.left hmoves hbyte) (.of_moves h.right hmoves' ?_) hplace hP
  rw [hplace, h.place_eq]
  exact hbyte

/-- What the first scan answers is at hand where it is needed. -/
theorem with_answer {scan : Scan σ α} {result : EStateM.Result Fault (Buffer τ) α}
    (h : Agrees doc b c P (scan b) result) :
    Agrees doc b c (fun a b' c' => P a b' c' ∧ scan b = .ok a b') (scan b) result := by
  generalize scan b = answer at h ⊢
  cases h with
  | ok hleft hright hplace hrelated => exact .ok hleft hright hplace ⟨hrelated, rfl⟩
  | error hleft hright => exact .error hleft hright

theorem bind {scan : Scan σ α} {other : Scan τ α} {next : α → Scan σ β} {next' : α → Scan τ β}
    (h : Alike doc b c) (first : Agrees doc b c P (scan b) (other c))
    (rest : ∀ a b' c', Stays doc b b' → Alike doc b' c' → P a b' c' →
      Agrees doc b' c' Q (next a b') (next' a c')) :
    Agrees doc b c Q ((scan >>= next) b) ((other >>= next') c) := by
  rw [bind_apply, bind_apply]
  generalize scan b = result at first ⊢
  generalize other c = result' at first ⊢
  cases first with
  | ok hleft hright hplace hrelated =>
      exact (rest _ _ _ hleft (h.stays hleft hright hplace) hrelated).of_stays hleft hright
  | error hleft hright => exact .error hleft hright

end Agrees

/-- A recogniser that goes on where another matched. -/
theorem InStep.andThen {scan : Scan σ (Option α)} {other : Scan τ (Option α)}
    {next : Option α → Scan σ (Option β)} {next' : Option α → Scan τ (Option β)}
    (first : InStep doc scan other) (onMatch : ∀ a, InStep doc (next (some a)) (next' (some a)))
    (onMismatch : next none = pure none) (onMismatch' : next' none = pure none) :
    InStep doc (scan >>= next) (other >>= next') := by
  intro b c h
  refine (first b c h).bind h fun found b' c' _ h' _ => ?_
  cases found with
  | some a => exact onMatch a _ _ h'
  | none =>
      rw [onMismatch, onMismatch']
      exact .pure h' trivial

/-! ## Requests -/

/-- Alike buffers are refused alike. -/
theorem request_alike (h : Alike doc b c) (amount : Nat) :
    (∃ received b' received' c', request amount b = .ok received b' ∧
      request amount c = .ok received' c') ∨
    ∃ error b' c', request amount b = .error error b' ∧ request amount c = .error error c' := by
  obtain ⟨hbeyond, hwithin⟩ := bounded_request amount b
  obtain ⟨hbeyond', hwithin'⟩ := bounded_request amount c
  rw [h.capacity_eq, h.offset_eq] at hbeyond' hwithin'
  by_cases hfits : b.offset + amount ≤ b.capacity
  · cases hrequest : request amount b with
    | error error b' =>
        obtain ⟨cause, hcause⟩ := hwithin hfits _ _ hrequest
        cases hcause.symm.trans (h.left.refused hrequest).error_eq
    | ok received b' =>
        cases hrequest' : request amount c with
        | error error c' =>
            obtain ⟨cause, hcause⟩ := hwithin' hfits _ _ hrequest'
            cases hcause.symm.trans (h.right.refused hrequest').error_eq
        | ok received' c' => exact .inl ⟨_, _, _, _, rfl, rfl⟩
  · have hmore := Nat.lt_of_not_le hfits
    exact .inr ⟨_, _, _, hbeyond hmore, hbeyond' hmore⟩

theorem agrees_ensure (h : Alike doc b c) {amount : Nat} {P : Unit → Buffer σ → Buffer τ → Prop}
    (hP : ∀ received b' received' c', request amount b = .ok received b' →
      request amount c = .ok received' c' → P () b' c') :
    Agrees doc b c P (ask (ensure amount) b) (ask (ensure amount) c) := by
  simp only [ask, adaptExcept_apply, ensure, bind_apply]
  rcases request_alike h amount with ⟨received, b', received', c', hrequest, hrequest'⟩ |
    ⟨error, b', c', hrequest, hrequest'⟩
  · obtain ⟨hleft, hplace⟩ := stays_of_request h.left hrequest
    obtain ⟨hright, hplace'⟩ := stays_of_request h.right hrequest'
    rw [hrequest, hrequest']
    refine .ok hleft hright ?_ (hP _ _ _ _ hrequest hrequest')
    rw [hplace', hplace, h.place_eq]
  · have hrefused := h.left.refused hrequest
    have hrefused' := h.right.refused hrequest'
    rw [hrequest, hrequest']
    exact .error (.of_extends (hrefused.reads h.left) hrefused.extends_none)
      (.of_extends (hrefused'.reads h.right) hrefused'.extends_none)

theorem agrees_ensure_one (h : Alike doc b c) :
    Agrees doc b c (fun _ => BothPrimed doc) (ask (ensure 1) b) (ask (ensure 1) c) :=
  agrees_ensure h fun _ _ _ _ hrequest hrequest' =>
    ⟨primed_of_request h.left hrequest, primed_of_request h.right hrequest'⟩

omit [ByteSource σ] in
theorem ask_bind (first : EStateM BufferError (Buffer σ) α)
    (next : α → EStateM BufferError (Buffer σ) β) :
    ask (first >>= next) = ask first >>= fun a => ask (next a) := by
  funext b
  simp only [ask, adaptExcept_apply, bind_apply]
  cases first b <;> rfl

theorem ask_isAtEnd :
    (ask isAtEnd : Scan σ Bool) = ask (ensure 1) >>= fun _ b => .ok (b.occupied == 0) b :=
  ask_bind _ _

theorem ask_consumeLineEnding (b : Buffer σ) :
    ask consumeLineEnding b
      = (ask (ensure b.lineEnding.maxWidth) >>= fun _ => ask passLineEnding) b := by
  rw [← ask_bind]
  rfl

/-- Alike buffers are at the end together. -/
theorem agrees_isAtEnd (h : Alike doc b c) :
    Agrees doc b c (fun _ => BothPrimed doc) (ask isAtEnd b) (ask isAtEnd c) := by
  rw [ask_isAtEnd, ask_isAtEnd]
  refine (agrees_ensure_one h).bind h fun _ b' c' _ h' hprimed => ?_
  have hmin := hprimed.min_occupied h'
  have hsame : (c'.occupied == 0) = (b'.occupied == 0) := by
    rw [Bool.eq_iff_iff, beq_iff_eq, beq_iff_eq]
    omega
  show Agrees doc b' c' _ (.ok (b'.occupied == 0) b') (.ok (c'.occupied == 0) c')
  rw [hsame]
  exact .ok (.refl h'.left) (.refl h'.right) h'.place_eq hprimed

/-! ## Consuming -/

theorem agrees_consumeInLine (h : Alike doc b c) (hprimed : BothPrimed doc b c) :
    Agrees doc b c (fun _ _ _ => True) ((consumeInLine 1).adaptExcept Fault.misuse b)
      ((consumeInLine 1).adaptExcept Fault.misuse c) := by
  have hmin := hprimed.min_occupied h
  have hwindow := hprimed.take_window h
  rw [adaptExcept_apply, adaptExcept_apply]
  by_cases hsome : 1 ≤ b.occupied
  · have hsome' : 1 ≤ c.occupied := by omega
    by_cases hline : b.lineEnding.lineByte ∈ b.window.take 1
    · have hline' : c.lineEnding.lineByte ∈ c.window.take 1 := by
        rw [h.lineEnding_eq, hwindow]
        exact hline
      rw [consumeInLine_over hsome hline, consumeInLine_over hsome' hline']
      exact .error (.refl h.left) (.refl h.right)
    · have hline' : c.lineEnding.lineByte ∉ c.window.take 1 := by
        rw [h.lineEnding_eq, hwindow]
        exact hline
      obtain ⟨b', hconsume, hplace⟩ := consumeInLine_ok hsome hline
      obtain ⟨c', hconsume', hplace'⟩ := consumeInLine_ok hsome' hline'
      have hmoves := moves_consumeInLine 1 b
      have hmoves' := moves_consumeInLine 1 c
      rw [hconsume, stateOf_ok] at hmoves
      rw [hconsume', stateOf_ok] at hmoves'
      rw [hconsume, hconsume']
      refine .of_moves h hmoves hmoves' ?_ ?_ trivial
      · rw [hplace]
        exact Nat.le_add_right _ _
      · rw [hplace, hplace', h.place_eq]
  · have hsome' : ¬1 ≤ c.occupied := by omega
    rw [consumeInLine_past hsome, consumeInLine_past hsome']
    exact .error (.refl h.left) (.refl h.right)

/-- A byte that is not accepted was asked for all the same. -/
theorem agrees_byteIf (h : Alike doc b c) (accepts : UInt8 → Bool) :
    Agrees doc b c (fun found b' c' => found = none → BothPrimed doc b' c') (byteIf accepts b)
      (byteIf accepts c) := by
  unfold byteIf
  refine (agrees_ensure_one h).bind h fun _ b' c' _ h' hprimed => ?_
  rw [bind_apply, get_apply, bind_apply, get_apply]
  simp only
  rw [hprimed.peek_zero h']
  cases b'.peek 0 with
  | none => exact .pure h' fun _ => hprimed
  | some byte =>
      simp only
      split
      · refine (agrees_consumeInLine h' hprimed).bind h' fun _ b'' c'' _ h'' _ => ?_
        exact .pure h'' fun hnone => absurd hnone (Option.some_ne_none _)
      · exact .pure h' fun _ => hprimed

theorem inStep_byteIf (accepts : UInt8 → Bool) :
    InStep doc (byteIf accepts : Scan σ (Option UInt8)) (byteIf accepts : Scan τ (Option UInt8)) :=
  fun _ _ h => (agrees_byteIf h accepts).mono fun _ _ _ _ => trivial

theorem agrees_passLineEnding (h : Alike doc b c)
    (hfront : c.front c.lineEnding.maxWidth = b.front b.lineEnding.maxWidth) :
    Agrees doc b c (fun _ _ _ => True) (ask passLineEnding b) (ask passLineEnding c) := by
  unfold ask
  rw [adaptExcept_apply, adaptExcept_apply]
  cases hmatch : b.lineEnding.match? (b.front b.lineEnding.maxWidth) with
  | none =>
      have hmatch' : c.lineEnding.match? (c.front c.lineEnding.maxWidth) = none := by
        rw [hfront, h.lineEnding_eq, hmatch]
      rw [passLineEnding_none hmatch, passLineEnding_none hmatch']
      exact .pure h trivial
  | some width =>
      have hmatch' : c.lineEnding.match? (c.front c.lineEnding.maxWidth) = some width := by
        rw [hfront, h.lineEnding_eq, hmatch]
      obtain ⟨b', hpass, hplace⟩ := passLineEnding_some hmatch
      obtain ⟨c', hpass', hplace'⟩ := passLineEnding_some hmatch'
      have hmoves := moves_passLineEnding b
      have hmoves' := moves_passLineEnding c
      rw [hpass, stateOf_ok] at hmoves
      rw [hpass', stateOf_ok] at hmoves'
      rw [hpass, hpass']
      refine .of_moves h hmoves hmoves' ?_ ?_ trivial
      · rw [hplace]
        exact Nat.le_add_right _ _
      · rw [hplace, hplace', h.place_eq]

/-- A line ending is seen alike where the byte ahead was asked for before: then the one request for
it does not stop short of its second byte. -/
theorem agrees_consumeLineEnding (h : Alike doc b c) (hprimed : BothPrimed doc b c) :
    Agrees doc b c (fun _ _ _ => True) (ask consumeLineEnding b) (ask consumeLineEnding c) := by
  rw [ask_consumeLineEnding, ask_consumeLineEnding, h.lineEnding_eq]
  have hwidth := b.lineEnding.maxWidth_le
  refine (agrees_ensure h fun received b' received' c' hrequest hrequest' => ?_).bind h
    fun _ b' c' _ h' hfront => agrees_passLineEnding h' hfront
  rw [(stays_of_request h.left hrequest).1.lineEnding_eq,
    (stays_of_request h.right hrequest').1.lineEnding_eq, h.lineEnding_eq,
    Entries.front_primed h.left hprimed.left hwidth hrequest,
    Entries.front_primed h.right hprimed.right hwidth hrequest', h.ahead_eq]

/-! ## Repetition -/

omit [ByteSource σ] in
theorem many_eq {scan : Scan σ (Option α)} {steady : Steady scan} {advances : Advances scan}
    (b : Buffer σ) :
    many scan steady advances b
      = (scan >>= fun found => match found with
          | none => pure ()
          | some _ => many scan steady advances) b := by
  rw [many, bind_apply]
  split
  case h_1 hanswer => rw [hanswer]
  case h_2 hanswer =>
    rw [hanswer]
    rfl
  case h_3 hanswer => rw [hanswer]

/-- A repetition keeps in step with itself. What holds where the recogniser does not match holds at
its end. -/
theorem agrees_many {scan : Scan σ (Option α)} {other : Scan τ (Option α)} {steady : Steady scan}
    {steady' : Steady other} {advances : Advances scan} {advances' : Advances other}
    {Z : Buffer σ → Buffer τ → Prop}
    (hscan : ∀ {b c}, Alike doc b c →
      Agrees doc b c (fun found b' c' => found = none → Z b' c') (scan b) (other c))
    (h : Alike doc b c) :
    Agrees doc b c (fun _ => Z) (many scan steady advances b) (many other steady' advances' c) := by
  -- By induction on how much is ahead: a match leaves less.
  induction hlength : (ahead doc b).length using Nat.strongRecOn generalizing b c with
  | ind length ih =>
      subst hlength
      rw [many_eq, many_eq]
      refine (hscan h).with_answer.bind h fun found b' c' _ h' hrelated => ?_
      obtain ⟨hZ, hanswer⟩ := hrelated
      cases found with
      | none => exact .pure h' (hZ rfl)
      | some a => exact ih _ (ahead_lt h'.left (advances _ _ _ hanswer)) h' rfl

theorem inStep_many {scan : Scan σ (Option α)} {other : Scan τ (Option α)} {steady : Steady scan}
    {steady' : Steady other} {advances : Advances scan} {advances' : Advances other}
    (hscan : InStep doc scan other) :
    InStep doc (many scan steady advances) (many other steady' advances') :=
  fun _ _ h => agrees_many (fun h => (hscan _ _ h).mono fun _ _ _ _ _ => trivial) h

/-! ## Attempts -/

theorem inStep_attempt {body : Scan σ (Option α)} {other : Scan τ (Option α)}
    (hbody : InStep doc body other) : InStep doc (attempt body) (attempt other) := by
  intro b c h
  have hfirst := hbody _ _ (h.with_pin (some (Guard.pinnedBy b.pin b.place.byte)))
  have hpin : some (Guard.pinnedBy c.pin c.place.byte)
      = some (Guard.pinnedBy b.pin b.place.byte) := by rw [h.pin_eq, h.place_eq]
  unfold attempt
  simp only [Guard.begin]
  rw [hpin]
  generalize body { b with pin := some (Guard.pinnedBy b.pin b.place.byte) } = result
    at hfirst ⊢
  generalize other { c with pin := some (Guard.pinnedBy b.pin b.place.byte) } = result'
    at hfirst ⊢
  cases hfirst with
  | @ok found b' c' hleft hright hplace _ =>
      cases found with
      | some a =>
          exact .ok (hleft.closed (.refl _) hleft.byte_le) (hright.closed (.refl _) hright.byte_le)
            hplace trivial
      | none =>
          obtain ⟨b'', hrollBack, hback, hplace⟩ := rollBack_attempt hleft
          obtain ⟨c'', hrollBack', hback', hplace'⟩ := rollBack_attempt hright
          simp only [Guard.begin] at hrollBack hrollBack'
          simp only [hrollBack, hrollBack']
          exact .ok hback hback' (by rw [hplace, hplace', h.place_eq]) trivial
  | error hleft hright =>
      obtain ⟨b'', hrollBack, hback, -⟩ := rollBack_attempt hleft
      obtain ⟨c'', hrollBack', hback', -⟩ := rollBack_attempt hright
      simp only [Guard.begin] at hrollBack hrollBack'
      simp only [hrollBack, hrollBack']
      exact .error hback hback'

/-! ## The bytes since a place -/

theorem agrees_since (h : Alike doc b c) {start : Place} (hstart : start.byte ≤ b.place.byte) :
    Agrees doc b c (fun _ _ _ => True) (since start b) (since start c) := by
  unfold since
  rw [h.span_eq hstart]
  cases b.span start with
  | ok span => exact .pure h trivial
  | error error => exact .error (.refl h.left) (.refl h.right)

theorem inStep_capture {body : Scan σ Unit} {other : Scan τ Unit} (hbody : InStep doc body other) :
    InStep doc (capture body) (capture other) := by
  intro b c h
  unfold capture
  rw [bind_apply, get_apply, bind_apply, get_apply]
  simp only
  rw [h.place_eq]
  exact (hbody b c h).bind h fun _ b' c' hleft h' _ => agrees_since h' hleft.byte_le

theorem agrees_decodeSince (h : Alike doc b c) {start : Place}
    (hstart : start.byte ≤ b.place.byte) (decoder : Escape.Decoder) :
    Agrees doc b c (fun _ _ _ => True) (decodeSince start decoder b)
      (decodeSince start decoder c) := by
  unfold decodeSince
  refine (agrees_since h hstart).bind h fun span b' c' _ h' _ => ?_
  cases decoder.apply span [] with
  | ok _ bytes => exact .pure h' trivial
  | error error _ => exact .error (.refl h'.left) (.refl h'.right)

end Lookahead.Scan
