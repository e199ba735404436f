import Lookahead.Proofs.Line

/-!
# Recognisers and expressions

The building blocks of scans, one by one, and what they show: a single byte, a repetition, an
attempt, and the bytes consumed since a place. What comes before the end of a line asks for one byte
at a time, so that what is needed to tell whether the line is over, the byte ahead, is there when it
comes to that.
-/

namespace Lookahead.Scan

open Buffer

variable {σ : Type} [ByteSource σ] {doc : List UInt8} {start : Nat} {b c d : Buffer σ}

/-! ## One byte -/

/-- The window holds a byte, unless there is none to come. -/
def Primed (doc : List UInt8) (b : Buffer σ) : Prop :=
  0 < b.occupied ∨ b.stop = doc.length

omit [ByteSource σ] in
theorem ahead_of_occupied_zero (hstop : b.stop = doc.length) (hnone : b.occupied = 0) :
    ahead doc b = [] := by
  have hbyte := b.base_add_offset
  have hfilled := b.offset_add_occupied
  unfold stop at hstop
  refine List.drop_eq_nil_of_le ?_
  omega

/-- The window begins as the rest of the document does. -/
theorem take_window_one (h : Reads doc b) (hprimed : Primed doc b) :
    b.window.take 1 = (ahead doc b).take 1 := by
  rw [h.window_eq, List.take_take]
  by_cases hsome : 0 < b.occupied
  · rw [Nat.min_eq_left hsome]
    rfl
  · rcases hprimed with hsome' | hstop
    · exact absurd hsome' hsome
    · have hnil := ahead_of_occupied_zero hstop (Nat.eq_zero_of_not_pos hsome)
      rw [hnil]
      unfold ahead at hnil
      rw [hnil, List.take_nil, List.take_nil]

theorem peek_zero (h : Reads doc b) (hprimed : Primed doc b) :
    b.peek 0 = (ahead doc b).head? := calc
  b.peek 0 = (b.window.take 1)[0]? := by
    rw [peek_eq, List.getElem?_take_of_lt Nat.one_pos]
  _ = (ahead doc b).head? := by
    rw [take_window_one h hprimed, List.getElem?_take_of_lt Nat.one_pos, List.head?_eq_getElem?]

omit [ByteSource σ] in
theorem occupied_pos (hprimed : Primed doc b) {byte : UInt8} {rest : List UInt8}
    (hahead : ahead doc b = byte :: rest) : 0 < b.occupied := by
  rcases hprimed with hsome | hstop
  · exact hsome
  · refine Nat.pos_of_ne_zero fun hnone => ?_
    rw [ahead_of_occupied_zero hstop hnone] at hahead
    cases hahead

omit [ByteSource σ] in
theorem ahead_congr (hplace : c.place = b.place) : ahead doc c = ahead doc b := by
  unfold ahead
  rw [hplace]

theorem ahead_lt (h : Reads doc c) (hless : b.place.byte < c.place.byte) :
    (ahead doc c).length < (ahead doc b).length := by
  have hle := byte_le_length h
  rw [ahead_length, ahead_length]
  omega

/-- What a request leaves, whatever it brings. -/
theorem stays_of_request (h : Reads doc b) {amount received : Nat}
    (hrequest : request amount b = .ok received c) : Stays doc b c ∧ c.place = b.place := by
  obtain ⟨hreads, ⟨bytes, -, hextends⟩, -⟩ := h.requested hrequest
  exact ⟨.of_extends hreads hextends, hextends.place_eq⟩

theorem primed_of_request (h : Reads doc b) {received : Nat}
    (hrequest : request 1 b = .ok received c) : Primed doc c := by
  obtain ⟨-, ⟨bytes, hlength, hextends⟩, hnone⟩ := h.requested hrequest
  by_cases hzero : received = 0
  · exact hnone hzero
  · have hoccupied := hextends.occupied_eq
    exact .inl (by omega)

theorem requested_line (h : OnLine doc start b) {amount received : Nat}
    (hrequest : request amount b = .ok received c) :
    Stays doc b c ∧ OnLine doc start c ∧ c.place = b.place := by
  obtain ⟨hstays, hplace⟩ := stays_of_request h.reads hrequest
  exact ⟨hstays, h.of_stays hstays hplace, hplace⟩

theorem requested_byte (h : OnLine doc start b) {received : Nat}
    (hrequest : request 1 b = .ok received c) :
    Stays doc b c ∧ OnLine doc start c ∧ c.place = b.place ∧ Primed doc c := by
  obtain ⟨hstays, hline, hplace⟩ := requested_line h hrequest
  exact ⟨hstays, hline, hplace, primed_of_request h.reads hrequest⟩

theorem refused_line {α β : Type} {R : α → Option β → Buffer σ → Prop} {verdict : Verdict β}
    (h : OnLine doc start b) {amount : Nat} (hamount : amount ≤ 2) {error : BufferError}
    (hrequest : request amount b = .error error c) :
    Shows doc b R verdict (.error (.buffer error) c) := by
  have hrefused := h.reads.refused hrequest
  obtain rfl := hrefused.error_eq
  exact .overflow (.of_extends (hrefused.reads h.reads) hrefused.extends_none)
    (h.cramped hamount hrefused)

/-- A recogniser that answers with its match, and somewhere then. -/
structure Found {α β : Type} (rel : α → β → Prop) (Z : Buffer σ → Prop) (found : Option α)
    (value : Option β) (c : Buffer σ) : Prop where
  related : Option.Rel rel found value
  holds : value ≠ none → Z c

/-- A recogniser that is back where it began if it does not match. -/
structure Recognised {α β : Type} (rel : α → β → Prop) (Z : Buffer σ → Prop) (doc : List UInt8)
    (start : Nat) (b : Buffer σ) (found : Option α) (value : Option β) (c : Buffer σ) : Prop
    extends Found rel Z found value c where
  back : value = none → OnLine doc start c ∧ c.place = b.place

section

variable {α β : Type} {rel : α → β → Prop} {Z : Buffer σ → Prop} {a : α} {value : β}

omit [ByteSource σ] in
theorem Found.of_some (hrel : rel a value) (hholds : Z c) : Found rel Z (some a) (some value) c :=
  ⟨.some hrel, fun _ => hholds⟩

omit [ByteSource σ] in
theorem Found.of_none : Found rel Z none none c :=
  ⟨.none, fun hne => absurd rfl hne⟩

theorem Recognised.of_some (hrel : rel a value) (hholds : Z c) :
    Recognised rel Z doc start b (some a) (some value) c :=
  ⟨.of_some hrel hholds, fun hnone => absurd hnone (Option.some_ne_none _)⟩

theorem Recognised.of_none (hline : OnLine doc start c) (hplace : c.place = b.place) :
    Recognised rel Z doc start b none none c :=
  ⟨.of_none, fun _ => ⟨hline, hplace⟩⟩

end

/-- The accepted bytes can stand on a line. -/
abbrev WithinLine (accepts : UInt8 → Bool) : Prop :=
  accepts lineFeed = false ∧ accepts carriageReturn = false

omit [ByteSource σ] in
theorem WithinLine.ne {accepts : UInt8 → Bool} (h : WithinLine accepts) {byte : UInt8}
    (hbyte : accepts byte = true) : byte ≠ lineFeed ∧ byte ≠ carriageReturn := by
  obtain ⟨hlineFeed, hcarriageReturn⟩ := h
  constructor
  · rintro rfl
    rw [hlineFeed] at hbyte
    cases hbyte
  · rintro rfl
    rw [hcarriageReturn] at hbyte
    cases hbyte

/-- Consuming the byte ahead, if it does not end the line. -/
theorem consumed_byte (h : OnLine doc start b) (hprimed : Primed doc b) {byte : UInt8}
    {rest : List UInt8} (hahead : ahead doc b = byte :: rest)
    (hbyte : byte ≠ lineFeed ∧ byte ≠ carriageReturn) :
    ∃ c, consumeInLine 1 b = .ok () c ∧ Stays doc b c ∧ OnLine doc start c ∧
      ahead doc c = rest := by
  have hsome := occupied_pos hprimed hahead
  have hfront : b.lineEnding.lineByte ∉ b.window.take 1 := by
    have htake : b.window.take 1 = [byte] := by
      rw [take_window_one h.reads hprimed, hahead]
      rfl
    rw [htake, h.lineEnding_eq, List.mem_singleton]
    exact hbyte.1.symm
  obtain ⟨c, hconsume, hplace⟩ := consumeInLine_ok hsome hfront
  have hmoves := moves_consumeInLine 1 b
  rw [hconsume, stateOf_ok] at hmoves
  have hfurther : b.place.byte ≤ c.place.byte := by
    rw [hplace, Place.alongLine_byte]
    exact Nat.le_add_right _ _
  have hstays : Stays doc b c := .of_moves h.reads hmoves hfurther
  obtain ⟨hline, hrest⟩ := h.alongLine hstays hahead hbyte hplace
  exact ⟨c, hconsume, hstays, hline, hrest⟩

theorem byteIf_eq (accepts : UInt8 → Bool) (b : Buffer σ) :
    byteIf accepts b = match request 1 b with
      | .error error c => .error (.buffer error) c
      | .ok _ c =>
          match c.peek 0 with
          | none => .ok none c
          | some byte =>
              if accepts byte then
                match consumeInLine 1 c with
                | .ok () d => .ok (some byte) d
                | .error misuse d => .error (.misuse misuse) d
              else .ok none c := by
  simp only [byteIf, ask, ensure, bind_apply, adaptExcept_apply]
  cases request 1 b with
  | error error c => rfl
  | ok received c =>
      simp only [get_apply, pure_apply]
      cases c.peek 0 with
      | none => rfl
      | some byte =>
          simp only
          split
          · rw [bind_apply, adaptExcept_apply]
            cases consumeInLine 1 c <;> rfl
          · rfl

theorem shows_byteIf {β : Type} (h : OnLine doc start b) {accepts : UInt8 → Bool}
    {meaning : UInt8 → Option β} (hmeaning : ∀ byte, accepts byte = (meaning byte).isSome)
    (hwithin : WithinLine accepts) :
    Shows doc b
      (fun found value c =>
        Recognised (fun byte value => meaning byte = some value) (OnLine doc start) doc start b
            found value c ∧
          (value = none → Primed doc c))
      (Peg.token meaning (ahead doc b)) (byteIf accepts b) := by
  rw [byteIf_eq]
  cases hrequest : request 1 b with
  | error error c => exact refused_line h (by omega) hrequest
  | ok received c =>
      obtain ⟨hstays, hline, hplace, hprimed⟩ := requested_byte h hrequest
      have hpeek := peek_zero hline.reads hprimed
      rw [← ahead_congr hplace]
      simp only [hpeek]
      cases hrest : ahead doc c with
      | nil =>
          exact .mismatch hstays ⟨.of_none hline hplace, fun _ => hprimed⟩
      | cons byte rest =>
          cases hbyte : meaning byte with
          | none =>
              have hrejected : accepts byte = false := by
                rw [hmeaning, hbyte]
                rfl
              have hverdict : Peg.token meaning (byte :: rest) = .mismatch := by
                rw [Peg.token, hbyte]
              simp only [List.head?_cons, hrejected]
              rw [hverdict]
              exact .mismatch hstays ⟨.of_none hline hplace, fun _ => hprimed⟩
          | some value =>
              have haccepted : accepts byte = true := by
                rw [hmeaning, hbyte]
                rfl
              have hverdict : Peg.token meaning (byte :: rest) = .matched value rest := by
                rw [Peg.token, hbyte]
              obtain ⟨d, hconsume, hstep, hlast, hleft⟩ :=
                consumed_byte hline hprimed hrest (hwithin.ne haccepted)
              simp only [List.head?_cons, haccepted, hconsume]
              rw [hverdict, ← hleft]
              refine .matched (hstays.trans hstep) ⟨.of_some hbyte hlast, fun hnone => ?_⟩
              exact absurd hnone (Option.some_ne_none _)

/-- A single byte that stands for itself. -/
theorem shows_sat (h : OnLine doc start b) {accepts : UInt8 → Bool} (hwithin : WithinLine accepts) :
    Shows doc b
      (fun found value c =>
        Recognised (fun _ _ => True) (OnLine doc start) doc start b found value c ∧
          (value = none → Primed doc c))
      (Peg.sat accepts (ahead doc b)) (byteIf accepts b) := by
  have hmeaning : ∀ byte, accepts byte = (if accepts byte then some byte else none).isSome := by
    intro byte
    cases accepts byte <;> rfl
  refine (shows_byteIf h hmeaning hwithin).mono ?_
  rintro found value c - ⟨⟨⟨hrelated, hline⟩, hback⟩, hprimed⟩
  refine ⟨⟨⟨?_, hline⟩, hback⟩, hprimed⟩
  cases hrelated with
  | some _ => exact .some trivial
  | none => exact .none

/-! ## Repetition -/

/-- A repetition shows a repetition. It ends where the recogniser did not match, and what holds of
that place holds at its end. -/
theorem shows_many {α β : Type} {rel : α → β → Prop} {scan : Scan σ (Option α)} {P : Peg β}
    {Z : Buffer σ → Prop} {steady : Steady scan} {advances : Advances scan}
    (hscan : ∀ b, OnLine doc start b → Shows doc b
      (fun found value c =>
        Recognised rel (OnLine doc start) doc start b found value c ∧ (value = none → Z c))
      (P (ahead doc b)) (scan b)) (h : OnLine doc start b) :
    Shows doc b (fun _ values c => values.isSome ∧ OnLine doc start c ∧ Z c)
      (Peg.star P (ahead doc b)) (many scan steady advances b) := by
  fun_induction many scan steady advances b with
  | case1 b fault c hanswer =>
      have hfirst := hscan b h
      rw [hanswer] at hfirst
      generalize hverdict : P (ahead doc b) = verdict at hfirst
      cases hfirst with
      | aborted hstays =>
          rw [Peg.star_aborted hverdict]
          exact .aborted hstays
      | overflow hstays hcramped => exact .overflow hstays hcramped
  | case2 b c hanswer =>
      have hfirst := hscan b h
      rw [hanswer] at hfirst
      generalize hverdict : P (ahead doc b) = verdict at hfirst
      cases hfirst with
      | matched hstays hrelated =>
          obtain ⟨⟨⟨hmatch, -⟩, -⟩, -⟩ := hrelated
          cases hmatch
      | mismatch hstays hrelated =>
          obtain ⟨⟨-, hback⟩, hlast⟩ := hrelated
          obtain ⟨hline, hplace⟩ := hback rfl
          rw [Peg.star_mismatch hverdict, ← ahead_congr hplace]
          exact .matched hstays ⟨rfl, hline, hlast rfl⟩
  | case3 b a c hanswer ih =>
      have hfirst := hscan b h
      have hless : b.place.byte < c.place.byte := advances _ _ _ hanswer
      rw [hanswer] at hfirst
      generalize hverdict : P (ahead doc b) = verdict at hfirst
      cases hfirst with
      | matched hstays hrelated =>
          have hline : OnLine doc start c := hrelated.1.holds (Option.some_ne_none _)
          rw [Peg.star_matched hverdict (ahead_lt hline.reads hless)]
          refine Shows.map ((ih hline).of_stays hstays) ?_
          rintro a values d ⟨hvalues, hrest⟩
          exact ⟨by rw [Option.isSome_map, hvalues], hrest⟩
      | mismatch hstays hrelated =>
          obtain ⟨⟨⟨hmatch, -⟩, -⟩, -⟩ := hrelated
          cases hmatch

/-! ## Attempts -/

theorem OnLine.with_pin (h : OnLine doc start b) (pin : Option Nat) :
    OnLine doc start { b with pin } where
  reads := h.reads.of_same rfl rfl rfl rfl
  lineEnding_eq := h.lineEnding_eq
  base_le := h.base_le
  le_chunk := h.le_chunk
  start_le := h.start_le
  place_eq := h.place_eq
  inline := h.inline

/-- What is left of an attempt once its guard is closed: where the cursor is apart, the buffer that
its body left, with the pin from before. -/
theorem Stays.closed {pin : Option Nat} (hstays : Stays doc { b with pin } c)
    (hmoves : Moves { c with pin := b.pin } d) (hbyte : b.place.byte ≤ d.place.byte) :
    Stays doc b d where
  reads := hstays.reads.of_same hmoves.limits_eq hmoves.base_eq hmoves.retained_eq hmoves.source_eq
  limits_eq := hmoves.limits_eq.trans hstays.limits_eq
  lineEnding_eq := hmoves.lineEnding_eq.trans hstays.lineEnding_eq
  label_eq := hmoves.label_eq.trans hstays.label_eq
  base_eq := hmoves.base_eq.trans hstays.base_eq
  pin_eq := hmoves.pin_eq
  stop_le := by
    rw [hmoves.stop_eq]
    exact hstays.stop_le
  byte_le := hbyte

omit [ByteSource σ] in
/-- As long as nothing is dropped, there is a way back to where a guard was opened. -/
theorem rollBack_begun (b : Buffer σ) (hbase : c.base = b.base) (hstop : b.stop ≤ c.stop) :
    ∃ d, (Guard.begin .active b).1.rollBack c = .ok () d ∧ Moves { c with pin := b.pin } d ∧
      d.place = b.place := by
  have held : c.Holds b.place := by
    constructor
    · rw [hbase]
      exact b.base_le_byte
    · exact Nat.le_trans b.byte_le_stop hstop
  have hsnapshot : (Guard.begin .active b).1.snapshot = some ⟨b.mark, b.pin⟩ := rfl
  exact ⟨_, Guard.rollBack_ok hsnapshot held, ⟨rfl, rfl, rfl, rfl, rfl, rfl, rfl, rfl⟩, rfl⟩

/-- The guard of an attempt can go back to where the attempt began. -/
theorem rollBack_attempt {pin : Option Nat} (hstays : Stays doc { b with pin } c) :
    ∃ d, (Guard.begin .active b).1.rollBack c = .ok () d ∧ Stays doc b d ∧ d.place = b.place := by
  obtain ⟨d, hrollBack, hmoves, hplace⟩ := rollBack_begun b hstays.base_eq hstays.stop_le
  have hbyte : b.place.byte ≤ d.place.byte := Nat.le_of_eq (congrArg Place.byte hplace.symm)
  exact ⟨d, hrollBack, hstays.closed hmoves hbyte, hplace⟩

/-- An attempt shows what its body does, and is back where it began unless that matches. -/
theorem shows_attempt {α β : Type} {rel : α → β → Prop} {body : Scan σ (Option α)} {P : Peg β}
    {Z : Buffer σ → Prop} (hZ : ∀ c pin, Z c → Z { c with pin }) (h : OnLine doc start b)
    (hbody : ∀ pin, OnLine doc start { b with pin } →
      Shows doc { b with pin } (Found rel Z) (P (ahead doc b)) (body { b with pin })) :
    Shows doc b (Recognised rel Z doc start b) (P (ahead doc b)) (attempt body b) := by
  have hfirst := hbody _ (h.with_pin (some (Guard.pinnedBy b.pin b.place.byte)))
  unfold attempt
  simp only [Guard.begin]
  generalize body { b with pin := some (Guard.pinnedBy b.pin b.place.byte) } = result at hfirst ⊢
  generalize P (ahead doc b) = verdict at hfirst ⊢
  cases hfirst with
  | matched hstays hrelated =>
      obtain ⟨hmatch, hlast⟩ := hrelated
      cases hmatch with
      | some hrel =>
          exact .matched (hstays.closed (.refl _) hstays.byte_le)
            (.of_some hrel (hZ _ _ (hlast (Option.some_ne_none _))))
  | mismatch hstays hrelated =>
      obtain ⟨hmatch, -⟩ := hrelated
      cases hmatch
      obtain ⟨d, hrollBack, hback, hplace⟩ := rollBack_attempt hstays
      simp only [Guard.begin] at hrollBack
      simp only [hrollBack]
      exact .mismatch hback (.of_none (h.of_stays hback hplace) hplace)
  | aborted hstays =>
      obtain ⟨d, hrollBack, hback, -⟩ := rollBack_attempt hstays
      simp only [Guard.begin] at hrollBack
      simp only [hrollBack]
      exact .aborted hback
  | overflow hstays hcramped =>
      obtain ⟨d, hrollBack, hback, -⟩ := rollBack_attempt hstays
      simp only [Guard.begin] at hrollBack
      simp only [hrollBack]
      exact .overflow hback hcramped

/-! ## The bytes since a place -/

/-- What is retained between a place and the cursor is that part of the document. -/
theorem slice_retained (h : Reads doc b) {byte : Nat} (hbase : b.base ≤ byte) :
    Arena.slice b.arena (byte - b.base) b.offset = (doc.drop byte).take (b.place.byte - byte) := by
  calc Arena.slice b.arena (byte - b.base) b.offset
      = ((doc.take b.stop).take b.place.byte).drop byte := h.mirrors.slice_eq hbase
    _ = (doc.take b.place.byte).drop byte := by
        rw [List.take_take, Nat.min_eq_left b.byte_le_stop]
    _ = (doc.drop byte).take (b.place.byte - byte) := List.drop_take

/-- A span from where a scan began holds what the scan consumed. -/
theorem since_eq (hb : Reads doc b) (hstays : Stays doc b c) {text : List UInt8}
    (htext : ahead doc b = text ++ ahead doc c) :
    ∃ span : Span, since b.place c = .ok span c ∧ span.bytes = text ∧
      span.start.toPlace = b.place := by
  have hle := byte_le_length hb
  have hle' := byte_le_length hstays.reads
  have hlength := congrArg List.length htext
  rw [List.length_append, ahead_length, ahead_length] at hlength
  have held : c.Holds b.place := by
    constructor
    · rw [hstays.base_eq]
      exact b.base_le_byte
    · exact Nat.le_trans b.byte_le_stop hstays.stop_le
  have hconsumed : b.place.byte ≤ c.place.byte := by omega
  have hbytes : Arena.slice c.arena (b.place.byte - c.base) c.offset = text := by
    rw [slice_retained hstays.reads held.1]
    show (ahead doc b).take (c.place.byte - b.place.byte) = text
    rw [htext]
    exact List.take_left' (by omega)
  let span : Span := ⟨text, ⟨b.place, b.place.byte - c.base⟩, c.label⟩
  have hspan : c.span b.place = .ok span := by
    rw [span_of_holds held hconsumed, hbytes]
  refine ⟨span, ?_, rfl, rfl⟩
  unfold since
  rw [hspan]

/-- Capturing a repeated byte shows what it captured. -/
theorem shows_capture (h : OnLine doc start b) {accepts : UInt8 → Bool}
    (hwithin : WithinLine accepts) :
    Shows doc b (fun span bytes c => bytes = some span.bytes ∧ OnLine doc start c)
      (Peg.star (Peg.sat accepts) (ahead doc b))
      (capture (many (byteIf accepts) (steady_byteIf accepts) (advances_byteIf accepts)) b) := by
  have hmany : Shows doc b (fun _ bytes c => bytes.isSome ∧ OnLine doc start c ∧ Primed doc c)
      (Peg.star (Peg.sat accepts) (ahead doc b))
      (many (byteIf accepts) (steady_byteIf accepts) (advances_byteIf accepts) b) :=
    shows_many (fun b h => shows_sat h hwithin) h
  unfold capture
  rw [bind_apply, get_apply]
  simp only
  rw [bind_apply]
  generalize many (byteIf accepts) _ _ b = result at hmany ⊢
  generalize hverdict : Peg.star (Peg.sat accepts) (ahead doc b) = verdict at hmany ⊢
  cases hmany with
  | matched hstays hrelated =>
      rename_i bytes c
      have htext : ahead doc b = bytes ++ ahead doc c := by
        rw [Peg.star_sat] at hverdict
        injection hverdict with hbytes hrest
        rw [← hbytes, ← hrest, List.takeWhile_append_dropWhile]
      obtain ⟨span, hsince, hspan, -⟩ := since_eq h.reads hstays htext
      simp only [hsince]
      exact .matched hstays ⟨by rw [hspan], hrelated.2.1⟩
  | mismatch hstays hrelated => exact absurd hrelated.1 Bool.false_ne_true
  | aborted hstays => exact .aborted hstays
  | overflow hstays hcramped => exact .overflow hstays hcramped

/-- Decoding what was consumed since a scan began fails where the scan began. -/
theorem decodeSince_eq (hb : Reads doc b) (hstays : Stays doc b c) {text : List UInt8}
    (htext : ahead doc b = text ++ ahead doc c) (decoder : Escape.Decoder) :
    decodeSince b.place decoder c = match decoder.decode text with
      | .ok bytes => .ok bytes c
      | .error cause => .error (.escape ⟨cause, b.place⟩) c := by
  obtain ⟨span, hsince, rfl, hplace⟩ := since_eq hb hstays htext
  unfold decodeSince
  rw [bind_apply, hsince]
  simp only [Escape.Decoder.apply, hplace]
  cases decoder.decode span.bytes with
  | ok bytes => rfl
  | error cause => rfl

end Lookahead.Scan
