import Lookahead.Proofs.Recognisers

/-!
# What scans consume

Scans over any source at all, also one that serves nothing in particular: it may fail, claim too
much, or deliver again after it seemed to have ended. Then there is no document to compare with, and
what a scan has to go by is what it consumed itself. Of that, every byte is retained until the scan
is over. So the bytes since a place can always be had, there is always a way back to where a guard
was opened, and a decoder is handed exactly what the recognisers before it let pass.

`Sound` says all of it of a result at once: what was consumed is related to the answer, or the scan
ended for a reason that is neither the grammar's fault nor a caller's. One rule for each building
block carries that from the parts of a scan to the whole.
-/

namespace Lookahead

variable {σ : Type} [ByteSource σ]

/-! ## Pulls -/

/-- Pulls from a source that all succeed, what they deliver, and the source they leave. -/
inductive Pulls : σ → List UInt8 → σ → Prop where
  | none {s : σ} : Pulls s [] s
  | more {s t u : σ} {bytes others : List UInt8} {room : Nat} {fits : others.length ≤ room}
      (before : Pulls s bytes t) (pull : ByteSource.pull t room = (.delivered others fits, u)) :
      Pulls s (bytes ++ others) u

theorem Pulls.trans {s t u : σ} {bytes others : List UInt8} (h : Pulls s bytes t)
    (h' : Pulls t others u) : Pulls s (bytes ++ others) u := by
  induction h' with
  | none => rwa [List.append_nil]
  | more before pull ih =>
      rw [← List.append_assoc]
      exact .more ih pull

namespace Scan

open Buffer

/-- Why a scan may end early, over whatever source: a request that does not fit, a pull that failed,
an escape that names no character, or a line that is none. -/
inductive Reason (s : σ) : Fault → σ → Prop where
  | overflow {requested capacity : Nat} {bytes : List UInt8} {t : σ} (pulls : Pulls s bytes t) :
      Reason s (.buffer (.overflow requested capacity)) t
  | failed {bytes : List UInt8} {t u : σ} {room : Nat} {error : SourceError}
      (pulls : Pulls s bytes t) (pull : ByteSource.pull t room = (.failed error, u)) :
      Reason s (.buffer (.source error)) u
  | overrun {bytes : List UInt8} {t u : σ} {room count : Nat} {exceeds : room < count}
      (pulls : Pulls s bytes t) (pull : ByteSource.pull t room = (.overrun count exceeds, u)) :
      Reason s (.buffer (.source .overReported)) u
  | escape {value : UInt32} {place : Place} {bytes : List UInt8} {t : σ}
      (pulls : Pulls s bytes t) : Reason s (.escape ⟨.invalidCodePoint value, place⟩) t
  | noRule {position : Position} {bytes : List UInt8} {t : σ} (pulls : Pulls s bytes t) :
      Reason s (.noRule position) t

theorem Reason.behind {s t u : σ} {bytes : List UInt8} {fault : Fault} (hpulls : Pulls s bytes t)
    (h : Reason t fault u) : Reason s fault u := by
  cases h with
  | overflow pulls => exact .overflow (hpulls.trans pulls)
  | failed pulls pull => exact .failed (hpulls.trans pulls) pull
  | overrun pulls pull => exact .overrun (hpulls.trans pulls) pull
  | escape pulls => exact .escape (hpulls.trans pulls)
  | noRule pulls => exact .noRule (hpulls.trans pulls)

variable {b c d : Buffer σ} {fault : Fault}

/-! ## How a scan goes on, and how it ends -/

/-- The second buffer is the first with its cursor further on and with what successful pulls
delivered since. -/
structure Proceeds (b c : Buffer σ) : Prop where
  limits_eq : c.limits = b.limits
  lineEnding_eq : c.lineEnding = b.lineEnding
  label_eq : c.label = b.label
  base_eq : c.base = b.base
  pin_eq : c.pin = b.pin
  byte_le : b.place.byte ≤ c.place.byte
  grows : ∃ bytes, c.retained = b.retained ++ bytes ∧ Pulls b.source bytes c.source

/-- What a scan that ends early leaves: all that was retained, and a reason. -/
structure Halts (b : Buffer σ) (fault : Fault) (c : Buffer σ) : Prop where
  base_eq : c.base = b.base
  stop_le : b.stop ≤ c.stop
  reason : Reason b.source fault c.source

/-- The bytes between the cursor of one buffer and that of a later one. -/
def consumed (b c : Buffer σ) : List UInt8 :=
  (c.retained.drop b.offset).take (c.place.byte - b.place.byte)

namespace Proceeds

theorem refl (b : Buffer σ) : Proceeds b b :=
  ⟨rfl, rfl, rfl, rfl, rfl, Nat.le_refl _, [], (List.append_nil _).symm, .none⟩

theorem trans (h : Proceeds b c) (h' : Proceeds c d) : Proceeds b d where
  limits_eq := h'.limits_eq.trans h.limits_eq
  lineEnding_eq := h'.lineEnding_eq.trans h.lineEnding_eq
  label_eq := h'.label_eq.trans h.label_eq
  base_eq := h'.base_eq.trans h.base_eq
  pin_eq := h'.pin_eq.trans h.pin_eq
  byte_le := Nat.le_trans h.byte_le h'.byte_le
  grows := by
    obtain ⟨bytes, hretained, hpulls⟩ := h.grows
    obtain ⟨others, hretained', hpulls'⟩ := h'.grows
    exact ⟨bytes ++ others, by rw [hretained', hretained, List.append_assoc], hpulls.trans hpulls'⟩

theorem of_moves (h : Moves b c) (hbyte : b.place.byte ≤ c.place.byte) : Proceeds b c where
  limits_eq := h.limits_eq
  lineEnding_eq := h.lineEnding_eq
  label_eq := h.label_eq
  base_eq := h.base_eq
  pin_eq := h.pin_eq
  byte_le := hbyte
  grows := ⟨[], by rw [h.retained_eq, List.append_nil], by rw [h.source_eq]; exact .none⟩

theorem of_extends {bytes : List UInt8} (h : Extends b c bytes)
    (hpulls : Pulls b.source bytes c.source) : Proceeds b c where
  limits_eq := h.limits_eq
  lineEnding_eq := h.lineEnding_eq
  label_eq := h.label_eq
  base_eq := h.base_eq
  pin_eq := h.pin_eq
  byte_le := Nat.le_of_eq (congrArg Place.byte h.place_eq.symm)
  grows := ⟨bytes, h.retained_eq, hpulls⟩

theorem stop_le (h : Proceeds b c) : b.stop ≤ c.stop := by
  obtain ⟨bytes, hretained, -⟩ := h.grows
  have hlength := congrArg List.length hretained
  rw [List.length_append, retained_length, retained_length] at hlength
  rw [stop, stop, h.base_eq]
  omega

theorem halts (h : Proceeds b c) (h' : Halts c fault d) : Halts b fault d := by
  obtain ⟨bytes, -, hpulls⟩ := h.grows
  exact ⟨h'.base_eq.trans h.base_eq, Nat.le_trans h.stop_le h'.stop_le, h'.reason.behind hpulls⟩

/-- Where the earlier cursor stood is still retained. -/
theorem holds (h : Proceeds b c) : c.Holds b.place := by
  constructor
  · rw [h.base_eq]
    exact b.base_le_byte
  · exact Nat.le_trans b.byte_le_stop h.stop_le

theorem offset_eq (h : Proceeds b c) : c.offset = b.offset + (c.place.byte - b.place.byte) := by
  have hb := b.base_add_offset
  have hc := c.base_add_offset
  have hbyte := h.byte_le
  rw [h.base_eq] at hc
  omega

theorem consumed_eq (h : Proceeds b c) :
    consumed b c = (c.retained.take c.offset).drop b.offset := by
  rw [consumed, h.offset_eq, List.drop_take, Nat.add_sub_cancel_left]

theorem consumed_length (h : Proceeds b c) :
    (consumed b c).length = c.place.byte - b.place.byte := by
  have hoffset := h.offset_eq
  have hfilled := c.offset_le_filled
  rw [h.consumed_eq, List.length_drop, List.length_take, retained_length]
  omega

theorem consumed_trans (h : Proceeds b c) (h' : Proceeds c d) :
    consumed b d = consumed b c ++ consumed c d := by
  obtain ⟨bytes, hretained, -⟩ := h'.grows
  have hfilled : c.offset ≤ c.retained.length := by
    rw [retained_length]
    exact c.offset_le_filled
  have hfront : d.retained.take c.offset = c.retained.take c.offset := by
    rw [hretained, List.take_append_of_le_length hfilled]
  have hlength : b.offset ≤ (c.retained.take c.offset).length := by
    rw [List.length_take, Nat.min_eq_left hfilled, h.offset_eq]
    exact Nat.le_add_right _ _
  rw [(h.trans h').consumed_eq, h'.offset_eq, List.take_add, hfront,
    List.drop_append_of_le_length hlength, ← h.consumed_eq]
  rfl

omit [ByteSource σ] in
/-- Nothing is consumed where the cursor stands where it stood. -/
theorem consumed_nil (hbyte : c.place.byte = b.place.byte) : consumed b c = [] := by
  rw [consumed, hbyte, Nat.sub_self, List.take_zero]

omit [ByteSource σ] in
theorem consumed_self (b : Buffer σ) : consumed b b = [] :=
  consumed_nil rfl

omit [ByteSource σ] in
/-- Moving the cursor consumes the front of the window. -/
theorem consumed_of_moves (h : Moves b c) :
    consumed b c = b.window.take (c.place.byte - b.place.byte) := by
  rw [consumed, h.retained_eq, window_eq]

end Proceeds

/-! ## Requests -/

/-- A request does not touch the cursor. It fails only if it does not fit or its pull fails. -/
theorem request_cases (amount : Nat) (b : Buffer σ) :
    (∃ received c, request amount b = .ok received c ∧ Proceeds b c ∧ c.place = b.place) ∨
      ∃ error c, request amount b = .error error c ∧ Halts b (.buffer error) c := by
  unfold request
  split
  · exact .inl ⟨_, b, rfl, .refl b, rfl⟩
  · split
    · exact .inr ⟨_, _, rfl, rfl, Nat.le_refl _, .overflow .none⟩
    · unfold pull
      simp only
      cases hpull : ByteSource.pull b.source (b.want amount) with
      | mk reply source =>
          simp only
          cases reply with
          | failed error =>
              exact .inr ⟨_, _, rfl, rfl, Nat.le_refl _, .failed .none hpull⟩
          | overrun count exceeds =>
              exact .inr ⟨_, _, rfl, rfl, Nat.le_refl _, .overrun .none hpull⟩
          | delivered bytes fits =>
              have hextends := b.extends_absorb (b.want_le_free amount) (.delivered bytes fits)
                source (ByteSource.residue b.source (b.want amount))
                (Nat.le_trans fits (b.want_le_free amount))
              have hpulls : Pulls b.source bytes source := .more .none hpull
              exact .inl ⟨_, _, rfl, .of_extends { hextends with } hpulls, rfl⟩

/-! ## Sound results -/

/-- A result is related to what was consumed, or there is a reason why it is none. -/
inductive Sound {α : Type} (b : Buffer σ) (R : α → List UInt8 → Prop) :
    EStateM.Result Fault (Buffer σ) α → Prop where
  | ok {a : α} {c : Buffer σ} (proceeds : Proceeds b c) (related : R a (consumed b c)) :
      Sound b R (.ok a c)
  | error {fault : Fault} {c : Buffer σ} (halts : Halts b fault c) : Sound b R (.error fault c)

/-- An answer of a recogniser whose bytes are related to it. What was consumed without a match may
be anything. -/
def Matches {α : Type} (P : α → List UInt8 → Prop) : Option α → List UInt8 → Prop
  | some a, bytes => P a bytes
  | none, _ => True

/-- The same, and without a match nothing was consumed. -/
def Takes {α : Type} (P : α → List UInt8 → Prop) : Option α → List UInt8 → Prop
  | some a, bytes => P a bytes
  | none, bytes => bytes = []

section Rules

variable {α β : Type} {R : α → List UInt8 → Prop} {R' : β → List UInt8 → Prop}

theorem Sound.mono {S : α → List UInt8 → Prop} {result : EStateM.Result Fault (Buffer σ) α}
    (h : Sound b R result) (hR : ∀ a bytes, R a bytes → S a bytes) : Sound b S result := by
  cases h with
  | ok hproceeds hrelated => exact .ok hproceeds (hR _ _ hrelated)
  | error hhalts => exact .error hhalts

theorem Sound.of_ok {scan : Scan σ α} {a : α} (h : Sound b R (scan b))
    (hanswer : scan b = .ok a c) : Proceeds b c ∧ R a (consumed b c) := by
  rw [hanswer] at h
  cases h with
  | ok hproceeds hrelated => exact ⟨hproceeds, hrelated⟩

theorem Sound.of_error {scan : Scan σ α} (h : Sound b R (scan b))
    (hanswer : scan b = .error fault c) : Halts b fault c := by
  rw [hanswer] at h
  cases h with
  | error hhalts => exact hhalts

theorem Sound.pure {a : α} (h : R a []) : Sound b R ((pure a : Scan σ α) b) :=
  .ok (.refl b) (by rwa [Proceeds.consumed_self])

/-- What comes second is judged by what both consumed. -/
theorem Sound.bind {scan : Scan σ α} {next : α → Scan σ β} (first : Sound b R (scan b))
    (rest : ∀ a c, Proceeds b c → R a (consumed b c) → scan b = .ok a c →
      Sound c (fun x bytes => R' x (consumed b c ++ bytes)) (next a c)) :
    Sound b R' ((scan >>= next) b) := by
  rw [bind_apply]
  generalize hresult : scan b = result at first
  cases first with
  | error hhalts => exact .error hhalts
  | ok hproceeds hrelated =>
      rename_i a c
      have hrest := rest a c hproceeds hrelated hresult
      simp only
      generalize next a c = result at hrest
      cases hrest with
      | error hhalts => exact .error (hproceeds.halts hhalts)
      | ok hfurther hrelated' =>
          exact .ok (hproceeds.trans hfurther) (by rwa [hproceeds.consumed_trans hfurther])

theorem Takes.matches {P : α → List UInt8 → Prop} {found : Option α} {bytes : List UInt8}
    (h : Takes P found bytes) : Matches P found bytes := by
  cases found with
  | none => trivial
  | some a => exact h

/-- A recogniser that goes on where another matched. -/
theorem Sound.andThen {scan : Scan σ (Option α)} {next : Option α → Scan σ (Option β)}
    {P : α → List UInt8 → Prop} {P' : β → List UInt8 → Prop}
    (first : Sound b (Matches P) (scan b))
    (onMatch : ∀ a c, Proceeds b c → P a (consumed b c) →
      Sound c (Matches fun x bytes => P' x (consumed b c ++ bytes)) (next (some a) c))
    (onMismatch : next none = Pure.pure none) : Sound b (Matches P') ((scan >>= next) b) := by
  refine first.bind fun found c hproceeds hmatch _ => ?_
  cases found with
  | none =>
      rw [onMismatch]
      exact .pure trivial
  | some a =>
      refine (onMatch a c hproceeds hmatch).mono fun x bytes h => ?_
      cases x <;> exact h

end Rules

/-! ## The recognisers one by one -/

omit [ByteSource σ] in
theorem lineByte_cases (policy : LineEnding) :
    policy.lineByte = lineFeed ∨ policy.lineByte = carriageReturn := by
  cases policy <;> decide

/-- The byte ahead is consumed without complaint if it ends no line. -/
theorem consumed_ahead_byte {byte : UInt8} (hpeek : b.peek 0 = some byte)
    (hne : byte ≠ lineFeed ∧ byte ≠ carriageReturn) :
    ∃ c, consumeInLine 1 b = .ok () c ∧ Proceeds b c ∧ consumed b c = [byte] := by
  obtain ⟨rest, hwindow⟩ : ∃ rest, b.window = byte :: rest := by
    rw [peek_eq, ← List.head?_eq_getElem?] at hpeek
    exact ⟨b.window.tail, (List.cons_head?_tail hpeek).symm⟩
  have hsome : 1 ≤ b.occupied := by
    rw [← window_length, hwindow]
    exact Nat.succ_le_succ (Nat.zero_le _)
  have hfront : b.window.take 1 = [byte] := by rw [hwindow]; rfl
  have hline : b.lineEnding.lineByte ∉ b.window.take 1 := by
    rw [hfront, List.mem_singleton]
    rcases lineByte_cases b.lineEnding with hlineByte | hlineByte <;> rw [hlineByte]
    · exact hne.1.symm
    · exact hne.2.symm
  obtain ⟨c, hconsume, hplace⟩ := consumeInLine_ok hsome hline
  have hmoves := moves_consumeInLine 1 b
  rw [hconsume, stateOf_ok] at hmoves
  have hbyte : c.place.byte = b.place.byte + 1 := by rw [hplace, Place.alongLine_byte]
  refine ⟨c, hconsume, .of_moves hmoves (by omega), ?_⟩
  rw [Proceeds.consumed_of_moves hmoves, hbyte, Nat.add_sub_cancel_left, hfront]

theorem sound_byteIf {accepts : UInt8 → Bool} (hwithin : WithinLine accepts) (b : Buffer σ) :
    Sound b (Takes fun byte bytes => bytes = [byte] ∧ accepts byte = true) (byteIf accepts b) := by
  rw [byteIf_eq]
  rcases request_cases 1 b with
    ⟨received, c, hrequest, hproceeds, hplace⟩ | ⟨error, c, hrequest, hhalts⟩ <;> rw [hrequest]
  · have hnil : consumed b c = [] := Proceeds.consumed_nil (congrArg Place.byte hplace)
    simp only
    cases hpeek : c.peek 0 with
    | none => exact .ok hproceeds hnil
    | some byte =>
        simp only
        by_cases haccepts : accepts byte = true
        · obtain ⟨d, hconsume, hfurther, hbyte⟩ := consumed_ahead_byte hpeek (hwithin.ne haccepts)
          have hconsumed : consumed b d = [byte] := by
            rw [hproceeds.consumed_trans hfurther, hnil, hbyte, List.nil_append]
          rw [if_pos haccepts, hconsume]
          exact .ok (hproceeds.trans hfurther) ⟨hconsumed, haccepts⟩
        · rw [if_neg haccepts]
          exact .ok hproceeds hnil
  · exact .error hhalts

section Rules

variable {α : Type}

/-- What a repetition consumes is in pieces, one for each match. -/
theorem sound_many {scan : Scan σ (Option α)} {steady : Steady scan} {advances : Advances scan}
    {P : List UInt8 → Prop} (hscan : ∀ b, Sound b (Takes fun _ bytes => P bytes) (scan b))
    (b : Buffer σ) :
    Sound b (fun _ bytes => ∃ pieces : List (List UInt8), bytes = pieces.flatten ∧
      ∀ piece ∈ pieces, P piece) (many scan steady advances b) := by
  fun_induction many scan steady advances b with
  | case1 b fault c hanswer => exact .error ((hscan b).of_error hanswer)
  | case2 b c hanswer =>
      obtain ⟨hproceeds, hnil⟩ := (hscan b).of_ok hanswer
      exact .ok hproceeds ⟨[], hnil, fun _ hmem => absurd hmem List.not_mem_nil⟩
  | case3 b a c hanswer ih =>
      obtain ⟨hproceeds, hpiece⟩ := (hscan b).of_ok hanswer
      generalize many scan steady advances c = result at ih
      cases ih with
      | error hhalts => exact .error (hproceeds.halts hhalts)
      | ok hfurther hpieces =>
          obtain ⟨pieces, hflatten, hall⟩ := hpieces
          refine .ok (hproceeds.trans hfurther) ⟨consumed b c :: pieces, ?_, ?_⟩
          · rw [hproceeds.consumed_trans hfurther, hflatten, List.flatten_cons]
          · exact List.forall_mem_cons.mpr ⟨hpiece, hall⟩

theorem sound_skipWhile {accepts : UInt8 → Bool} (hwithin : WithinLine accepts) (b : Buffer σ) :
    Sound b (fun _ bytes => ∀ byte ∈ bytes, accepts byte = true)
      (Entries.skipWhile accepts b) := by
  have hbyte : ∀ b : Buffer σ, Sound b
      (Takes fun _ bytes => ∀ byte ∈ bytes, accepts byte = true) (byteIf accepts b) := by
    intro b
    refine (sound_byteIf hwithin b).mono fun found bytes hfound => ?_
    cases found with
    | none => exact hfound
    | some byte =>
        obtain ⟨rfl, haccepts⟩ := hfound
        exact List.forall_mem_singleton.mpr haccepts
  refine (sound_many hbyte b).mono fun _ bytes => ?_
  rintro ⟨pieces, rfl, hall⟩ byte hmem
  obtain ⟨piece, hpiece, hbyte⟩ := List.mem_flatten.mp hmem
  exact hall piece hpiece byte hbyte

/-! ## Attempts -/

/-- What is left of an attempt once its guard is closed: where the cursor is apart, the buffer that
its body left, with the pin from before. -/
theorem Proceeds.closed {pin : Option Nat} (h : Proceeds { b with pin } c)
    (hmoves : Moves { c with pin := b.pin } d) (hbyte : b.place.byte ≤ d.place.byte) :
    Proceeds b d where
  limits_eq := hmoves.limits_eq.trans h.limits_eq
  lineEnding_eq := hmoves.lineEnding_eq.trans h.lineEnding_eq
  label_eq := hmoves.label_eq.trans h.label_eq
  base_eq := hmoves.base_eq.trans h.base_eq
  pin_eq := hmoves.pin_eq
  byte_le := hbyte
  grows := by
    obtain ⟨bytes, hretained, hpulls⟩ := h.grows
    exact ⟨bytes, hmoves.retained_eq.trans hretained, by rwa [hmoves.source_eq]⟩

theorem Halts.closed {pin : Option Nat} (h : Halts { b with pin } fault c)
    (hmoves : Moves { c with pin := b.pin } d) : Halts b fault d where
  base_eq := hmoves.base_eq.trans h.base_eq
  stop_le := by
    rw [hmoves.stop_eq]
    exact h.stop_le
  reason := by
    rw [hmoves.source_eq]
    exact h.reason

theorem sound_attempt {body : Scan σ (Option α)} {P : α → List UInt8 → Prop}
    (hbody : ∀ b, Sound b (Matches P) (body b)) (b : Buffer σ) :
    Sound b (Takes P) (attempt body b) := by
  have hfirst := hbody { b with pin := some (Guard.pinnedBy b.pin b.place.byte) }
  unfold attempt
  simp only [Guard.begin]
  generalize body { b with pin := some (Guard.pinnedBy b.pin b.place.byte) } = result at hfirst ⊢
  cases hfirst with
  | ok hproceeds hrelated =>
      rename_i found c
      cases found with
      | some a => exact .ok (hproceeds.closed (.refl _) hproceeds.byte_le) hrelated
      | none =>
          obtain ⟨d, hrollBack, hmoves, hplace⟩ :=
            rollBack_begun b hproceeds.base_eq hproceeds.stop_le
          simp only [Guard.begin] at hrollBack
          simp only [hrollBack]
          have hback := hproceeds.closed hmoves (Nat.le_of_eq (congrArg Place.byte hplace.symm))
          exact .ok hback (Proceeds.consumed_nil (congrArg Place.byte hplace))
  | error hhalts =>
      obtain ⟨d, hrollBack, hmoves, -⟩ := rollBack_begun b hhalts.base_eq hhalts.stop_le
      simp only [Guard.begin] at hrollBack
      simp only [hrollBack]
      exact .error (hhalts.closed hmoves)

/-- How an attempt ends after its body. -/
inductive Closes (b : Buffer σ) : EStateM.Result Fault (Buffer σ) (Option α) →
    EStateM.Result Fault (Buffer σ) (Option α) → Prop where
  | kept {a : α} {c : Buffer σ} : Closes b (.ok (some a) c) (.ok (some a) { c with pin := b.pin })
  | back {c d : Buffer σ} (moves : Moves { c with pin := b.pin } d) (place_eq : d.place = b.place) :
      Closes b (.ok none c) (.ok none d)
  | failed {fault : Fault} {c d : Buffer σ} (moves : Moves { c with pin := b.pin } d)
      (place_eq : d.place = b.place) : Closes b (.error fault c) (.error fault d)

/-- An attempt that could not go back would be at fault itself, so a sound one always can. -/
theorem closes_attempt {body : Scan σ (Option α)} {R : Option α → List UInt8 → Prop}
    (h : Sound b R (attempt body b)) :
    Closes b (body { b with pin := some (Guard.pinnedBy b.pin b.place.byte) })
      (attempt body b) := by
  have hlost : ∀ {misuse c}, ¬Sound b R (.error (.misuse misuse) c) := by
    rintro misuse c ⟨⟩
    rename_i hhalts
    cases hhalts.reason
  have hback : ∀ c : Buffer σ, (∃ d, (Guard.begin .active b).1.rollBack c = .ok () d ∧
      Moves { c with pin := b.pin } d ∧ d.place = b.place) ∨
      ∃ misuse, (Guard.begin .active b).1.rollBack c = .error misuse c := by
    intro c
    by_cases held : c.Holds b.place
    · have hsnapshot : (Guard.begin .active b).1.snapshot = some ⟨b.mark, b.pin⟩ := rfl
      exact .inl ⟨_, Guard.rollBack_ok hsnapshot held, ⟨rfl, rfl, rfl, rfl, rfl, rfl, rfl, rfl⟩,
        rfl⟩
    · exact .inr ⟨_, dif_neg held⟩
  unfold attempt at h ⊢
  simp only [Guard.begin] at h hback ⊢
  generalize body { b with pin := some (Guard.pinnedBy b.pin b.place.byte) } = result at h ⊢
  cases result with
  | ok found c =>
      cases found with
      | some a => exact .kept
      | none =>
          rcases hback c with ⟨d, hrollBack, hmoves, hplace⟩ | ⟨misuse, hrollBack⟩ <;>
            simp only [hrollBack] at h ⊢
          · exact .back hmoves hplace
          · exact absurd h hlost
  | error fault c =>
      rcases hback c with ⟨d, hrollBack, hmoves, hplace⟩ | ⟨misuse, hrollBack⟩ <;>
        simp only [hrollBack] at h ⊢
      · exact .failed hmoves hplace
      · exact absurd h hlost

/-! ## The bytes since a place -/

/-- The span from where a scan began holds what the scan consumed. -/
theorem since_eq_consumed (h : Proceeds b c) :
    since b.place c = .ok ⟨consumed b c, ⟨b.place, b.offset⟩, c.label⟩ c := by
  have hoffset : b.place.byte - c.base = b.offset := by
    rw [h.base_eq, ← b.base_add_offset, Nat.add_sub_cancel_left]
  unfold since
  rw [span_of_holds h.holds h.byte_le, slice_consumed, hoffset, ← h.consumed_eq]

theorem sound_capture {body : Scan σ Unit} {P : List UInt8 → Prop}
    (hbody : ∀ b, Sound b (fun _ bytes => P bytes) (body b)) (b : Buffer σ) :
    Sound b (fun span bytes => span.bytes = bytes ∧ P bytes) (capture body b) := by
  show Sound b _ ((body >>= fun _ => since b.place) b)
  refine (hbody b).bind fun _ c hproceeds hbytes _ => ?_
  rw [since_eq_consumed hproceeds]
  exact .ok (.refl c) (by rw [Proceeds.consumed_self, List.append_nil]; exact ⟨rfl, hbytes⟩)

/-- A decoder that could only find a bad code point in what was consumed does not fail otherwise. -/
theorem sound_decodeSince {decoder : Escape.Decoder} (h : Proceeds b c)
    (hcause : ∀ cause, decoder.decode (consumed b c) = .error cause →
      ∃ value, cause = .invalidCodePoint value) :
    Sound c (fun _ bytes => bytes = []) (decodeSince b.place decoder c) := by
  unfold decodeSince
  rw [bind_apply, since_eq_consumed h]
  simp only [Escape.Decoder.apply]
  cases hdecode : decoder.decode (consumed b c) with
  | ok bytes => exact .pure rfl
  | error cause =>
      obtain ⟨value, rfl⟩ := hcause cause hdecode
      exact .error ⟨rfl, Nat.le_refl _, .escape .none⟩

end Rules

/-! ## Ends of lines -/

theorem sound_isAtEnd (b : Buffer σ) :
    Sound b (fun _ bytes => bytes = []) (ask isAtEnd b) := by
  simp only [ask, adaptExcept_apply, isAtEnd, ensure, bind_apply]
  rcases request_cases 1 b with
    ⟨received, c, hrequest, hproceeds, hplace⟩ | ⟨error, c, hrequest, hhalts⟩ <;>
    simp only [hrequest]
  · exact .ok hproceeds (Proceeds.consumed_nil (congrArg Place.byte hplace))
  · exact .error hhalts

theorem sound_consumeLineEnding (b : Buffer σ) :
    Sound b (fun found bytes => bytes = [] ↔ found = false) (ask consumeLineEnding b) := by
  simp only [ask, adaptExcept_apply, consumeLineEnding_eq]
  rcases request_cases b.lineEnding.maxWidth b with
    ⟨received, c, hrequest, hproceeds, hplace⟩ | ⟨error, c, hrequest, hhalts⟩ <;>
    simp only [hrequest]
  · have hnil : consumed b c = [] := Proceeds.consumed_nil (congrArg Place.byte hplace)
    cases hmatch : c.lineEnding.match? (c.front c.lineEnding.maxWidth) with
    | none =>
        rw [passLineEnding_none hmatch]
        exact .ok hproceeds ⟨fun _ => rfl, fun _ => hnil⟩
    | some width =>
        obtain ⟨d, hpass, hpassed⟩ := passLineEnding_some hmatch
        have hmoves := moves_passLineEnding c
        rw [hpass, stateOf_ok] at hmoves
        have hwidth := LineEnding.match?_pos hmatch
        have hbyte : d.place.byte = c.place.byte + width := by rw [hpassed, Place.toNextLine_byte]
        have hfurther : Proceeds c d := .of_moves hmoves (by omega)
        have hlength := hfurther.consumed_length
        have hne : consumed b d ≠ [] := by
          rw [hproceeds.consumed_trans hfurther, hnil, List.nil_append]
          exact List.ne_nil_of_length_pos (by omega)
        rw [hpass]
        exact .ok (hproceeds.trans hfurther)
          ⟨fun hempty => absurd hempty hne, fun hfalse => by cases hfalse⟩
  · exact .error hhalts

end Scan

end Lookahead
