import Lookahead.Proofs.LineEndings
import Lookahead.Proofs.Positions

/-!
# Consuming by a shortcut

Consuming looks at every byte to count lines. Two shortcuts do not: they take the caller's word that
the bytes lie on one line, or that they end one. Both leave the cursor at the same byte, so what is
left to compare is the line and the column. Where a portion holds one line byte and ends with it
(`EndsOneLine`), counting and the second shortcut agree, wherever the cursor was before; there is no
other case, since the line tells how many line bytes there are and the column how far back the last
one is.

Passing a line ending is that second shortcut over bytes the policy recognised. A policy recognises
endings by their bytes and counts lines by a single byte, so it depends on the policy and the ending
whether the two agree.
-/

namespace Lookahead

variable {σ : Type}

namespace Place

variable {lineByte : UInt8} {bytes : List UInt8}

/-- One line byte is among the bytes, as the last of them. -/
def EndsOneLine (lineByte : UInt8) (bytes : List UInt8) : Prop :=
  bytes.count lineByte = 1 ∧ bytes.getLast? = some lineByte

instance : Decidable (EndsOneLine lineByte bytes) :=
  inferInstanceAs (Decidable (_ ∧ _))

theorem advance_line (lineByte : UInt8) (bytes : List UInt8) (place : Place) :
    (place.advance lineByte bytes).line = place.line + bytes.count lineByte := by
  induction bytes generalizing place with
  | nil => rfl
  | cons byte bytes ih =>
      rw [advance_cons, ih, step, List.count_cons]
      by_cases hbyte : byte = lineByte
      · rw [if_pos hbyte, if_pos (beq_iff_eq.mpr hbyte)]
        simp only
        omega
      · rw [if_neg hbyte, if_neg (mt beq_iff_eq.mp hbyte)]
        rfl

/-- Behind a line byte it does not matter which column the bytes before it started in. -/
theorem advance_split {before after : List UInt8} (hafter : lineByte ∉ after) (place : Place) :
    (place.advance lineByte (before ++ lineByte :: after)).column = 1 + after.length := by
  rw [advance_append, advance_cons, advance_of_not_mem hafter, step, if_pos rfl]
  rfl

/-- Bytes with one line byte among them, taken apart there. -/
theorem split_of_count (h : bytes.count lineByte = 1) :
    ∃ before after, bytes = before ++ lineByte :: after ∧ lineByte ∉ before ∧ lineByte ∉ after := by
  have hmem : lineByte ∈ bytes := List.count_pos_iff.mp (by omega)
  obtain ⟨before, after, rfl, hbefore⟩ := List.eq_append_cons_of_mem hmem
  rw [List.count_append, List.count_cons_self, List.count_eq_zero.mpr hbefore] at h
  exact ⟨before, after, rfl, hbefore, List.count_eq_zero.mp (by omega)⟩

/-- Counting over bytes is the same as going to the next line exactly if they end one line. -/
theorem advance_eq_toNextLine_iff (place : Place) :
    place.advance lineByte bytes = place.toNextLine bytes.length ↔ EndsOneLine lineByte bytes := by
  constructor
  · intro hsame
    -- the line tells that there is one line byte, and the column that nothing is behind it
    have hline := congrArg line hsame
    rw [advance_line] at hline
    have hcount : bytes.count lineByte = 1 := Nat.add_left_cancel hline
    obtain ⟨before, after, rfl, -, hafter⟩ := split_of_count hcount
    have hcolumn := congrArg column hsame
    rw [advance_split hafter] at hcolumn
    have hnone : after = [] := List.eq_nil_of_length_eq_zero (Nat.add_left_cancel hcolumn)
    refine ⟨hcount, ?_⟩
    rw [hnone, List.getLast?_concat]
  · rintro ⟨hcount, hlast⟩
    obtain ⟨before, rfl⟩ := List.getLast?_eq_some_iff.mp hlast
    rw [List.count_append, List.count_singleton_self] at hcount
    have hbefore : lineByte ∉ before := List.count_eq_zero.mp (by omega)
    rw [advance_append, advance_of_not_mem hbefore, advance_cons, advance_nil, step, if_pos rfl,
      List.length_append]
    rfl

end Place

namespace LineEnding

/-- The line endings that counting takes for one line: all of a policy's, or those that end with a
line feed, or the carriage return alone. -/
def CountsOne : LineEnding → List UInt8 → Prop
  | .lf, _ | .cr, _ | .crlf, _ | .lfOrCrlf, _ => True
  | .crOrLf, ending | .crOrLfOrCrlf, ending => ending.getLast? = some lineFeed
  | .crOrCrlf, ending => ending = [carriageReturn]

instance (policy : LineEnding) (ending : List UInt8) : Decidable (policy.CountsOne ending) := by
  cases policy <;> unfold CountsOne <;> infer_instance

theorem countsOne_iff {policy : LineEnding} {ending : List UInt8}
    (h : ending ∈ policy.terminators) :
    policy.CountsOne ending ↔ Place.EndsOneLine policy.lineByte ending := by
  have hall : ∀ ending ∈ policy.terminators,
      (policy.CountsOne ending ↔ Place.EndsOneLine policy.lineByte ending) := by
    cases policy <;> decide
  exact hall ending h

end LineEnding

namespace Buffer

open Place

variable {b c : Buffer σ} {count : Nat}

/-! ## Where the cursor gets -/

theorem mark_stepTo {place : Place} (at_count : place.byte = b.place.byte + count)
    (within : count ≤ b.occupied) :
    (b.stepTo place count at_count within).mark = ⟨place, b.offset + count⟩ := by
  have hbyte := b.base_add_offset
  have hoffset : place.byte - b.base = b.offset + count := by omega
  show (⟨place, place.byte - b.base⟩ : Mark) = _
  rw [hoffset]

theorem mark_consume (within : count ≤ b.occupied) :
    (stateOf (consume count b)).mark
      = ⟨b.place.advance b.lineEnding.lineByte (b.window.take count), b.offset + count⟩ := by
  rw [← front_eq]
  unfold consume
  rw [dif_pos within, stateOf_ok, mark_stepTo]

theorem mark_consumeToNextLine (within : count ≤ b.occupied) :
    (stateOf (consumeToNextLine count b)).mark = ⟨b.place.toNextLine count, b.offset + count⟩ := by
  unfold consumeToNextLine
  rw [dif_pos within, stateOf_ok, mark_stepTo]

/-- What comes behind the window does not matter to what is consumed of it. -/
theorem Extends.mark_consume {bytes : List UInt8} (h : Extends b c bytes)
    (within : count ≤ b.occupied) :
    (stateOf (consume count c)).mark = (stateOf (consume count b)).mark := by
  have hlater : count ≤ c.occupied := by
    rw [h.occupied_eq]
    exact Nat.le_add_right_of_le within
  have hwindow : c.window.take count = b.window.take count := by
    rw [h.window_eq, List.take_append_of_le_length (b.window_length.symm ▸ within)]
  rw [Buffer.mark_consume within, Buffer.mark_consume hlater, hwindow, h.place_eq, h.lineEnding_eq,
    h.offset_eq]

/-! ## The shortcuts -/

/-- Over bytes that end one line, and no others, the second shortcut gets where counting does. -/
theorem consumeToNextLine_agrees_iff (within : count ≤ b.occupied) :
    (stateOf (consumeToNextLine count b)).mark = (stateOf (consume count b)).mark
      ↔ EndsOneLine b.lineEnding.lineByte (b.window.take count) := by
  have hplaces : b.place.advance b.lineEnding.lineByte (b.window.take count)
      = b.place.toNextLine count ↔ EndsOneLine b.lineEnding.lineByte (b.window.take count) := by
    rw [← advance_eq_toNextLine_iff b.place, ← front_eq, length_front within]
  rw [mark_consumeToNextLine within, mark_consume within, ← hplaces, Mark.mk.injEq]
  exact ⟨fun h => h.1.symm, fun h => ⟨h.symm, rfl⟩⟩

/-- Passing a line ending is going to the next line over bytes that make one. -/
theorem passLineEnding_shortcut (h : passLineEnding b = .ok true c) :
    ∃ ending ∈ b.lineEnding.terminators, ending <+: b.window ∧
      consumeToNextLine ending.length b = .ok () c := by
  unfold passLineEnding at h
  split at h
  · cases h
  · rename_i width hmatch
    rw [front_eq, LineEnding.match?_take] at hmatch
    obtain ⟨ending, hmem, hbegins, rfl⟩ := LineEnding.exists_of_match? hmatch
    have hwithin : ending.length ≤ b.occupied := b.window_length ▸ hbegins.length_le
    refine ⟨ending, hmem, hbegins, ?_⟩
    cases h
    exact dif_pos hwithin

theorem ensure_of_request [ByteSource σ] {amount received : Nat}
    (h : request amount b = .ok received c) : ensure amount b = .ok () c := by
  unfold ensure
  rw [bind_apply, h]
  rfl

end Buffer

namespace Session

open Buffer Place

variable [ByteSource σ] {s : Session σ}

/-- How the shortcuts over the first `count` bytes of the window compare with counting. -/
structure Shortcuts (s : Session σ) (count : Nat) : Prop where
  counted : (s.step (.consume count)).1 = .done
  inLine_misused_iff : (∃ misuse, (s.step (.consumeInLine count)).1 = .misused misuse)
    ↔ s.buffer.lineEnding.lineByte ∈ s.buffer.window.take count
  inLine_eq : s.buffer.lineEnding.lineByte ∉ s.buffer.window.take count →
    s.step (.consumeInLine count) = s.step (.consume count)
  toNextLine : (s.step (.consumeToNextLine count)).1 = .done
  toNextLine_agrees_iff :
    (s.step (.consumeToNextLine count)).2.buffer.mark = (s.step (.consume count)).2.buffer.mark
      ↔ EndsOneLine s.buffer.lineEnding.lineByte (s.buffer.window.take count)

theorem shortcuts_of_le {count : Nat} (within : count ≤ s.buffer.occupied) : Shortcuts s count := by
  have hcounted : (s.step (.consume count)).1 = .done := by
    obtain ⟨c, hconsume, -⟩ := consume_ok within
    show (s.perform (consume count) _ _).1 = _
    unfold perform
    rw [hconsume]
  have hsame : s.buffer.lineEnding.lineByte ∉ s.buffer.window.take count →
      s.step (.consumeInLine count) = s.step (.consume count) := by
    intro hline
    show s.perform (consumeInLine count) _ _ = s.perform (consume count) _ _
    unfold perform
    rw [consumeInLine_eq_consume within hline]
  refine ⟨hcounted, ⟨?_, fun hline => ⟨.inLineOverLineByte, ?_⟩⟩, hsame, ?_, ?_⟩
  · rintro ⟨misuse, hmisused⟩
    by_contra hline
    rw [hsame hline, hcounted] at hmisused
    cases hmisused
  · show (s.perform (consumeInLine count) _ _).1 = _
    unfold perform
    rw [consumeInLine_over within hline]
  · show (s.perform (consumeToNextLine count) _ _).1 = _
    unfold perform consumeToNextLine
    rw [dif_pos within]
  · show (s.perform _ _ _).2.buffer.mark = (s.perform _ _ _).2.buffer.mark ↔ _
    rw [perform_session, perform_session]
    exact consumeToNextLine_agrees_iff within

/-- The passing of a line ending by a session, with `t` the session once it has asked for the
longest: it is the shortcut over the bytes of the ending. -/
structure PassesEnding (s t : Session σ) (ending : List UInt8) : Prop where
  mem : ending ∈ s.buffer.lineEnding.terminators
  in_window : ending <+: t.buffer.window
  passed : (s.step .consumeLineEnding).2 = (t.step (.consumeToNextLine ending.length)).2
  counted : (t.step (.consume ending.length)).1 = .done
  agrees_iff :
    (s.step .consumeLineEnding).2.buffer.mark = (t.step (.consume ending.length)).2.buffer.mark
      ↔ s.buffer.lineEnding.CountsOne ending
  /-- Nor need the session have asked to count over an ending that it had in its window. -/
  unasked : ending.length ≤ s.buffer.occupied →
    (s.step (.consume ending.length)).2.buffer.mark
      = (t.step (.consume ending.length)).2.buffer.mark

/-- A line ending is found in the window that the request leaves. -/
theorem request_of_found (hfound : (s.step .consumeLineEnding).1 = .flag true) :
    ∃ received c d, request s.buffer.lineEnding.maxWidth s.buffer = .ok received c ∧
      passLineEnding c = .ok true d := by
  cases hrequest : request s.buffer.lineEnding.maxWidth s.buffer with
  | error error c =>
      have hanswer : (s.step .consumeLineEnding).1 = .failed error := by
        show (s.perform consumeLineEnding _ _).1 = _
        unfold perform
        rw [consumeLineEnding_eq, hrequest]
      cases hanswer.symm.trans hfound
  | ok received c =>
      rw [step_consumeLineEnding hrequest] at hfound
      cases hpass : passLineEnding c with
      | error error d =>
          rw [hpass] at hfound
          cases hfound
      | ok found d =>
          rw [hpass] at hfound
          obtain rfl : found = true := Answer.flag.inj hfound
          exact ⟨received, c, d, rfl, hpass⟩

theorem passesEnding_of_found (hfound : (s.step .consumeLineEnding).1 = .flag true) :
    ∃ ending, PassesEnding s (s.step (.ensure s.buffer.lineEnding.maxWidth)).2 ending := by
  obtain ⟨received, c, d, hrequest, hpass⟩ := request_of_found hfound
  obtain ⟨pulled, -, hextends⟩ := extends_of_request hrequest
  obtain ⟨ending, hmem, hbegins, hnextLine⟩ := passLineEnding_shortcut hpass
  have hasked : (s.step (.ensure s.buffer.lineEnding.maxWidth)).2 = { s with buffer := c } := by
    show (s.perform _ _ _).2 = _
    rw [perform_session, ensure_of_request hrequest, stateOf_ok]
  rw [hasked]
  have hshortcuts : Shortcuts { s with buffer := c } ending.length :=
    shortcuts_of_le (c.window_length ▸ hbegins.length_le)
  have hpassed : (s.step .consumeLineEnding).2
      = (({ s with buffer := c } : Session σ).step (.consumeToNextLine ending.length)).2 := by
    show _ = (Session.perform _ _ _ _).2
    rw [step_consumeLineEnding hrequest, hpass, perform_session, hnextLine]
    rfl
  refine ⟨ending, hextends.lineEnding_eq ▸ hmem, hbegins, hpassed, hshortcuts.counted, ?_, ?_⟩
  · have hends : c.window.take ending.length = ending := (List.prefix_iff_eq_take.mp hbegins).symm
    rw [hpassed, hshortcuts.toNextLine_agrees_iff, ← hextends.lineEnding_eq,
      LineEnding.countsOne_iff hmem, hends]
  · intro hbefore
    show (s.perform _ _ _).2.buffer.mark = (Session.perform _ _ _ _).2.buffer.mark
    rw [perform_session, perform_session]
    exact (hextends.mark_consume hbefore).symm

/-- **The shortcuts agree with counting exactly where they should.** In every state and under every
policy, over any bytes of the window: going on in the line is refused exactly if a line byte is
among them, and otherwise does what consuming does, and going to the next line gets where consuming
does exactly if they end one line. So a line ending is passed as it would be consumed exactly if the
policy counts one line for it. -/
theorem shortcuts_agree (s : Session σ) :
    (∀ count, count ≤ s.buffer.occupied → Shortcuts s count) ∧
      ((s.step .consumeLineEnding).1 = .flag true →
        ∃ ending, PassesEnding s (s.step (.ensure s.buffer.lineEnding.maxWidth)).2 ending) :=
  ⟨fun _ within => shortcuts_of_le within, passesEnding_of_found⟩

/-- Where carriage returns count, a pair passed as a line ending leaves the cursor at the start of a
line, and counting leaves it behind a line feed there. -/
theorem shortcuts_agree_of_slice :
    ∃ fresh, start ⟨4, 4⟩ .crOrCrlf "input" (⟨[13, 10, 13, 97], none⟩ : Slice) = .ok fresh ∧
      let s := (fresh.step (.ensure 4)).2
      3 ≤ s.buffer.occupied ∧ Shortcuts s 3 ∧
        (s.step .consumeLineEnding).1 = .flag true ∧
        (∃ ending, PassesEnding s (s.step (.ensure s.buffer.lineEnding.maxWidth)).2 ending) ∧
        (s.step .consumeLineEnding).2.buffer.mark = ⟨⟨2, 2, 1⟩, 2⟩ ∧
        (s.step (.consume 2)).2.buffer.mark = ⟨⟨2, 2, 2⟩, 2⟩ := by
  refine ⟨_, start_ok (by decide) .crOrCrlf "input" _, ?_⟩
  intro s
  have hwithin : 3 ≤ s.buffer.occupied := by decide +kernel
  have hfound : (s.step .consumeLineEnding).1 = .flag true := by decide +kernel
  obtain ⟨hshortcuts, hpasses⟩ := shortcuts_agree s
  exact ⟨hwithin, hshortcuts 3 hwithin, hfound, hpasses hfound, by decide +kernel,
    by decide +kernel⟩

end Session

end Lookahead
