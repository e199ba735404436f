import Lookahead.Proofs.Recognisers

/-!
# What the reading of values shows

Value by value, piece by piece and escape by escape, the reader shows the grammar. The reader looks
for the closing quote before each piece and the grammar after the last one; that is the same, since
no piece begins with a quote.
-/

namespace Lookahead.Entries

open Scan Buffer

variable {σ : Type} [ByteSource σ] {doc : List UInt8} {start : Nat} {b c : Buffer σ}

/-! ## Sequences -/

/-- A recogniser that goes on where another matched. -/
theorem shows_andThen {α β γ δ : Type} {rel : α → β → Prop} {rel' : γ → δ → Prop}
    {Z Z' : Buffer σ → Prop} {scan : Scan σ (Option α)} {next : Option α → Scan σ (Option γ)}
    {P : Peg β} {N : β → Peg δ} (first : Shows doc b (Found rel Z) (P (ahead doc b)) (scan b))
    (onMatch : ∀ a value c, Stays doc b c → scan b = .ok (some a) c → rel a value → Z c →
      Shows doc c (Found rel' Z') (N value (ahead doc c)) (next (some a) c))
    (onMismatch : next none = pure none) :
    Shows doc b (Found rel' Z') ((P >>= N) (ahead doc b)) ((scan >>= next) b) := by
  refine first.bind ?_ ?_
  · rintro a value c hstays ⟨hrelated, hholds⟩ hscan
    cases hrelated with
    | some hrel => exact onMatch _ _ _ hstays hscan hrel (hholds (Option.some_ne_none _))
  · rintro a c hstays ⟨hrelated, -⟩
    cases hrelated
    rw [onMismatch]
    exact .mismatch (.refl hstays.reads) .of_none

theorem found_of_sat (h : OnLine doc start b) {accepts : UInt8 → Bool}
    (hwithin : WithinLine accepts) :
    Shows doc b (Found (fun _ _ => True) (OnLine doc start)) (Peg.sat accepts (ahead doc b))
      (byteIf accepts b) :=
  (shows_sat h hwithin).mono fun _ _ _ _ hrelated => hrelated.1.toFound

/-! ## Units -/

theorem isDigit_eq (byte : UInt8) : Hex.isDigit byte = (Grammar.hexValue? byte).isSome := by
  rw [Grammar.hexValue?_eq, Option.isSome_map]
  rfl

theorem shows_hexDigits (count value : Nat) (h : OnLine doc start b) :
    Shows doc b (Found (fun _ _ => True) (OnLine doc start))
      (Grammar.number count value (ahead doc b)) (hexDigits count b) := by
  induction count generalizing value b with
  | zero => exact .matched (.refl h.reads) (.of_some trivial h)
  | succ count ih =>
      have hdigit := (shows_byteIf h isDigit_eq (by decide)).mono
        fun _ _ _ _ hrelated => hrelated.1.toFound
      exact shows_andThen hdigit (fun _ _ _ _ _ _ hc => ih _ hc) rfl

theorem shows_unit (h : OnLine doc start b) :
    Shows doc b (Found (fun _ _ => True) (OnLine doc start)) (Grammar.unit (ahead doc b))
      (unit b) :=
  shows_andThen (found_of_sat h (by decide)) (fun _ _ _ _ _ _ hc => shows_hexDigits 4 0 hc) rfl

theorem shows_nextUnit (h : OnLine doc start b) :
    Shows doc b (Found (fun _ _ => True) (OnLine doc start)) (Grammar.nextUnit (ahead doc b))
      (nextUnit b) :=
  shows_andThen (found_of_sat h (by decide)) (fun _ _ _ _ _ _ hc => shows_unit hc) rfl

theorem shows_moreUnits (h : OnLine doc start b) :
    Shows doc b (fun _ values c => values.isSome ∧ OnLine doc start c ∧ True)
      (Peg.star Grammar.nextUnit (ahead doc b)) (moreUnits b) := by
  have hnext : ∀ b : Buffer σ, OnLine doc start b → Shows doc b
      (fun found value c =>
        Recognised (fun _ _ => True) (OnLine doc start) doc start b found value c ∧
          (value = none → True))
      (Grammar.nextUnit (ahead doc b)) (attempt nextUnit b) := by
    intro b h
    refine (shows_attempt (fun c pin hc => hc.with_pin pin) h fun _ h => shows_nextUnit h).mono ?_
    exact fun _ _ _ _ hrelated => ⟨hrelated, fun _ => trivial⟩
  exact shows_many hnext h

theorem shows_units (h : OnLine doc start b) :
    Shows doc b (Found (fun _ _ => True) (OnLine doc start)) (Grammar.units (ahead doc b))
      (units b) := by
  refine shows_andThen (shows_unit h) (fun _ first c _ _ _ hc => ?_) rfl
  refine (shows_moreUnits hc).bind ?_ ?_
  · rintro _ others d hstays ⟨-, hd, -⟩ -
    exact .matched (.refl hstays.reads) (.of_some trivial hd)
  · rintro _ d - ⟨hsome, -⟩
    cases hsome

/-! ## Escapes -/

/-- A run of units shows its decoding, and fails where it began if it has none. -/
theorem shows_unitRun (h : OnLine doc start b) :
    Shows doc b (Found Eq (OnLine doc start)) (Grammar.units.decoded Grammar.textOf (ahead doc b))
      ((do let some _ ← units | return none
           return some (← decodeSince b.place .utf16Run)) b) := by
  have hunits := shows_units h
  rw [bind_apply]
  generalize hresult : units b = result at hunits ⊢
  generalize hverdict : Grammar.units (ahead doc b) = verdict at hunits
  unfold Peg.decoded
  rw [hverdict]
  cases hunits with
  | matched hstays hrelated =>
      rename_i found values c
      obtain ⟨hmatch, hholds⟩ := hrelated
      have hc := hholds (Option.some_ne_none _)
      cases hmatch
      obtain ⟨text, htext, hdecode⟩ := Grammar.eq_append_of_units hverdict
      simp only
      rw [bind_apply, decodeSince_eq h.reads hstays htext, hdecode]
      unfold Grammar.decodedTo
      -- A run with no text fails on both sides where it began, at its first marker.
      cases Grammar.textOf values with
      | ok bytes => exact .matched hstays (.of_some rfl hc)
      | error unit =>
          have hplace : b.place = .behind lineFeed (Grammar.consumed doc (ahead doc b)) := by
            rw [consumed_ahead h.reads]
            exact h.place_eq
          simp only [Except.mapError, hplace]
          exact .aborted hstays
  | mismatch hstays hrelated =>
      obtain ⟨hmatch, -⟩ := hrelated
      cases hmatch
      exact .mismatch hstays .of_none
  | aborted hstays => exact .aborted hstays
  | overflow hstays hcramped => exact .overflow hstays hcramped

theorem shows_escaped (h : OnLine doc start b) :
    Shows doc b (Found Eq (OnLine doc start))
      (Grammar.simple.orElse (Grammar.units.decoded Grammar.textOf) (ahead doc b)) (escaped b) := by
  have hmeaning : ∀ byte, (simpleEscapes.get? byte).isSome
      = ((Grammar.meant? byte).map (fun meant => [meant])).isSome := fun byte => by
    rw [Option.isSome_map, Grammar.meant?_eq]
  have hsimple := shows_byteIf h hmeaning (by decide)
  unfold escaped
  rw [bind_apply, get_apply]
  refine hsimple.orElse ?_ ?_
  · rintro found value c hstays ⟨⟨⟨hrelated, hholds⟩, -⟩, -⟩ hverdict
    have hc := hholds (Option.some_ne_none _)
    obtain ⟨byte, htext, hbyte⟩ := Peg.eq_cons_of_token hverdict
    obtain ⟨meant, hmeant, rfl⟩ := Option.map_eq_some_iff.mp hbyte
    rw [Grammar.meant?_eq] at hmeant
    cases hrelated
    have hdecode : (Escape.Decoder.mapped simpleEscapes).decode [byte] = .ok [meant] := by
      simp only [Escape.Decoder.decode, hmeant]
    simp only [Option.isSome_some, if_true]
    have hsince := decodeSince_eq h.reads hstays (List.singleton_append ▸ htext)
      (.mapped simpleEscapes)
    rw [bind_apply, hsince, hdecode]
    exact .matched (.refl hc.reads) (.of_some rfl hc)
  · rintro found c hstays ⟨⟨⟨hrelated, -⟩, hback⟩, -⟩ -
    obtain ⟨hc, hplace⟩ := hback rfl
    cases hrelated
    rw [← ahead_congr hplace, ← hplace]
    exact shows_unitRun hc

theorem shows_escape (h : OnLine doc start b) :
    Shows doc b (Recognised Eq (OnLine doc start) doc start b) (Grammar.escape (ahead doc b))
      (escape b) := by
  refine shows_attempt (fun c pin hc => hc.with_pin pin) h fun _ h => ?_
  exact shows_andThen (found_of_sat h (by decide)) (fun _ _ _ _ _ _ hc => shows_escaped hc) rfl

/-! ## Pieces -/

/-- Captured bytes are a run of one or more, or none. -/
theorem shows_captured (h : OnLine doc start b) {accepts : UInt8 → Bool}
    (hwithin : WithinLine accepts) :
    Shows doc b
      (fun span bytes c => bytes = (if span.bytes.isEmpty then none else some span.bytes) ∧
        OnLine doc start c)
      (Peg.plus (Peg.sat accepts) (ahead doc b)) (capture (skipWhile accepts) b) := by
  have hcapture := shows_capture h hwithin
  rw [Peg.star_sat] at hcapture
  rw [Peg.plus_sat]
  unfold skipWhile
  generalize hbytes : (ahead doc b).takeWhile accepts = bytes at hcapture ⊢
  generalize (ahead doc b).dropWhile accepts = rest at hcapture ⊢
  generalize capture (many (byteIf accepts) _ _) b = result at hcapture ⊢
  cases hcapture with
  | matched hstays hrelated =>
      obtain ⟨hspan, hline⟩ := hrelated
      injection hspan with hspan
      subst hspan
      split
      · rename_i hnil
        refine .mismatch hstays ⟨?_, hline⟩
        rw [hnil]
        rfl
      · rename_i hne
        refine .matched hstays ⟨?_, hline⟩
        rw [if_neg (by rwa [List.isEmpty_iff])]
  | overflow hstays hcramped => exact .overflow hstays hcramped

/-- What one round of reading a value finds: the closing quote or a piece. -/
def round : Peg Piece :=
  (do let _ ← Peg.sat (· == quote); return Piece.close).orElse
    (do return Piece.text (← Grammar.piece))

theorem shows_textPiece (h : OnLine doc start b) :
    Shows doc b
      (fun found bytes c => found = (bytes.map Piece.text).getD .stuck ∧
        (bytes ≠ none → OnLine doc start c))
      (Grammar.piece (ahead doc b))
      ((do if let some bytes ← escape then return Piece.text bytes
           let span ← capture (skipWhile isPlain)
           return if span.bytes.isEmpty then .stuck else .text span.bytes) b) := by
  refine (shows_escape h).orElse ?_ ?_
  · rintro found bytes c hstays ⟨⟨hrelated, hholds⟩, -⟩ -
    have hc := hholds (Option.some_ne_none _)
    cases hrelated with
    | some heq =>
        subst heq
        exact .matched (.refl hc.reads) ⟨rfl, fun _ => hc⟩
  · rintro found c hstays ⟨⟨hrelated, -⟩, hback⟩ -
    obtain ⟨hc, hplace⟩ := hback rfl
    cases hrelated
    have hwithin : WithinLine isPlain := by decide
    have hplain := shows_captured hc hwithin
    rw [← ahead_congr hplace, Grammar.plainByte_eq]
    simp only
    rw [bind_apply]
    generalize Peg.plus (Peg.sat isPlain) (ahead doc c) = verdict at hplain ⊢
    generalize capture (skipWhile isPlain) c = result at hplain ⊢
    cases hplain with
    | matched hfurther hspan =>
        rename_i span bytes d
        obtain ⟨hbytes, hd⟩ := hspan
        refine .matched hfurther ⟨?_, fun _ => hd⟩
        split at hbytes
        · cases hbytes
        · rename_i hne
          cases hbytes
          exact if_neg hne
    | mismatch hfurther hspan =>
        rename_i span d
        refine .mismatch hfurther ⟨?_, fun hne => absurd rfl hne⟩
        have hbytes := hspan.1
        split at hbytes
        · rename_i hnil
          exact if_pos hnil
        · cases hbytes
    | aborted hfurther => exact .aborted hfurther
    | overflow hfurther hcramped => exact .overflow hfurther hcramped

theorem shows_closing (h : OnLine doc start b) :
    Shows doc b
      (fun found value c => found.isSome = value.isSome ∧
        (∀ piece, value = some piece → piece = .close ∧ OnLine doc start c) ∧
        (value = none → OnLine doc start c ∧ c.place = b.place))
      ((do let _ ← Peg.sat (· == quote); return Piece.close : Peg Piece) (ahead doc b))
      (byteIf (· == quote) b) := by
  have hwithin : WithinLine (· == quote) := by decide
  rw [Peg.bind_pure]
  refine (shows_sat h hwithin).map ?_
  rintro found value c ⟨⟨⟨hrelated, hholds⟩, hback⟩, -⟩
  cases hrelated with
  | some _ =>
      refine ⟨rfl, ?_, fun hnone => absurd hnone (Option.some_ne_none _)⟩
      rintro piece ⟨⟩
      exact ⟨rfl, hholds (Option.some_ne_none _)⟩
  | none =>
      refine ⟨rfl, fun _ hsome => ?_, fun _ => hback rfl⟩
      exact absurd hsome.symm (Option.some_ne_none _)

theorem shows_piece (h : OnLine doc start b) :
    Shows doc b
      (fun found value c => found = value.getD .stuck ∧ (value ≠ none → OnLine doc start c))
      (round (ahead doc b)) (piece b) := by
  refine (shows_closing h).orElse ?_ ?_
  · rintro found piece c hstays ⟨hfound, hsome, -⟩ -
    obtain ⟨rfl, hc⟩ := hsome _ rfl
    have hclosing : found.isSome = true := hfound
    rw [if_pos hclosing]
    exact .matched (.refl hc.reads) ⟨rfl, fun _ => hc⟩
  · rintro found c hstays ⟨hfound, -, hback⟩ -
    obtain ⟨hc, hplace⟩ := hback rfl
    have hopen : ¬found.isSome = true := by
      rw [hfound]
      exact Bool.false_ne_true
    rw [if_neg hopen, ← ahead_congr hplace, Peg.bind_pure]
    refine (shows_textPiece hc).map ?_
    rintro found bytes d ⟨hbytes, hd⟩
    refine ⟨hbytes, fun hne => hd ?_⟩
    rintro rfl
    exact hne rfl

/-! ## Values -/

/-- What follows the opening quote of a value. -/
def inside : Peg (List UInt8) := do
  let pieces ← Peg.star Grammar.piece
  let _ ← Peg.sat (· == quote)
  return pieces.flatten

theorem round_of_mismatch {input : List UInt8} (h : Peg.sat (· == quote) input = .mismatch) :
    round input = (Grammar.piece input).map Piece.text := by
  unfold round
  rw [Peg.orElse_mismatch (Peg.bind_mismatch h), Peg.bind_pure]

/-- No piece begins with a quote. -/
theorem piece_quote (rest : List UInt8) : Grammar.piece (quote :: rest) = .mismatch := by
  have hescape : Grammar.escape (quote :: rest) = .mismatch := Peg.bind_mismatch rfl
  unfold Grammar.piece
  rw [Peg.orElse_mismatch hescape, Peg.plus_sat]
  exact if_pos rfl

theorem round_quote (rest : List UInt8) : round (quote :: rest) = .matched .close rest :=
  Peg.orElse_matched (Peg.bind_matched rfl)

/-- A quote is ahead, or the round is one of a piece. -/
theorem quote_or_piece (input : List UInt8) :
    (∃ rest, input = quote :: rest) ∨
      Peg.sat (· == quote) input = .mismatch ∧
        round input = (Grammar.piece input).map Piece.text := by
  cases hquote : Peg.sat (· == quote) input with
  | matched byte rest =>
      obtain ⟨rfl, hbyte⟩ := Peg.eq_cons_of_sat hquote
      exact .inl ⟨rest, by rw [beq_iff_eq.mp hbyte]⟩
  | mismatch => exact .inr ⟨rfl, round_of_mismatch hquote⟩
  | aborted number left =>
      cases input with
      | nil => cases hquote
      | cons byte rest =>
          unfold Peg.sat at hquote
          rw [Peg.token] at hquote
          split at hquote <;> cases hquote

theorem inside_close {input rest : List UInt8} (h : round input = .matched .close rest) :
    inside input = .matched [] rest := by
  rcases quote_or_piece input with ⟨others, rfl⟩ | ⟨-, hround⟩
  · rw [round_quote] at h
    cases h
    unfold inside
    rw [Peg.bind_matched (Peg.star_mismatch (piece_quote rest))]
    exact Peg.bind_matched rfl
  · rw [hround] at h
    obtain ⟨bytes, -, htext⟩ := Verdict.eq_matched_of_map h
    cases htext

theorem inside_text {input rest bytes : List UInt8} (h : round input = .matched (.text bytes) rest)
    (hless : rest.length < input.length) : inside input = (inside rest).map (bytes ++ ·) := by
  rcases quote_or_piece input with ⟨others, rfl⟩ | ⟨-, hround⟩
  · rw [round_quote] at h
    cases h
  · rw [hround] at h
    obtain ⟨text, hpiece, htext⟩ := Verdict.eq_matched_of_map h
    cases htext
    have hstar := Peg.star_matched hpiece hless
    unfold inside
    cases hothers : Peg.star Grammar.piece rest with
    | matched pieces last =>
        rw [hothers] at hstar
        rw [Peg.bind_matched hstar, Peg.bind_matched hothers]
        cases hquote : Peg.sat (· == quote) last with
        | matched byte left =>
            rw [Peg.bind_matched hquote, Peg.bind_matched hquote]
            rfl
        | mismatch => rw [Peg.bind_mismatch hquote, Peg.bind_mismatch hquote]; rfl
        | aborted number left => rw [Peg.bind_aborted hquote, Peg.bind_aborted hquote]; rfl
    | mismatch =>
        rw [hothers] at hstar
        rw [Peg.bind_mismatch hstar, Peg.bind_mismatch hothers]
        rfl
    | aborted number left =>
        rw [hothers] at hstar
        rw [Peg.bind_aborted hstar, Peg.bind_aborted hothers]
        rfl

theorem inside_mismatch {input : List UInt8} (h : round input = .mismatch) :
    inside input = .mismatch := by
  rcases quote_or_piece input with ⟨others, rfl⟩ | ⟨hquote, hround⟩
  · rw [round_quote] at h
    cases h
  · rw [hround] at h
    have hstar := Peg.star_mismatch (Verdict.eq_mismatch_of_map h)
    unfold inside
    rw [Peg.bind_matched hstar, Peg.bind_mismatch hquote]

theorem inside_aborted {input left : List UInt8} {number : Nat}
    (h : round input = .aborted number left) : inside input = .aborted number left := by
  rcases quote_or_piece input with ⟨others, rfl⟩ | ⟨-, hround⟩
  · rw [round_quote] at h
    cases h
  · rw [hround] at h
    have hstar := Peg.star_aborted (Verdict.eq_aborted_of_map h)
    unfold inside
    rw [Peg.bind_aborted hstar]

theorem round_ne_stuck (input rest : List UInt8) : round input ≠ .matched .stuck rest := by
  intro h
  rcases quote_or_piece input with ⟨others, rfl⟩ | ⟨-, hround⟩
  · rw [round_quote] at h
    cases h
  · rw [hround] at h
    obtain ⟨bytes, -, htext⟩ := Verdict.eq_matched_of_map h
    cases htext

theorem round_of_text (h : OnLine doc start b) {bytes : List UInt8}
    (hpiece : piece b = .ok (.text bytes) c) :
    Stays doc b c ∧ OnLine doc start c ∧
      round (ahead doc b) = .matched (.text bytes) (ahead doc c) := by
  have hshows := shows_piece h
  rw [hpiece] at hshows
  generalize round (ahead doc b) = verdict at hshows
  cases hshows with
  | matched hstays hrelated =>
      obtain ⟨hfound, hc⟩ := hrelated
      cases hfound
      exact ⟨hstays, hc (Option.some_ne_none _), rfl⟩
  | mismatch hstays hrelated => cases hrelated.1

/-- Piece by piece the reader comes to what the grammar finds behind the opening quote. -/
theorem shows_pieces (h : OnLine doc start b) :
    Shows doc b (Found Eq (OnLine doc start)) (inside (ahead doc b)) (pieces b) := by
  fun_induction pieces b with
  | case1 b fault c hanswer =>
      have hpiece := shows_piece h
      rw [hanswer] at hpiece
      generalize hround : round (ahead doc b) = verdict at hpiece
      cases hpiece with
      | aborted hstays =>
          rw [inside_aborted hround]
          exact .aborted hstays
      | overflow hstays hcramped => exact .overflow hstays hcramped
  | case2 b c hanswer =>
      have hpiece := shows_piece h
      rw [hanswer] at hpiece
      generalize hround : round (ahead doc b) = verdict at hpiece
      cases hpiece with
      | matched hstays hrelated =>
          obtain ⟨hclose, hc⟩ := hrelated
          cases hclose
          rw [inside_close hround]
          exact .matched hstays (.of_some rfl (hc (Option.some_ne_none _)))
      | mismatch hstays hrelated => cases hrelated.1
  | case3 b c hanswer =>
      have hpiece := shows_piece h
      rw [hanswer] at hpiece
      generalize hround : round (ahead doc b) = verdict at hpiece
      cases hpiece with
      | matched hstays hrelated =>
          rename_i found
          obtain ⟨hstuck, -⟩ := hrelated
          cases hstuck
          exact absurd hround (round_ne_stuck _ _)
      | mismatch hstays hrelated =>
          rw [inside_mismatch hround]
          exact .mismatch hstays .of_none
  | case4 b bytes c hanswer fault d hothers ih =>
      obtain ⟨hstays, hc, hround⟩ := round_of_text h hanswer
      have hless := ahead_lt hc.reads (piece_text_byte_lt hanswer)
      have hrest := (ih hc).of_stays hstays
      rw [hothers] at hrest
      rw [inside_text hround hless]
      generalize inside (ahead doc c) = verdict at hrest
      cases hrest with
      | aborted hfurther => exact .aborted hfurther
      | overflow hfurther hcramped => exact .overflow hfurther hcramped
  | case5 b bytes c hanswer rest d hothers ih =>
      obtain ⟨hstays, hc, hround⟩ := round_of_text h hanswer
      have hless := ahead_lt hc.reads (piece_text_byte_lt hanswer)
      have hrest := (ih hc).of_stays hstays
      rw [hothers] at hrest
      rw [inside_text hround hless]
      generalize inside (ahead doc c) = verdict at hrest
      cases hrest with
      | matched hfurther hrelated =>
          obtain ⟨hmatch, hholds⟩ := hrelated
          cases hmatch with
          | some heq =>
              subst heq
              exact .matched hfurther (.of_some rfl (hholds (Option.some_ne_none _)))
      | mismatch hfurther hrelated =>
          obtain ⟨hmatch, -⟩ := hrelated
          cases hmatch
          exact .mismatch hfurther .of_none

theorem shows_value (h : OnLine doc start b) :
    Shows doc b (Recognised Eq (OnLine doc start) doc start b) (Grammar.value (ahead doc b))
      (value b) := by
  refine shows_attempt (fun c pin hc => hc.with_pin pin) h fun _ h => ?_
  exact shows_andThen (found_of_sat h (by decide)) (fun _ _ _ _ _ _ hc => shows_pieces hc) rfl

end Lookahead.Entries
