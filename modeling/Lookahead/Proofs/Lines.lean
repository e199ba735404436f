import Lookahead.Proofs.Values

/-!
# What the reading of lines shows

A line ending is two bytes at most and one request is made for it. That is enough however short the
reads are, since whoever looks for a line ending has looked for the byte ahead before.
-/

namespace Lookahead.Entries

open Scan Buffer

variable {σ : Type} [ByteSource σ] {doc : List UInt8} {start : Nat} {b c : Buffer σ}

/-- The buffer stands where a line starts, or at the end of the document. -/
structure AtLine (doc : List UInt8) (b : Buffer σ) : Prop where
  reads : Reads doc b
  lineEnding_eq : b.lineEnding = .lfOrCrlf
  place_eq : b.place = .behind lineFeed (doc.take b.place.byte)
  column_eq : ahead doc b ≠ [] → b.place.column = 1

theorem AtLine.with_pin (h : AtLine doc b) (pin : Option Nat) : AtLine doc { b with pin } :=
  ⟨h.reads.of_same rfl rfl rfl rfl, h.lineEnding_eq, h.place_eq, h.column_eq⟩

/-- At the end of the document it does not matter what the line before was. -/
theorem atLine_of_end (h : OnLine doc start b) (hend : ahead doc b = []) : AtLine doc b :=
  ⟨h.reads, h.lineEnding_eq, h.place_eq, fun hne => absurd hend hne⟩

/-! ## Line endings -/

theorem atLine_toNextLine (h : OnLine doc start b) (hstays : Stays doc b c) {ending : List UInt8}
    {rest : List UInt8} (hahead : ahead doc b = ending ++ rest)
    (hadvance : b.place.advance lineFeed ending = b.place.toNextLine ending.length)
    (hplace : c.place = b.place.toNextLine ending.length) :
    AtLine doc c ∧ ahead doc c = rest := by
  have hbyte : c.place.byte = b.place.byte + ending.length := by
    rw [hplace, Place.toNextLine_byte]
  have hhead : (doc.drop b.place.byte).take ending.length = ending := by
    show (ahead doc b).take ending.length = ending
    rw [hahead, List.take_left]
  refine ⟨⟨hstays.reads, hstays.lineEnding_eq.trans h.lineEnding_eq, ?_, fun _ => ?_⟩, ?_⟩
  · rw [hbyte, List.take_add, hhead, Place.behind_append, ← h.place_eq, hadvance, hplace]
  · rw [hplace]
    rfl
  · show doc.drop c.place.byte = rest
    rw [hbyte, ← List.drop_drop]
    show (ahead doc b).drop ending.length = rest
    rw [hahead, List.drop_left]

theorem match?_lfOrCrlf (bytes : List UInt8) :
    LineEnding.lfOrCrlf.match? bytes =
      if [carriageReturn, lineFeed].isPrefixOf bytes then some 2
      else if [lineFeed].isPrefixOf bytes then some 1 else none := by
  unfold LineEnding.match? LineEnding.terminators
  rw [List.find?_cons, List.find?_cons, List.find?_nil]
  split <;> split <;> simp_all

/-- How an input begins, for the reader and for the grammar. -/
inductive Ending (input : List UInt8) : Prop where
  | ends (ending rest : List UInt8) (input_eq : input = ending ++ rest)
      (matches_eq : LineEnding.lfOrCrlf.match? (input.take 2) = some ending.length)
      (lineEnd_eq : Grammar.lineEnd input = .matched () rest)
      (advance_eq : ∀ place : Place,
        place.advance lineFeed ending = place.toNextLine ending.length)
  | goesOn (matches_eq : LineEnding.lfOrCrlf.match? (input.take 2) = none)
      (lineEnd_eq : Grammar.lineEnd input = .mismatch)

theorem ending (input : List UInt8) : Ending input := by
  cases input with
  | nil => exact .goesOn rfl rfl
  | cons first rest =>
      by_cases hlineFeed : first = lineFeed
      · subst hlineFeed
        refine .ends [lineFeed] rest rfl ?_ ?_ fun place => rfl
        · rw [match?_lfOrCrlf]
          rfl
        · exact Peg.orElse_matched (Peg.bind_matched (Peg.sat_accepted rfl rest))
      · have hfeed := Peg.sat_other hlineFeed rest
        by_cases hcarriageReturn : first = carriageReturn
        · subst hcarriageReturn
          have hreturn := Peg.sat_byte carriageReturn rest
          cases rest with
          | nil => exact .goesOn rfl rfl
          | cons second rest =>
              by_cases hsecond : second = lineFeed
              · subst hsecond
                refine .ends [carriageReturn, lineFeed] rest rfl rfl ?_ fun place => rfl
                unfold Grammar.lineEnd
                rw [Peg.orElse_mismatch (Peg.bind_mismatch hfeed), Peg.bind_matched hreturn]
                exact Peg.bind_matched (Peg.sat_byte lineFeed rest)
              · refine .goesOn ?_ ?_
                · simp [match?_lfOrCrlf, Ne.symm hlineFeed, Ne.symm hsecond]
                · unfold Grammar.lineEnd
                  rw [Peg.orElse_mismatch (Peg.bind_mismatch hfeed), Peg.bind_matched hreturn]
                  exact Peg.bind_mismatch (Peg.sat_other hsecond rest)
        · refine .goesOn ?_ ?_
          · simp [match?_lfOrCrlf, Ne.symm hlineFeed, Ne.symm hcarriageReturn]
          · unfold Grammar.lineEnd
            rw [Peg.orElse_mismatch (Peg.bind_mismatch hfeed)]
            exact Peg.bind_mismatch (Peg.sat_other hcarriageReturn rest)

/-- The front of the window is that of the rest of the document, if the byte ahead was looked for
and then another request was made. -/
theorem front_primed (h : Reads doc b) (hprimed : Primed doc b) {amount received : Nat}
    (hamount : amount ≤ 2) (hrequest : request amount b = .ok received c) :
    c.front amount = (ahead doc b).take amount := by
  rcases h.front_requested hamount hrequest with hfront | ⟨-, hnone, -, hmore⟩
  · exact hfront
  · -- The byte ahead was looked for before, so the window held none only at the very end.
    have hbyte := b.base_add_offset
    have hfilled := b.offset_add_occupied
    rcases hprimed with hsome | hend
    · omega
    · unfold stop at hend
      omega

/-- The reader consumes a line ending where the grammar has one. -/
theorem shows_lineEnd (h : OnLine doc start b) (hprimed : Primed doc b) :
    Shows doc b
      (fun found value c => found = value.isSome ∧
        (value ≠ none → AtLine doc c ∧ b.place.byte < c.place.byte) ∧
        (value = none → OnLine doc start c ∧ c.place = b.place))
      (Grammar.lineEnd (ahead doc b)) (ask consumeLineEnding b) := by
  have hpolicy : b.lineEnding.maxWidth = 2 := by
    rw [h.lineEnding_eq]
    rfl
  unfold ask
  rw [adaptExcept_apply, consumeLineEnding_eq, hpolicy]
  cases hrequest : request 2 b with
  | error error c => exact refused_line h (Nat.le_refl _) hrequest
  | ok received c =>
      obtain ⟨hstays, hline, hplace⟩ := requested_line h hrequest
      have hwidth : c.lineEnding.maxWidth = 2 := by
        rw [hstays.lineEnding_eq]
        exact hpolicy
      have hfound : c.lineEnding.match? (c.front c.lineEnding.maxWidth)
          = LineEnding.lfOrCrlf.match? ((ahead doc b).take 2) := by
        rw [hwidth, front_primed h.reads hprimed (Nat.le_refl 2) hrequest, hline.lineEnding_eq]
      simp only
      cases ending (ahead doc b) with
      | ends ending rest hinput hmatches hverdict hadvance =>
          have hsome := LineEnding.match?_pos hmatches
          rw [hmatches] at hfound
          obtain ⟨d, hpass, hnext⟩ := passLineEnding_some hfound
          have hmoves := moves_passLineEnding c
          rw [hpass, stateOf_ok] at hmoves
          rw [hplace] at hnext
          have hless : b.place.byte < d.place.byte := by
            rw [hnext, Place.toNextLine_byte]
            omega
          have hfurther : Stays doc c d := .of_moves hline.reads hmoves (by rw [hplace]; omega)
          obtain ⟨hatLine, hleft⟩ :=
            atLine_toNextLine h (hstays.trans hfurther) hinput (hadvance b.place) hnext
          rw [hverdict, hpass, ← hleft]
          exact .matched (hstays.trans hfurther)
            ⟨rfl, fun _ => ⟨hatLine, hless⟩, fun hnone => absurd hnone (Option.some_ne_none _)⟩
      | goesOn hmatches hverdict =>
          rw [hmatches] at hfound
          rw [hverdict, passLineEnding_none hfound]
          exact .mismatch hstays ⟨rfl, fun hne => absurd rfl hne, fun _ => ⟨hline, hplace⟩⟩

/-- The reader is at the end where the grammar is. -/
theorem shows_atEnd (h : OnLine doc start b) :
    Shows doc b
      (fun found value c => found = value.isSome ∧ OnLine doc start c ∧ c.place = b.place ∧
        Primed doc c ∧ (value ≠ none → ahead doc c = []))
      (Peg.atEnd (ahead doc b)) (ask isAtEnd b) := by
  simp only [ask, adaptExcept_apply, isAtEnd, bind_apply, ensure]
  cases hrequest : request 1 b with
  | error error c => exact refused_line h (by omega) hrequest
  | ok received c =>
      obtain ⟨hstays, hline, hplace, hprimed⟩ := requested_byte h hrequest
      rw [← ahead_congr hplace]
      simp only [pure_apply, get_apply]
      cases hrest : ahead doc c with
      | nil =>
          have hnone : c.occupied = 0 := by
            rw [← c.window_length, hline.reads.window_eq]
            show ((ahead doc c).take c.occupied).length = 0
            rw [hrest, List.take_nil]
            rfl
          have hverdict : Peg.atEnd [] = .matched () (ahead doc c) := by
            rw [hrest]
            rfl
          rw [hnone, hverdict]
          exact .matched hstays ⟨rfl, hline, hplace, hprimed, fun _ => hrest⟩
      | cons byte rest =>
          have hsome := occupied_pos hprimed hrest
          have hopen : (c.occupied == 0) = false := by
            rw [beq_eq_false_iff_ne]
            omega
          rw [hopen]
          exact .mismatch hstays ⟨rfl, hline, hplace, hprimed, fun hne => absurd rfl hne⟩

theorem shows_lineDone (h : OnLine doc start b) (hprimed : Primed doc b) :
    Shows doc b (fun found value c => found = value.isSome ∧ (value ≠ none → AtLine doc c))
      (Grammar.lineEnd.orElse Peg.atEnd (ahead doc b)) (lineDone b) := by
  refine (shows_lineEnd h hprimed).orElse ?_ ?_
  · rintro found value c hstays ⟨rfl, hatLine, -⟩ -
    obtain ⟨hc, -⟩ := hatLine (Option.some_ne_none _)
    exact .matched (.refl hc.reads) ⟨rfl, fun _ => hc⟩
  · rintro found c hstays ⟨rfl, -, hback⟩ -
    obtain ⟨hc, hplace⟩ := hback rfl
    rw [← ahead_congr hplace]
    refine (shows_atEnd hc).mono ?_
    rintro found value d - ⟨hfound, hd, -, -, hend⟩
    exact ⟨hfound, fun hne => atLine_of_end hd (hend hne)⟩

/-! ## Assignments -/

theorem shows_blanks (h : OnLine doc start b) :
    Shows doc b (fun _ value c => value.isSome ∧ OnLine doc start c ∧ Primed doc c)
      (Grammar.blanks (ahead doc b)) (blanks b) := by
  unfold Grammar.blanks
  rw [Grammar.blankByte_eq, Peg.bind_pure]
  refine (shows_many (fun b h => shows_sat h (by decide)) h).map ?_
  rintro _ values c ⟨hsome, hrest⟩
  exact ⟨by rw [Option.isSome_map, hsome], hrest⟩

theorem shows_afterBlanks {α β : Type} {R : α → Option β → Buffer σ → Prop} {next : Scan σ α}
    {N : Peg β} (h : OnLine doc start b)
    (hnext : ∀ c, Stays doc b c → OnLine doc start c → Primed doc c →
      Shows doc c R (N (ahead doc c)) (next c)) :
    Shows doc b R ((do Grammar.blanks; N : Peg β) (ahead doc b))
      ((do blanks; next : Scan σ α) b) := by
  refine (shows_blanks h).bind ?_ ?_
  · rintro _ _ c hstays ⟨-, hc, hprimed⟩ -
    exact hnext c hstays hc hprimed
  · rintro _ c - ⟨hsome, -⟩
    cases hsome

theorem shows_key (h : OnLine doc start b) :
    Shows doc b (Found Eq (OnLine doc start)) (Grammar.key (ahead doc b)) (key b) := by
  unfold Grammar.key
  rw [Grammar.keyByte_eq]
  refine (shows_captured h (by decide)).bind ?_ ?_
  · rintro span bytes c hstays ⟨hbytes, hc⟩ -
    split at hbytes
    · cases hbytes
    · rename_i hne
      cases hbytes
      rw [if_neg hne]
      exact .matched (.refl hc.reads) (.of_some rfl hc)
  · rintro span c hstays ⟨hbytes, hc⟩
    split at hbytes
    · rename_i hnil
      rw [if_pos hnil]
      exact .mismatch (.refl hc.reads) .of_none
    · cases hbytes

/-- The reader finds an assignment where the grammar has one, and is at the start of the next line
then. -/
theorem shows_assignment (h : OnLine doc start b) :
    Shows doc b
      (Recognised Eq (fun c => AtLine doc c ∧ b.place.byte < c.place.byte) doc start b)
      (Grammar.assignment (ahead doc b)) (assignment b) := by
  refine shows_attempt (fun c pin hc => ⟨hc.1.with_pin pin, hc.2⟩) h fun pin h => ?_
  refine shows_afterBlanks h fun c hbc hc _ => ?_
  refine shows_andThen (shows_key hc) ?_ rfl
  rintro key _ d hcd - rfl hd
  refine shows_afterBlanks hd fun e hde he _ => ?_
  refine shows_andThen (found_of_sat he (by decide)) ?_ rfl
  intro _ _ f hef hequals _ hf
  have hless : b.place.byte < f.place.byte := calc
    b.place.byte ≤ e.place.byte := ((hbc.trans hcd).trans hde).byte_le
    _ < f.place.byte := advances_byteIf _ _ _ _ hequals
  refine shows_afterBlanks hf fun g hfg hg _ => ?_
  refine shows_andThen ((shows_value hg).mono fun _ _ _ _ hrelated => hrelated.toFound) ?_ rfl
  rintro value _ i hgi - rfl hi
  refine shows_afterBlanks hi fun j hij hj hprimed => ?_
  refine (shows_lineDone hj hprimed).bind ?_ ?_
  · rintro done _ k hjk ⟨rfl, hatLine⟩ -
    have hk := hatLine (Option.some_ne_none _)
    have hfurther := ((hfg.trans hgi).trans hij).trans hjk
    exact .matched (.refl hk.reads)
      (.of_some rfl ⟨hk, Nat.lt_of_lt_of_le hless hfurther.byte_le⟩)
  · rintro done k hstays ⟨rfl, -⟩
    exact .mismatch (.refl hstays.reads) .of_none

end Lookahead.Entries
