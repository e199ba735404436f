import Lookahead.Proofs.Consumption
import Lookahead.Proofs.Documents
import Lookahead.Proofs.Transcoding
import Lookahead.Source.Script

/-!
# How reading can end

Whatever a source does, the reader and its decoders never disagree: what the recognisers let pass is
always a span of the shape that its decoder wants, the bytes of it are still there when the decoder
asks for them, and no byte is consumed that the window does not hold or that would end the line.
What is left to go wrong is a request that does not fit, a pull that fails, an escape that names no
character, and a line that is none.

A reading may also go on for good. It does not if the source runs out of bytes at some time, since
every turn that reads on consumes some.
-/

namespace Lookahead.Entries

open Scan Buffer

variable {σ : Type} [ByteSource σ] {b c : Buffer σ}

theorem sound_token {accepts : UInt8 → Bool} (hwithin : WithinLine accepts) (b : Buffer σ) :
    Sound b (Matches fun byte bytes => bytes = [byte] ∧ accepts byte = true) (byteIf accepts b) :=
  (sound_byteIf hwithin b).mono fun _ _ => Takes.matches

/-! ## Units -/

theorem sound_hexDigits (count : Nat) (b : Buffer σ) :
    Sound b (Matches fun _ bytes => bytes.length = count ∧
      ∀ byte ∈ bytes, Escape.isHex byte = true) (hexDigits count b) := by
  induction count generalizing b with
  | zero => exact .pure ⟨rfl, fun _ hmem => absurd hmem List.not_mem_nil⟩
  | succ count ih =>
      refine (sound_token ⟨by decide, by decide⟩ b).andThen (fun byte c _ hbyte => ?_) rfl
      obtain ⟨hconsumed, hdigit⟩ := hbyte
      refine (ih c).mono fun found bytes hfound => ?_
      cases found with
      | none => trivial
      | some _ =>
          obtain ⟨hlength, hhex⟩ := hfound
          rw [hconsumed]
          refine ⟨by rw [List.length_append, hlength]; exact Nat.add_comm 1 count, ?_⟩
          refine List.forall_mem_cons.mpr ⟨?_, hhex⟩
          rwa [isDigit_eq] at hdigit

theorem sound_unit (b : Buffer σ) :
    Sound b (Matches fun _ bytes => ∃ quad : Quad, bytes = quad.text) (unit b) := by
  refine (sound_token ⟨by decide, by decide⟩ b).andThen (fun byte c _ hbyte => ?_) rfl
  obtain ⟨hconsumed, hmarker⟩ := hbyte
  obtain rfl := beq_iff_eq.mp hmarker
  refine (sound_hexDigits 4 c).mono fun found bytes hfound => ?_
  cases found with
  | none => trivial
  | some _ =>
      obtain ⟨quad, hdigits, -⟩ := Escape.exists_quad hfound.1 hfound.2
      refine ⟨quad, ?_⟩
      rw [hconsumed, Quad.text, hdigits]
      rfl

theorem sound_nextUnit (b : Buffer σ) :
    Sound b (Matches fun _ bytes => ∃ quad : Quad, bytes = backslash :: quad.text) (nextUnit b) := by
  refine (sound_token ⟨by decide, by decide⟩ b).andThen (fun byte c _ hbyte => ?_) rfl
  obtain ⟨hconsumed, hbackslash⟩ := hbyte
  obtain rfl := beq_iff_eq.mp hbackslash
  refine (sound_unit c).mono fun found bytes hfound => ?_
  cases found with
  | none => trivial
  | some _ =>
      obtain ⟨quad, rfl⟩ := hfound
      exact ⟨quad, by rw [hconsumed]; rfl⟩

/-- A backslash that begins no unit is given back, so the further units are whole. -/
theorem sound_moreUnits (b : Buffer σ) :
    Sound b (fun _ bytes => ∃ quads : List Quad,
      bytes = quads.flatMap fun quad => backslash :: quad.text) (moreUnits b) := by
  have hunit : ∀ b : Buffer σ, Sound b
      (Takes fun _ bytes => ∃ quad : Quad, bytes = backslash :: quad.text)
      (attempt nextUnit b) := sound_attempt sound_nextUnit
  refine (sound_many hunit b).mono ?_
  rintro _ _ ⟨pieces, rfl, hall⟩
  induction pieces with
  | nil => exact ⟨[], rfl⟩
  | cons piece pieces ih =>
      obtain ⟨⟨quad, rfl⟩, hothers⟩ := List.forall_mem_cons.mp hall
      obtain ⟨quads, hquads⟩ := ih hothers
      exact ⟨quad :: quads, by rw [List.flatten_cons, hquads, List.flatMap_cons]⟩

theorem sound_units (b : Buffer σ) :
    Sound b (Matches fun _ bytes => ∃ (quad : Quad) (quads : List Quad),
      bytes = quad.text ++ quads.flatMap fun quad => backslash :: quad.text) (units b) := by
  refine (sound_unit b).andThen (fun _ c _ hfirst => ?_) rfl
  obtain ⟨quad, hquad⟩ := hfirst
  refine (sound_moreUnits c).bind fun _ d _ hmore _ => .pure ?_
  obtain ⟨quads, hquads⟩ := hmore
  exact ⟨quad, quads, by rw [hquad, hquads, List.append_nil]⟩

/-! ## Escapes -/

/-- The decoder finds no fault with units but one that is half a pair. -/
theorem decode_units (quad : Quad) (quads : List Quad) {cause : Escape.Cause}
    (h : Escape.Decoder.utf16Run.decode
      (quad.text ++ quads.flatMap fun quad => backslash :: quad.text) = .error cause) :
    ∃ value, cause = .invalidCodePoint value := by
  have hquads := Grammar.quads?_text quad quads
  simp only [Escape.Decoder.decode, hquads] at h
  rw [← List.map_cons, Grammar.decodeUnits_eq, Grammar.decodedTo] at h
  cases htext : Grammar.textOf ((quad :: quads).map Quad.value) with
  | ok text => rw [htext] at h; cases h
  | error unit => rw [htext] at h; cases h; exact ⟨_, rfl⟩

/-- The decoder has a meaning for every character that is taken for an escape. -/
theorem decode_simple {character : UInt8} (h : (simpleEscapes.get? character).isSome = true)
    {cause : Escape.Cause} :
    (Escape.Decoder.mapped simpleEscapes).decode [character] ≠ .error cause := by
  obtain ⟨byte, hbyte⟩ := Option.isSome_iff_exists.mp h
  simp only [Escape.Decoder.decode, hbyte]
  exact fun herror => by cases herror

theorem sound_escaped (b : Buffer σ) : Sound b (Matches fun _ _ => True) (escaped b) := by
  unfold escaped
  rw [bind_apply, get_apply]
  simp only
  refine (sound_byteIf ⟨by decide, by decide⟩ b).bind fun found c hproceeds hfound _ => ?_
  cases found with
  | some character =>
      obtain ⟨hconsumed, hmeaning⟩ := hfound
      refine (sound_decodeSince hproceeds fun cause hcause => ?_).bind
        fun _ _ _ _ _ => .pure trivial
      rw [hconsumed] at hcause
      exact absurd hcause (decode_simple hmeaning)
  | none =>
      refine (sound_units c).bind fun found d hfurther hunits _ => ?_
      cases found with
      | none => exact .pure trivial
      | some _ =>
          obtain ⟨quad, quads, hunits⟩ := hunits
          refine (sound_decodeSince (hproceeds.trans hfurther) fun cause hcause => ?_).bind
            fun _ _ _ _ _ => .pure trivial
          rw [hproceeds.consumed_trans hfurther, hfound, hunits, List.nil_append] at hcause
          exact decode_units quad quads hcause

theorem sound_escape (b : Buffer σ) : Sound b (Takes fun _ _ => True) (escape b) := by
  refine sound_attempt (fun b => ?_) b
  exact (sound_token ⟨by decide, by decide⟩ b).andThen
    (fun _ c _ _ => (sound_escaped c).mono fun _ _ h => h) rfl

/-! ## Values and lines -/

theorem sound_piece (b : Buffer σ) : Sound b (fun _ _ => True) (piece b) := by
  refine (sound_byteIf ⟨by decide, by decide⟩ b).bind fun found c _ _ _ => ?_
  cases found with
  | some _ => exact .pure trivial
  | none =>
      refine (sound_escape c).bind fun decoded d _ _ _ => ?_
      cases decoded with
      | some _ => exact .pure trivial
      | none =>
          exact (sound_capture (sound_skipWhile ⟨by decide, by decide⟩) d).bind
            fun _ _ _ _ _ => .pure trivial

theorem sound_pieces (b : Buffer σ) : Sound b (Matches fun _ _ => True) (pieces b) := by
  fun_induction pieces b with
  | case1 b fault c hanswer => exact .error ((sound_piece b).of_error hanswer)
  | case2 b c hanswer => exact .ok ((sound_piece b).of_ok hanswer).1 trivial
  | case3 b c hanswer => exact .ok ((sound_piece b).of_ok hanswer).1 trivial
  | case4 b bytes c hanswer fault d hrest ih =>
      exact .error (((sound_piece b).of_ok hanswer).1.halts (ih.of_error hrest))
  | case5 b bytes c hanswer rest d hrest ih =>
      have hproceeds := ((sound_piece b).of_ok hanswer).1.trans (ih.of_ok hrest).1
      refine .ok hproceeds ?_
      cases rest <;> trivial

theorem sound_value (b : Buffer σ) : Sound b (Takes fun _ _ => True) (value b) := by
  refine sound_attempt (fun b => ?_) b
  exact (sound_token ⟨by decide, by decide⟩ b).andThen (fun _ c _ _ => sound_pieces c) rfl

theorem sound_key (b : Buffer σ) : Sound b (Matches fun _ bytes => bytes ≠ []) (key b) := by
  refine (sound_capture (sound_skipWhile ⟨by decide, by decide⟩) b).bind
    fun span c _ hspan _ => .pure ?_
  obtain ⟨hbytes, -⟩ := hspan
  rw [List.append_nil, hbytes]
  cases consumed b c with
  | nil => trivial
  | cons byte bytes => exact List.cons_ne_nil _ _

theorem sound_blanks (b : Buffer σ) : Sound b (fun _ _ => True) (blanks b) :=
  (sound_skipWhile ⟨by decide, by decide⟩ b).mono fun _ _ _ => trivial

theorem sound_lineDone (b : Buffer σ) : Sound b (fun _ _ => True) (lineDone b) := by
  refine (sound_consumeLineEnding b).bind fun found c _ _ _ => ?_
  cases found with
  | true => exact .pure trivial
  | false => exact (sound_isAtEnd c).mono fun _ _ _ => trivial

/-- An assignment consumes its key at least. -/
theorem sound_assignment (b : Buffer σ) :
    Sound b (Takes fun _ bytes => bytes ≠ []) (assignment b) := by
  refine sound_attempt (fun b => ?_) b
  refine (sound_blanks b).bind fun _ c _ _ _ => ?_
  refine (sound_key c).bind fun found d _ hkey _ => ?_
  cases found with
  | none => exact .pure trivial
  | some key =>
      -- The key is consumed, so that nothing more has to be known of what follows.
      refine Sound.mono (?_ : Sound d (fun _ _ => True) _) fun found bytes _ => ?_
      · refine (sound_blanks d).bind fun _ e _ _ _ => ?_
        refine (sound_byteIf ⟨by decide, by decide⟩ e).bind fun found e _ _ _ => ?_
        cases found with
        | none => exact .pure trivial
        | some _ =>
            refine (sound_blanks e).bind fun _ e _ _ _ => ?_
            refine (sound_value e).bind fun found e _ _ _ => ?_
            cases found with
            | none => exact .pure trivial
            | some value =>
                refine (sound_blanks e).bind fun _ e _ _ _ => ?_
                exact (sound_lineDone e).bind fun _ _ _ _ _ => .pure trivial
      · cases found with
        | none => trivial
        | some entry =>
            exact List.append_ne_nil_of_right_ne_nil _ (List.append_ne_nil_of_left_ne_nil hkey _)

/-! ## Turns -/

/-- An item that is not the end of the document consumes something. -/
theorem sound_item (b : Buffer σ) :
    Sound b.discard (fun found bytes => found ≠ .finished → bytes ≠ []) (item b) := by
  show Sound b.discard _ ((ask isAtEnd >>= _) b.discard)
  refine (sound_isAtEnd b.discard).bind fun ended c _ _ _ => ?_
  cases ended with
  | true => exact .pure fun hmore => absurd rfl hmore
  | false =>
      refine (sound_consumeLineEnding c).bind fun found d _ hfound _ => ?_
      cases found with
      | true =>
          have hne : consumed c d ≠ [] := fun hnil => by cases hfound.mp hnil
          exact .pure fun _ => List.append_ne_nil_of_right_ne_nil _
            (List.append_ne_nil_of_left_ne_nil hne _)
      | false =>
          refine (sound_assignment d).bind fun found e _ hentry _ => ?_
          cases found with
          | none => exact .error ⟨rfl, Nat.le_refl _, .noRule .none⟩
          | some entry =>
              exact .pure fun _ => List.append_ne_nil_of_right_ne_nil _
                (List.append_ne_nil_of_right_ne_nil _ (List.append_ne_nil_of_left_ne_nil hentry _))

/-- What a turn comes to: it goes on behind what it consumed, or the reading ends. -/
inductive Turns (b : Buffer σ) :
    (Array Entry × Buffer σ) ⊕ EStateM.Result Fault (Buffer σ) (Array Entry) → Prop where
  | goesOn {entries : Array Entry} {c : Buffer σ} (proceeds : Proceeds b.discard c)
      (less : b.place.byte < c.place.byte) : Turns b (.inl (entries, c))
  | ends {entries : Array Entry} {c : Buffer σ} (proceeds : Proceeds b.discard c) :
      Turns b (.inr (.ok entries c))
  | fails {fault : Fault} {c : Buffer σ} (halts : Halts b.discard fault c) :
      Turns b (.inr (.error fault c))

theorem turns (entries : Array Entry) (b : Buffer σ) : Turns b (turn entries b) := by
  have hitem := sound_item b
  have hless : ∀ {c : Buffer σ}, Proceeds b.discard c → consumed b.discard c ≠ [] →
      b.place.byte < c.place.byte := by
    intro c hproceeds hne
    have hlength := hproceeds.consumed_length
    have hpos := List.length_pos_of_ne_nil hne
    rw [b.drops_discard.place_eq] at hlength
    omega
  unfold turn
  generalize item b = result at hitem ⊢
  cases hitem with
  | error hhalts => exact .fails hhalts
  | ok hproceeds hmore =>
      rename_i found c
      cases found with
      | finished => exact .ends hproceeds
      | blank => exact .goesOn hproceeds (hless hproceeds (hmore (by decide)))
      | entry entry => exact .goesOn hproceeds (hless hproceeds (hmore (fun h => by cases h)))

/-- What a turn leaves to go on from. -/
structure GoesOn (b c : Buffer σ) : Prop where
  byte_lt : b.place.byte < c.place.byte
  pin_eq : c.pin = b.pin
  delivers : ∃ bytes, Pulls b.source bytes c.source ∧ c.stop = b.stop + bytes.length

theorem goesOn_of_turn {entries others : Array Entry}
    (h : turn entries b = .inl (others, c)) : GoesOn b c := by
  have hturns := turns entries b
  rw [h] at hturns
  cases hturns with
  | goesOn hproceeds hless =>
      have hdrops := b.drops_discard
      obtain ⟨bytes, hretained, hpulls⟩ := hproceeds.grows
      have hlength := congrArg List.length hretained
      rw [List.length_append, retained_length, retained_length] at hlength
      rw [hdrops.source_eq] at hpulls
      refine ⟨hless, hproceeds.pin_eq.trans hdrops.pin_eq, bytes, hpulls, ?_⟩
      rw [← hdrops.stop_eq, stop, stop, hproceeds.base_eq, hlength, Nat.add_assoc]

/-! ## Readings -/

/-- A reading that ends, behind the entries read so far. -/
inductive Ends : Array Entry → Buffer σ → EStateM.Result Fault (Buffer σ) (Array Entry) → Prop where
  | last {entries : Array Entry} {b : Buffer σ}
      {result : EStateM.Result Fault (Buffer σ) (Array Entry)}
      (turn_eq : turn entries b = .inr result) : Ends entries b result
  | next {entries others : Array Entry} {b c : Buffer σ}
      {result : EStateM.Result Fault (Buffer σ) (Array Entry)}
      (turn_eq : turn entries b = .inl (others, c)) (rest : Ends others c result) :
      Ends entries b result

theorem Ends.readOn_eq {entries : Array Entry}
    {result : EStateM.Result Fault (Buffer σ) (Array Entry)}
    (h : Ends entries b result) : readOn entries b = some result := by
  induction h with
  | last hturn => rw [Entries.readOn_eq, hturn]
  | next hturn rest ih =>
      rw [Entries.readOn_eq, hturn]
      exact ih

theorem Ends.read_eq {result : EStateM.Result Fault (Buffer σ) (Array Entry)}
    (h : Ends #[] b result) : read b = match result with
      | .ok entries c => .ok (some entries.toList) c
      | .error fault c => .error fault c := by
  unfold read
  rw [h.readOn_eq]
  cases result <;> rfl

/-- The states that a reading comes by between its turns. -/
inductive Reaches (entries : Array Entry) (b : Buffer σ) : Array Entry → Buffer σ → Prop where
  | start : Reaches entries b entries b
  | next {others more : Array Entry} {c d : Buffer σ} (before : Reaches entries b others c)
      (turn_eq : turn others c = .inl (more, d)) : Reaches entries b more d

/-- How reading may end: with the entries, for want of room, with a failure of the source, at an
escape that names no character, or at a line that is none. -/
inductive Outcome : Except Fault (Option (List Entry)) → Prop where
  | entries (entries : List Entry) : Outcome (.ok (some entries))
  | overflow (requested capacity : Nat) : Outcome (.error (.buffer (.overflow requested capacity)))
  | source (error : SourceError) : Outcome (.error (.buffer (.source error)))
  | invalidCodePoint (value : UInt32) (place : Place) :
      Outcome (.error (.escape ⟨.invalidCodePoint value, place⟩))
  | noRule (position : Position) : Outcome (.error (.noRule position))

theorem outcome_of_reason {s t : σ} {fault : Fault} (h : Reason s fault t) :
    Outcome (.error fault) := by
  cases h with
  | overflow => exact .overflow _ _
  | failed => exact .source _
  | overrun => exact .source _
  | escape => exact .invalidCodePoint _ _
  | noRule => exact .noRule _

theorem Ends.outcome {result : EStateM.Result Fault (Buffer σ) (Array Entry)}
    {entries : Array Entry} (h : Ends entries b result) :
    Outcome ((answerOf result).map fun entries => some entries.toList) := by
  induction h with
  | last hturn =>
      rename_i entries b result
      have hturns := turns entries b
      rw [hturn] at hturns
      cases hturns with
      | ends => exact .entries _
      | fails hhalts => exact outcome_of_reason hhalts.reason
  | next hturn rest ih => exact ih

/-! ## Sources that run out -/

/-- A bound on the bytes that a source will deliver yet, whatever else it does. -/
def Supplies (left : σ → Nat) : Prop :=
  ∀ s room, left (ByteSource.pull s room).2 + (ByteSource.pull s room).1.bytes.length ≤ left s

theorem Supplies.pulls {left : σ → Nat} (h : Supplies left) {s t : σ} {bytes : List UInt8}
    (hpulls : Pulls s bytes t) : left t + bytes.length ≤ left s := by
  induction hpulls with
  | none => exact Nat.le_refl _
  | more before pull ih =>
      rename_i t u bytes others room fits
      have hpull := h t room
      rw [pull] at hpull
      simp only [Reply.bytes] at hpull
      rw [List.length_append]
      omega

theorem Supplies.stop_le {left : σ → Nat} (h : Supplies left) {entries others : Array Entry}
    (hreaches : Reaches entries b others c) : left c.source + c.stop ≤ left b.source + b.stop := by
  induction hreaches with
  | start => exact Nat.le_refl _
  | next _ hturn ih =>
      obtain ⟨bytes, hpulls, hstop⟩ := (goesOn_of_turn hturn).delivers
      have hleft := h.pulls hpulls
      omega

/-- A reading that goes on consumes, so it cannot go on beyond the last byte it will ever get. -/
theorem Reaches.exists_ends {entries others : Array Entry} (h : Reaches entries b others c)
    (total : Nat) (hfinite : ∀ others c, Reaches entries b others c → c.stop ≤ total) :
    ∃ result, Ends others c result := by
  induction hleft : total - c.place.byte using Nat.strongRecOn generalizing others c with
  | ind left ih =>
      cases hturn : turn others c with
      | inr result => exact ⟨result, .last hturn⟩
      | inl state =>
          obtain ⟨more, d⟩ := state
          have hmore : Reaches entries b more d := h.next hturn
          have hless := (goesOn_of_turn hturn).byte_lt
          have hbyte := Nat.le_trans d.byte_le_stop (hfinite more d hmore)
          obtain ⟨result, hends⟩ := ih _ (by omega) hmore rfl
          exact ⟨result, .next hturn hends⟩

/-- Over a source that runs out every reading ends. -/
theorem exists_ends {left : σ → Nat} (h : Supplies left) (entries : Array Entry) (b : Buffer σ) :
    ∃ result, Ends entries b result := by
  have hfinite : ∀ others c, Reaches entries b others c → c.stop ≤ left b.source + b.stop :=
    fun others c hreaches => Nat.le_trans (Nat.le_add_left _ _) (h.stop_le hreaches)
  exact Reaches.start.exists_ends _ hfinite

/-- **The grammar and its decoders agree.** Over any source, and with any limits a buffer can be
made with, a reading that ends does so with entries or for an ordinary reason, never for a broken
promise, a span that does not fit its decoder or a mark that is lost. It does end over a source that
runs out. -/
theorem read_outcome {limits : Limits} (valid : limits.Valid) (lineEnding : LineEnding)
    (label : String) (source : σ) :
    ∃ b, Buffer.start limits lineEnding label source = .ok b ∧
      (∀ result, Ends #[] b result → Outcome (answerOf (read b))) ∧
      ∀ left : σ → Nat, Supplies left → ∃ result, Ends #[] b result := by
  refine ⟨_, start_of_valid valid lineEnding label source, fun result hends => ?_, fun left h =>
    exists_ends h _ _⟩
  have houtcome := hends.outcome
  rw [hends.read_eq]
  cases result <;> exact houtcome

/-! ## Scripts run out -/

/-- The bytes of a step of a script. -/
def stepSize : Script.Step → Nat
  | .data bytes => bytes.length
  | _ => 0

/-- The bytes that a script has yet to deliver. -/
def supply (script : Script) : Nat :=
  (script.steps.map stepSize).sum

theorem supplies_supply : Supplies supply := by
  rintro ⟨steps⟩ room
  show ((Script.play room steps).2.map stepSize).sum + (Script.play room steps).1.bytes.length
    ≤ (steps.map stepSize).sum
  induction steps with
  | nil => exact Nat.le_refl 0
  | cons step rest ih =>
      rw [List.map_cons, List.sum_cons]
      cases step with
      | data bytes =>
          have hleft :
              ((Script.leftover bytes room).map stepSize).sum = (bytes.drop room).length := by
            unfold Script.leftover
            split
            · rename_i hnil
              rw [hnil]
              rfl
            · rfl
          simp only [Script.play, Reply.bytes, List.map_append, List.sum_append, hleft, stepSize,
            List.length_take, List.length_drop]
          omega
      | interrupted => exact Nat.le_trans ih (Nat.le_add_left _ _)
      | endOfInput => exact Nat.le_add_left _ _
      | failure text => exact Nat.le_add_left _ _
      | overReport excess => exact Nat.le_add_left _ _

/-- A source that seems to end, goes on, and at last claims too much. -/
theorem read_outcome_of_script :
    (⟨8, 4⟩ : Limits).Valid ∧
      ∃ b, Buffer.start ⟨8, 4⟩ .lfOrCrlf "doc" (⟨[.data [107, 61, 34, 92], .endOfInput,
          .data [110, 34, 10], .overReport 1]⟩ : Script) = .ok b ∧
        Outcome (answerOf (read b)) := by
  have hvalid : (⟨8, 4⟩ : Limits).Valid := by decide
  obtain ⟨b, hstart, houtcome, hends⟩ := read_outcome hvalid .lfOrCrlf "doc"
    (⟨[.data [107, 61, 34, 92], .endOfInput, .data [110, 34, 10], .overReport 1]⟩ : Script)
  obtain ⟨result, hresult⟩ := hends supply supplies_supply
  exact ⟨hvalid, b, hstart, houtcome result hresult⟩

end Lookahead.Entries
