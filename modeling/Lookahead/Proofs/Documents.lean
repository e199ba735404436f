import Lookahead.Entries.Document
import Lookahead.Proofs.Lines

/-!
# The reading of documents

The reader accepts exactly the grammar, as far as the lines of a document fit into the buffer.
Between two lines the buffer compacts, so that a line starts no more than a chunk behind its front;
the rest of the buffer, `maximum` bytes, then has room for the line and for two bytes of its ending.
-/

namespace Lookahead.Entries

open Scan Buffer

variable {σ : Type} [ByteSource σ] {doc input : List UInt8} {limits : Limits} {label : String}
  {b c : Buffer σ}

/-! ## Items -/

/-- The buffer stands between two lines of a document, with no guard open. -/
structure Between (doc : List UInt8) (limits : Limits) (label : String) (b : Buffer σ) : Prop where
  atLine : AtLine doc b
  limits_eq : b.limits = limits
  label_eq : b.label = label
  pin_eq : b.pin = none

/-- What an item tells of the rest of a document: its end, the next line of it, or why there is no
next line. -/
inductive Tells (doc : List UInt8) (limits : Limits) (label : String) (input : List UInt8) :
    EStateM.Result Fault (Buffer σ) Item → Prop
  | finished {c : Buffer σ} (input_eq : input = []) : Tells doc limits label input (.ok .finished c)
  | blank {c : Buffer σ} (between : Between doc limits label c)
      (less : (ahead doc c).length < input.length)
      (line_eq : Grammar.line input = .matched none (ahead doc c)) :
      Tells doc limits label input (.ok .blank c)
  | entry {entry : Entry} {c : Buffer σ} (between : Between doc limits label c)
      (less : (ahead doc c).length < input.length)
      (line_eq : Grammar.line input = .matched (some entry) (ahead doc c)) :
      Tells doc limits label input (.ok (.entry entry) c)
  | noRule {c : Buffer σ} (input_ne : input ≠ []) (line_eq : Grammar.line input = .mismatch) :
      Tells doc limits label input
        (.error (.noRule (.ofPlace (Grammar.lineStart doc input) label)) c)
  | escape {unit : Nat} {left : List UInt8} {c : Buffer σ}
      (line_eq : Grammar.line input = .aborted unit left) :
      Tells doc limits label input
        (.error (.escape ⟨.invalidCodePoint (UInt32.ofNat unit),
          .behind lineFeed (Grammar.consumed doc left)⟩) c)
  | overflow {requested capacity : Nat} {c : Buffer σ} (doc_ne : doc ≠ [])
      (cramped : Cramped limits.maximum doc) :
      Tells doc limits label input (.error (.buffer (.overflow requested capacity)) c)

/-- Behind a line the buffer is between two lines again. -/
theorem Between.next (h : Stays doc b c) (hlimits : b.limits = limits) (hlabel : b.label = label)
    (hpin : b.pin = none) (hatLine : AtLine doc c) (hless : b.place.byte < c.place.byte) :
    Between doc limits label c ∧ (ahead doc c).length < (ahead doc b).length := by
  refine ⟨⟨hatLine, h.limits_eq.trans hlimits, h.label_eq.trans hlabel, h.pin_eq.trans hpin⟩, ?_⟩
  exact ahead_lt hatLine.reads hless

/-- At the start of a line the grammar knows where the cursor stands. -/
theorem lineStart_ahead (h : Reads doc b)
    (hplace : b.place = .behind lineFeed (doc.take b.place.byte))
    (hcolumn : b.place.column = 1) : Grammar.lineStart doc (ahead doc b) = b.place := calc
  Grammar.lineStart doc (ahead doc b)
      = { Place.behind lineFeed (doc.take b.place.byte) with column := 1 } := by
        unfold Grammar.lineStart
        rw [consumed_ahead h]
        rfl
    _ = { b.place with column := b.place.column } := by rw [← hplace, hcolumn]
    _ = b.place := rfl

omit [ByteSource σ] in
theorem ne_nil_of_ahead (hne : ahead doc b ≠ []) : doc ≠ [] := by
  rintro rfl
  exact hne List.drop_nil

/-- Where no line ending is ahead, the reader takes the next line where the grammar has one. -/
theorem tells_assignment {start : Nat} (h : OnLine doc start b) (hcolumn : b.place.column = 1)
    (hne : ahead doc b ≠ []) (hpin : b.pin = none)
    (hlineEnd : Grammar.lineEnd (ahead doc b) = .mismatch) :
    Tells doc b.limits b.label (ahead doc b)
      ((do match ← assignment with
           | some entry => return .entry entry
           | none => throw (.noRule (← get).position) : Scan σ Item) b) := by
  have hline : Grammar.line (ahead doc b) = (Grammar.assignment (ahead doc b)).map some := by
    unfold Grammar.line
    rw [Peg.orElse_mismatch (Peg.bind_mismatch hlineEnd), Peg.bind_pure]
  have hassignment := shows_assignment h
  rw [bind_apply]
  generalize Grammar.assignment (ahead doc b) = verdict at hassignment hline
  generalize assignment b = result at hassignment ⊢
  cases hassignment with
  | matched hstays hrelated =>
      obtain ⟨⟨hmatch, hholds⟩, -⟩ := hrelated
      obtain ⟨hatLine, hless⟩ := hholds (Option.some_ne_none _)
      obtain ⟨hbetween, hshorter⟩ := Between.next hstays rfl rfl hpin hatLine hless
      cases hmatch with
      | some heq =>
          subst heq
          exact .entry hbetween hshorter hline
  | mismatch hstays hrelated =>
      obtain ⟨⟨hmatch, -⟩, hback⟩ := hrelated
      obtain ⟨-, hplace⟩ := hback rfl
      cases hmatch
      have hposition : ∀ d : Buffer σ, d.place = b.place → d.label = b.label →
          d.position = .ofPlace (Grammar.lineStart doc (ahead doc b)) b.label := by
        intro d hplace hlabel
        rw [lineStart_ahead h.reads h.place_eq hcolumn, Buffer.position, hplace, hlabel]
      simp only [bind_apply, get_apply, throw_apply]
      rw [hposition _ hplace hstays.label_eq]
      exact .noRule hne hline
  | aborted hstays => exact .escape hline
  | overflow hstays hcramped => exact .overflow (ne_nil_of_ahead hne) hcramped

/-- Once there is something ahead, the reader takes the next line where the grammar has one. -/
theorem tells_line {start : Nat} (h : OnLine doc start b) (hprimed : Primed doc b)
    (hcolumn : b.place.column = 1) (hne : ahead doc b ≠ []) (hpin : b.pin = none) :
    Tells doc b.limits b.label (ahead doc b)
      ((do if ← ask consumeLineEnding then return .blank
           match ← assignment with
           | some entry => return .entry entry
           | none => throw (.noRule (← get).position) : Scan σ Item) b) := by
  have hlineEnd := shows_lineEnd h hprimed
  rw [bind_apply]
  generalize hverdict : Grammar.lineEnd (ahead doc b) = verdict at hlineEnd
  generalize ask consumeLineEnding b = result at hlineEnd ⊢
  cases hlineEnd with
  | matched hstays hrelated =>
      obtain ⟨rfl, hnext, -⟩ := hrelated
      obtain ⟨hatLine, hless⟩ := hnext (Option.some_ne_none _)
      obtain ⟨hbetween, hshorter⟩ := Between.next hstays rfl rfl hpin hatLine hless
      exact .blank hbetween hshorter (Peg.orElse_matched (Peg.bind_matched hverdict))
  | mismatch hstays hrelated =>
      obtain ⟨rfl, -, hback⟩ := hrelated
      obtain ⟨hc, hplace⟩ := hback rfl
      have hahead : ahead doc _ = ahead doc b := ahead_congr hplace
      have hrest := tells_assignment hc (by rwa [hplace]) (by rwa [hahead])
        (hstays.pin_eq.trans hpin) (by rwa [hahead])
      rw [hstays.limits_eq, hstays.label_eq, hahead] at hrest
      exact hrest
  | aborted hstays =>
      cases ending (ahead doc b) with
      | ends ending rest hinput hmatches hmatched hadvance => cases hmatched.symm.trans hverdict
      | goesOn hmatches hmismatch => cases hmismatch.symm.trans hverdict
  | overflow hstays hcramped => exact .overflow (ne_nil_of_ahead hne) hcramped

/-- After compaction a line starts no more than a chunk behind the front. -/
theorem onLine_discard (h : AtLine doc b) (hpin : b.pin = none) :
    OnLine doc b.place.byte b.discard := by
  have hdrops := b.drops_discard
  have hbyte := b.discard.base_add_offset
  rw [hdrops.place_eq] at hbyte
  have hchunk : b.place.byte ≤ b.discard.base + b.limits.chunk := by
    have hbefore := b.base_add_offset
    have hdroppable : b.droppable = b.offset := by
      unfold droppable
      rw [hpin]
    have hshift : b.offset ≤ b.shift + b.limits.chunk := by
      unfold shift
      rw [hdroppable]
      split <;> omega
    rw [hdrops.base_eq]
    omega
  refine ⟨h.reads.of_drops hdrops, hdrops.lineEnding_eq.trans h.lineEnding_eq, ?_, ?_, ?_, ?_, ?_⟩
  · omega
  · rw [hdrops.limits_eq]
    exact hchunk
  · exact Nat.le_of_eq (congrArg Place.byte hdrops.place_eq.symm)
  · rw [hdrops.place_eq]
    exact h.place_eq
  · rw [hdrops.place_eq, Nat.sub_self, List.take_zero]
    exact fun byte hmem => absurd hmem List.not_mem_nil

/-- An empty document has room for its end. -/
theorem ne_nil_of_overflow {start : Nat} (h : OnLine doc start b) {fault : Fault}
    (hfault : ask isAtEnd b = .error fault c) : doc ≠ [] := by
  rintro rfl
  simp only [ask, adaptExcept_apply, isAtEnd, bind_apply, ensure] at hfault
  cases hrequest : request 1 b with
  | error error d =>
      have htooMuch := (h.reads.refused hrequest).too_much
      have hlength : b.place.byte ≤ 0 := byte_le_length h.reads
      have hbyte := b.base_add_offset
      have hchunk := h.reads.chunk_pos
      rw [b.capacity_eq] at htooMuch
      unfold Limits.capacity at htooMuch
      omega
  | ok received d =>
      rw [hrequest] at hfault
      cases hfault

theorem tells_item (h : Between doc limits label b) :
    Tells doc limits label (ahead doc b) (item b) := by
  obtain ⟨hatLine, rfl, rfl, hpin⟩ := h
  have hdrops := b.drops_discard
  have hline := onLine_discard hatLine hpin
  have hahead : ahead doc b.discard = ahead doc b := ahead_congr hdrops.place_eq
  have hatEnd := shows_atEnd hline
  rw [hahead] at hatEnd
  show Tells doc b.limits b.label (ahead doc b) ((ask isAtEnd >>= _) b.discard)
  rw [bind_apply]
  generalize hverdict : Peg.atEnd (ahead doc b) = verdict at hatEnd
  generalize hresult : ask isAtEnd b.discard = result at hatEnd ⊢
  cases hatEnd with
  | matched hstays hrelated =>
      obtain ⟨rfl, -, hplace, -, hend⟩ := hrelated
      refine .finished ?_
      rw [← hahead, ← ahead_congr hplace]
      exact hend (Option.some_ne_none _)
  | mismatch hstays hrelated =>
      obtain ⟨rfl, hc, hplace, hprimed, -⟩ := hrelated
      have hne : ahead doc b ≠ [] := by
        intro hnil
        rw [hnil] at hverdict
        cases hverdict
      have hsame := (ahead_congr hplace).trans hahead
      have hcolumn := hatLine.column_eq hne
      rw [← hdrops.place_eq, ← hplace] at hcolumn
      have hrest := tells_line hc hprimed hcolumn (by rwa [hsame])
        ((hstays.pin_eq.trans hdrops.pin_eq).trans hpin)
      rw [hstays.limits_eq, hdrops.limits_eq, hstays.label_eq, hdrops.label_eq, hsame] at hrest
      exact hrest
  | aborted hstays =>
      cases hrest : ahead doc b with
      | nil => rw [hrest] at hverdict; cases hverdict
      | cons byte rest => rw [hrest] at hverdict; cases hverdict
  | overflow hstays hcramped =>
      rw [hdrops.limits_eq] at hcramped
      exact .overflow (ne_nil_of_overflow hline hresult) hcramped

/-! ## Documents -/

/-- The reading of a document comes to what its grammar says, behind some entries, or it ends with a
line that does not fit. -/
inductive Comes (doc : List UInt8) (limits : Limits) (before : List Entry)
    (expected : Except Fault (List Entry)) :
    Option (EStateM.Result Fault (Buffer σ) (Array Entry)) → Prop
  | entries {entries : List Entry} {all : Array Entry} {c : Buffer σ}
      (expected_eq : expected = .ok entries) (all_eq : all.toList = before ++ entries) :
      Comes doc limits before expected (some (.ok all c))
  | fault {fault : Fault} {c : Buffer σ} (expected_eq : expected = .error fault) :
      Comes doc limits before expected (some (.error fault c))
  | overflow {requested capacity : Nat} {c : Buffer σ} (doc_ne : doc ≠ [])
      (cramped : Cramped limits.maximum doc) :
      Comes doc limits before expected (some (.error (.buffer (.overflow requested capacity)) c))

omit [ByteSource σ] in
/-- The entry of a line goes in front of those behind it. -/
theorem Comes.cons {entry : Entry} {before : List Entry} {expected : Except Fault (List Entry)}
    {result : Option (EStateM.Result Fault (Buffer σ) (Array Entry))}
    (h : Comes doc limits (before ++ [entry]) expected result) :
    Comes doc limits before (expected.map (entry :: ·)) result := by
  cases h with
  | entries hexpected hall =>
      subst hexpected
      exact .entries rfl (by rw [hall, List.append_assoc]; rfl)
  | fault hexpected =>
      subst hexpected
      exact .fault rfl
  | overflow hne hcramped => exact .overflow hne hcramped

theorem conclude_blank (label : String) (doc : List UInt8)
    (verdict : Verdict (List (Option Entry))) :
    Grammar.conclude label doc (verdict.map (none :: ·)) = Grammar.conclude label doc verdict := by
  cases verdict with
  | matched lines left => cases left <;> rfl
  | mismatch => rfl
  | aborted unit left => rfl

theorem conclude_entry (label : String) (doc : List UInt8) (verdict : Verdict (List (Option Entry)))
    (entry : Entry) :
    Grammar.conclude label doc (verdict.map (some entry :: ·))
      = (Grammar.conclude label doc verdict).map (entry :: ·) := by
  cases verdict with
  | matched lines left => cases left <;> rfl
  | mismatch => rfl
  | aborted unit left => rfl

theorem line_nil : Grammar.line [] = .mismatch := by
  have hblanks : Grammar.blanks [] = .matched () [] := Peg.bind_matched (Peg.star_mismatch rfl)
  have hassignment : Grammar.assignment [] = .mismatch := by
    unfold Grammar.assignment
    rw [Peg.bind_matched hblanks]
    exact Peg.bind_mismatch rfl
  unfold Grammar.line
  rw [Peg.orElse_mismatch rfl, Peg.bind_pure, hassignment]
  rfl

/-- Line by line the reader comes to what the grammar says of the rest of the document. -/
theorem comes_readOn (entries : Array Entry) (h : Between doc limits label b) :
    Comes doc limits entries.toList
      (Grammar.conclude label doc (Peg.star Grammar.line (ahead doc b))) (readOn entries b) := by
  -- By induction on how much is ahead: a line that is taken leaves less.
  induction hlength : (ahead doc b).length using Nat.strongRecOn generalizing b entries with
  | ind length ih =>
      subst hlength
      have hitem := tells_item h
      rw [readOn_eq, turn]
      generalize item b = result at hitem ⊢
      cases hitem with
      | finished hend =>
          rw [hend, Peg.star_mismatch line_nil]
          exact .entries rfl (List.append_nil _).symm
      | blank hbetween hless hline =>
          rw [Peg.star_matched hline hless, conclude_blank]
          exact ih _ hless entries hbetween rfl
      | entry hbetween hless hline =>
          rename_i entry c
          rw [Peg.star_matched hline hless, conclude_entry]
          have hrest := ih _ hless (entries.push entry) hbetween rfl
          rw [Array.toList_push] at hrest
          exact hrest.cons
      | noRule hne hline =>
          rw [Peg.star_mismatch hline]
          cases hrest : ahead doc b with
          | nil => exact absurd hrest hne
          | cons byte rest => exact .fault rfl
      | escape hline =>
          rw [Peg.star_aborted hline]
          exact .fault rfl
      | overflow hne hcramped => exact .overflow hne hcramped

theorem between_ofLimits (valid : limits.Valid) (label : String) {source : σ}
    (h : Serves source doc) :
    Between doc limits label (ofLimits limits .lfOrCrlf label source) where
  atLine :=
    { reads := reads_ofLimits valid .lfOrCrlf label h
      lineEnding_eq := rfl
      place_eq := rfl
      column_eq := fun _ => rfl }
  limits_eq := rfl
  label_eq := rfl
  pin_eq := rfl

/-- What a computation answers, whatever state it ends in. -/
def answerOf {ε α τ : Type} : EStateM.Result ε τ α → Except ε α
  | .ok a _ => .ok a
  | .error e _ => .error e

/-- A document that is read from its start is read as a whole. -/
theorem answer_read {expected : Except Fault (List Entry)}
    (h : Comes doc limits [] expected (readOn #[] b)) :
    answerOf (read b) = expected.map some ∨
      ∃ requested capacity, answerOf (read b) = .error (.buffer (.overflow requested capacity)) ∧
        doc ≠ [] ∧ Cramped limits.maximum doc := by
  unfold read
  generalize readOn #[] b = result at h ⊢
  cases h with
  | entries hexpected hall =>
      left
      rw [List.nil_append] at hall
      rw [hexpected, ← hall]
      rfl
  | fault hexpected =>
      left
      rw [hexpected]
      rfl
  | overflow hne hcramped => exact .inr ⟨_, _, rfl, hne, hcramped⟩

/-- Every stretch of a line of the document, and two bytes more, are no longer than the longest
lookahead. A document with nothing in it fits anyhow. -/
def Fits (maximum : Nat) (doc : List UInt8) : Prop :=
  doc ≠ [] → ∀ run, run <:+: doc → Inline run → run.length + 2 ≤ maximum

theorem fits_of_length {maximum : Nat} (h : doc.length + 2 ≤ maximum) : Fits maximum doc :=
  fun _ _ hrun _ => Nat.le_trans (Nat.add_le_add_right hrun.length_le 2) h

/-- The reader comes to what the grammar says of a document that fits. -/
theorem answer_of_fits (valid : limits.Valid) (label : String) {source : σ} (h : Serves source doc)
    (hfits : Fits limits.maximum doc) :
    answerOf (read (ofLimits limits .lfOrCrlf label source))
      = (Grammar.parse label doc).map some := by
  rcases answer_read (comes_readOn #[] (between_ofLimits valid label h)) with
    hexact | ⟨requested, capacity, -, hne, run, hrun, hinline, hlong⟩
  · exact hexact
  · exact absurd (hfits hne run hrun hinline) (Nat.not_le_of_lt hlong)

/-- **The reader accepts exactly the grammar.** Over whatever source serves a document, and with
whatever limits, it answers what the grammar says of the document or that it ran out of room, and
the latter only if some line does not fit. -/
theorem read_eq_parse (valid : limits.Valid) (label : String) {source : σ} (h : Serves source doc) :
    ∃ b, Buffer.start limits .lfOrCrlf label source = .ok b ∧
      (answerOf (read b) = (Grammar.parse label doc).map some ∨
        ∃ requested capacity,
          answerOf (read b) = .error (.buffer (.overflow requested capacity))) ∧
      (Fits limits.maximum doc → answerOf (read b) = (Grammar.parse label doc).map some) := by
  have hstart : Buffer.start limits .lfOrCrlf label source
      = .ok (ofLimits limits .lfOrCrlf label source) := by
    unfold Buffer.start
    rw [Limits.fault?_eq_none_iff.mpr valid]
  refine ⟨_, hstart, ?_⟩
  have hcomes := comes_readOn #[] (between_ofLimits valid label h)
  rcases answer_read hcomes with hexact | ⟨requested, capacity, hoverflow, hne, hcramped⟩
  · exact ⟨.inl hexact, fun _ => hexact⟩
  · refine ⟨.inr ⟨requested, capacity, hoverflow⟩, fun hfits => ?_⟩
    obtain ⟨run, hrun, hinline, hlong⟩ := hcramped
    have hshort := hfits hne run hrun hinline
    omega

/-- The document with the one line `k="\n"`, read two bytes at a time. -/
theorem read_eq_parse_of_slice :
    (⟨16, 4⟩ : Limits).Valid ∧
      Serves (⟨[107, 61, 34, 92, 110, 34], some 2⟩ : Slice) [107, 61, 34, 92, 110, 34] ∧
      ∃ b, Buffer.start ⟨16, 4⟩ .lfOrCrlf "doc"
          (⟨[107, 61, 34, 92, 110, 34], some 2⟩ : Slice) = .ok b ∧
        answerOf (read b) = .ok (some [⟨"k", [10]⟩]) := by
  have hserves : Serves (⟨[107, 61, 34, 92, 110, 34], some 2⟩ : Slice) [107, 61, 34, 92, 110, 34] :=
    serves_slice (by decide)
  have hfits : Fits 16 [107, 61, 34, 92, 110, 34] := by
    intro _ run hrun _
    have hlength := hrun.length_le
    rw [List.length_cons] at hlength
    simp at hlength
    omega
  have hparse : Grammar.parse "doc" [107, 61, 34, 92, 110, 34] = .ok [⟨"k", [10]⟩] := by cbv
  have hvalid : (⟨16, 4⟩ : Limits).Valid := by decide
  obtain ⟨b, hstart, -, hexact⟩ := read_eq_parse hvalid "doc" hserves
  refine ⟨hvalid, hserves, b, hstart, ?_⟩
  rw [hexact hfits, hparse]
  rfl

end Lookahead.Entries
