import Lookahead.Proofs.Documents
import Lookahead.Proofs.Lockstep

/-!
# Short reads do not change an answer

The reader of entry documents keeps in step with itself over two sources that serve the same
document: recogniser by recogniser, then item by item. So its answer is the same over both, whether
that is the entries, a line that does not fit, an escape that stands for nothing or a line that no
rule matches, down to the numbers and positions in the failure.

The reader looks for line endings in two places only, and has asked for the byte ahead in both:
where an item begins it has just made sure that the document goes on, and at the end of a line it
has just found that no blank is ahead.
-/

namespace Lookahead.Entries

open Scan Buffer

variable {σ τ : Type} [ByteSource σ] [ByteSource τ] {doc : List UInt8} {b : Buffer σ}
  {c : Buffer τ}

/-! ## Escapes -/

theorem inStep_hexDigits (count : Nat) :
    InStep doc (hexDigits count : Scan σ (Option Unit))
      (hexDigits count : Scan τ (Option Unit)) := by
  induction count with
  | zero => exact fun _ _ h => .pure h trivial
  | succ count ih => exact (inStep_byteIf _).andThen (fun _ => ih) rfl rfl

theorem inStep_unit :
    InStep doc (unit : Scan σ (Option Unit)) (unit : Scan τ (Option Unit)) :=
  (inStep_byteIf _).andThen (fun _ => inStep_hexDigits 4) rfl rfl

theorem inStep_nextUnit :
    InStep doc (nextUnit : Scan σ (Option Unit)) (nextUnit : Scan τ (Option Unit)) :=
  (inStep_byteIf _).andThen (fun _ => inStep_unit) rfl rfl

theorem inStep_moreUnits :
    InStep doc (moreUnits : Scan σ Unit) (moreUnits : Scan τ Unit) :=
  inStep_many (inStep_attempt inStep_nextUnit)

theorem inStep_units :
    InStep doc (units : Scan σ (Option Unit)) (units : Scan τ (Option Unit)) := by
  refine inStep_unit.andThen (fun _ b c h => ?_) rfl rfl
  exact (inStep_moreUnits b c h).bind h fun _ _ _ _ h' _ => .pure h' trivial

theorem inStep_escaped :
    InStep doc (escaped : Scan σ (Option (List UInt8)))
      (escaped : Scan τ (Option (List UInt8))) := by
  intro b c h
  unfold escaped
  rw [bind_apply, get_apply, bind_apply, get_apply]
  simp only
  rw [h.place_eq]
  refine (inStep_byteIf _ _ _ h).bind h fun found b' c' hleft h' _ => ?_
  split
  · refine (agrees_decodeSince h' hleft.byte_le _).bind h' fun _ _ _ _ h'' _ => ?_
    exact .pure h'' trivial
  · refine (inStep_units _ _ h').bind h' fun found b'' c'' hleft' h'' _ => ?_
    have hbyte := Nat.le_trans hleft.byte_le hleft'.byte_le
    cases found with
    | none => exact .pure h'' trivial
    | some _ =>
        refine (agrees_decodeSince h'' hbyte _).bind h'' fun _ _ _ _ h _ => ?_
        exact .pure h trivial

theorem inStep_escape :
    InStep doc (escape : Scan σ (Option (List UInt8))) (escape : Scan τ (Option (List UInt8))) :=
  inStep_attempt ((inStep_byteIf _).andThen (fun _ => inStep_escaped) rfl rfl)

/-! ## Values -/

theorem inStep_skipWhile (accepts : UInt8 → Bool) :
    InStep doc (skipWhile accepts : Scan σ Unit) (skipWhile accepts : Scan τ Unit) :=
  inStep_many (inStep_byteIf accepts)

theorem inStep_piece :
    InStep doc (piece : Scan σ Piece) (piece : Scan τ Piece) := by
  intro b c h
  refine (inStep_byteIf _ _ _ h).bind h fun closing b' c' _ h' _ => ?_
  split
  · exact .pure h' trivial
  · refine (inStep_escape _ _ h').bind h' fun decoded b'' c'' _ h'' _ => ?_
    cases decoded with
    | some bytes => exact .pure h'' trivial
    | none =>
        refine (inStep_capture (inStep_skipWhile isPlain) _ _ h'').bind h'' fun span _ _ _ h _ => ?_
        exact .pure h trivial

omit [ByteSource τ] in
theorem pieces_eq (b : Buffer σ) :
    pieces b
      = (piece >>= fun found => match found with
          | .close => pure (some [])
          | .stuck => pure none
          | .text bytes => pieces >>= fun rest => pure (rest.map (bytes ++ ·))) b := by
  rw [pieces, bind_apply]
  split
  case h_1 hanswer => rw [hanswer]
  case h_2 hanswer | h_3 hanswer =>
    rw [hanswer]
    rfl
  case h_4 bytes c hanswer =>
    rw [hanswer]
    simp only
    rw [bind_apply]
    cases pieces c <;> rfl

theorem inStep_pieces :
    InStep doc (pieces : Scan σ (Option (List UInt8))) (pieces : Scan τ (Option (List UInt8))) := by
  intro b c h
  induction hlength : (ahead doc b).length using Nat.strongRecOn generalizing b c with
  | ind length ih =>
      subst hlength
      rw [pieces_eq, pieces_eq]
      refine (inStep_piece b c h).with_answer.bind h fun found b' c' _ h' hanswer => ?_
      cases found with
      | close => exact .pure h' trivial
      | stuck => exact .pure h' trivial
      | text bytes =>
          have hless := ahead_lt h'.left (piece_text_byte_lt hanswer.2)
          exact (ih _ hless b' c' h' rfl).bind h' fun _ _ _ _ h'' _ => .pure h'' trivial

theorem inStep_value :
    InStep doc (value : Scan σ (Option (List UInt8))) (value : Scan τ (Option (List UInt8))) :=
  inStep_attempt ((inStep_byteIf _).andThen (fun _ => inStep_pieces) rfl rfl)

/-! ## Lines -/

theorem inStep_key :
    InStep doc (key : Scan σ (Option String)) (key : Scan τ (Option String)) := by
  intro b c h
  refine (inStep_capture (inStep_skipWhile isKeyByte) b c h).bind h fun span _ _ _ h' _ => ?_
  exact .pure h' trivial

/-- Blanks end at a byte that was asked for and is none. -/
theorem agrees_blanks (h : Alike doc b c) :
    Agrees doc b c (fun _ => BothPrimed doc) (blanks b) (blanks c) :=
  agrees_many (fun h => agrees_byteIf h isBlank) h

theorem inStep_afterBlanks {α : Type} {next : Scan σ α} {next' : Scan τ α}
    (hnext : InStep doc next next') :
    InStep doc (do blanks; next : Scan σ α) (do blanks; next' : Scan τ α) :=
  fun _ _ h => (agrees_blanks h).bind h fun _ _ _ _ h' _ => hnext _ _ h'

theorem agrees_lineDone (h : Alike doc b c) (hprimed : BothPrimed doc b c) :
    Agrees doc b c (fun _ _ _ => True) (lineDone b) (lineDone c) := by
  refine (agrees_consumeLineEnding h hprimed).bind h fun found b' c' _ h' _ => ?_
  split
  · exact .pure h' trivial
  · exact (agrees_isAtEnd h').mono fun _ _ _ _ => trivial

theorem inStep_assignment :
    InStep doc (assignment : Scan σ (Option Entry)) (assignment : Scan τ (Option Entry)) := by
  refine inStep_attempt (inStep_afterBlanks ?_)
  refine inStep_key.andThen (fun key => inStep_afterBlanks ?_) rfl rfl
  refine (inStep_byteIf _).andThen (fun _ => inStep_afterBlanks ?_) rfl rfl
  refine inStep_value.andThen (fun value b c h => ?_) rfl rfl
  refine (agrees_blanks h).bind h fun _ b' c' _ h' hprimed => ?_
  refine (agrees_lineDone h' hprimed).bind h' fun done _ _ _ h'' _ => ?_
  exact .pure h'' trivial

/-! ## Documents -/

/-- Compaction leaves alike buffers alike, and then the next item is read in step. -/
theorem agrees_item (h : Alike doc b c) :
    Agrees doc b.discard c.discard (fun _ _ _ => True) (item b) (item c) := by
  have hdiscard := h.discard
  show Agrees doc _ _ _ ((ask isAtEnd >>= _) b.discard) ((ask isAtEnd >>= _) c.discard)
  refine (agrees_isAtEnd hdiscard).bind hdiscard fun atEnd b₁ c₁ _ h₁ hprimed => ?_
  split
  · exact .pure h₁ trivial
  · refine (agrees_consumeLineEnding h₁ hprimed).bind h₁ fun found b₂ c₂ _ h₂ _ => ?_
    split
    · exact .pure h₂ trivial
    · refine (inStep_assignment _ _ h₂).bind h₂ fun entry b₃ c₃ _ h₃ _ => ?_
      cases entry with
      | some entry => exact .pure h₃ trivial
      | none =>
          show Agrees doc b₃ c₃ _ (.error (.noRule b₃.position) b₃)
            (.error (.noRule c₃.position) c₃)
          rw [h₃.position_eq]
          exact .error (.refl h₃.left) (.refl h₃.right)

/-- Two ways of reading a document come to the same: the same entries, or the same failure. -/
inductive SameAnswer : Option (EStateM.Result Fault (Buffer σ) (Array Entry)) →
    Option (EStateM.Result Fault (Buffer τ) (Array Entry)) → Prop
  | entries {entries : Array Entry} {b : Buffer σ} {c : Buffer τ} :
      SameAnswer (some (.ok entries b)) (some (.ok entries c))
  | fault {fault : Fault} {b : Buffer σ} {c : Buffer τ} :
      SameAnswer (some (.error fault b)) (some (.error fault c))

theorem sameAnswer_readOn {limits : Limits} {label : String} (entries : Array Entry)
    (hbetween : Between doc limits label b) (h : Alike doc b c) :
    SameAnswer (readOn entries b) (readOn entries c) := by
  -- By induction on how much is ahead: the grammar knows that an item leaves less.
  induction hlength : (ahead doc b).length using Nat.strongRecOn generalizing b c entries with
  | ind length ih =>
      subst hlength
      have hitem := tells_item hbetween
      have hagrees := agrees_item h
      rw [readOn_eq, readOn_eq, turn, turn]
      generalize item b = result at hitem hagrees ⊢
      generalize item c = result' at hagrees ⊢
      cases hagrees with
      | error hleft hright => exact .fault
      | ok hleft hright hplace _ =>
          have h' := h.discard.stays hleft hright hplace
          cases hitem with
          | finished _ => exact .entries
          | blank hnext hless _ => exact ih _ hless entries hnext h' rfl
          | entry hnext hless _ => exact ih _ hless (entries.push _) hnext h' rfl

theorem alike_ofLimits {limits : Limits} (valid : limits.Valid) (label : String) {source : σ}
    {other : τ} (h : Serves source doc) (h' : Serves other doc) :
    Alike doc (ofLimits limits .lfOrCrlf label source) (ofLimits limits .lfOrCrlf label other) :=
  ⟨reads_ofLimits valid .lfOrCrlf label h, reads_ofLimits valid .lfOrCrlf label h', rfl, rfl, rfl,
    rfl, rfl, rfl⟩

/-- **Short reads do not change an answer.** Over any two sources that serve the same document, each
cut up in its own way, the reader gives one and the same answer: the same entries or the same
failure. -/
theorem read_independent_of_cuts {limits : Limits} (valid : limits.Valid) (label : String)
    {source : σ} {other : τ} (h : Serves source doc) (h' : Serves other doc) :
    ∃ b c, Buffer.start limits .lfOrCrlf label source = .ok b ∧
      Buffer.start limits .lfOrCrlf label other = .ok c ∧
      ∃ answer : Except Fault (List Entry),
        answerOf (read b) = answer.map some ∧ answerOf (read c) = answer.map some := by
  refine ⟨_, _, start_of_valid valid .lfOrCrlf label source,
    start_of_valid valid .lfOrCrlf label other, ?_⟩
  have hsame := sameAnswer_readOn #[] (between_ofLimits valid label h)
    (alike_ofLimits valid label h h')
  unfold read
  generalize readOn #[] (ofLimits limits .lfOrCrlf label source) = result at hsame ⊢
  generalize readOn #[] (ofLimits limits .lfOrCrlf label other) = result' at hsame ⊢
  cases hsame with
  | @entries entries _ _ => exact ⟨.ok entries.toList, rfl, rfl⟩
  | @fault fault _ _ => exact ⟨.error fault, rfl, rfl⟩

/-- The document with the one line `k="v"` and its ending, read byte by byte and at once. -/
theorem read_independent_of_cuts_of_slices :
    let doc : List UInt8 := [107, 61, 34, 118, 34, 13, 10]
    (⟨16, 4⟩ : Limits).Valid ∧ Serves (⟨doc, some 1⟩ : Slice) doc ∧
      Serves (⟨doc, none⟩ : Slice) doc ∧
      ∃ b c, Buffer.start ⟨16, 4⟩ .lfOrCrlf "doc" (⟨doc, some 1⟩ : Slice) = .ok b ∧
        Buffer.start ⟨16, 4⟩ .lfOrCrlf "doc" (⟨doc, none⟩ : Slice) = .ok c ∧
        answerOf (read b) = answerOf (read c) := by
  intro doc
  have hvalid : (⟨16, 4⟩ : Limits).Valid := by decide
  have hbytewise : Serves (⟨doc, some 1⟩ : Slice) doc := serves_slice (by decide)
  have hwhole : Serves (⟨doc, none⟩ : Slice) doc := serves_slice (by decide)
  obtain ⟨b, c, hb, hc, answer, hanswer, hanswer'⟩ :=
    read_independent_of_cuts hvalid "doc" hbytewise hwhole
  exact ⟨hvalid, hbytewise, hwhole, b, c, hb, hc, hanswer.trans hanswer'.symm⟩

end Lookahead.Entries
