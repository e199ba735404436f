import Lookahead.Proofs.Pinning
import Lookahead.Proofs.Serving
import Lookahead.Proofs.Units

/-!
# Scanning along a line

A scan that stays on a line, over a buffer that reads a document, and a parsing expression over the
rest of the document make the same of it: `Shows` says that a result of the one is the verdict of
the other. The rules for sequence, choice, repetition and attempt carry it from the parts to the
whole. The one way out is a request that does not fit, and then the line is too long for the limits:
the cursor never stands more than a chunk and the line so far behind the front of the buffer.
-/

namespace Lookahead

variable {σ : Type}

/-- The bytes could stand on one line. -/
def Inline (bytes : List UInt8) : Prop :=
  ∀ byte ∈ bytes, byte ≠ lineFeed ∧ byte ≠ carriageReturn

/-- A stretch of a line, with two bytes more, is longer than the longest lookahead. -/
def Cramped (maximum : Nat) (doc : List UInt8) : Prop :=
  ∃ run, run <:+: doc ∧ Inline run ∧ maximum < run.length + 2

namespace Scan

open Buffer

def ahead (doc : List UInt8) (b : Buffer σ) : List UInt8 :=
  doc.drop b.place.byte

variable [ByteSource σ] {doc : List UInt8} {start : Nat} {b c d : Buffer σ}

/-! ## Buffers on a line -/

/-- The buffer stands on the line that starts at `start`, and that start is no more than a chunk
behind the front. -/
structure OnLine (doc : List UInt8) (start : Nat) (b : Buffer σ) : Prop where
  reads : Reads doc b
  lineEnding_eq : b.lineEnding = .lfOrCrlf
  base_le : b.base ≤ start
  le_chunk : start ≤ b.base + b.limits.chunk
  start_le : start ≤ b.place.byte
  place_eq : b.place = .behind lineFeed (doc.take b.place.byte)
  inline : Inline ((doc.drop start).take (b.place.byte - start))

/-- The second buffer is the first with its cursor further on and with more of the document. -/
structure Stays (doc : List UInt8) (b c : Buffer σ) : Prop where
  reads : Reads doc c
  limits_eq : c.limits = b.limits
  lineEnding_eq : c.lineEnding = b.lineEnding
  label_eq : c.label = b.label
  base_eq : c.base = b.base
  pin_eq : c.pin = b.pin
  stop_le : b.stop ≤ c.stop
  byte_le : b.place.byte ≤ c.place.byte

namespace Stays

theorem refl (h : Reads doc b) : Stays doc b b :=
  ⟨h, rfl, rfl, rfl, rfl, rfl, Nat.le_refl _, Nat.le_refl _⟩

theorem trans (h : Stays doc b c) (h' : Stays doc c d) : Stays doc b d where
  reads := h'.reads
  limits_eq := h'.limits_eq.trans h.limits_eq
  lineEnding_eq := h'.lineEnding_eq.trans h.lineEnding_eq
  label_eq := h'.label_eq.trans h.label_eq
  base_eq := h'.base_eq.trans h.base_eq
  pin_eq := h'.pin_eq.trans h.pin_eq
  stop_le := Nat.le_trans h.stop_le h'.stop_le
  byte_le := Nat.le_trans h.byte_le h'.byte_le

theorem of_extends {bytes : List UInt8} (h : Reads doc c) (hextends : Extends b c bytes) :
    Stays doc b c where
  reads := h
  limits_eq := hextends.limits_eq
  lineEnding_eq := hextends.lineEnding_eq
  label_eq := hextends.label_eq
  base_eq := hextends.base_eq
  pin_eq := hextends.pin_eq
  stop_le := by
    rw [hextends.stop_eq]
    exact Nat.le_add_right _ _
  byte_le := Nat.le_of_eq (congrArg Place.byte hextends.place_eq.symm)

theorem of_moves (h : Reads doc b) (hmoves : Moves b c) (hbyte : b.place.byte ≤ c.place.byte) :
    Stays doc b c where
  reads := h.of_moves hmoves
  limits_eq := hmoves.limits_eq
  lineEnding_eq := hmoves.lineEnding_eq
  label_eq := hmoves.label_eq
  base_eq := hmoves.base_eq
  pin_eq := hmoves.pin_eq
  stop_le := Nat.le_of_eq hmoves.stop_eq.symm
  byte_le := hbyte

end Stays

theorem byte_le_length (h : Reads doc b) : b.place.byte ≤ doc.length :=
  Nat.le_trans b.byte_le_stop h.stop_le

omit [ByteSource σ] in
theorem ahead_length (doc : List UInt8) (b : Buffer σ) :
    (ahead doc b).length = doc.length - b.place.byte :=
  List.length_drop

theorem consumed_ahead (h : Reads doc b) :
    Grammar.consumed doc (ahead doc b) = doc.take b.place.byte := by
  have hle := byte_le_length h
  unfold Grammar.consumed
  rw [ahead_length]
  congr 1
  omega

namespace OnLine

theorem of_stays (h : OnLine doc start b) (hstays : Stays doc b c) (hplace : c.place = b.place) :
    OnLine doc start c where
  reads := hstays.reads
  lineEnding_eq := hstays.lineEnding_eq.trans h.lineEnding_eq
  base_le := by
    rw [hstays.base_eq]
    exact h.base_le
  le_chunk := by
    rw [hstays.base_eq, hstays.limits_eq]
    exact h.le_chunk
  start_le := by
    rw [hplace]
    exact h.start_le
  place_eq := by
    rw [hplace]
    exact h.place_eq
  inline := by
    rw [hplace]
    exact h.inline

/-- A request for two bytes at most that does not fit tells of a line that is too long. -/
theorem cramped (h : OnLine doc start b) {amount : Nat} {error : BufferError} (hamount : amount ≤ 2)
    (hrefused : Refused amount b c error) : Cramped b.limits.maximum doc := by
  have hbyte := b.base_add_offset
  have hle := byte_le_length h.reads
  have hchunk := h.le_chunk
  have hstart := h.start_le
  have htooMuch := hrefused.too_much
  rw [b.capacity_eq] at htooMuch
  unfold Limits.capacity at htooMuch
  -- The stretch from the start of the line to the cursor is the one that is too long.
  refine ⟨(doc.drop start).take (b.place.byte - start), ?_, h.inline, ?_⟩
  · exact List.infix_iff_prefix_suffix.mpr
      ⟨doc.drop start, List.take_prefix _ _, List.drop_suffix _ _⟩
  · rw [List.length_take, List.length_drop]
    omega

/-- One byte on, if it does not end the line. -/
theorem alongLine (h : OnLine doc start b) (hstays : Stays doc b c) {byte : UInt8}
    {rest : List UInt8} (hahead : ahead doc b = byte :: rest)
    (hbyte : byte ≠ lineFeed ∧ byte ≠ carriageReturn) (hplace : c.place = b.place.alongLine 1) :
    OnLine doc start c ∧ ahead doc c = rest := by
  have hnext : c.place.byte = b.place.byte + 1 := by rw [hplace, Place.alongLine_byte]
  have htake : doc.take (b.place.byte + 1) = doc.take b.place.byte ++ [byte] := by
    have hhead : (doc.drop b.place.byte).take 1 = [byte] := by
      show (ahead doc b).take 1 = [byte]
      rw [hahead]
      rfl
    rw [List.take_add, hhead]
  have hstart := h.start_le
  refine ⟨⟨hstays.reads, hstays.lineEnding_eq.trans h.lineEnding_eq, ?_, ?_, ?_, ?_, ?_⟩, ?_⟩
  · rw [hstays.base_eq]
    exact h.base_le
  · rw [hstays.base_eq, hstays.limits_eq]
    exact h.le_chunk
  · omega
  · rw [hnext, htake, Place.behind_concat, ← h.place_eq, hplace]
    unfold Place.step
    rw [if_neg hbyte.1]
    rfl
  · have hmore : (doc.drop start).take (b.place.byte + 1 - start)
        = (doc.drop start).take (b.place.byte - start) ++ [byte] := by
      have hhead : ((doc.drop start).drop (b.place.byte - start)).take 1 = [byte] := by
        rw [List.drop_drop, Nat.add_sub_cancel' hstart]
        show (ahead doc b).take 1 = [byte]
        rw [hahead]
        rfl
      rw [Nat.sub_add_comm hstart, List.take_add, hhead]
    rw [hnext, hmore]
    intro other hmem
    rcases List.mem_append.mp hmem with hbefore | hlast
    · exact h.inline other hbefore
    · rw [List.mem_singleton.mp hlast]
      exact hbyte
  · show doc.drop c.place.byte = rest
    rw [hnext, ← List.drop_drop]
    show (ahead doc b).drop 1 = rest
    rw [hahead]
    rfl

end OnLine

/-! ## Results and verdicts -/

/-- A result of a scan from `b` is the verdict of an expression on what lies ahead of `b`. What the
scan answers, and where, is related to the value of the expression by `R`. -/
inductive Shows {α β : Type} (doc : List UInt8) (b : Buffer σ)
    (R : α → Option β → Buffer σ → Prop) :
    Verdict β → EStateM.Result Fault (Buffer σ) α → Prop where
  | matched {a : α} {value : β} {c : Buffer σ} (stays : Stays doc b c)
      (related : R a (some value) c) : Shows doc b R (.matched value (ahead doc c)) (.ok a c)
  | mismatch {a : α} {c : Buffer σ} (stays : Stays doc b c) (related : R a none c) :
      Shows doc b R .mismatch (.ok a c)
  | aborted {unit : Nat} {left : List UInt8} {c : Buffer σ} (stays : Stays doc b c) :
      Shows doc b R (.aborted unit left)
        (.error (.escape ⟨.invalidCodePoint (UInt32.ofNat unit),
          .behind lineFeed (Grammar.consumed doc left)⟩) c)
  | overflow {verdict : Verdict β} {requested capacity : Nat} {c : Buffer σ} (stays : Stays doc b c)
      (cramped : Cramped b.limits.maximum doc) :
      Shows doc b R verdict (.error (.buffer (.overflow requested capacity)) c)

namespace Shows

variable {α β γ δ : Type} {R : α → Option β → Buffer σ → Prop}
  {verdict : Verdict β} {result : EStateM.Result Fault (Buffer σ) α}

theorem of_stays (h : Shows doc c R verdict result) (hstays : Stays doc b c) :
    Shows doc b R verdict result := by
  cases h with
  | matched hfurther hrelated => exact .matched (hstays.trans hfurther) hrelated
  | mismatch hfurther hrelated => exact .mismatch (hstays.trans hfurther) hrelated
  | aborted hfurther => exact .aborted (hstays.trans hfurther)
  | overflow hfurther hcramped =>
      rw [hstays.limits_eq] at hcramped
      exact .overflow (hstays.trans hfurther) hcramped

theorem mono {R' : α → Option β → Buffer σ → Prop} (h : Shows doc b R verdict result)
    (hR : ∀ a value c, Stays doc b c → R a value c → R' a value c) :
    Shows doc b R' verdict result := by
  cases h with
  | matched hstays hrelated => exact .matched hstays (hR _ _ _ hstays hrelated)
  | mismatch hstays hrelated => exact .mismatch hstays (hR _ _ _ hstays hrelated)
  | aborted hstays => exact .aborted hstays
  | overflow hstays hcramped => exact .overflow hstays hcramped

theorem map {f : β → δ} {R' : α → Option δ → Buffer σ → Prop} (h : Shows doc b R verdict result)
    (hR : ∀ a value c, R a value c → R' a (value.map f) c) :
    Shows doc b R' (verdict.map f) result := by
  cases h with
  | matched hstays hrelated => exact .matched hstays (hR _ _ _ hrelated)
  | mismatch hstays hrelated => exact .mismatch hstays (hR _ _ _ hrelated)
  | aborted hstays => exact .aborted hstays
  | overflow hstays hcramped => exact .overflow hstays hcramped

/-- A scan that goes on with `next` shows an expression that goes on with `N`. -/
theorem bind {scan : Scan σ α} {next : α → Scan σ γ} {P : Peg β} {N : β → Peg δ}
    {R' : γ → Option δ → Buffer σ → Prop} (first : Shows doc b R (P (ahead doc b)) (scan b))
    (onMatch : ∀ a value c, Stays doc b c → R a (some value) c → scan b = .ok a c →
      Shows doc c R' (N value (ahead doc c)) (next a c))
    (onMismatch : ∀ a c, Stays doc b c → R a none c → Shows doc c R' .mismatch (next a c)) :
    Shows doc b R' ((P >>= N) (ahead doc b)) ((scan >>= next) b) := by
  rw [bind_apply]
  generalize hverdict : P (ahead doc b) = verdict at first
  generalize hresult : scan b = result at first
  cases first with
  | matched hstays hrelated =>
      rw [Peg.bind_matched hverdict]
      exact (onMatch _ _ _ hstays hrelated hresult).of_stays hstays
  | mismatch hstays hrelated =>
      rw [Peg.bind_mismatch hverdict]
      exact (onMismatch _ _ hstays hrelated).of_stays hstays
  | aborted hstays =>
      rw [Peg.bind_aborted hverdict]
      exact .aborted hstays
  | overflow hstays hcramped => exact .overflow hstays hcramped

/-- A scan that tries something else from the same place shows a choice. -/
theorem orElse {scan : Scan σ α} {next : α → Scan σ γ} {P Q : Peg β}
    {R' : γ → Option β → Buffer σ → Prop} (first : Shows doc b R (P (ahead doc b)) (scan b))
    (onMatch : ∀ a value c, Stays doc b c → R a (some value) c →
      P (ahead doc b) = .matched value (ahead doc c) →
      Shows doc c R' (.matched value (ahead doc c)) (next a c))
    (onMismatch : ∀ a c, Stays doc b c → R a none c →
      P (ahead doc b) = .mismatch → Shows doc c R' (Q (ahead doc b)) (next a c)) :
    Shows doc b R' (P.orElse Q (ahead doc b)) ((scan >>= next) b) := by
  rw [bind_apply]
  generalize hverdict : P (ahead doc b) = verdict at first
  generalize scan b = result at first
  cases first with
  | matched hstays hrelated =>
      rw [Peg.orElse_matched hverdict]
      exact (onMatch _ _ _ hstays hrelated hverdict).of_stays hstays
  | mismatch hstays hrelated =>
      rw [Peg.orElse_mismatch hverdict]
      exact (onMismatch _ _ hstays hrelated hverdict).of_stays hstays
  | aborted hstays =>
      rw [Peg.orElse_aborted hverdict]
      exact .aborted hstays
  | overflow hstays hcramped => exact .overflow hstays hcramped

end Shows

end Scan

end Lookahead
