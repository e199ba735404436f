import Lookahead.Proofs.Serving
import Mathlib.Data.List.Find

/-!
# Line endings and short reads

A line ending is looked for with one pull, in what the window then holds. Over a source that serves
data that is as good as looking at all the data ahead, but for one case: the window held nothing,
and the pull brought a carriage return and left the line feed behind it. Then a policy under which
the two make one line ending sees the carriage return alone, and misses the ending or cuts it in
two. Nothing else about how the reads are split shows.
-/

namespace Lookahead

variable {σ : Type}

namespace LineEnding

/-! ## What a policy looks at -/

/-- A carriage return with its line feed. -/
def pair : List UInt8 :=
  [carriageReturn, lineFeed]

theorem length_le_maxWidth {policy : LineEnding} {ending : List UInt8}
    (h : ending ∈ policy.terminators) : ending.length ≤ policy.maxWidth := by
  have hall : ∀ ending ∈ policy.terminators, ending.length ≤ policy.maxWidth := by
    cases policy <;> decide
  exact hall ending h

theorem eq_singleton_or_pair {policy : LineEnding} {ending : List UInt8}
    (h : ending ∈ policy.terminators) : (∃ byte, ending = [byte]) ∨ ending = pair := by
  have hall : ∀ ending ∈ policy.terminators, ending.length = 1 ∨ ending = pair := by
    cases policy <;> decide
  rcases hall ending h with hone | hpair
  · exact .inl (List.length_eq_one_iff.mp hone)
  · exact .inr hpair

/-- Two inputs that begin with the same line endings are matched alike. -/
theorem match?_congr {policy : LineEnding} {bytes others : List UInt8}
    (h : ∀ ending ∈ policy.terminators, ending <+: bytes ↔ ending <+: others) :
    policy.match? bytes = policy.match? others := by
  unfold match?
  congr 1
  refine List.find?_congr fun ending hmem => ?_
  rw [Bool.eq_iff_iff, List.isPrefixOf_iff_prefix, List.isPrefixOf_iff_prefix]
  exact h ending hmem

theorem match?_take (policy : LineEnding) (bytes : List UInt8) :
    policy.match? (bytes.take policy.maxWidth) = policy.match? bytes := by
  refine match?_congr fun ending hmem => ?_
  rw [List.prefix_take_iff]
  exact and_iff_left (length_le_maxWidth hmem)

/-- A match is the longest there is. -/
theorem length_le_of_match? {policy : LineEnding} {bytes ending : List UInt8} {width : Nat}
    (h : policy.match? bytes = some width) (hmem : ending ∈ policy.terminators)
    (hbegins : ending <+: bytes) : ending.length ≤ width := by
  have hsorted :
      policy.terminators.Pairwise (fun first second => second.length ≤ first.length) := by
    cases policy <;> decide
  obtain ⟨found, hfind, rfl⟩ := Option.map_eq_some_iff.mp h
  obtain ⟨-, before, behind, hsplit, hnone⟩ := List.find?_eq_some_iff_append.mp hfind
  rw [hsplit] at hmem hsorted
  obtain ⟨-, hfound, -⟩ := List.pairwise_append.mp hsorted
  rcases List.mem_append.mp hmem with hbefore | hrest
  · have hother := hnone ending hbefore
    rw [List.isPrefixOf_iff_prefix.mpr hbegins] at hother
    cases hother
  · rcases List.mem_cons.mp hrest with rfl | hbehind
    · exact Nat.le_refl _
    · exact (List.pairwise_cons.mp hfound).1 ending hbehind

/-- One byte tells as much as the whole input, unless it is the first of a pair. -/
theorem match?_singleton {policy : LineEnding} {byte : UInt8} {rest : List UInt8}
    (h : pair ∈ policy.terminators → ¬pair <+: byte :: rest) :
    policy.match? [byte] = policy.match? (byte :: rest) := by
  refine match?_congr fun ending hmem => ?_
  rcases eq_singleton_or_pair hmem with ⟨other, rfl⟩ | rfl
  · rw [List.cons_prefix_cons, List.cons_prefix_cons]
    exact and_congr_right fun _ => iff_of_true List.nil_prefix List.nil_prefix
  · refine iff_of_false (fun hshort => ?_) (h hmem)
    have hlength : 2 ≤ 1 := hshort.length_le
    omega

/-- A pair is seen as such, and its first byte never as much. -/
theorem match?_pair {policy : LineEnding} {bytes : List UInt8} (h : pair ∈ policy.terminators)
    (hbegins : pair <+: bytes) :
    policy.match? bytes = some 2 ∧ policy.match? [carriageReturn] ≠ some 2 := by
  obtain ⟨rest, rfl⟩ := hbegins
  have hwhole : policy.match? (pair ++ rest) = policy.match? pair := by
    have hwidth : policy.maxWidth = 2 :=
      Nat.le_antisymm policy.maxWidth_le (length_le_maxWidth h)
    rw [← match?_take, hwidth]
    rfl
  rw [hwhole]
  revert h
  cases policy <;> decide

end LineEnding

namespace Session

open Buffer LineEnding

variable [ByteSource σ] {data : List UInt8} {s : Session σ}

/-! ## Looking for a line ending -/

omit [ByteSource σ] in
/-- The cursor passes the line ending at the front of `bytes`, or stays if there is none. -/
def Passes (bytes : List UInt8) (s : Session σ) (result : Answer × Session σ) : Prop :=
  match s.buffer.lineEnding.match? bytes with
  | some width =>
      result.1 = .flag true ∧ result.2.buffer.place = s.buffer.place.toNextLine width
  | none => result.1 = .flag false ∧ result.2.buffer.mark = s.buffer.mark

/-- A pair is ahead, but the window holds nothing and the pull for it brings one byte. -/
structure Torn (ahead : List UInt8) (s : Session σ) : Prop where
  pair_mem : pair ∈ s.buffer.lineEnding.terminators
  pair_ahead : pair <+: ahead
  window_eq : s.buffer.window = []
  one_pulled : (s.step .consumeLineEnding).2.delivered.length = s.delivered.length + 1

/-- Where a request for the longest line ending fits, it is met. -/
theorem request_met (h : Reads data s.buffer)
    (hfits : s.buffer.offset + s.buffer.lineEnding.maxWidth ≤ s.buffer.capacity) :
    ∃ received c, request s.buffer.lineEnding.maxWidth s.buffer = .ok received c := by
  cases hrequest : request s.buffer.lineEnding.maxWidth s.buffer with
  | ok received c => exact ⟨received, c, rfl⟩
  | error error c =>
      have htooMuch := (h.refused hrequest).too_much
      omega

section

variable {received : Nat} {c : Buffer (Recorded σ)}

theorem step_consumeLineEnding
    (hrequest : request s.buffer.lineEnding.maxWidth s.buffer = .ok received c) :
    s.step .consumeLineEnding = match passLineEnding c with
      | .ok found b => (.flag found, { s with buffer := b })
      | .error error b => (.failed error, { s with buffer := b }) := by
  show s.perform consumeLineEnding .flag .failed = _
  unfold perform
  rw [consumeLineEnding_eq, hrequest]
  simp only
  cases passLineEnding c <;> rfl

/-- The cursor passes what the window shows after the request. -/
theorem passes_of_request
    (hrequest : request s.buffer.lineEnding.maxWidth s.buffer = .ok received c)
    {bytes : List UInt8}
    (hfront : s.buffer.lineEnding.match? (c.front s.buffer.lineEnding.maxWidth)
      = s.buffer.lineEnding.match? bytes) :
    Passes bytes s (s.step .consumeLineEnding) := by
  obtain ⟨pulled, -, hextends⟩ := extends_of_request hrequest
  rw [step_consumeLineEnding hrequest]
  unfold Passes
  rw [← hextends.lineEnding_eq] at hfront ⊢
  cases hmatch : c.lineEnding.match? bytes with
  | none =>
      rw [hmatch] at hfront
      rw [passLineEnding_none hfront]
      exact ⟨rfl, hextends.cursor_eq⟩
  | some width =>
      rw [hmatch] at hfront
      obtain ⟨d, hpass, hplace⟩ := passLineEnding_some hfront
      rw [hpass]
      rw [hextends.place_eq] at hplace
      exact ⟨rfl, hplace⟩

theorem delivered_of_request
    (hrequest : request s.buffer.lineEnding.maxWidth s.buffer = .ok received c) :
    (s.step .consumeLineEnding).2.delivered.length + s.buffer.occupied
      = s.delivered.length + c.occupied := by
  have hdraws := draws_request s.buffer.lineEnding.maxWidth s.buffer
  rw [hrequest] at hdraws
  obtain ⟨pulled, hextends, hdelivered⟩ := hdraws
  have hoccupied := hextends.occupied_eq
  have hmoves := moves_passLineEnding c
  have hsource : (s.step .consumeLineEnding).2.buffer.source = c.source := by
    rw [step_consumeLineEnding hrequest, ← hmoves.source_eq]
    cases passLineEnding c <;> rfl
  unfold delivered
  rw [hsource]
  rw [stateOf_ok] at hdelivered hoccupied
  rw [hdelivered, List.length_append]
  omega

end

/-- Unless a pair is torn, the cursor passes the line ending that the data ahead begins with. -/
theorem passes_ahead (h : Reads data s.buffer)
    (hfits : s.buffer.offset + s.buffer.lineEnding.maxWidth ≤ s.buffer.capacity)
    (hwhole : ¬Torn (data.drop s.buffer.place.byte) s) :
    Passes (data.drop s.buffer.place.byte) s (s.step .consumeLineEnding) := by
  obtain ⟨received, c, hrequest⟩ := request_met h hfits
  refine passes_of_request hrequest ?_
  rcases h.front_requested (maxWidth_le _) hrequest with hfront | ⟨htwo, hnone, hone, hmore⟩
  · rw [hfront, match?_take]
  · have hreads := (h.requested hrequest).reads
    obtain ⟨pulled, -, hextends⟩ := extends_of_request hrequest
    have hfront : c.front 2 = (data.drop s.buffer.place.byte).take 1 := by
      rw [front_eq, hreads.window_eq, hone, hextends.place_eq, List.take_take]
      rfl
    have hcons := List.drop_eq_getElem_cons (Nat.lt_of_succ_lt hmore)
    rw [htwo, hfront, hcons]
    refine match?_singleton fun hpair hbegins => hwhole ⟨hpair, ?_, ?_, ?_⟩
    · rw [hcons]
      exact hbegins
    · exact List.eq_nil_of_length_eq_zero (by rw [window_length, hnone])
    · have hdelivered := delivered_of_request hrequest
      omega

/-- A torn pair is taken for a carriage return alone. -/
theorem passes_torn (h : Reads data s.buffer)
    (hfits : s.buffer.offset + s.buffer.lineEnding.maxWidth ≤ s.buffer.capacity)
    (htorn : Torn (data.drop s.buffer.place.byte) s) :
    Passes [carriageReturn] s (s.step .consumeLineEnding) := by
  obtain ⟨received, c, hrequest⟩ := request_met h hfits
  obtain ⟨hpair, ⟨rest, hahead⟩, hwindow, hone⟩ := htorn
  have hreads := (h.requested hrequest).reads
  obtain ⟨pulled, -, hextends⟩ := extends_of_request hrequest
  have hdelivered := delivered_of_request hrequest
  have hnone : s.buffer.occupied = 0 := by
    rw [← window_length, hwindow]
    rfl
  have hoccupied : c.occupied = 1 := by omega
  have hwidth : s.buffer.lineEnding.maxWidth = 2 :=
    Nat.le_antisymm (maxWidth_le _) (length_le_maxWidth hpair)
  refine passes_of_request hrequest ?_
  rw [hwidth, front_eq, hreads.window_eq, hoccupied, hextends.place_eq, ← hahead]
  rfl

omit [ByteSource σ] in
/-- The cursor does not pass two different things at once. -/
theorem Passes.match?_eq {bytes others : List UInt8} {result : Answer × Session σ}
    (h : Passes bytes s result) (h' : Passes others s result) :
    s.buffer.lineEnding.match? bytes = s.buffer.lineEnding.match? others := by
  unfold Passes at h h'
  cases hbytes : s.buffer.lineEnding.match? bytes with
  | none =>
      rw [hbytes] at h
      cases hothers : s.buffer.lineEnding.match? others with
      | none => rfl
      | some width =>
          rw [hothers] at h'
          cases h.1.symm.trans h'.1
  | some width =>
      rw [hbytes] at h
      cases hothers : s.buffer.lineEnding.match? others with
      | none =>
          rw [hothers] at h'
          cases h.1.symm.trans h'.1
      | some other =>
          rw [hothers] at h'
          have hbyte := congrArg Place.byte (h.2.symm.trans h'.2)
          rw [Place.toNextLine_byte, Place.toNextLine_byte] at hbyte
          rw [Nat.add_left_cancel hbyte]

theorem window_append_undelivered (h : Reads data s.buffer) (hfaithful : Faithful s.buffer) :
    s.buffer.window ++ data.drop s.delivered.length = data.drop s.buffer.place.byte := by
  have hbyte := s.buffer.base_add_offset
  have hfilled := s.buffer.offset_add_occupied
  have hstop : s.delivered.length = s.buffer.place.byte + s.buffer.occupied := by
    rw [← (mirrors_delivered hfaithful).stop_eq, stop]
    omega
  rw [h.window_eq, hstop, ← List.drop_drop, List.take_append_drop]

/-- **Short reads show in line endings in one case only.** Over a source that serves data, wherever
the longest line ending fits, the cursor passes the longest line ending that all the data ahead
begins with, and stays if it begins with none, unless a pair is torn: then it passes what a carriage
return alone is, which is something else. -/
theorem lineEnding_passed {limits : Limits} (valid : limits.Valid) (lineEnding : LineEnding)
    (label : String) {source : σ} (h : Serves source data) :
    ∃ fresh, start limits lineEnding label source = .ok fresh ∧ ∀ ops,
      let s := (fresh.play ops).2
      let ahead := s.buffer.window ++ data.drop s.delivered.length
      s.buffer.offset + lineEnding.maxWidth ≤ s.buffer.capacity →
        (¬Torn ahead s → Passes ahead s (s.step .consumeLineEnding) ∧
          ∀ width, lineEnding.match? ahead = some width →
            ∀ ending ∈ lineEnding.terminators, ending <+: ahead → ending.length ≤ width) ∧
        (Torn ahead s → Passes [carriageReturn] s (s.step .consumeLineEnding) ∧
          ¬Passes ahead s (s.step .consumeLineEnding)) := by
  refine ⟨_, start_ok valid lineEnding label source, fun ops => ?_⟩
  intro s ahead hfits
  obtain ⟨hreads, hfaithful, hpolicy⟩ := play_induction
    (P := fun s => Reads data s.buffer ∧ Faithful s.buffer ∧ s.buffer.lineEnding = lineEnding)
    (fun op s h => ⟨(lasting_reads data).step op s h.1, faithful_step op s h.2.1,
      (lineEnding_step op s).trans h.2.2⟩) ops
    (s := { buffer := ofLimits limits lineEnding label ⟨source, #[]⟩ })
    ⟨reads_ofLimits valid lineEnding label (serves_recorded h #[]),
      faithful_start limits lineEnding label source, rfl⟩
  have hahead : ahead = data.drop s.buffer.place.byte := window_append_undelivered hreads hfaithful
  rw [hahead]
  rw [← hpolicy] at hfits
  constructor
  · intro hwhole
    refine ⟨passes_ahead hreads hfits hwhole, fun width hmatch ending hmem hbegins => ?_⟩
    exact length_le_of_match? hmatch hmem hbegins
  · intro htorn
    have htornPassed := passes_torn hreads hfits htorn
    obtain ⟨hpair, halone⟩ := match?_pair htorn.pair_mem htorn.pair_ahead
    refine ⟨htornPassed, fun hpassed => ?_⟩
    rw [htornPassed.match?_eq hpassed, hpair] at halone
    exact halone rfl

/-- A pair that is read byte by byte: whole once its first byte is in the window, torn before. -/
theorem lineEnding_passed_of_slice :
    (⟨4, 4⟩ : Limits).Valid ∧ Serves (⟨[13, 10], some 1⟩ : Slice) [13, 10] ∧
      ∃ fresh, start ⟨4, 4⟩ .lfOrCrlf "input" (⟨[13, 10], some 1⟩ : Slice) = .ok fresh ∧
        Passes [13, 10] (fresh.step (.ensure 1)).2
          ((fresh.step (.ensure 1)).2.step .consumeLineEnding) ∧
        Passes [13] fresh (fresh.step .consumeLineEnding) := by
  have hvalid : (⟨4, 4⟩ : Limits).Valid := by decide
  have hserves : Serves (⟨[13, 10], some 1⟩ : Slice) [13, 10] := serves_slice (by decide)
  obtain ⟨fresh, hstart, hpassed⟩ := lineEnding_passed hvalid .lfOrCrlf "input" hserves
  refine ⟨hvalid, hserves, fresh, hstart, ?_⟩
  obtain rfl := Except.ok.inj ((start_ok hvalid .lfOrCrlf "input" _).symm.trans hstart)
  constructor
  · obtain ⟨hwhole, -⟩ := hpassed [.ensure 1] (by decide)
    refine (hwhole fun htorn => ?_).1
    exact absurd htorn.window_eq (by decide)
  · obtain ⟨-, htorn⟩ := hpassed [] (by decide)
    exact (htorn ⟨by decide, List.prefix_rfl, rfl, by decide⟩).1

/-- A pair whose bytes come one by one is missed, although it is all that is ahead. -/
theorem lineEnding_missed :
    Serves (⟨[13, 10], some 1⟩ : Slice) [13, 10] ∧
      ∃ fresh, start ⟨4, 4⟩ .lfOrCrlf "input" (⟨[13, 10], some 1⟩ : Slice) = .ok fresh ∧
        fresh.buffer.offset + LineEnding.lfOrCrlf.maxWidth ≤ fresh.buffer.capacity ∧
        fresh.buffer.window ++ [13, 10].drop fresh.delivered.length = [13, 10] ∧
        LineEnding.lfOrCrlf.match? [13, 10] = some 2 ∧
        (fresh.step .consumeLineEnding).1 = .flag false :=
  ⟨serves_slice (by decide), _, rfl, by decide, rfl, rfl, rfl⟩

end Session

end Lookahead
