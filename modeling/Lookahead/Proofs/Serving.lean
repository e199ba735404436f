import Lookahead.Proofs.Fidelity
import Lookahead.Source.Slice

/-!
# Reading data to its end

A source that serves data hands its bytes over in order, split in whatever way, and none only once
there are none left. Over such a source no pull fails, so a request can only meet its bound, and
`fill` comes back short only at the end of the data.
-/

namespace Lookahead

variable {σ : Type}

/-! ## Sources that serve data -/

/-- Source states, each with the bytes it has left: a pull into some room hands over the next of
them, and none only if there are none. -/
structure Serving [ByteSource σ] (left : σ → List UInt8 → Prop) : Prop where
  pull {source : σ} {rest : List UInt8} {room : Nat} (holds : left source rest)
    (some_room : 0 < room) :
    ∃ bytes fits others, (ByteSource.pull source room).1 = .delivered bytes fits ∧
      rest = bytes ++ others ∧ left (ByteSource.pull source room).2 others ∧
      (bytes = [] → rest = [])

/-- The source hands over `data` and nothing else, however it is pulled. -/
def Serves [ByteSource σ] (source : σ) (data : List UInt8) : Prop :=
  ∃ left, Serving left ∧ left source data

theorem Serves.pull [ByteSource σ] {source : σ} {data : List UInt8} (h : Serves source data)
    {room : Nat} (hroom : 0 < room) :
    ∃ bytes fits others, (ByteSource.pull source room).1 = .delivered bytes fits ∧
      data = bytes ++ others ∧ Serves (ByteSource.pull source room).2 others ∧
      (bytes = [] → data = []) := by
  obtain ⟨left, hserving, hdata⟩ := h
  obtain ⟨bytes, fits, others, hreply, hsplit, hleft, hend⟩ := hserving.pull hdata hroom
  exact ⟨bytes, fits, others, hreply, hsplit, ⟨left, hserving, hleft⟩, hend⟩

theorem serves_slice {slice : Slice} (hmost : slice.most ≠ some 0) :
    Serves slice slice.remaining := by
  refine ⟨fun s rest => s.remaining = rest ∧ s.most ≠ some 0, ⟨?_⟩, rfl, hmost⟩
  rintro s rest room ⟨rfl, hmost⟩ hroom
  have hallowance : 0 < s.allowance room := Slice.allowance_pos hmost hroom
  refine ⟨_, _, _, rfl, (List.take_append_drop _ _).symm, ⟨rfl, hmost⟩, ?_⟩
  intro hnone
  rcases List.take_eq_nil_iff.mp hnone with hzero | hnil
  · omega
  · exact hnil

theorem serves_recorded [ByteSource σ] {source : σ} {data : List UInt8} (h : Serves source data)
    (history : Array Pulled) : Serves (⟨source, history⟩ : Recorded σ) data := by
  refine ⟨fun recorded rest => Serves recorded.source rest, ⟨?_⟩, h⟩
  intro recorded rest room hserves hroom
  exact hserves.pull hroom

namespace Buffer

variable [ByteSource σ]

/-! ## Buffers over such sources -/

/-- The buffer reads `data`: it has taken in the first bytes of it, its source serves the rest. -/
structure Reads (data : List UInt8) (b : Buffer σ) : Prop where
  chunk_pos : 0 < b.limits.chunk
  mirrors : Mirrors b (data.take b.stop)
  serves : Serves b.source (data.drop b.stop)

variable {b c : Buffer σ} {data : List UInt8} {amount received : Nat}

theorem reads_ofLimits {limits : Limits} (valid : limits.Valid) (lineEnding : LineEnding)
    (label : String) {source : σ} (h : Serves source data) :
    Reads data (ofLimits limits lineEnding label source) where
  chunk_pos := valid.1
  mirrors := ⟨rfl, rfl⟩
  serves := h

namespace Reads

theorem stop_le (h : Reads data b) : b.stop ≤ data.length := by
  have hstop := h.mirrors.stop_eq
  rw [List.length_take] at hstop
  omega

theorem window_eq (h : Reads data b) : b.window = (data.drop b.place.byte).take b.occupied := by
  have hfilled := b.offset_add_occupied
  have hbyte := b.base_add_offset
  have hstop : b.stop = b.place.byte + b.occupied := by
    unfold stop
    omega
  rw [h.mirrors.window_eq, hstop, List.drop_take, Nat.add_sub_cancel_left]

theorem of_extends (h : Reads data b) {bytes others : List UInt8} (hextends : Extends b c bytes)
    (hrest : data.drop b.stop = bytes ++ others) (hserves : Serves c.source others) :
    Reads data c := by
  have htake : (data.drop b.stop).take bytes.length = bytes := by rw [hrest, List.take_left]
  have hdrop : (data.drop b.stop).drop bytes.length = others := by rw [hrest, List.drop_left]
  constructor
  · rw [hextends.limits_eq]
    exact h.chunk_pos
  · rw [hextends.stop_eq, List.take_add, htake]
    exact h.mirrors.of_extends hextends
  · rw [hextends.stop_eq, ← List.drop_drop, hdrop]
    exact hserves

theorem of_same (h : Reads data b) (hlimits : c.limits = b.limits) (hbase : c.base = b.base)
    (hretained : c.retained = b.retained) (hsource : c.source = b.source) : Reads data c := by
  have hstop : c.stop = b.stop := by
    rw [stop, stop, hbase, ← c.retained_length, hretained, b.retained_length]
  constructor
  · rw [hlimits]
    exact h.chunk_pos
  · rw [hstop]
    constructor
    · rw [hstop]
      exact h.mirrors.stop_eq
    · rw [hretained, hbase]
      exact h.mirrors.retained_eq
  · rw [hstop, hsource]
    exact h.serves

theorem of_moves (h : Reads data b) (hmoves : Moves b c) : Reads data c :=
  h.of_same hmoves.limits_eq hmoves.base_eq hmoves.retained_eq hmoves.source_eq

theorem of_drops (h : Reads data b) {count : Nat} (hdrops : Drops b c count) : Reads data c := by
  constructor
  · rw [hdrops.limits_eq]
    exact h.chunk_pos
  · rw [hdrops.stop_eq]
    exact h.mirrors.of_drops hdrops
  · rw [hdrops.stop_eq, hdrops.source_eq]
    exact h.serves

end Reads

/-! ## Requests -/

omit [ByteSource σ] in
/-- A pull for more than the window holds, where it fits, asks for at least one byte. -/
theorem want_pos (hchunk : 0 < b.limits.chunk) (hmore : b.occupied < amount)
    (hfits : b.offset + amount ≤ b.capacity) : 0 < b.want amount := by
  have hfilled := b.offset_add_occupied
  unfold want free
  omega

/-- What a request that is met leaves: more of the data in the window, unless that was all of it or
enough was there before. -/
structure Requested (data : List UInt8) (amount : Nat) (b c : Buffer σ) (received : Nat) :
    Prop where
  reads : Reads data c
  extends_by : ∃ bytes : List UInt8, bytes.length = received ∧ Extends b c bytes
  of_none : received = 0 → amount ≤ c.occupied ∨ c.stop = data.length

theorem Reads.requested (h : Reads data b) (hrequest : request amount b = .ok received c) :
    Requested data amount b c received := by
  unfold request at hrequest
  split at hrequest
  case isTrue hwithin =>
    cases hrequest
    exact ⟨h, ⟨[], rfl, .refl b⟩, fun _ => .inl hwithin⟩
  case isFalse hmore =>
    split at hrequest
    case isTrue => cases hrequest
    case isFalse hfits =>
      have hroom := want_pos h.chunk_pos (Nat.lt_of_not_le hmore) (Nat.le_of_not_lt hfits)
      obtain ⟨bytes, fits, others, hreply, hsplit, hserves, hend⟩ := h.serves.pull hroom
      unfold pull at hrequest
      obtain ⟨hreceived, hextends, hsource, -⟩ := settle_ok hrequest
      have hbytes : (ByteSource.pull b.source (b.want amount)).1.bytes = bytes := by
        rw [hreply]
        rfl
      rw [hbytes] at hreceived hextends
      refine ⟨h.of_extends hextends hsplit (by rw [hsource]; exact hserves),
        ⟨bytes, hreceived.symm, hextends⟩, fun hzero => .inr ?_⟩
      have hnone := hend (List.eq_nil_of_length_eq_zero (hreceived.symm.trans hzero))
      have hlength := congrArg List.length hnone
      rw [List.length_drop, List.length_nil] at hlength
      have hstop := h.stop_le
      rw [hextends.stop_eq, ← hreceived, hzero]
      omega

/-- A request over a source that serves data fails for one reason only: it could never fit. -/
structure Refused (amount : Nat) (b c : Buffer σ) (error : BufferError) : Prop where
  error_eq : error = .overflow amount b.capacity
  more : b.occupied < amount
  too_much : b.capacity < b.offset + amount
  extends_none : Extends b c []
  source_eq : c.source = b.source

theorem Reads.refused (h : Reads data b) {error : BufferError}
    (hrequest : request amount b = .error error c) : Refused amount b c error := by
  unfold request at hrequest
  split at hrequest
  case isTrue => cases hrequest
  case isFalse hmore =>
    split at hrequest
    case isTrue htooMuch =>
      cases hrequest
      exact ⟨rfl, Nat.lt_of_not_le hmore, htooMuch, { Extends.refl b with }, rfl⟩
    case isFalse hfits =>
      have hroom := want_pos h.chunk_pos (Nat.lt_of_not_le hmore) (Nat.le_of_not_lt hfits)
      obtain ⟨bytes, fits, others, hreply, -⟩ := h.serves.pull hroom
      unfold pull at hrequest
      simp only [hreply] at hrequest
      cases hrequest

theorem Refused.reads {error : BufferError} (hrefused : Refused amount b c error)
    (h : Reads data b) : Reads data c := by
  have hsame := hrefused.extends_none
  refine h.of_same hsame.limits_eq hsame.base_eq ?_ hrefused.source_eq
  rw [hsame.retained_eq, List.append_nil]

theorem Reads.of_request (h : Reads data b) (amount : Nat) :
    Reads data (stateOf (request amount b)) := by
  cases hrequest : request amount b with
  | ok received c => exact (h.requested hrequest).reads
  | error error c => exact (h.refused hrequest).reads h

/-- A request for two bytes at most shows what the data holds there, unless the window held none and
the one pull brought one of two. -/
theorem Reads.front_requested (h : Reads data b) (hamount : amount ≤ 2)
    (hrequest : request amount b = .ok received c) :
    c.front amount = (data.drop b.place.byte).take amount ∨
      amount = 2 ∧ b.occupied = 0 ∧ c.occupied = 1 ∧ b.place.byte + 1 < data.length := by
  obtain ⟨hreads, ⟨bytes, hlength, hextends⟩, hnone⟩ := h.requested hrequest
  have hoccupied := hextends.occupied_eq
  have hfront : c.front amount = (data.drop b.place.byte).take (min amount c.occupied) := by
    rw [front_eq, hreads.window_eq, List.take_take, hextends.place_eq]
  by_cases henough : amount ≤ c.occupied
  · rw [Nat.min_eq_left henough] at hfront
    exact .inl hfront
  · have hbyte := c.base_add_offset
    have hfilled := c.offset_add_occupied
    have hstop := hreads.stop_le
    rw [hextends.place_eq] at hbyte
    by_cases hend : c.stop = data.length
    · -- The window holds all that is left.
      unfold stop at hend
      have hrest : (data.drop b.place.byte).length ≤ min amount c.occupied := by
        rw [List.length_drop]
        omega
      rw [List.take_of_length_le hrest] at hfront
      rw [List.take_of_length_le (Nat.le_trans hrest (Nat.min_le_left _ _))]
      exact .inl hfront
    · have hsome : received ≠ 0 := by
        intro hzero
        rcases hnone hzero with hsome | hall
        · exact henough hsome
        · exact hend hall
      unfold stop at hstop hend
      refine .inr ⟨?_, ?_, ?_, ?_⟩ <;> omega

/-! ## Filling -/

/-- What `fill` leaves: enough in the window, or all that is left of the data. -/
structure Filled (data : List UInt8) (amount : Nat) (b c : Buffer σ) : Prop where
  reads : Reads data c
  extends_by : ∃ bytes, Extends b c bytes
  enough : amount ≤ c.occupied ∨ c.stop = data.length

theorem Reads.filled (h : Reads data b) {count : Nat} (hfill : fill amount b = .ok count c) :
    Filled data amount b c ∧ count = c.occupied := by
  fun_induction fill amount b with
  | case1 b hmore error b' hrequest => cases hfill
  | case2 b hmore b' hrequest =>
      cases hfill
      obtain ⟨hreads, ⟨bytes, -, hextends⟩, hnone⟩ := h.requested hrequest
      exact ⟨⟨hreads, ⟨bytes, hextends⟩, hnone rfl⟩, rfl⟩
  | case3 b hmore received b' hrequest ih =>
      obtain ⟨hreads, ⟨bytes, -, hextends⟩, -⟩ := h.requested hrequest
      obtain ⟨⟨hreads', ⟨more, hmore'⟩, henough⟩, hcount⟩ := ih hreads hfill
      exact ⟨⟨hreads', ⟨bytes ++ more, hextends.trans hmore'⟩, henough⟩, hcount⟩
  | case4 b henough =>
      cases hfill
      exact ⟨⟨h, ⟨[], .refl _⟩, .inl (Nat.le_of_not_lt henough)⟩, rfl⟩

theorem Reads.fill_refused (h : Reads data b) {error : BufferError}
    (hfill : fill amount b = .error error c) : ∃ capacity, error = .overflow amount capacity := by
  fun_induction fill amount b with
  | case1 b hmore error' b' hrequest =>
      cases hfill
      exact ⟨_, (h.refused hrequest).error_eq⟩
  | case2 b hmore b' hrequest => cases hfill
  | case3 b hmore received b' hrequest ih => exact ih (h.requested hrequest).reads hfill
  | case4 b henough => cases hfill

/-- So a filled window begins with what the data holds there. -/
theorem Filled.take_window (h : Filled data amount b c) :
    c.window.take amount = (data.drop b.place.byte).take amount := by
  obtain ⟨bytes, hextends⟩ := h.extends_by
  rw [h.reads.window_eq, hextends.place_eq, List.take_take]
  rcases h.enough with henough | hend
  · rw [Nat.min_eq_left henough]
  · have hfilled := c.offset_add_occupied
    have hbyte := c.base_add_offset
    rw [hextends.place_eq] at hbyte
    unfold stop at hend
    have hrest : (data.drop b.place.byte).length ≤ c.occupied := by
      rw [List.length_drop]
      omega
    rw [← List.take_take, List.take_of_length_le hrest]

end Buffer

namespace Session

open Buffer

/-- A session over such a source goes on reading its data, whatever is done to it. -/
theorem lasting_reads [ByteSource σ] (data : List UInt8) :
    Lasting (fun b : Buffer (Recorded σ) => Reads data b) where
  request amount _ h := h.of_request amount
  moves h hmoves :=
    h.of_same hmoves.limits_eq hmoves.base_eq hmoves.retained_eq hmoves.source_eq
  discard h := h.of_drops (drops_discard _)

end Session

end Lookahead
