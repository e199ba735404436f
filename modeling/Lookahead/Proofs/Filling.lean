import Lookahead.Proofs.Pulling
import Lookahead.Proofs.Serving

/-!
# Filling the window

Filling makes the same request again and again. What is missing gets less with every pull but the
last, and the cursor does not move, so a filling that fits at first goes on fitting: it is refused
at once or never, and it ends after as many pulls as bytes were missing, at the latest. It ends
earlier where a pull fails or brings nothing. Everything it says of its pulls is read off `Fills`,
by induction from the last pull to the first.

A filling that comes back short has seen a pull without bytes. Whether these were all there are is
up to the source. Over one that has none only once it has run out (`EndsOnce`), a short filling
holds all that is left of the stream.
-/

namespace Lookahead

variable {σ : Type} [ByteSource σ]

/-! ## Sources that end once -/

namespace Recorded

/-- The second source is the first after some pulls, none of them into no room. -/
inductive Later : Recorded σ → Recorded σ → Prop where
  | refl (r : Recorded σ) : Later r r
  | pull {r t : Recorded σ} {room : Nat} (before : Later r t) (room_pos : 0 < room) :
      Later r (ByteSource.pull t room).2

theorem Later.trans {r t u : Recorded σ} (h : Later r t) (h' : Later t u) : Later r u := by
  induction h' with
  | refl => exact h
  | pull _ room_pos ih => exact .pull ih room_pos

end Recorded

open Recorded (Later)

/-- The source has no bytes for a pull only once it has run out: no later pull brings any. -/
def EndsOnce (source : σ) : Prop :=
  ∀ reached room fits, Later (⟨source, #[]⟩ : Recorded σ) reached → 0 < room →
    (ByteSource.pull reached room).1 = .delivered [] fits →
      ∀ later, Later (ByteSource.pull reached room).2 later → later.delivered = reached.delivered

theorem Serves.later {r t : Recorded σ} {data : List UInt8} (h : Serves r data)
    (hlater : Later r t) :
    ∃ bytes rest, data = bytes ++ rest ∧ t.delivered = r.delivered ++ bytes ∧ Serves t rest := by
  induction hlater with
  | refl => exact ⟨[], data, rfl, (List.append_nil _).symm, h⟩
  | @pull t room _ hroom ih =>
      obtain ⟨bytes, rest, rfl, hdelivered, hserves⟩ := ih
      obtain ⟨more, fits, others, hreply, rfl, hothers, -⟩ := hserves.pull hroom
      refine ⟨bytes ++ more, others, (List.append_assoc ..).symm, ?_, hothers⟩
      rw [Recorded.delivered_pull, hreply, hdelivered, List.append_assoc]
      rfl

/-- A source that serves data is one of them. -/
theorem endsOnce_of_serves {source : σ} {data : List UInt8} (h : Serves source data) :
    EndsOnce source := by
  intro reached room fits hreached hroom hnone later hlater
  obtain ⟨bytes, rest, -, -, hserves⟩ := (serves_recorded h #[]).later hreached
  obtain ⟨pulled, fits', others, hreply, rfl, hothers, hend⟩ := hserves.pull hroom
  obtain rfl : pulled = [] := by
    rw [hnone] at hreply
    cases hreply
    rfl
  have hnothing := hend rfl
  rw [List.nil_append] at hnothing
  rw [hnothing] at hothers
  obtain ⟨more, rest, hsplit, hdelivered, -⟩ := hothers.later hlater
  obtain ⟨rfl, -⟩ := List.append_eq_nil_iff.mp hsplit.symm
  rw [hdelivered, Recorded.delivered_pull, hnone, List.append_nil]
  exact List.append_nil _

/-! ## What a filling tells of its pulls -/

namespace Buffer

variable {b c : Buffer (Recorded σ)} {amount : Nat} {pulled : Pulled} {pulls : List Pulled}
  {result : EStateM.Result BufferError (Buffer (Recorded σ)) Nat}

namespace Fills

theorem extends_by (h : Fills amount b pulls result) :
    Extends b (stateOf result) (pulls.flatMap Pulled.bytes) := by
  induction h with
  | enough => exact .refl _
  | beyond => exact { Extends.refl _ with }
  | failed _ makes | ended _ makes => simpa using makes.extends_by
  | more _ makes _ _ _ ih => exact makes.extends_by.trans ih

/-- Each pull but the last brings one at least of the bytes that are missing. -/
theorem length_le (h : Fills amount b pulls result) : pulls.length ≤ amount - b.occupied := by
  induction h with
  | enough | beyond => exact Nat.zero_le _
  | failed lacks | ended lacks => exact Nat.sub_pos_of_lt lacks
  | more lacks makes _ hne _ ih =>
      have hoccupied := makes.extends_by.occupied_eq
      have hsome := List.length_pos_iff.mpr hne
      rw [List.length_cons]
      omega

/-- The first pull of a filling, and the filling behind it if there are more. -/
theorem of_cons (h : Fills amount b (pulled :: pulls) result) :
    b.occupied < amount ∧ ∃ c, MakesPull amount b pulled c ∧
      (pulls ≠ [] → pulled.bytes ≠ [] ∧ Fills amount c pulls result) := by
  cases h with
  | failed lacks makes | ended lacks makes =>
      exact ⟨lacks, _, makes, fun hmore => absurd rfl hmore⟩
  | more lacks makes _ hne rest => exact ⟨lacks, _, makes, fun _ => ⟨hne, rest⟩⟩

/-- A pull is only made while bytes are missing. -/
theorem lacks {before behind : List Pulled}
    (h : Fills amount b (before ++ pulled :: behind) result) :
    b.occupied + (before.flatMap Pulled.bytes).length < amount := by
  induction before generalizing b with
  | nil => exact h.of_cons.1
  | cons first before ih =>
      obtain ⟨-, c, makes, hmore⟩ := h.of_cons
      have hrest := ih (hmore (by simp)).2
      rw [makes.extends_by.occupied_eq] at hrest
      rw [List.flatMap_cons, List.length_append]
      omega

/-- After a pull that brings nothing there is no other. -/
theorem stops {before behind : List Pulled}
    (h : Fills amount b (before ++ pulled :: behind) result) (hnone : pulled.bytes = []) :
    behind = [] := by
  induction before generalizing b with
  | nil =>
      obtain ⟨-, c, -, hmore⟩ := h.of_cons
      cases behind with
      | nil => rfl
      | cons next behind => exact absurd hnone (hmore (List.cons_ne_nil _ _)).1
  | cons first before ih =>
      obtain ⟨-, c, -, hmore⟩ := h.of_cons
      exact ih (hmore (by simp)).2

/-- A filling that fits is never refused: it fails with the first pull that does. -/
theorem result_eq (h : Fills amount b pulls result) (hfits : b.offset + amount ≤ b.capacity) :
    result = match pulls.findSome? Pulled.failure? with
      | some error => .error (.source error) (stateOf result)
      | none => .ok (stateOf result).occupied (stateOf result) := by
  induction h with
  | enough => rfl
  | beyond exceeds => exact absurd hfits (Nat.not_le_of_lt exceeds)
  | failed _ _ fails => simp [fails]
  | ended _ _ succeeds => simp [succeeds]
  | more _ makes succeeds _ _ ih =>
      rw [List.findSome?_cons, succeeds]
      refine ih ?_
      rw [makes.extends_by.offset_eq, capacity_eq, makes.extends_by.limits_eq, ← capacity_eq]
      exact hfits

/-- A filling that comes back short ends with a pull that did not fail and brought nothing. -/
theorem short {count : Nat} (h : Fills amount b pulls (.ok count c)) (hshort : count < amount) :
    count = c.occupied ∧ ∃ before d last, pulls = before ++ [last] ∧
      MakesPulls amount b before d ∧ MakesPull amount d last c ∧ last.failure? = none ∧
      last.bytes = [] := by
  generalize hresult : EStateM.Result.ok count c = result at h
  induction h with
  | enough held =>
      cases hresult
      omega
  | beyond | failed => cases hresult
  | ended _ makes succeeds hnone =>
      cases hresult
      exact ⟨rfl, [], _, _, rfl, .none _, makes, succeeds, hnone⟩
  | more _ makes _ _ _ ih =>
      obtain ⟨hcount, before, d, last, rfl, hbefore, hlast⟩ := ih hresult
      exact ⟨hcount, _ :: before, d, last, rfl, .more makes hbefore, hlast⟩

end Fills

/-! ## Short fillings -/

theorem MakesPull.later (h : MakesPull amount b pulled c) : Later b.source c.source := by
  have hsource := congrArg Prod.snd h.answer_eq
  simp only at hsource
  rw [← hsource]
  exact .pull (.refl _) h.room_pos

theorem MakesPulls.later (h : MakesPulls amount b pulls c) : Later b.source c.source := by
  induction h with
  | none => exact .refl _
  | more makes _ ih => exact makes.later.trans ih

/-- Behind a pull that brought nothing, such a source has run out. -/
theorem MakesPull.delivered_later {source : σ} (h : MakesPull amount b pulled c)
    (hends : EndsOnce source) (hsource : Later ⟨source, #[]⟩ b.source)
    (hsucceeds : pulled.failure? = none) (hnone : pulled.bytes = []) {later : Recorded σ}
    (hlater : Later c.source later) : later.delivered = c.source.delivered := by
  obtain ⟨fits, hreply⟩ := Pulled.reply_of_nil hsucceeds hnone
  have hanswer := h.answer_eq
  rw [hreply] at hanswer
  have hended := hends b.source pulled.room fits hsource h.room_pos (congrArg Prod.fst hanswer)
  rw [hanswer] at hended
  exact (hended later hlater).trans (hended c.source (.refl _)).symm

end Buffer

namespace Session

open Buffer

/-- What filling the window up to `amount` bytes does to a session, apart from being refused. -/
structure FillsUp (amount : Nat) (s : Session σ) (pulls : List Pulled) (answer : Answer)
    (t : Session σ) : Prop where
  history_eq : t.buffer.source.history.toList = s.buffer.source.history.toList ++ pulls
  length_le : pulls.length ≤ amount - s.buffer.occupied
  /-- It pulls only while bytes are missing, -/
  lacks : ∀ before pulled behind, pulls = before ++ pulled :: behind →
    s.buffer.occupied + (before.flatMap Pulled.bytes).length < amount
  /-- and not again after a pull that failed or brought none. -/
  stops : ∀ before pulled behind, pulls = before ++ pulled :: behind → pulled.bytes = [] →
    behind = []
  answer_eq : answer = match pulls.findSome? Pulled.failure? with
    | some error => .failed (.source error)
    | none => .count t.buffer.occupied
  short : ∀ count, answer = .count count → count < amount → ∃ before pulled,
    pulls = before ++ [pulled] ∧ pulled.failure? = none ∧ pulled.bytes = []
  mark_eq : t.buffer.mark = s.buffer.mark
  base_eq : t.buffer.base = s.buffer.base
  pin_eq : t.buffer.pin = s.buffer.pin
  window_eq : t.buffer.window = s.buffer.window ++ pulls.flatMap Pulled.bytes
  session_eq : t = { s with buffer := t.buffer }

variable {s : Session σ} {amount : Nat}

theorem step_fill (amount : Nat) (s : Session σ) :
    s.step (.fill amount) = match fill amount s.buffer with
      | .ok count buffer => (.count count, { s with buffer })
      | .error error buffer => (.failed error, { s with buffer }) := by
  rw [step, perform]
  cases fill amount s.buffer <;> rfl

theorem fill_of_count {count : Nat} (h : (s.step (.fill amount)).1 = .count count) :
    fill amount s.buffer = .ok count (s.step (.fill amount)).2.buffer := by
  rw [step_fill] at h ⊢
  cases hresult : fill amount s.buffer with
  | ok count' buffer =>
      rw [hresult] at h
      cases h
      rfl
  | error error buffer =>
      rw [hresult] at h
      cases h

theorem fillsUp_step (hfits : s.buffer.offset + amount ≤ s.buffer.capacity) :
    ∃ pulls, FillsUp amount s pulls (s.step (.fill amount)).1 (s.step (.fill amount)).2 := by
  obtain ⟨pulls, hfills⟩ := exists_fills amount s.buffer
  obtain ⟨d, hmakes, hsource, -⟩ := hfills.exists_makes
  have hextends := hfills.extends_by
  have hresult := hfills.result_eq hfits
  have hsession : (s.step (.fill amount)).2
      = { s with buffer := stateOf (fill amount s.buffer) } := perform_session ..
  refine ⟨pulls, ?_⟩
  constructor
  · rw [hsession, hsource, hmakes.history_eq]
  · exact hfills.length_le
  · rintro before pulled behind rfl
    exact hfills.lacks
  · rintro before pulled behind rfl
    exact hfills.stops
  · rw [hsession, step_fill]
    generalize stateOf (fill amount s.buffer) = c at hresult
    rw [hresult]
    cases pulls.findSome? Pulled.failure? <;> rfl
  · intro count hanswer hless
    rw [fill_of_count hanswer] at hfills
    obtain ⟨-, before, -, last, hpulls, -, -, hsucceeds, hnone⟩ := hfills.short hless
    exact ⟨before, last, hpulls, hsucceeds, hnone⟩
  · rw [hsession]
    exact hextends.cursor_eq
  · rw [hsession]
    exact hextends.base_eq
  · rw [hsession]
    exact hextends.pin_eq
  · rw [hsession]
    exact hextends.window_eq
  · rw [hsession]

/-- Whatever a session does, it pulls from its source into some room, or not at all. -/
theorem later_step {source : σ} (op : Op) (s : Session σ)
    (h : Later ⟨source, #[]⟩ s.buffer.source) :
    Later ⟨source, #[]⟩ (s.step op).2.buffer.source := by
  cases hasks : op.asks s.buffer.lineEnding with
  | none => rwa [source_of_asks_none hasks]
  | some amount =>
      obtain ⟨pulls, hpulls, -⟩ := pullsFor_step hasks
      obtain ⟨d, hmakes, hsource, -⟩ := hpulls.makes
      rw [hsource]
      exact h.trans hmakes.later

/-- Over a source that ends once, a filling that comes back short holds the rest of the stream. -/
theorem rest_of_short {source : σ} (hends : EndsOnce source) (hfaithful : Faithful s.buffer)
    (hsource : Later ⟨source, #[]⟩ s.buffer.source) {count : Nat}
    (hanswer : (s.step (.fill amount)).1 = .count count) (hless : count < amount)
    {later : Recorded σ} (hlater : Later (s.step (.fill amount)).2.buffer.source later) :
    (later.delivered.drop s.buffer.place.byte).length = count := by
  obtain ⟨pulls, hfills⟩ := exists_fills amount s.buffer
  rw [fill_of_count hanswer] at hfills
  obtain ⟨hcount, before, d, last, -, hbefore, hlast, hsucceeds, hnone⟩ := hfills.short hless
  have hplace := (hbefore.extends_by.trans hlast.extends_by).place_eq
  have hmirrors := mirrors_delivered (faithful_step (.fill amount) s hfaithful)
  rw [hlast.delivered_later hends (hsource.trans hbefore.later) hsucceeds hnone hlater, hcount,
    ← window_length, hmirrors.window_eq, hplace]
  rfl

/-- What filling a session up to `amount` bytes comes to; `source` is the source that the session
was started with. -/
structure FillsExactly (source : σ) (limits : Limits) (amount : Nat) (s : Session σ)
    (answer : Answer) (t : Session σ) : Prop where
  of_held : amount ≤ s.buffer.occupied → answer = .count s.buffer.occupied ∧ t = s
  of_beyond : limits.maximum + limits.chunk < s.buffer.offset + amount →
    answer = .failed (.overflow amount (limits.maximum + limits.chunk)) ∧
      t = { s with
        buffer := s.buffer.note
          (.overflow amount (limits.maximum + limits.chunk) s.buffer.offset) }
  of_within : s.buffer.offset + amount ≤ limits.maximum + limits.chunk →
    ∃ pulls, FillsUp amount s pulls answer t
  /-- Whatever the stream has yet to bring: the answer counts all of it, or enough. -/
  of_endsOnce : EndsOnce source → ∀ count, answer = .count count →
    ∀ later, Later t.buffer.source later →
      min amount (later.delivered.drop s.buffer.place.byte).length ≤ count

theorem step_fill_held (h : amount ≤ s.buffer.occupied) :
    s.step (.fill amount) = (.count s.buffer.occupied, s) := by
  rw [step_fill, fill, if_neg (Nat.not_lt_of_le h)]

/-- **Filling is exact.** Whatever a session does before: filling the window up to some bytes makes
no pull if they are there, is refused at once if they reach beyond the buffer, and otherwise pulls
for as long as bytes are missing, up to the first pull that fails or brings none. It changes nothing
but the window, which gets the bytes that were pulled. -/
theorem fill_exact {limits : Limits} (valid : limits.Valid) (lineEnding : LineEnding)
    (label : String) (source : σ) :
    ∃ fresh, start limits lineEnding label source = .ok fresh ∧ ∀ ops amount,
      let s := (fresh.play ops).2
      FillsExactly source limits amount s (s.step (.fill amount)).1 (s.step (.fill amount)).2 := by
  refine ⟨_, start_ok valid lineEnding label source, fun ops amount => ?_⟩
  intro s
  obtain ⟨hfaithful, hlimits, hsource⟩ := play_induction
    (P := fun s => Faithful s.buffer ∧ s.buffer.limits = limits ∧
      Later ⟨source, #[]⟩ s.buffer.source)
    (fun op s h => ⟨faithful_step op s h.1, (limits_step op s).trans h.2.1, later_step op s h.2.2⟩)
    ops (s := { buffer := ofLimits limits lineEnding label ⟨source, #[]⟩ })
    ⟨faithful_start limits lineEnding label source, rfl, .refl _⟩
  have hcapacity : s.buffer.capacity = limits.maximum + limits.chunk := by
    rw [capacity_eq, hlimits]
    rfl
  have hanswered : Answered amount s (s.step (.fill amount)) := answered_step rfl
  constructor
  · intro hheld
    rw [step_fill_held hheld]
    exact ⟨rfl, rfl⟩
  · intro hbeyond
    rw [← hcapacity] at hbeyond ⊢
    rw [hanswered.of_beyond hbeyond]
    exact ⟨rfl, rfl⟩
  · intro hfits
    rw [← hcapacity] at hfits
    exact fillsUp_step hfits
  · intro hends count hanswer later hlater
    by_cases hless : count < amount
    · rw [rest_of_short hends hfaithful hsource hanswer hless hlater]
      exact Nat.min_le_right _ _
    · exact Nat.le_trans (Nat.min_le_left _ _) (Nat.le_of_not_lt hless)

/-- Three bytes that come two at a time, where five are wanted: the third pull finds that there are
no more. -/
theorem fill_exact_of_slice :
    (⟨4, 4⟩ : Limits).Valid ∧ EndsOnce (⟨[97, 98, 99], some 2⟩ : Slice) ∧
      ∃ fresh, start ⟨4, 4⟩ .lf "input" (⟨[97, 98, 99], some 2⟩ : Slice) = .ok fresh ∧
        let t := (fresh.step (.fill 5)).2
        (fresh.step (.fill 5)).1 = .count 3 ∧
          t.buffer.source.history.toList.map Pulled.bytes = [[97, 98], [99], []] ∧
          (∃ pulls, FillsUp 5 fresh pulls (.count 3) t) ∧
          ∀ later, Later t.buffer.source later → min 5 later.delivered.length ≤ 3 := by
  have hvalid : (⟨4, 4⟩ : Limits).Valid := by decide
  have hends : EndsOnce (⟨[97, 98, 99], some 2⟩ : Slice) :=
    endsOnce_of_serves (serves_slice (by decide))
  obtain ⟨fresh, hstart, hexact⟩ :=
    fill_exact hvalid .lf "input" (⟨[97, 98, 99], some 2⟩ : Slice)
  obtain ⟨-, -, hwithin, hended⟩ := hexact [] 5
  have hfresh := Except.ok.inj ((start_ok hvalid .lf "input" _).symm.trans hstart)
  have hcount : (fresh.step (.fill 5)).1 = .count 3 := by
    rw [← hfresh]
    decide +kernel
  have hbytes : (fresh.step (.fill 5)).2.buffer.source.history.toList.map Pulled.bytes
      = [[97, 98], [99], []] := by
    rw [← hfresh]
    decide +kernel
  have hwithin := hwithin (by rw [← hfresh]; decide)
  have hended := hended hends 3 hcount
  obtain rfl := hfresh
  exact ⟨hvalid, hends, _, hstart, hcount, hbytes, hcount ▸ hwithin, hended⟩

end Session

end Lookahead
