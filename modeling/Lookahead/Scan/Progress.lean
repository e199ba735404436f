import Lookahead.Effect
import Lookahead.Scan.Basic

/-!
# Progress of a scan

A repetition ends because each match moves the cursor on while the buffer's room ahead of it is
bounded. Two properties of a recogniser say so: it is `Steady` if it never ends before the place it
started at, and it `Advances` if it consumes something whenever it matches. Both carry over from the
parts of a recogniser to the whole, through sequence, attempt and repetition.
-/

namespace Lookahead.Scan

variable {σ : Type} {α : Type}

/-! ## Where a scan leaves the cursor -/

/-- The second buffer stands no earlier than the first, over the same retained stretch. -/
structure Onward (before after : Buffer σ) : Prop where
  base_eq : after.base = before.base
  limits_eq : after.limits = before.limits
  byte_le : before.place.byte ≤ after.place.byte

theorem Onward.refl (b : Buffer σ) : Onward b b := ⟨rfl, rfl, Nat.le_refl _⟩

theorem Onward.trans {b c d : Buffer σ} (h : Onward b c) (h' : Onward c d) : Onward b d :=
  ⟨h'.base_eq.trans h.base_eq, h'.limits_eq.trans h.limits_eq, Nat.le_trans h.byte_le h'.byte_le⟩

theorem Onward.reach_lt {b c : Buffer σ} (h : Onward b c) (moved : b.place.byte < c.place.byte) :
    c.reach < b.reach := by
  have hcapacity : c.capacity = b.capacity := by
    rw [c.capacity_eq, h.limits_eq, b.capacity_eq]
  have hb := b.base_add_offset
  have hc := c.base_add_offset
  have hfits := c.offset_le_capacity
  rw [h.base_eq] at hc
  unfold Buffer.reach
  omega

/-- The scan never ends before the place it started at. -/
def Steady (scan : Scan σ α) : Prop :=
  ∀ b a b', scan b = .ok a b' → Onward b b'

/-- The recogniser consumes something whenever it matches. -/
def Advances (scan : Scan σ (Option α)) : Prop :=
  ∀ b a b', scan b = .ok (some a) b' → b.place.byte < b'.place.byte

/-- Repeats a recogniser for as long as it matches. -/
def many (scan : Scan σ (Option α)) (steady : Steady scan) (advances : Advances scan) :
    Scan σ Unit := fun b =>
  match _answer : scan b with
  | .error fault b' => .error fault b'
  | .ok none b' => .ok () b'
  | .ok (some _) b' => many scan steady advances b'
termination_by b => b.reach
decreasing_by exact (steady _ _ _ _answer).reach_lt (advances _ _ _ _answer)

/-! ## The recognisers one by one -/

theorem steady_pure (a : α) : Steady (pure a : Scan σ α) := by
  intro b x b' h
  rw [pure_apply] at h
  cases h
  exact .refl b

theorem steady_bind {β : Type} {scan : Scan σ α} {next : α → Scan σ β} (first : Steady scan)
    (rest : ∀ a, Steady (next a)) : Steady (scan >>= next) := by
  intro b x b' h
  rw [bind_apply] at h
  split at h
  · rename_i hfirst
    exact (first _ _ _ hfirst).trans (rest _ _ _ _ h)
  · cases h

theorem place_of_request [ByteSource σ] {amount received : Nat} {b b' : Buffer σ}
    (h : Buffer.request amount b = .ok received b') : Onward b b' ∧ b'.place = b.place := by
  obtain ⟨bytes, -, hextends⟩ := Buffer.extends_of_request h
  have hplace := hextends.place_eq
  have hbyte := Nat.le_of_eq (congrArg Place.byte hplace.symm)
  exact ⟨⟨hextends.base_eq, hextends.limits_eq, hbyte⟩, hplace⟩

theorem place_of_consumeInLine {count : Nat} {b b' : Buffer σ}
    (h : Buffer.consumeInLine count b = .ok () b') :
    Onward b b' ∧ b'.place = b.place.alongLine count := by
  unfold Buffer.consumeInLine at h
  split at h
  · split at h
    · cases h
    · cases h; exact ⟨⟨rfl, rfl, Nat.le_add_right _ _⟩, rfl⟩
  · cases h

theorem place_of_byteIf [ByteSource σ] {accepts : UInt8 → Bool} {found : Option UInt8}
    {b b' : Buffer σ} (h : byteIf accepts b = .ok found b') :
    Onward b b' ∧ b'.place = if found.isSome then b.place.alongLine 1 else b.place := by
  simp only [byteIf, ask, bind_apply, get_apply, pure_apply, adaptExcept_apply, Buffer.ensure] at h
  cases asked : Buffer.request 1 b with
  | error error c => simp [asked] at h
  | ok received c =>
    obtain ⟨onward, place⟩ := place_of_request asked
    simp only [asked] at h
    cases first : c.peek 0 with
    | none =>
      simp only [first, pure_apply] at h
      cases h
      exact ⟨onward, place⟩
    | some byte =>
      simp only [first] at h
      split at h
      · simp only [bind_apply, adaptExcept_apply] at h
        cases consumed : Buffer.consumeInLine 1 c with
        | error misuse d => simp [consumed] at h
        | ok _ d =>
          obtain ⟨further, moved⟩ := place_of_consumeInLine consumed
          simp only [consumed, pure_apply] at h
          cases h
          exact ⟨onward.trans further, by rw [moved, place]; rfl⟩
      · rw [pure_apply] at h
        cases h
        exact ⟨onward, place⟩

theorem steady_byteIf [ByteSource σ] (accepts : UInt8 → Bool) :
    Steady (byteIf accepts : Scan σ (Option UInt8)) :=
  fun _ _ _ h => (place_of_byteIf h).1

theorem advances_byteIf [ByteSource σ] (accepts : UInt8 → Bool) :
    Advances (byteIf accepts : Scan σ (Option UInt8)) := by
  intro b byte b' h
  rw [(place_of_byteIf h).2]
  exact Nat.lt_succ_self _

/-- A recogniser that advances still does so with something steady behind it. -/
theorem advances_bind {β : Type} {first : Scan σ (Option β)}
    {next : Option β → Scan σ (Option α)} (advances : Advances first)
    (onMatch : ∀ a, Steady (next (some a))) (onMismatch : ∀ b, next none b = .ok none b) :
    Advances (first >>= next) := by
  intro b a b' h
  rw [bind_apply] at h
  split at h
  · rename_i found c answer
    cases found with
    | none => rw [onMismatch] at h; cases h
    | some x => exact Nat.lt_of_lt_of_le (advances _ _ _ answer) (onMatch _ _ _ _ h).byte_le
  · cases h

/-- An attempt that matches keeps the place its body reached; one that does not is back where it
began. -/
theorem place_of_attempt {body : Scan σ (Option α)} (steady : Steady body) {b b' : Buffer σ}
    {found : Option α} (h : attempt body b = .ok found b') :
    Onward b b' ∧
      match found with
      | none => b'.place = b.place
      | some a => ∃ c, body (Guard.begin .active b).2 = .ok (some a) c ∧ b'.place = c.place := by
  unfold attempt at h
  simp only at h
  split at h
  · rename_i a c matched
    cases h
    have onward := steady _ _ _ matched
    exact ⟨⟨onward.base_eq, onward.limits_eq, onward.byte_le⟩, c, matched, rfl⟩
  · rename_i c mismatched
    have onward := steady _ _ _ mismatched
    split at h
    · rename_i d back
      cases h
      unfold Guard.rollBack Guard.begin at back
      simp only at back
      split at back
      · cases back
        exact ⟨⟨onward.base_eq, onward.limits_eq, Nat.le_refl _⟩, rfl⟩
      · cases back
    · cases h
  · split at h <;> cases h

theorem steady_attempt {body : Scan σ (Option α)} (steady : Steady body) :
    Steady (attempt body) :=
  fun _ _ _ h => (place_of_attempt steady h).1

theorem advances_attempt {body : Scan σ (Option α)} (steady : Steady body)
    (advances : Advances body) : Advances (attempt body) := by
  intro b a b' h
  obtain ⟨-, c, matched, place⟩ := place_of_attempt steady h
  rw [place]
  exact advances (Guard.begin .active b).2 a c matched

theorem steady_many {scan : Scan σ (Option α)} (steady : Steady scan) (advances : Advances scan) :
    Steady (many scan steady advances) := by
  intro b a b' h
  fun_induction many scan steady advances b with
  | case1 => cases h
  | case2 b c answer => cases h; exact steady _ _ _ answer
  | case3 b found c answer ih => exact (steady _ _ _ answer).trans (ih h)

theorem steady_since (start : Place) : Steady (since start : Scan σ Span) := by
  intro b span b' h
  unfold since at h
  split at h <;> cases h
  exact .refl b

theorem steady_capture {body : Scan σ Unit} (steady : Steady body) : Steady (capture body) := by
  intro b span b' h
  simp only [capture, bind_apply, get_apply] at h
  split at h
  · rename_i consumed
    exact (steady _ _ _ consumed).trans (steady_since _ _ _ _ h)
  · cases h

/-- A captured span is as long as the way the cursor went. -/
theorem length_of_capture {body : Scan σ Unit} {b b' : Buffer σ} {span : Span}
    (h : capture body b = .ok span b') :
    span.bytes.length = b'.place.byte - b.place.byte := by
  simp only [capture, bind_apply, get_apply] at h
  cases consumed : body b with
  | error fault c => simp [consumed] at h
  | ok _ c =>
    simp only [consumed, since] at h
    cases asked : c.span b.place with
    | error error => simp [asked] at h
    | ok lent =>
      simp only [asked] at h
      cases h
      unfold Buffer.span at asked
      split at asked
      · rename_i held
        split at asked
        · cases asked
        · cases asked
          have hbyte := b'.base_add_offset
          have hheld := held.1
          rw [Arena.slice_length (Nat.le_trans b'.offset_le_filled b'.filled_le_capacity)]
          omega
      · cases asked

theorem steady_decodeSince (start : Place) (decoder : Escape.Decoder) :
    Steady (decodeSince start decoder : Scan σ (List UInt8)) := by
  refine steady_bind (steady_since start) (fun span => ?_)
  intro b bytes b' h
  cases decoded : decoder.apply span [] with
  | ok _ out =>
    simp only [decoded, pure_apply] at h
    cases h
    exact .refl b
  | error error out =>
    simp only [decoded, throw_apply] at h
    cases h

end Lookahead.Scan
