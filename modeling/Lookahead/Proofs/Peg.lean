import Lookahead.Place

/-!
# Parsing expressions

Expressions over input that is at hand as a whole. Choice is ordered and a repetition takes what it
can get, so an expression has one verdict on an input: it matches and leaves the rest, it does not
match, or it ends the parse there and then.
-/

namespace Lookahead

/-- What an expression makes of an input. -/
inductive Verdict (α : Type) where
  | matched (value : α) (rest : List UInt8)
  | mismatch
  /-- The parse ends with a number that is none, at what was left of the input there. -/
  | aborted (number : Nat) (input : List UInt8)
deriving DecidableEq, Repr

def Verdict.map {α β : Type} (f : α → β) : Verdict α → Verdict β
  | .matched a rest => .matched (f a) rest
  | .mismatch => .mismatch
  | .aborted number input => .aborted number input

theorem Verdict.eq_matched_of_map {α β : Type} {f : α → β} {verdict : Verdict α} {b : β}
    {rest : List UInt8} (h : verdict.map f = .matched b rest) :
    ∃ a, verdict = .matched a rest ∧ f a = b := by
  cases verdict with
  | matched a left =>
      cases h
      exact ⟨a, rfl, rfl⟩
  | mismatch => cases h
  | aborted number left => cases h

theorem Verdict.eq_mismatch_of_map {α β : Type} {f : α → β} {verdict : Verdict α}
    (h : verdict.map f = .mismatch) : verdict = .mismatch := by
  cases verdict with
  | mismatch => rfl
  | matched a rest => cases h
  | aborted number left => cases h

theorem Verdict.eq_aborted_of_map {α β : Type} {f : α → β} {verdict : Verdict α} {number : Nat}
    {left : List UInt8} (h : verdict.map f = .aborted number left) :
    verdict = .aborted number left := by
  cases verdict with
  | aborted number left =>
      cases h
      rfl
  | matched a rest => cases h
  | mismatch => cases h

def Peg (α : Type) : Type :=
  List UInt8 → Verdict α

namespace Peg

variable {α β : Type}

/-! ## Expressions -/

/-- One expression, then the next on what it leaves. -/
def andThen (p : Peg α) (next : α → Peg β) : Peg β := fun input =>
  match p input with
  | .matched a rest => next a rest
  | .mismatch => .mismatch
  | .aborted number input => .aborted number input

instance : Monad Peg where
  pure a := fun input => .matched a input
  bind := andThen

/-- One byte that means something. -/
def token (meaning : UInt8 → Option α) : Peg α
  | [] => .mismatch
  | byte :: rest =>
      match meaning byte with
      | some a => .matched a rest
      | none => .mismatch

def sat (accepts : UInt8 → Bool) : Peg UInt8 :=
  token (fun byte => if accepts byte then some byte else none)

def atEnd : Peg Unit
  | [] => .matched () []
  | _ :: _ => .mismatch

/-- The first expression, or else the second. -/
def orElse (p q : Peg α) : Peg α := fun input =>
  match p input with
  | .mismatch => q input
  | verdict => verdict

/-- An expression as often as it matches and takes something. -/
def star (p : Peg α) : Peg (List α) := fun input =>
  match p input with
  | .matched a rest =>
      if rest.length < input.length then (star p rest).map (a :: ·) else .matched [] input
  | .mismatch => .matched [] input
  | .aborted number input => .aborted number input
termination_by input => input.length

def plus (p : Peg α) : Peg (List α) := do
  let first ← p
  let others ← star p
  return first :: others

/-- An expression whose value is decoded. One that has no decoding ends the parse where the
expression began. -/
def decoded (p : Peg α) (decode : α → Except Nat β) : Peg β := fun input =>
  match p input with
  | .matched a rest =>
      match decode a with
      | .ok b => .matched b rest
      | .error number => .aborted number input
  | .mismatch => .mismatch
  | .aborted number input => .aborted number input

/-! ## Their verdicts -/

variable {p q : Peg α} {next : α → Peg β} {input rest : List UInt8} {a : α} {number : Nat}
  {left : List UInt8}

theorem bind_matched (h : p input = .matched a rest) : (p >>= next) input = next a rest := by
  show andThen p next input = next a rest
  unfold andThen
  rw [h]

theorem bind_mismatch (h : p input = .mismatch) : (p >>= next) input = .mismatch := by
  show andThen p next input = .mismatch
  unfold andThen
  rw [h]

theorem bind_aborted (h : p input = .aborted number left) :
    (p >>= next) input = .aborted number left := by
  show andThen p next input = .aborted number left
  unfold andThen
  rw [h]

theorem eq_matched_of_bind {b : β} (h : (p >>= next) input = .matched b rest) :
    ∃ a middle, p input = .matched a middle ∧ next a middle = .matched b rest := by
  cases hp : p input with
  | matched a middle =>
      rw [bind_matched hp] at h
      exact ⟨a, middle, rfl, h⟩
  | mismatch =>
      rw [bind_mismatch hp] at h
      cases h
  | aborted number left =>
      rw [bind_aborted hp] at h
      cases h

theorem eq_cons_of_token {meaning : UInt8 → Option α} (h : token meaning input = .matched a rest) :
    ∃ byte, input = byte :: rest ∧ meaning byte = some a := by
  cases input with
  | nil => cases h
  | cons byte others =>
      cases hmeaning : meaning byte with
      | some value =>
          rw [token, hmeaning] at h
          cases h
          exact ⟨byte, rfl, hmeaning⟩
      | none =>
          rw [token, hmeaning] at h
          cases h

theorem eq_cons_of_sat {accepts : UInt8 → Bool} {byte : UInt8}
    (h : sat accepts input = .matched byte rest) : input = byte :: rest ∧ accepts byte = true := by
  obtain ⟨first, rfl, hfirst⟩ := eq_cons_of_token h
  split at hfirst
  · rename_i haccepts
    cases hfirst
    exact ⟨rfl, haccepts⟩
  · cases hfirst

theorem bind_pure (f : α → β) (p : Peg α) (input : List UInt8) :
    (do return f (← p) : Peg β) input = (p input).map f := by
  cases hp : p input with
  | matched a rest => rw [bind_matched hp]; rfl
  | mismatch => rw [bind_mismatch hp]; rfl
  | aborted number left => rw [bind_aborted hp]; rfl

theorem orElse_mismatch (h : p input = .mismatch) : p.orElse q input = q input := by
  unfold orElse
  rw [h]

theorem orElse_matched (h : p input = .matched a rest) : p.orElse q input = .matched a rest := by
  unfold orElse
  rw [h]

theorem orElse_aborted (h : p input = .aborted number left) :
    p.orElse q input = .aborted number left := by
  unfold orElse
  rw [h]

theorem star_matched (h : p input = .matched a rest) (hless : rest.length < input.length) :
    star p input = (star p rest).map (a :: ·) := by
  rw [star, h]
  exact if_pos hless

theorem star_mismatch (h : p input = .mismatch) : star p input = .matched [] input := by
  rw [star, h]

theorem star_aborted (h : p input = .aborted number left) :
    star p input = .aborted number left := by
  rw [star, h]

theorem star_eq_nil (h : star p input = .matched [] rest) : rest = input := by
  rw [star] at h
  split at h
  · split at h
    · obtain ⟨others, -, hcons⟩ := Verdict.eq_matched_of_map h
      cases hcons
    · cases h
      rfl
  · cases h
    rfl
  · cases h

theorem star_eq_cons {others : List α} (h : star p input = .matched (a :: others) rest) :
    ∃ middle, p input = .matched a middle ∧ star p middle = .matched others rest := by
  rw [star] at h
  split at h
  · rename_i first middle hfirst
    split at h
    · obtain ⟨more, hmore, hcons⟩ := Verdict.eq_matched_of_map h
      cases hcons
      exact ⟨middle, hfirst, hmore⟩
    · cases h
  · cases h
  · cases h

theorem sat_accepted {accepts : UInt8 → Bool} {byte : UInt8} (h : accepts byte = true)
    (rest : List UInt8) : sat accepts (byte :: rest) = .matched byte rest := by
  unfold sat
  rw [token, if_pos h]

theorem sat_rejected {accepts : UInt8 → Bool} {byte : UInt8} (h : ¬accepts byte = true)
    (rest : List UInt8) : sat accepts (byte :: rest) = .mismatch := by
  unfold sat
  rw [token, if_neg h]

theorem sat_byte (byte : UInt8) (rest : List UInt8) :
    sat (· == byte) (byte :: rest) = .matched byte rest := by
  apply sat_accepted
  rw [beq_iff_eq]

theorem sat_other {byte other : UInt8} (h : other ≠ byte) (rest : List UInt8) :
    sat (· == byte) (other :: rest) = .mismatch := by
  apply sat_rejected
  rwa [beq_iff_eq]

/-- A repeated byte is what the input begins with. -/
theorem star_sat (accepts : UInt8 → Bool) (input : List UInt8) :
    star (sat accepts) input = .matched (input.takeWhile accepts) (input.dropWhile accepts) := by
  induction input with
  | nil => exact star_mismatch rfl
  | cons byte rest ih =>
      by_cases haccepts : accepts byte = true
      · rw [star_matched (sat_accepted haccepts rest) (Nat.lt_succ_self _), ih,
          List.takeWhile_cons_of_pos haccepts, List.dropWhile_cons_of_pos haccepts]
        rfl
      · rw [star_mismatch (sat_rejected haccepts rest), List.takeWhile_cons_of_neg haccepts,
          List.dropWhile_cons_of_neg haccepts]

/-- A byte once or more is the same run, unless it is empty. -/
theorem plus_sat (accepts : UInt8 → Bool) (input : List UInt8) :
    plus (sat accepts) input =
      if input.takeWhile accepts = [] then .mismatch
      else .matched (input.takeWhile accepts) (input.dropWhile accepts) := by
  cases input with
  | nil => rfl
  | cons byte rest =>
      by_cases haccepts : accepts byte = true
      · rw [List.takeWhile_cons_of_pos haccepts, List.dropWhile_cons_of_pos haccepts,
          if_neg (List.cons_ne_nil _ _)]
        unfold plus
        rw [bind_matched (sat_accepted haccepts rest), bind_matched (star_sat accepts rest)]
        rfl
      · rw [List.takeWhile_cons_of_neg haccepts, if_pos rfl]
        unfold plus
        rw [bind_mismatch (sat_rejected haccepts rest)]

end Peg

end Lookahead
