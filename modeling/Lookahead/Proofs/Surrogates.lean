import Mathlib
import Lookahead.Proofs.Units

/-!
# Surrogates

UTF-16 said twice. `Utf16.encode` writes a character as one unit or as a pair of surrogates, and
units are well formed if none of them is a surrogate without its partner (`Lone`). The reading of
units, which goes from left to right and takes one or two at a time, does the same: it finds the
characters whose encoding the units are, and where there are none it stops at the first lone one.

The decoder of escapes may stop earlier, at a unit that is no number. Then what comes before it has
to be judged without it. A high surrogate next to it is not lone for sure, all others are: that is
`Stranded`.
-/

namespace Lookahead

namespace Utf16

/-! ## Encoding -/

def High (unit : Nat) : Prop :=
  0xD800 ≤ unit ∧ unit ≤ 0xDBFF

def Low (unit : Nat) : Prop :=
  0xDC00 ≤ unit ∧ unit ≤ 0xDFFF

/-- The units of a character. -/
def encode (c : Char) : List Nat :=
  if c.toNat < 0x10000 then [c.toNat]
  else [0xD800 + (c.toNat - 0x10000) / 0x400, 0xDC00 + (c.toNat - 0x10000) % 0x400]

theorem encode_ofNat {unit : Nat} (hlt : unit < 0x10000) (hhigh : ¬High unit) (hlow : ¬Low unit) :
    encode (Char.ofNat unit) = [unit] := by
  have hvalid : unit.isValidChar := by
    unfold Nat.isValidChar High Low at *
    omega
  unfold encode
  rw [Char.toNat_ofNat, if_pos hvalid, if_pos hlt]

theorem encode_pair {high low : Nat} (hhigh : High high) (hlow : Low low) :
    encode (Char.ofNat (0x10000 + (high - 0xD800) * 0x400 + (low - 0xDC00))) = [high, low] := by
  unfold High Low at *
  have hvalid : (0x10000 + (high - 0xD800) * 0x400 + (low - 0xDC00)).isValidChar := by
    unfold Nat.isValidChar
    omega
  have hleading : 0xD800
      + (0x10000 + (high - 0xD800) * 0x400 + (low - 0xDC00) - 0x10000) / 0x400 = high := by
    omega
  have htrailing : 0xDC00
      + (0x10000 + (high - 0xD800) * 0x400 + (low - 0xDC00) - 0x10000) % 0x400 = low := by
    omega
  unfold encode
  rw [Char.toNat_ofNat, if_pos hvalid, if_neg (by omega), hleading, htrailing]

/-! ## Lone surrogates -/

/-- The surrogate at an index is half a pair and lacks its other half: it is a high one and no low
one follows, or a low one and no high one comes before. -/
def Lone (units : List Nat) (index : Nat) : Prop :=
  ∃ unit ∈ units[index]?,
    High unit ∧ (∀ next ∈ units[index + 1]?, ¬Low next) ∨
      Low unit ∧ ∀ previous ∈ (units.take index).getLast?, ¬High previous

/-- A lone surrogate that stays one whatever comes behind the units: no high one at their end. -/
def Stranded (units : List Nat) (index : Nat) : Prop :=
  Lone units index ∧ ∀ unit ∈ units[index]?, High unit → index + 1 < units.length

/-- The least index of which something holds. -/
def First (P : Nat → Prop) (index : Nat) : Prop :=
  P index ∧ ∀ earlier < index, ¬P earlier

/-- With `P` at zero, zero is the least index. -/
theorem First.eq_zero {P : Nat → Prop} {index : Nat} (h : First P index) (hzero : P 0) :
    index = 0 :=
  Nat.eq_zero_of_not_pos fun hpos => h.2 0 hpos hzero

/-- Where the first indices are out of the question, counting starts behind them. -/
theorem First.shift {P Q : Nat → Prop} {count index : Nat} (h : First P index)
    (hnone : ∀ early < count, ¬P early) (hshift : ∀ later, P (later + count) ↔ Q later) :
    ∃ later, index = later + count ∧ First Q later := by
  obtain ⟨hindex, hbefore⟩ := h
  have hle : count ≤ index := Nat.le_of_not_lt fun hlt => hnone index hlt hindex
  obtain ⟨later, rfl⟩ := Nat.exists_eq_add_of_le' hle
  exact ⟨later, rfl, (hshift later).mp hindex, fun earlier hlt =>
    mt (hshift earlier).mpr (hbefore _ (Nat.add_lt_add_right hlt count))⟩

variable {unit next : Nat} {units : List Nat} {index : Nat}

theorem not_low_of_high (h : High unit) : ¬Low unit := by
  unfold High Low at *
  omega

theorem lone_zero :
    Lone (unit :: units) 0 ↔ High unit ∧ (∀ next ∈ units[0]?, ¬Low next) ∨ Low unit := by
  constructor
  · rintro ⟨found, hfound, hlone⟩
    cases hfound
    rcases hlone with hhigh | ⟨hlow, -⟩
    · exact .inl hhigh
    · exact .inr hlow
  · intro hlone
    refine ⟨unit, rfl, ?_⟩
    rcases hlone with hhigh | hlow
    · exact .inl hhigh
    · exact .inr ⟨hlow, fun previous hprevious => nomatch hprevious⟩

theorem lone_end (hhigh : High unit) : Lone [unit] 0 :=
  lone_zero.mpr (.inl ⟨hhigh, fun _ hnone => by cases hnone⟩)

theorem lone_high (hhigh : High unit) (hnext : ¬Low next) : Lone (unit :: next :: units) 0 := by
  refine lone_zero.mpr (.inl ⟨hhigh, fun found hfound => ?_⟩)
  cases hfound
  exact hnext

theorem lone_low (hlow : Low unit) : Lone (unit :: units) 0 :=
  lone_zero.mpr (.inr hlow)

/-- Behind a unit that is no high surrogate the others are judged by themselves. -/
theorem lone_succ (hunit : ¬High unit) : Lone (unit :: units) (index + 1) ↔ Lone units index := by
  have hprevious : (∀ previous ∈ ((unit :: units).take (index + 1)).getLast?, ¬High previous)
      ↔ ∀ previous ∈ (units.take index).getLast?, ¬High previous := by
    rw [List.take_succ_cons, List.getLast?_cons]
    cases (units.take index).getLast? with
    | none => simp [hunit]
    | some previous => simp
  unfold Lone
  rw [hprevious]
  rfl

/-- So are those behind a pair. -/
theorem lone_pair (hlow : Low next) :
    Lone (unit :: next :: units) (index + 2) ↔ Lone units index := by
  have hnext : ¬High next := fun hhigh => not_low_of_high hhigh hlow
  have hlast : ((unit :: next :: units).take (index + 2)).getLast?
      = ((next :: units).take (index + 1)).getLast? := by
    rw [List.take_succ_cons, List.take_succ_cons, List.getLast?_cons_cons]
  refine Iff.trans ?_ (lone_succ hnext)
  unfold Lone
  rw [hlast]
  rfl

theorem not_lone_pair (hhigh : High unit) (hlow : Low next) (hindex : index < 2) :
    ¬Lone (unit :: next :: units) index := by
  match index, hindex with
  | 0, _ =>
      rw [lone_zero]
      rintro (⟨-, hnext⟩ | hunit)
      · exact hnext next rfl hlow
      · exact not_low_of_high hhigh hunit
  | 1, _ =>
      rintro ⟨found, hfound, ⟨hfoundHigh, -⟩ | ⟨-, hprevious⟩⟩
      · cases hfound
        exact not_low_of_high hfoundHigh hlow
      · exact hprevious unit rfl hhigh

theorem not_lone_plain (hhigh : ¬High unit) (hlow : ¬Low unit) (hindex : index < 1) :
    ¬Lone (unit :: units) index := by
  obtain rfl := Nat.lt_one_iff.mp hindex
  rw [lone_zero]
  rintro (⟨hunit, -⟩ | hunit)
  · exact hhigh hunit
  · exact hlow hunit

/-! ## Stranded surrogates -/

theorem stranded_low (hlow : Low unit) : Stranded (unit :: units) 0 := by
  refine ⟨lone_low hlow, fun found hfound hhigh => ?_⟩
  cases hfound
  exact absurd hlow (not_low_of_high hhigh)

theorem stranded_high (hhigh : High unit) (hnext : ¬Low next) :
    Stranded (unit :: next :: units) 0 :=
  ⟨lone_high hhigh hnext, fun _ _ _ => Nat.succ_lt_succ (Nat.succ_pos _)⟩

/-- A high surrogate at the end may still find its partner. -/
theorem not_stranded_end (hhigh : High unit) : ¬Stranded [unit] index := by
  rintro ⟨⟨found, hfound, -⟩, hend⟩
  cases index with
  | zero => exact absurd (hend unit rfl hhigh) (Nat.lt_irrefl 1)
  | succ index => cases hfound

theorem stranded_succ (hunit : ¬High unit) :
    Stranded (unit :: units) (index + 1) ↔ Stranded units index :=
  and_congr (lone_succ hunit)
    (forall₃_congr fun _ _ _ => Nat.succ_lt_succ_iff)

theorem stranded_pair (hlow : Low next) :
    Stranded (unit :: next :: units) (index + 2) ↔ Stranded units index :=
  and_congr (lone_pair hlow)
    (forall₃_congr fun _ _ _ => Nat.succ_lt_succ_iff.trans Nat.succ_lt_succ_iff)

/-! ## Reading -/

/-- The encoding of characters is read as those. -/
theorem utf16_encode (chars : List Char) :
    Grammar.utf16 (chars.flatMap encode) = .ok chars := by
  induction chars with
  | nil => rfl
  | cons c chars ih =>
      have hvalid : c.toNat.isValidChar := c.valid
      unfold Nat.isValidChar at hvalid
      rw [List.flatMap_cons]
      by_cases hsmall : c.toNat < 0x10000
      · rw [show encode c = [c.toNat] from if_pos hsmall, List.singleton_append,
          Grammar.utf16.eq_def]
        simp only
        rw [if_neg (by omega), if_neg (by omega), ih, Char.ofNat_toNat]
        rfl
      · have hhigh : 0xD800 ≤ 0xD800 + (c.toNat - 0x10000) / 0x400 ∧
            0xD800 + (c.toNat - 0x10000) / 0x400 ≤ 0xDBFF := by omega
        have hlow : 0xDC00 ≤ 0xDC00 + (c.toNat - 0x10000) % 0x400 ∧
            0xDC00 + (c.toNat - 0x10000) % 0x400 ≤ 0xDFFF := by omega
        have hnumber : 0x10000 + (0xD800 + (c.toNat - 0x10000) / 0x400 - 0xD800) * 0x400
            + (0xDC00 + (c.toNat - 0x10000) % 0x400 - 0xDC00) = c.toNat := by omega
        rw [show encode c = _ from if_neg hsmall, List.cons_append, List.singleton_append,
          Grammar.utf16, if_pos hhigh]
        simp only [if_pos hlow]
        rw [hnumber, ih, Char.ofNat_toNat]
        rfl

/-- Units without a lone surrogate are the encoding of some characters. -/
theorem exists_encode (hlt : ∀ unit ∈ units, unit < 0x10000) (h : ∀ index, ¬Lone units index) :
    ∃ chars : List Char, chars.flatMap encode = units := by
  fun_induction Grammar.utf16 units with
  | case1 => exact ⟨[], rfl⟩
  | case2 high hhigh => exact absurd (lone_end hhigh) (h 0)
  | case3 high hhigh low others hlow ih =>
      have hothers : ∀ unit ∈ others, unit < 0x10000 := fun unit hmem =>
        hlt unit (List.mem_cons_of_mem _ (List.mem_cons_of_mem _ hmem))
      obtain ⟨chars, hchars⟩ := ih hothers fun index => mt (lone_pair hlow).mpr (h _)
      refine ⟨Char.ofNat (0x10000 + (high - 0xD800) * 0x400 + (low - 0xDC00)) :: chars, ?_⟩
      rw [List.flatMap_cons, encode_pair hhigh hlow, hchars]
      rfl
  | case4 high hhigh low others hlow => exact absurd (lone_high hhigh hlow) (h 0)
  | case5 unit others hhigh hlow => exact absurd (lone_low hlow) (h 0)
  | case6 unit others hhigh hlow ih =>
      obtain ⟨chars, hchars⟩ := ih (fun unit hmem => hlt unit (List.mem_cons_of_mem _ hmem))
        fun index => mt (lone_succ hhigh).mpr (h _)
      refine ⟨Char.ofNat unit :: chars, ?_⟩
      rw [List.flatMap_cons, encode_ofNat (hlt unit List.mem_cons_self) hhigh hlow, hchars]
      rfl

/-- The reading stops at the first lone surrogate. -/
theorem utf16_illFormed (h : First (Lone units) index) {lone : Nat} (hlone : lone ∈ units[index]?) :
    Grammar.utf16 units = .error lone := by
  fun_induction Grammar.utf16 units generalizing index with
  | case1 => cases hlone
  | case2 high hhigh =>
      obtain rfl := h.eq_zero (lone_end hhigh)
      cases hlone
      rfl
  | case3 high hhigh low others hlow ih =>
      obtain ⟨later, rfl, hfirst⟩ :=
        h.shift (fun _ => not_lone_pair hhigh hlow) fun _ => lone_pair hlow
      rw [ih hfirst hlone]
      rfl
  | case4 high hhigh low others hlow =>
      obtain rfl := h.eq_zero (lone_high hhigh hlow)
      cases hlone
      rfl
  | case5 unit others hhigh hlow =>
      obtain rfl := h.eq_zero (lone_low hlow)
      cases hlone
      rfl
  | case6 unit others hhigh hlow ih =>
      obtain ⟨later, rfl, hfirst⟩ :=
        h.shift (fun _ => not_lone_plain hhigh hlow) fun _ => lone_succ hhigh
      rw [ih hfirst hlone]
      rfl

end Utf16

end Lookahead
