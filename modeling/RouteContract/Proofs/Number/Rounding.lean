import Mathlib.Tactic.GCongr
import Mathlib.Tactic.Positivity
import RouteContract.Proofs.Number

/-!
# Rounding to doubles

A quotient is rounded at the exponent where it has 53 bits. A natural number of
at most 53 bits, with any number of zeros behind them, is not crossed: a quotient
on one side of it is rounded to the same side. Nothing is said of quotients too
large for a double, which have no result.
-/

set_option autoImplicit false

namespace RouteContract.Number.Binary64

theorem signed_false (k : Nat) : signed false k = k := rfl

theorem signed_true (k : Nat) : signed true k = -k := rfl

section

variable {num den i : Nat}

theorem le_roundDiv (hden : 0 < den) (h : i * den ≤ num) : i ≤ roundDiv num den := by
  have hq : i ≤ num / den := (Nat.le_div_iff_mul_le hden).mpr h
  unfold roundDiv
  dsimp only
  split
  · exact Nat.le_succ_of_le hq
  · exact hq

theorem roundDiv_le (hden : 0 < den) (h : num ≤ i * den) : roundDiv num den ≤ i := by
  have hq : num / den ≤ i := Nat.div_le_of_le_mul (by rwa [Nat.mul_comm])
  unfold roundDiv
  dsimp only
  split
  · rename_i hup
    -- The quotient is not exact here, so that it is below the bound.
    refine Nat.succ_le_of_lt (lt_of_le_of_ne hq fun hi => ?_)
    have hsplit := Nat.div_add_mod num den
    rw [hi, Nat.mul_comm] at hsplit
    have hrest : num % den = 0 := by omega
    omega
  · exact hq

end

/-! ## The exponent -/

section

variable {num den : Nat} {e : Int}

theorem scale_eq (num den : Nat) (e : Int) :
    scale num den e = (num * 2 ^ (-e).toNat, den * 2 ^ e.toNat) := rfl

theorem scale_snd_pos (num : Nat) (e : Int) (hden : den ≠ 0) : 0 < (scale num den e).2 :=
  Nat.mul_pos (Nat.pos_of_ne_zero hden) (Nat.two_pow_pos _)

/-- A quotient of 54 bits at one exponent has 53 at the next. -/
theorem scale_succ_le (h : 2 ^ 53 * (scale num den e).2 ≤ (scale num den e).1) :
    2 ^ 52 * (scale num den (e + 1)).2 ≤ (scale num den (e + 1)).1 := by
  simp only [scale_eq] at h ⊢
  rcases Int.lt_or_le e 0 with he | he
  · have hzero : (e + 1).toNat = e.toNat := by omega
    have hsucc : (-e).toNat = (-(e + 1)).toNat + 1 := by omega
    rw [hsucc, Nat.pow_succ] at h
    rw [hzero]
    refine Nat.le_of_mul_le_mul_right ?_ (show 0 < 2 by decide)
    calc 2 ^ 52 * (den * 2 ^ e.toNat) * 2 = 2 ^ 53 * (den * 2 ^ e.toNat) := by ring
      _ ≤ num * (2 ^ (-(e + 1)).toNat * 2) := h
      _ = num * 2 ^ (-(e + 1)).toNat * 2 := by ring
  · have hzero : (-(e + 1)).toNat = (-e).toNat := by omega
    have hsucc : (e + 1).toNat = e.toNat + 1 := by omega
    rw [hzero, hsucc, Nat.pow_succ]
    calc 2 ^ 52 * (den * (2 ^ e.toNat * 2)) = 2 ^ 53 * (den * 2 ^ e.toNat) := by ring
      _ ≤ num * 2 ^ (-e).toNat := h

theorem two_pow_mul_le {a b c d : Nat} (h : a + b ≤ c + d) : 2 ^ a * 2 ^ b ≤ 2 ^ c * 2 ^ d := by
  rw [← Nat.pow_add, ← Nat.pow_add]
  exact Nat.pow_le_pow_right (by decide) h

/-- At the exponent that is chosen the quotient has 53 bits, unless that is the lowest exponent. -/
theorem targetExponent_spec (hnum : num ≠ 0) (hden : den ≠ 0) :
    (scale num den (targetExponent num den)).1 <
        2 ^ 53 * (scale num den (targetExponent num den)).2 ∧
      (targetExponent num den = -1074 ∨
        2 ^ 52 * (scale num den (targetExponent num den)).2 ≤
          (scale num den (targetExponent num den)).1) := by
  obtain ⟨e, he⟩ : ∃ e, e = max ((num.log2 : Int) - (den.log2 : Int) - 53) (-1074) := ⟨_, rfl⟩
  have htarget : targetExponent num den =
      if (scale num den e).1 / (scale num den e).2 < 2 ^ 53 then e else e + 1 := by
    rw [he]
    rfl
  have hpos : 0 < (scale num den e).2 := scale_snd_pos num e hden
  have hnumlow := Nat.log2_self_le hnum
  have hnumhigh : num < 2 ^ (num.log2 + 1) := Nat.lt_log2_self
  have hdenlow := Nat.log2_self_le hden
  have hdenhigh : den < 2 ^ (den.log2 + 1) := Nat.lt_log2_self
  rw [htarget]
  split
  · rename_i hfits
    refine ⟨(Nat.div_lt_iff_lt_mul hpos).mp hfits, ?_⟩
    rcases Int.le_total ((num.log2 : Int) - (den.log2 : Int) - 53) (-1074) with hlow | hlow
    · exact .inl (by omega)
    · refine .inr ?_
      calc 2 ^ 52 * (den * 2 ^ e.toNat)
          ≤ 2 ^ 52 * (2 ^ (den.log2 + 1) * 2 ^ e.toNat) := by gcongr
        _ = 2 ^ (52 + (den.log2 + 1)) * 2 ^ e.toNat := by rw [Nat.pow_add]; ring
        _ ≤ 2 ^ num.log2 * 2 ^ (-e).toNat := two_pow_mul_le (by omega)
        _ ≤ num * 2 ^ (-e).toNat := by gcongr
  · rename_i hbig
    refine ⟨?_, .inr (scale_succ_le ((Nat.le_div_iff_mul_le hpos).mp (Nat.le_of_not_lt hbig)))⟩
    calc num * 2 ^ (-(e + 1)).toNat
        < 2 ^ (num.log2 + 1) * 2 ^ (-(e + 1)).toNat := by gcongr
      _ ≤ 2 ^ (53 + den.log2) * 2 ^ (e + 1).toNat := two_pow_mul_le (by omega)
      _ = 2 ^ 53 * (2 ^ den.log2 * 2 ^ (e + 1).toNat) := by rw [Nat.pow_add]; ring
      _ ≤ 2 ^ 53 * (den * 2 ^ (e + 1).toNat) := by gcongr

end

/-! ## The rounded quotient -/

section

variable {negative : Bool} {num den : Nat} {x : Binary64}

def rounded (num den : Nat) : Nat :=
  roundDiv (scale num den (targetExponent num den)).1 (scale num den (targetExponent num den)).2

theorem rounded_le (hnum : num ≠ 0) (hden : den ≠ 0) : rounded num den ≤ 2 ^ 53 :=
  roundDiv_le (scale_snd_pos num _ hden) (Nat.le_of_lt (targetExponent_spec hnum hden).1)

theorem ofRatio?_eq (hnum : num ≠ 0) :
    ofRatio? negative num den =
      if rounded num den < 2 ^ 53 then ofParts? negative (rounded num den) (targetExponent num den)
      else ofParts? negative (2 ^ 52) (targetExponent num den + 1) :=
  if_neg hnum

theorem ofParts?_eq_some {m : Nat} {e : Int} :
    ofParts? negative m e = some x ↔ x.negative = negative ∧ x.mantissa = m ∧ x.exponent = e := by
  obtain ⟨n, m', e', hnormal⟩ := x
  unfold ofParts?
  constructor
  · intro h
    split at h
    · cases h
      exact ⟨rfl, rfl, rfl⟩
    · cases h
  · rintro ⟨rfl, rfl, rfl⟩
    exact dif_pos hnormal

/-- A result has the sign that is asked for, and the rounded mantissa at the exponent. -/
theorem ofRatio?_worth (hnum : num ≠ 0) (hden : den ≠ 0) (h : ofRatio? negative num den = some x) :
    x.negative = negative ∧ x.ratio.1 * 2 ^ (-targetExponent num den).toNat =
      rounded num den * 2 ^ (targetExponent num den).toNat * x.ratio.2 := by
  have hle := rounded_le hnum hden
  rw [ofRatio?_eq hnum] at h
  generalize targetExponent num den = e at h ⊢
  split at h
  · obtain ⟨hneg, hm, he⟩ := ofParts?_eq_some.mp h
    refine ⟨hneg, ?_⟩
    rw [← hm, ← he]
    rfl
  · rename_i hcarry
    obtain ⟨hneg, hm, he⟩ := ofParts?_eq_some.mp h
    have hfull : rounded num den = 2 ^ 53 := by omega
    have hexponents : 52 + (e + 1).toNat + (-e).toNat = 53 + e.toNat + (-(e + 1)).toNat := by omega
    refine ⟨hneg, ?_⟩
    calc x.mantissa * 2 ^ x.exponent.toNat * 2 ^ (-e).toNat
        = 2 ^ (52 + (e + 1).toNat + (-e).toNat) := by rw [hm, he, Nat.pow_add, Nat.pow_add]
      _ = 2 ^ 53 * 2 ^ e.toNat * 2 ^ (-(e + 1)).toNat := by
        rw [hexponents, Nat.pow_add, Nat.pow_add]
      _ = rounded num den * 2 ^ e.toNat * 2 ^ (-x.exponent).toNat := by rw [hfull, he]

theorem ofRatio?_negative {num den : Nat} (hden : den ≠ 0)
    (h : ofRatio? negative num den = some x) : x.negative = negative := by
  by_cases hnum : num = 0
  · rw [ofRatio?, if_pos hnum] at h
    cases h
    rfl
  · exact (ofRatio?_worth hnum hden h).1

/-- A quotient below a power of two that is a double has a result. -/
theorem ofRatio?_isSome (negative : Bool) {k : Nat} (hk : k ≤ 1023) (h : num < 2 ^ k * den) :
    ∃ x, ofRatio? negative num den = some x := by
  have hden : den ≠ 0 := by
    rintro rfl
    omega
  by_cases hnum : num = 0
  · exact ⟨zero negative, if_pos hnum⟩
  obtain ⟨hbelow, hlow⟩ := targetExponent_spec hnum hden
  have hpos := scale_snd_pos num (targetExponent num den) hden
  have hfull : targetExponent num den = -1074 ∨ 2 ^ 52 ≤ rounded num den :=
    hlow.imp_right (le_roundDiv hpos)
  have hsmall : -1074 ≤ targetExponent num den := by
    unfold targetExponent
    dsimp only
    split <;> omega
  have hlarge : targetExponent num den ≤ 970 := by
    refine Int.not_lt.mp fun hbig => ?_
    have hquotient := hlow.resolve_left (by omega)
    have hzero : (-targetExponent num den).toNat = 0 := by omega
    simp only [scale_eq, hzero, Nat.pow_zero, Nat.mul_one] at hquotient
    have hpowers : 2 ^ k ≤ 2 ^ (52 + (targetExponent num den).toNat) :=
      Nat.pow_le_pow_right (by decide) (by omega)
    have hover : 2 ^ k * den ≤ num := by
      calc 2 ^ k * den ≤ 2 ^ (52 + (targetExponent num den).toNat) * den :=
            Nat.mul_le_mul_right _ hpowers
        _ = 2 ^ 52 * (den * 2 ^ (targetExponent num den).toNat) := by rw [Nat.pow_add]; ring
        _ ≤ num := hquotient
    omega
  rw [ofRatio?_eq hnum]
  split
  · rename_i hfits
    exact ⟨_, dif_pos ⟨hfits, hsmall, by omega, hfull.symm⟩⟩
  · exact ⟨_, dif_pos ⟨by decide, by omega, by omega, .inl (by decide)⟩⟩

end

/-! ## Numbers that are not crossed -/

def Short (c : Nat) : Prop := ∃ m j, m < 2 ^ 53 ∧ c = m * 2 ^ j

def AtLeast (x : Binary64) (c : Nat) : Prop := c * x.ratio.2 ≤ x.ratio.1

def AtMost (x : Binary64) (c : Nat) : Prop := x.ratio.1 ≤ c * x.ratio.2

section

variable {negative : Bool} {num den c : Nat} {x : Binary64}

theorem ratio_snd_pos (x : Binary64) : 0 < x.ratio.2 := Nat.two_pow_pos _

theorem AtLeast.mono {c' : Nat} (h : x.AtLeast c) (hc : c' ≤ c) : x.AtLeast c' :=
  (Nat.mul_le_mul_right _ hc).trans h

theorem AtLeast.isZero_eq (h : x.AtLeast c) (hc : 0 < c) : x.isZero = false := by
  refine decide_eq_false fun hm => ?_
  have hpos := Nat.mul_pos hc x.ratio_snd_pos
  have hzero : x.ratio.1 = 0 := by rw [ratio, hm, Nat.zero_mul]
  rw [AtLeast, hzero] at h
  omega

/-- The value of a double that is an integer is compared like the double. -/
theorem AtLeast.toInt?_eq {n : Int} (h : x.AtLeast c) (hn : x.toInt? = some n) :
    ∃ k, c ≤ k ∧ n = signed x.negative k := by
  obtain ⟨-, rfl⟩ := toInt?_eq_some.mp hn
  exact ⟨_, (Nat.le_div_iff_mul_le x.ratio_snd_pos).mpr h, rfl⟩

theorem toInt?_of_bounds (hleast : x.AtLeast c) (hmost : x.AtMost c) :
    x.toInt? = some (signed x.negative c) := by
  have hratio : x.ratio.1 = c * x.ratio.2 := Nat.le_antisymm hmost hleast
  refine toInt?_eq_some.mpr ⟨?_, ?_⟩
  · rw [hratio, Nat.mul_mod_left]
  · rw [hratio, Nat.mul_div_cancel c x.ratio_snd_pos]

/-- A short number is a multiple of the unit in which quotients are rounded, or it has fewer than
53 bits above the unit. -/
theorem Short.on_grid (hc : Short c) (e : Int) :
    (∃ i, c * 2 ^ (-e).toNat = i * 2 ^ e.toNat) ∨
      0 < e ∧ c * 2 ^ (-e).toNat < 2 ^ 52 * 2 ^ e.toNat := by
  rcases Int.lt_or_le 0 e with he | he
  · have hzero : (-e).toNat = 0 := by omega
    rw [hzero, Nat.pow_zero, Nat.mul_one]
    rcases Nat.lt_or_ge c (2 ^ 52 * 2 ^ e.toNat) with hsmall | hbig
    · exact .inr ⟨he, hsmall⟩
    obtain ⟨m, j, hm, rfl⟩ := hc
    have hlt : 2 ^ (52 + e.toNat) < 2 ^ (53 + j) := by
      calc 2 ^ (52 + e.toNat) = 2 ^ 52 * 2 ^ e.toNat := Nat.pow_add ..
        _ ≤ m * 2 ^ j := hbig
        _ < 2 ^ 53 * 2 ^ j := Nat.mul_lt_mul_of_pos_right hm (Nat.two_pow_pos _)
        _ = 2 ^ (53 + j) := (Nat.pow_add ..).symm
    have hj := (Nat.pow_lt_pow_iff_right (by decide)).mp hlt
    obtain ⟨i, hi⟩ := Dvd.dvd.mul_left (Nat.pow_dvd_pow 2 (show e.toNat ≤ j by omega)) m
    exact .inl ⟨i, by rw [hi, Nat.mul_comm]⟩
  · have hzero : e.toNat = 0 := by omega
    exact .inl ⟨_, by rw [hzero, Nat.pow_zero, Nat.mul_one]⟩

/-- A result is compared with a number through the rounded mantissa. -/
theorem ofRatio?_atLeast_iff (hnum : num ≠ 0) (hden : den ≠ 0)
    (hx : ofRatio? negative num den = some x) :
    x.AtLeast c ↔ c * 2 ^ (-targetExponent num den).toNat ≤
      rounded num den * 2 ^ (targetExponent num den).toNat := by
  have hworth := (ofRatio?_worth hnum hden hx).2
  generalize targetExponent num den = e at hworth ⊢
  calc x.AtLeast c
      ↔ c * x.ratio.2 * 2 ^ (-e).toNat ≤ x.ratio.1 * 2 ^ (-e).toNat :=
        (Nat.mul_le_mul_right_iff (Nat.two_pow_pos _)).symm
    _ ↔ c * 2 ^ (-e).toNat * x.ratio.2 ≤ rounded num den * 2 ^ e.toNat * x.ratio.2 := by
        rw [hworth, Nat.mul_right_comm]
    _ ↔ c * 2 ^ (-e).toNat ≤ rounded num den * 2 ^ e.toNat :=
        Nat.mul_le_mul_right_iff x.ratio_snd_pos

theorem ofRatio?_atMost_iff (hnum : num ≠ 0) (hden : den ≠ 0)
    (hx : ofRatio? negative num den = some x) :
    x.AtMost c ↔ rounded num den * 2 ^ (targetExponent num den).toNat ≤
      c * 2 ^ (-targetExponent num den).toNat := by
  have hworth := (ofRatio?_worth hnum hden hx).2
  generalize targetExponent num den = e at hworth ⊢
  calc x.AtMost c
      ↔ x.ratio.1 * 2 ^ (-e).toNat ≤ c * x.ratio.2 * 2 ^ (-e).toNat :=
        (Nat.mul_le_mul_right_iff (Nat.two_pow_pos _)).symm
    _ ↔ rounded num den * 2 ^ e.toNat * x.ratio.2 ≤ c * 2 ^ (-e).toNat * x.ratio.2 := by
        rw [hworth, Nat.mul_right_comm c]
    _ ↔ rounded num den * 2 ^ e.toNat ≤ c * 2 ^ (-e).toNat :=
        Nat.mul_le_mul_right_iff x.ratio_snd_pos

theorem ofRatio?_atLeast (hc : Short c) (hden : den ≠ 0) (h : c * den ≤ num)
    (hx : ofRatio? negative num den = some x) : x.AtLeast c := by
  by_cases hnum : num = 0
  · have hzero : c = 0 := by
      rw [hnum, Nat.le_zero, Nat.mul_eq_zero] at h
      exact h.resolve_right hden
    simp [AtLeast, hzero]
  rw [ofRatio?_atLeast_iff hnum hden hx]
  have hpos := scale_snd_pos num (targetExponent num den) hden
  obtain ⟨-, hlow⟩ := targetExponent_spec hnum hden
  unfold rounded
  generalize targetExponent num den = e at hlow hpos ⊢
  rcases hc.on_grid e with ⟨i, hi⟩ | ⟨he, hsmall⟩
  · rw [hi]
    refine Nat.mul_le_mul_right _ (le_roundDiv hpos ?_)
    calc i * (den * 2 ^ e.toNat) = i * 2 ^ e.toNat * den := by ring
      _ = c * den * 2 ^ (-e).toNat := by rw [← hi, Nat.mul_right_comm]
      _ ≤ num * 2 ^ (-e).toNat := Nat.mul_le_mul_right _ h
  · have hmantissa := le_roundDiv hpos (hlow.resolve_left (by omega))
    exact (Nat.le_of_lt hsmall).trans (Nat.mul_le_mul_right _ hmantissa)

theorem ofRatio?_atMost (hc : Short c) (hden : den ≠ 0) (h : num ≤ c * den)
    (hx : ofRatio? negative num den = some x) : x.AtMost c := by
  by_cases hnum : num = 0
  · rw [ofRatio?, if_pos hnum] at hx
    cases hx
    exact (Nat.zero_mul _).trans_le (Nat.zero_le _)
  rw [ofRatio?_atMost_iff hnum hden hx]
  have hpos := scale_snd_pos num (targetExponent num den) hden
  obtain ⟨-, hlow⟩ := targetExponent_spec hnum hden
  unfold rounded
  generalize targetExponent num den = e at hlow hpos ⊢
  rcases hc.on_grid e with ⟨i, hi⟩ | ⟨he, hsmall⟩
  · rw [hi]
    refine Nat.mul_le_mul_right _ (roundDiv_le hpos ?_)
    calc num * 2 ^ (-e).toNat ≤ c * den * 2 ^ (-e).toNat := Nat.mul_le_mul_right _ h
      _ = i * 2 ^ e.toNat * den := by rw [← hi, Nat.mul_right_comm]
      _ = i * (den * 2 ^ e.toNat) := by ring
  · -- A quotient of 53 bits above the unit is not below a number of fewer.
    refine absurd (hlow.resolve_left (by omega)) (Nat.not_le_of_lt ?_)
    calc num * 2 ^ (-e).toNat ≤ c * den * 2 ^ (-e).toNat := Nat.mul_le_mul_right _ h
      _ = c * 2 ^ (-e).toNat * den := Nat.mul_right_comm ..
      _ < 2 ^ 52 * 2 ^ e.toNat * den :=
        Nat.mul_lt_mul_of_pos_right hsmall (Nat.pos_of_ne_zero hden)
      _ = 2 ^ 52 * (den * 2 ^ e.toNat) := by ring

end

/-! ## Products -/

section

variable {c d : Nat} {x y z : Binary64}

theorem mul?_negative (h : x.mul? y = some z) : z.negative = (x.negative != y.negative) :=
  ofRatio?_negative (Nat.mul_pos x.ratio_snd_pos y.ratio_snd_pos).ne' h

theorem mul?_atLeast (hcd : Short (c * d)) (hx : x.AtLeast c) (hy : y.AtLeast d)
    (h : x.mul? y = some z) : z.AtLeast (c * d) := by
  refine ofRatio?_atLeast hcd (Nat.mul_pos x.ratio_snd_pos y.ratio_snd_pos).ne' ?_ h
  exact (Nat.mul_mul_mul_comm ..).trans_le (Nat.mul_le_mul hx hy)

theorem mul?_atMost (hcd : Short (c * d)) (hx : x.AtMost c) (hy : y.AtMost d)
    (h : x.mul? y = some z) : z.AtMost (c * d) := by
  refine ofRatio?_atMost hcd (Nat.mul_pos x.ratio_snd_pos y.ratio_snd_pos).ne' ?_ h
  exact (Nat.mul_le_mul hx hy).trans_eq (Nat.mul_mul_mul_comm ..)

end

/-! ## Around `2 ^ 63`

Doubles are 2048 apart above `2 ^ 63`, so that natural numbers up to 1024 beyond it are rounded
down to it: the tie goes to the even mantissa. -/

section

variable {negative : Bool} {k : Nat} {x : Binary64}

theorem targetExponent_limit (hlow : 2 ^ 63 ≤ k) (hhigh : k < 2 ^ 64) :
    targetExponent k 1 = 11 := by
  have hk : k ≠ 0 := by omega
  obtain ⟨hbelow, habove⟩ := targetExponent_spec hk Nat.one_ne_zero
  generalize targetExponent k 1 = e at hbelow habove ⊢
  simp only [scale_eq, Nat.one_mul] at hbelow habove
  have he : 0 ≤ e := by
    refine Int.not_lt.mp fun hneg => ?_
    have hzero : e.toNat = 0 := by omega
    rw [hzero] at hbelow
    have hle := Nat.le_mul_of_pos_right k (Nat.two_pow_pos (-e).toNat)
    omega
  have hzero : (-e).toNat = 0 := by omega
  rw [hzero, Nat.pow_zero, Nat.mul_one, ← Nat.pow_add] at hbelow habove
  have hl := (Nat.pow_lt_pow_iff_right (by decide)).mp (hlow.trans_lt hbelow)
  have hu := (Nat.pow_lt_pow_iff_right (by decide)).mp
    ((habove.resolve_left (by omega)).trans_lt hhigh)
  omega

theorem roundDiv_down (hlow : 2 ^ 63 ≤ k) (hnear : k ≤ 2 ^ 63 + 1024) :
    roundDiv k 2048 = 2 ^ 52 := by
  unfold roundDiv
  dsimp only
  split <;> omega

theorem roundDiv_up (hfar : 2 ^ 63 + 1024 < k) : 2 ^ 52 + 1 ≤ roundDiv k 2048 := by
  unfold roundDiv
  dsimp only
  split <;> omega

theorem rounded_limit (hlow : 2 ^ 63 ≤ k) (hhigh : k < 2 ^ 64) :
    rounded k 1 = roundDiv k 2048 := by
  rw [rounded, targetExponent_limit hlow hhigh]
  simp [scale_eq]

theorem ofRatio?_down (hlow : 2 ^ 63 ≤ k) (hnear : k ≤ 2 ^ 63 + 1024)
    (hx : ofRatio? negative k 1 = some x) : x.AtLeast (2 ^ 63) ∧ x.AtMost (2 ^ 63) := by
  have hhigh : k < 2 ^ 64 := by omega
  rw [ofRatio?_atLeast_iff (by omega) Nat.one_ne_zero hx,
    ofRatio?_atMost_iff (by omega) Nat.one_ne_zero hx, rounded_limit hlow hhigh,
    roundDiv_down hlow hnear, targetExponent_limit hlow hhigh]
  decide

theorem short_beyond : Short (2 ^ 63 + 2048) := ⟨2 ^ 52 + 1, 11, by decide, by decide⟩

theorem ofRatio?_up (hfar : 2 ^ 63 + 1024 < k) (hx : ofRatio? negative k 1 = some x) :
    x.AtLeast (2 ^ 63 + 2048) := by
  rcases Nat.lt_or_ge k (2 ^ 64) with hhigh | hhigh
  · have hlow : 2 ^ 63 ≤ k := by omega
    rw [ofRatio?_atLeast_iff (by omega) Nat.one_ne_zero hx, rounded_limit hlow hhigh,
      targetExponent_limit hlow hhigh]
    exact Nat.mul_le_mul_right (2 ^ 11) (roundDiv_up hfar)
  · exact ofRatio?_atLeast short_beyond Nat.one_ne_zero (by omega) hx

/-- A double read from the digits of a natural number of at least `2 ^ 63`: that power of two up to
1024 beyond it, and more from there on. -/
structure Limits (x : Binary64) (k : Nat) : Prop where
  near : k ≤ 2 ^ 63 + 1024 → x.AtLeast (2 ^ 63) ∧ x.AtMost (2 ^ 63)
  far : 2 ^ 63 + 1024 < k → x.AtLeast (2 ^ 63 + 2048)

theorem ofRatio?_limits (hk : 2 ^ 63 ≤ k) (h : ofRatio? negative k 1 = some x) : x.Limits k :=
  ⟨fun hnear => ofRatio?_down hk hnear h, fun hfar => ofRatio?_up hfar h⟩

theorem Limits.atLeast (h : x.Limits k) : x.AtLeast (2 ^ 63) := by
  rcases Nat.lt_or_ge (2 ^ 63 + 1024) k with hfar | hnear
  · exact (h.far hfar).mono (by decide)
  · exact (h.near hnear).1

theorem ofDecimal?_isSome (negative : Bool) (hk : k < 2 ^ 64) : ∃ x, ofDecimal? negative k 0 = some x := by
  unfold ofDecimal?
  split
  · exact ⟨_, rfl⟩
  · rename_i hne
    have hlog : k.log2 < 64 := (Nat.log2_lt hne).mpr hk
    dsimp only
    rw [if_neg (by omega), if_neg (by omega)]
    exact ofRatio?_isSome negative (show 64 ≤ 1023 by decide) (by simpa using hk)

/-- A decimal of at least `2 ^ 63` is a double as its digits are. -/
theorem ofDecimal?_limits (hk : 2 ^ 63 ≤ k) (h : ofDecimal? negative k 0 = some x) :
    x.negative = negative ∧ x.Limits k := by
  have hne : k ≠ 0 := by omega
  have hratio : ofRatio? negative k 1 = some x := by
    simp only [ofDecimal?, if_neg hne, Int.add_zero] at h
    split at h
    · cases h
    · rw [if_neg (by omega)] at h
      simpa using h
  exact ⟨ofRatio?_negative Nat.one_ne_zero hratio, ofRatio?_limits hk hratio⟩

end

end RouteContract.Number.Binary64
