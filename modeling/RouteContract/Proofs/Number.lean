import Mathlib.Data.Nat.Basic
import Mathlib.Tactic.Ring
import RouteContract.Number.Reader
import RouteContract.Proofs.Schema.Sameness

/-!
# Digits and exact doubles

A natural number is read back from its digits, and digits are worth less than a
one with as many zeros. An integer that is the value of a double is the value of
one double only, up to the sign of zero, so that rounding it gives the double back.
-/

set_option autoImplicit false

namespace RouteContract.Number

theorem digit?_eq {c : Char} (h : c.isDigit) : digit? c = some (c.toNat - '0'.toNat) := if_pos h

theorem digit?_lt {c : Char} {d : Nat} (h : digit? c = some d) : d < 10 := by
  unfold digit? at h
  split at h
  · rename_i hc
    cases h
    have hzero : '0'.toNat = 48 := rfl
    have hnine : '9'.toNat = 57 := rfl
    obtain ⟨-, hc⟩ := Char.isDigit_iff_toNat.mp hc
    omega
  · cases h

theorem ofDigits_lt {ds : List Nat} (h : ∀ d ∈ ds, d < 10) : ofDigits 10 ds < 10 ^ ds.length := by
  have general : ∀ (ds : List Nat) (n k : Nat), (∀ d ∈ ds, d < 10) → n < 10 ^ k →
      ds.foldl (fun n d => n * 10 + d) n < 10 ^ (k + ds.length) := by
    intro ds
    induction ds with
    | nil => exact fun n k _ hn => hn
    | cons d ds ih =>
      intro n k h hn
      have hd := h d List.mem_cons_self
      have hnext : n * 10 + d < 10 ^ (k + 1) := by rw [pow_succ]; omega
      have hrest := ih _ (k + 1) (fun x hx => h x (List.mem_cons_of_mem d hx)) hnext
      rwa [Nat.add_assoc, Nat.add_comm 1] at hrest
  simpa [ofDigits] using general ds 0 0 h (by simp)

theorem ofDigits_filterMap_lt (cs : List Char) :
    ofDigits 10 (cs.filterMap digit?) < 10 ^ cs.length := by
  have hlt : ∀ d ∈ cs.filterMap digit?, d < 10 := by
    intro d hd
    obtain ⟨c, -, hc⟩ := List.mem_filterMap.mp hd
    exact digit?_lt hc
  exact (ofDigits_lt hlt).trans_le (Nat.pow_le_pow_right (by decide) (List.length_filterMap_le ..))

theorem ofDigits_filterMap {cs : List Char} (h : ∀ c ∈ cs, c.isDigit) :
    ofDigits 10 (cs.filterMap digit?) = Nat.ofDigitChars 10 cs 0 := by
  unfold ofDigits Nat.ofDigitChars
  generalize 0 = n
  induction cs generalizing n with
  | nil => rfl
  | cons c cs ih =>
    rw [List.filterMap_cons_some (digit?_eq (h c List.mem_cons_self)), List.foldl_cons,
      List.foldl_cons, ih (fun x hx => h x (List.mem_cons_of_mem c hx)), Nat.mul_comm]

namespace Binary64

/-- A quotient that leaves no rest needs no rounding. -/
theorem roundDiv_mul (m : Nat) {d : Nat} (hd : 0 < d) : roundDiv (m * d) d = m := by
  simp [roundDiv, Nat.mul_div_cancel m hd, Nat.ne_of_lt hd]

section

variable {k m : Nat} {e : Int}

def Worth (k m : Nat) (e : Int) : Prop := k * 2 ^ (-e).toNat = m * 2 ^ e.toNat

theorem Worth.scale_eq (h : Worth k m e) {f : Int} (hf : f ≤ e) :
    scale k 1 f = (m * 2 ^ (e - f).toNat * 2 ^ f.toNat, 2 ^ f.toNat) := by
  have hpow : e.toNat + (-f).toNat = (e - f).toNat + f.toNat + (-e).toNat := by omega
  have hk : k * 2 ^ (-f).toNat * 2 ^ (-e).toNat =
      m * 2 ^ (e - f).toNat * 2 ^ f.toNat * 2 ^ (-e).toNat := by
    calc k * 2 ^ (-f).toNat * 2 ^ (-e).toNat = k * 2 ^ (-e).toNat * 2 ^ (-f).toNat :=
          Nat.mul_right_comm ..
      _ = m * 2 ^ e.toNat * 2 ^ (-f).toNat := congrArg (· * _) h
      _ = m * 2 ^ (e.toNat + (-f).toNat) := by rw [Nat.pow_add, Nat.mul_assoc]
      _ = m * 2 ^ (e - f).toNat * 2 ^ f.toNat * 2 ^ (-e).toNat := by
        rw [hpow, Nat.pow_add, Nat.pow_add]; ring
  have hcancel := Nat.eq_of_mul_eq_mul_right (Nat.two_pow_pos _) hk
  simp only [scale, one_mul]
  exact congrArg (·, _) hcancel

theorem Worth.log2_eq (h : Worth k m e) (hk : k ≠ 0) (hlow : 2 ^ 52 ≤ m) (hhigh : m < 2 ^ 53) :
    (k.log2 : Int) = 52 + e := by
  have hlower : 2 ^ (k.log2 + (-e).toNat) < 2 ^ (53 + e.toNat) := by
    rw [Nat.pow_add, Nat.pow_add]
    calc 2 ^ k.log2 * 2 ^ (-e).toNat ≤ k * 2 ^ (-e).toNat :=
          Nat.mul_le_mul_right _ (Nat.log2_self_le hk)
      _ = m * 2 ^ e.toNat := h
      _ < 2 ^ 53 * 2 ^ e.toNat := Nat.mul_lt_mul_of_pos_right hhigh (Nat.two_pow_pos _)
  have hupper : 2 ^ (52 + e.toNat) < 2 ^ (k.log2 + 1 + (-e).toNat) := by
    rw [Nat.pow_add, Nat.pow_add]
    calc 2 ^ 52 * 2 ^ e.toNat ≤ m * 2 ^ e.toNat := Nat.mul_le_mul_right _ hlow
      _ = k * 2 ^ (-e).toNat := h.symm
      _ < 2 ^ (k.log2 + 1) * 2 ^ (-e).toNat :=
          Nat.mul_lt_mul_of_pos_right Nat.lt_log2_self (Nat.two_pow_pos _)
  have hl := (Nat.pow_lt_pow_iff_right (by decide)).mp hlower
  have hu := (Nat.pow_lt_pow_iff_right (by decide)).mp hupper
  omega

theorem Worth.targetExponent_eq (h : Worth k m e) (hk : k ≠ 0) (hlow : 2 ^ 52 ≤ m)
    (hhigh : m < 2 ^ 53) : targetExponent k 1 = e := by
  have hlog := h.log2_eq hk hlow hhigh
  -- The first guess is one too low, where the mantissa has 54 bits.
  have hfirst : max ((k.log2 : Int) - (Nat.log2 1 : Nat) - 53) (-1074) = e - 1 := by
    simp only [show Nat.log2 1 = 0 from rfl]
    omega
  have hscale := h.scale_eq (show e - 1 ≤ e by omega)
  have hone : (e - (e - 1)).toNat = 1 := by omega
  rw [hone] at hscale
  have hquotient : m * 2 ^ 1 * 2 ^ (e - 1).toNat / 2 ^ (e - 1).toNat = m * 2 ^ 1 :=
    Nat.mul_div_cancel _ (Nat.two_pow_pos _)
  have hbig : ¬ m * 2 ^ 1 < Nat.pow 2 53 := by
    have hpow : Nat.pow 2 53 = 2 ^ 52 * 2 ^ 1 := rfl
    omega
  simp only [targetExponent, hfirst, hscale, hquotient, if_neg hbig]
  omega

/-- An integral double other than zero has a full mantissa. -/
theorem Worth.full (h : Worth k m e) (hk : k ≠ 0) (hnormal : Normal m e) : 2 ^ 52 ≤ m := by
  obtain ⟨hhigh, -, -, hfull⟩ := hnormal
  refine hfull.resolve_right fun he => Nat.not_le_of_lt hhigh ?_
  have hwhole : e.toNat = 0 := by omega
  calc 2 ^ 53 ≤ 2 ^ (-e).toNat := Nat.pow_le_pow_right (by decide) (by omega)
    _ ≤ k * 2 ^ (-e).toNat := Nat.le_mul_of_pos_left _ (Nat.pos_of_ne_zero hk)
    _ = m * 2 ^ e.toNat := h
    _ = m := by rw [hwhole, Nat.pow_zero, Nat.mul_one]

end

theorem Worth.ofRatio?_eq {k : Nat} {x : Binary64} (h : Worth k x.mantissa x.exponent)
    (hk : k ≠ 0) : ofRatio? x.negative k 1 = some x := by
  obtain ⟨negative, m, e, hnormal⟩ := x
  have htarget := h.targetExponent_eq hk (h.full hk hnormal) hnormal.1
  have hscale := h.scale_eq (Int.le_refl e)
  simp only [Int.sub_self, Int.toNat_zero, pow_zero, mul_one] at hscale
  have hround : roundDiv (m * 2 ^ e.toNat) (2 ^ e.toNat) = m := roundDiv_mul m (Nat.two_pow_pos _)
  have hm : m < Nat.pow 2 53 := hnormal.1
  simp only [ofRatio?, if_neg hk, htarget, hscale, hround, if_pos hm, ofParts?, dif_pos hnormal]

theorem toInt?_eq_some {x : Binary64} {n : Int} :
    x.toInt? = some n ↔
      x.ratio.1 % x.ratio.2 = 0 ∧ signed x.negative (x.ratio.1 / x.ratio.2) = n := by
  have heq : x.toInt? = if x.ratio.1 % x.ratio.2 = 0 then
      some (signed x.negative (x.ratio.1 / x.ratio.2)) else none := rfl
  rw [heq, Option.ite_none_right_eq_some, Option.some.injEq]

/-- An integer that is the value of a double is represented exactly. -/
theorem ofInt?_of_toInt? {x : Binary64} {n : Int} (h : x.toInt? = some n) :
    ∃ y, ofInt? n = some y ∧ y.same x := by
  obtain ⟨hrest, rfl⟩ := toInt?_eq_some.mp h
  have hworth : Worth (x.ratio.1 / x.ratio.2) x.mantissa x.exponent :=
    Nat.div_mul_cancel (Nat.dvd_of_mod_eq_zero hrest)
  generalize x.ratio.1 / x.ratio.2 = k at hworth
  by_cases hk : k = 0
  · subst hk
    have hm : x.mantissa = 0 := by
      rw [Worth, Nat.zero_mul, eq_comm, Nat.mul_eq_zero] at hworth
      exact hworth.resolve_right (Nat.two_pow_pos _).ne'
    refine ⟨zero false, ?_, same_iff.mpr (.inr ⟨rfl, by simpa [isZero] using hm⟩)⟩
    cases x.negative <;> rfl
  · have hsign : decide (signed x.negative k < 0) = x.negative := by
      cases x.negative with
      | false => simp [signed]
      | true => simpa [signed] using Nat.pos_of_ne_zero hk
    have habs : (signed x.negative k).natAbs = k := by cases x.negative <;> simp [signed]
    refine ⟨x, ?_, same_self x⟩
    rw [ofInt?, hsign, habs]
    exact hworth.ofRatio?_eq hk

end Binary64

end RouteContract.Number
