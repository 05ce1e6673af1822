import RouteContract.Json.Reader
import RouteContract.Number.Layout
import RouteContract.Proofs.Number.Rounding

/-!
# Integers in plain decimal

The digits of an integer without zeros in front, read as a text and as a JSON
literal. A literal of at most 64 bits is read with all its digits; a longer one
keeps as many as fit and is scaled by a rounded power of ten. Close to `2 ^ 63`
the double is known exactly, and farther off only to be larger.
-/

set_option autoImplicit false

namespace RouteContract.Number

def plain (negative : Bool) (k : Nat) : List Char := sign negative ++ Nat.toDigits 10 k

/-! ## Digits -/

section

variable {cs rest : List Char} {k n : Nat} {c : Char}

theorem isDigit_of_mem_digits (h : c ∈ Nat.toDigits 10 k) : c.isDigit :=
  Nat.isDigit_of_mem_toDigits (by decide) (by decide) h

theorem ofDigits_digits : ofDigits 10 ((Nat.toDigits 10 k).filterMap digit?) = k := by
  rw [ofDigits_filterMap fun _ => isDigit_of_mem_digits, Nat.ofDigitChars_ten_toDigits]

theorem mapM_digit? (h : ∀ c ∈ cs, c.isDigit) : cs.mapM digit? = some (cs.filterMap digit?) := by
  induction cs with
  | nil => rfl
  | cons c cs ih =>
    have hc := digit?_eq (h c List.mem_cons_self)
    rw [List.mapM_cons, ih fun x hx => h x (List.mem_cons_of_mem c hx), hc,
      List.filterMap_cons_some hc]
    rfl

theorem natural?_digits : natural? 10 digit? (Nat.toDigits 10 k) = some k := by
  rw [natural?, if_neg (by simp [Nat.toDigits_ne_nil]), mapM_digit? fun _ => isDigit_of_mem_digits,
    Option.map_some, ofDigits_digits]

theorem spanDigits_append (cs rest : List Char) (h : ∀ c ∈ cs, c.isDigit)
    (hrest : ∀ c ∈ rest.head?, c.isDigit = false) : spanDigits (cs ++ rest) = (cs, rest) := by
  rw [spanDigits, List.takeWhile_append_of_pos h, List.dropWhile_append_of_pos h]
  cases rest with
  | nil => simp
  | cons c rest => simp [hrest c rfl]

/-- More digits make a number no smaller. -/
theorem le_ofDigitChars (cs : List Char) (n : Nat) : n ≤ Nat.ofDigitChars 10 cs n := by
  rw [Nat.ofDigitChars_eq_ofDigitChars_zero]
  have hpos : 0 < 10 ^ cs.length := Nat.pow_pos (by decide)
  exact (Nat.le_mul_of_pos_left n hpos).trans (Nat.le_add_right ..)

theorem ofDigitChars_lt (h : ∀ c ∈ cs, c.isDigit) :
    Nat.ofDigitChars 10 cs 0 < 10 ^ cs.length := by
  rw [← ofDigits_filterMap h]
  exact ofDigits_filterMap_lt cs

/-- Only zero is written with a zero in front. -/
theorem head_digits (h : 1 < (Nat.toDigits 10 k).length) :
    (Nat.toDigits 10 k).head? ≠ some '0' := by
  intro hzero
  obtain ⟨cs, hcs⟩ := List.head?_eq_some_iff.mp hzero
  have hlength : (Nat.toDigits 10 k).length = cs.length + 1 := by rw [hcs, List.length_cons]
  have hvalue : Nat.ofDigitChars 10 cs 0 = k := by
    rw [← Nat.ofDigitChars_ten_toDigits (n := k), hcs, Nat.ofDigitChars_cons]
    rfl
  have hlt : k < 10 ^ cs.length := by
    rw [← hvalue]
    refine ofDigitChars_lt fun c hc => isDigit_of_mem_digits (k := k) ?_
    exact hcs ▸ List.mem_cons_of_mem _ hc
  have hle := (Nat.length_toDigits_le_iff (by decide) (show 0 < cs.length by omega)).mpr hlt
  omega

theorem digits_eq_cons (k : Nat) : ∃ c cs, Nat.toDigits 10 k = c :: cs ∧ c.isDigit := by
  cases hdigits : Nat.toDigits 10 k with
  | nil => exact absurd hdigits Nat.toDigits_ne_nil
  | cons c cs => exact ⟨c, cs, rfl, isDigit_of_mem_digits (k := k) (hdigits ▸ List.mem_cons_self)⟩

theorem ne_of_isDigit {d : Char} (hc : c.isDigit) (hd : d.isDigit = false) : c ≠ d := by
  rintro rfl
  rw [hc] at hd
  cases hd

theorem splitSign_plain {negative : Bool} :
    splitSign (plain negative k) = (negative, Nat.toDigits 10 k) := by
  cases negative with
  | true => rfl
  | false =>
    obtain ⟨c, cs, hdigits, hc⟩ := digits_eq_cons k
    have hminus : c ≠ '-' := ne_of_isDigit hc rfl
    have hplus : c ≠ '+' := ne_of_isDigit hc rfl
    simp [plain, sign, hdigits, splitSign, hminus, hplus]

theorem integer?_plain {negative : Bool} :
    integer? (plain negative k) = some (Binary64.signed negative k) := by
  rw [integer?, splitSign_plain]
  simp only [natural?_digits]
  rfl

theorem decimal?_plain {negative : Bool} :
    decimal? (plain negative k) = Binary64.ofDecimal? negative k 0 := by
  have hspan := spanDigits_append (Nat.toDigits 10 k) []
    (fun _ => isDigit_of_mem_digits) (fun _ h => nomatch h)
  rw [List.append_nil] at hspan
  simp [decimal?, splitSign_plain, hspan, Nat.toDigits_ne_nil, exponent?, ofDigits_digits]

end

end RouteContract.Number

namespace RouteContract.Json

open Number Binary64

/-! ## Powers of ten and scaled significands -/

section

variable {negative : Bool} {k : Nat} {p x y z : Binary64}

theorem power10?_eq (hk : k ≤ 308) : power10? k = ofRatio? false (10 ^ k) 1 := by
  have hsize : ((Nat.log2 1 : Nat) : Int) / 4 = 0 := rfl
  rw [power10?, if_pos hk, ofDecimal?, if_neg Nat.one_ne_zero, hsize, if_neg (by omega),
    if_neg (by omega)]
  simp

theorem ofRatio?_of_power10? (h : power10? k = some p) : ofRatio? false (10 ^ k) 1 = some p := by
  by_cases hk : k ≤ 308
  · rwa [power10?_eq hk] at h
  · simp [power10?, hk] at h

theorem short_one : Short 1 := ⟨1, 0, by decide, rfl⟩

theorem power10?_zero_atLeast (h : power10? 0 = some p) : p.AtLeast 1 :=
  ofRatio?_atLeast short_one Nat.one_ne_zero (Nat.le_refl _) (ofRatio?_of_power10? h)

theorem power10?_zero_atMost (h : power10? 0 = some p) : p.AtMost 1 :=
  ofRatio?_atMost short_one Nat.one_ne_zero (Nat.le_refl _) (ofRatio?_of_power10? h)

theorem power10?_atLeast (hk : 0 < k) (h : power10? k = some p) : p.AtLeast 10 := by
  refine ofRatio?_atLeast ⟨10, 0, by decide, rfl⟩ Nat.one_ne_zero ?_ (ofRatio?_of_power10? h)
  exact Nat.le_self_pow hk.ne' 10

theorem ofInt?_natCast (n : Nat) : ofInt? (n : Int) = ofRatio? false n 1 := by
  rw [ofInt?, decide_eq_false (by omega), Int.natAbs_natCast]

/-- A significand scaled by tens is the product of two doubles. -/
theorem scaled?_eq (hx : x.isZero = false) (k : Nat) :
    scaled? x k = (power10? k).bind x.mul? := by
  rw [scaled?, if_pos (Int.natCast_nonneg k), if_neg (by simp [hx])]
  rfl

end

/-! ## Significands -/

section

variable {cs : List Char} {s k : Nat}

theorem digit?_getD {c : Char} (h : c.isDigit) : (digit? c).getD 0 = c.toNat - '0'.toNat := by
  rw [digit?_eq h, Option.getD_some]

/-- Digits are collected up to the first one that does not fit any more. -/
theorem collect_spec (cs : List Char) (s : Nat) (hdigits : ∀ c ∈ cs, c.isDigit) (hs : s < 2 ^ 64) :
    ∃ taken rest, cs = taken ++ rest ∧
      collect s cs = (Nat.ofDigitChars 10 taken s, taken.length) ∧
      Nat.ofDigitChars 10 taken s < 2 ^ 64 ∧
      ∀ c ∈ rest.head?, 2 ^ 64 ≤ Nat.ofDigitChars 10 (taken ++ [c]) s := by
  induction cs generalizing s with
  | nil => exact ⟨[], [], rfl, rfl, hs, fun _ h => nomatch h⟩
  | cons c cs ih =>
    have hvalue := digit?_getD (hdigits c List.mem_cons_self)
    have hnext : s * 10 + (digit? c).getD 0 = 10 * s + (c.toNat - '0'.toNat) := by
      rw [hvalue, Nat.mul_comm]
    by_cases hfits : s * 10 + (digit? c).getD 0 < 2 ^ 64
    · obtain ⟨taken, rest, rfl, hcollect, hlt, hstop⟩ :=
        ih _ (fun x hx => hdigits x (List.mem_cons_of_mem c hx)) hfits
      refine ⟨c :: taken, rest, rfl, ?_, ?_, ?_⟩
      · have hrec : collect s (c :: (taken ++ rest)) =
            let r := collect (s * 10 + (digit? c).getD 0) (taken ++ rest)
            (r.1, r.2 + 1) := if_pos hfits
        rw [hrec, hcollect, Nat.ofDigitChars_cons, ← hnext]
        rfl
      · rwa [Nat.ofDigitChars_cons, ← hnext]
      · intro d hd
        rw [List.cons_append, Nat.ofDigitChars_cons, ← hnext]
        exact hstop d hd
    · refine ⟨[], c :: cs, rfl, if_neg hfits, hs, ?_⟩
      rintro d ⟨⟩
      rw [List.nil_append, Nat.ofDigitChars_cons, Nat.ofDigitChars_nil, ← hnext]
      exact Nat.le_of_not_lt hfits

/-- All digits of a number of 64 bits are collected. -/
theorem collect_digits (hk : k < 2 ^ 64) :
    collect 0 (Nat.toDigits 10 k) = (k, (Nat.toDigits 10 k).length) := by
  obtain ⟨taken, rest, hsplit, hcollect, -, hstop⟩ :=
    collect_spec (Nat.toDigits 10 k) 0 (fun _ => isDigit_of_mem_digits) (by decide)
  have hvalue := Nat.ofDigitChars_ten_toDigits (n := k)
  cases rest with
  | nil =>
    rw [List.append_nil] at hsplit
    rw [hcollect, ← hsplit, hvalue]
  | cons c rest =>
    have hbig := hstop c rfl
    rw [hsplit, List.append_cons, Nat.ofDigitChars_append] at hvalue
    have hle := le_ofDigitChars rest (Nat.ofDigitChars 10 (taken ++ [c]) 0)
    omega

/-- Of the digits of a longer number at least one is left, and those that are taken fill 64 bits up
to the last digit. -/
theorem collect_long (hk : 2 ^ 64 ≤ k) :
    ∃ significand taken, collect 0 (Nat.toDigits 10 k) = (significand, taken) ∧
      taken < (Nat.toDigits 10 k).length ∧ significand < 2 ^ 64 ∧
      2 ^ 64 ≤ significand * 10 + 9 := by
  obtain ⟨taken, rest, hsplit, hcollect, hlt, hstop⟩ :=
    collect_spec (Nat.toDigits 10 k) 0 (fun _ => isDigit_of_mem_digits) (by decide)
  have hvalue := Nat.ofDigitChars_ten_toDigits (n := k)
  refine ⟨_, _, hcollect, ?_⟩
  cases rest with
  | nil =>
    rw [List.append_nil] at hsplit
    rw [hsplit] at hvalue
    omega
  | cons c rest =>
    have hmem : c ∈ Nat.toDigits 10 k := hsplit ▸ List.mem_append_right _ List.mem_cons_self
    have hc : c.toNat - '0'.toNat < 10 := digit?_lt (digit?_eq (isDigit_of_mem_digits hmem))
    have hbig := hstop c rfl
    rw [Nat.ofDigitChars_append, Nat.ofDigitChars_cons, Nat.ofDigitChars_nil] at hbig
    refine ⟨?_, hlt, by omega⟩
    rw [hsplit, List.length_append, List.length_cons]
    omega

end

/-! ## Literals -/

def Stops (rest : List Char) : Prop :=
  ∀ c ∈ rest.head?, c.isDigit = false ∧ c ≠ '.' ∧ c ≠ 'e' ∧ c ≠ 'E'

def literal (negative : Bool) (k : Nat) : NumberText :=
  ⟨negative, Nat.toDigits 10 k, none, none⟩

section

variable {negative : Bool} {k s shift : Nat} {rest : List Char} {y : Binary64}

theorem splitMinus_plain :
    splitMinus (plain negative k ++ rest) = (negative, Nat.toDigits 10 k ++ rest) := by
  cases negative with
  | true => rfl
  | false =>
    obtain ⟨c, cs, hdigits, hc⟩ := digits_eq_cons k
    have hminus : c ≠ '-' := ne_of_isDigit hc rfl
    simp [plain, sign, hdigits, splitMinus, hminus]

theorem readWhole?_digits (h : Stops rest) :
    readWhole? (Nat.toDigits 10 k ++ rest) = some (Nat.toDigits 10 k, rest) := by
  have hspan := spanDigits_append (Nat.toDigits 10 k) rest (fun _ => isDigit_of_mem_digits)
    fun c hc => (h c hc).1
  have hhead : ¬((Nat.toDigits 10 k).head? = some '0' ∧ 1 < (Nat.toDigits 10 k).length) :=
    fun hzero => head_digits hzero.2 hzero.1
  rw [readWhole?, hspan]
  simp [Nat.toDigits_ne_nil, hhead]

theorem readNumberText?_plain (h : Stops rest) :
    readNumberText? (plain negative k ++ rest) = some (literal negative k, rest) := by
  have hfraction : readFraction? rest = some (none, rest) := by
    cases rest with
    | nil => rfl
    | cons c rest => simp [readFraction?, (h c rfl).2.1]
  have hexponent : readExponent? rest = some (none, rest) := by
    cases rest with
    | nil => rfl
    | cons c rest => simp [readExponent?, (h c rfl).2.2]
  simp [readNumberText?, splitMinus_plain, readWhole?_digits h, hfraction, hexponent, literal]

theorem readValue?_number {depth : Nat} {c : Char} {cs : List Char} (h : c = '-' ∨ c.isDigit) :
    readValue? depth (c :: cs) = readNumber? (c :: cs) := by
  unfold readValue?
  split <;> first | rfl | simp_all

theorem readValue?_plain (depth : Nat) (h : Stops rest) :
    readValue? depth (plain negative k ++ rest) = (literal negative k).value?.map (·, rest) := by
  have hnumber : readNumber? (plain negative k ++ rest) =
      (literal negative k).value?.map (·, rest) := by
    rw [readNumber?, readNumberText?_plain h, Option.bind_eq_bind, Option.bind_some]
    dsimp only
    cases (literal negative k).value? <;> rfl
  rw [← hnumber]
  cases negative with
  | true => exact readValue?_number (.inl rfl)
  | false =>
    obtain ⟨c, cs, hdigits, hc⟩ := digits_eq_cons k
    simpa [plain, sign, hdigits] using readValue?_number (.inr hc)

theorem significandFloat?_eq (negative : Bool) (s shift : Nat) :
    significandFloat? negative s shift none =
      (ofRatio? false s 1).bind fun x => (scaled? x shift).map fun z =>
        if negative then z.neg else z := by
  rw [← ofInt?_natCast]
  rfl

theorem value?_short (hk : k < 2 ^ 64) :
    (literal negative k).value? =
      if fits (signed negative k) ∧ ¬(negative ∧ k = 0) then some (.integer (signed negative k))
      else (significandFloat? negative k (0 : Nat) none).map .float := by
  simp [NumberText.value?, literal, collect_digits hk, collect]

theorem value?_long (negative : Bool) (hk : 2 ^ 64 ≤ k) :
    ∃ s shift, 0 < shift ∧ shift ≤ (Nat.toDigits 10 k).length ∧ s < 2 ^ 64 ∧ 2 ^ 64 ≤ s * 10 + 9 ∧
      (literal negative k).value? = (significandFloat? negative s shift none).map .float := by
  obtain ⟨s, taken, hcollect, htaken, hs, hfull⟩ := collect_long hk
  refine ⟨s, (Nat.toDigits 10 k).length - taken, by omega, Nat.sub_le .., hs, hfull, ?_⟩
  have hshift : ((Nat.toDigits 10 k).length : Int) - taken =
      (((Nat.toDigits 10 k).length - taken : Nat) : Int) := by omega
  simp [NumberText.value?, literal, hcollect, collect, htaken.ne, hshift]

/-- The double of a significand is a product, with the sign of the literal. -/
theorem significandFloat?_eq_some (hs : s ≠ 0)
    (h : significandFloat? negative s shift none = some y) :
    ∃ x p z, ofRatio? false s 1 = some x ∧ power10? shift = some p ∧ x.mul? p = some z ∧
      y.negative = negative ∧ y.ratio = z.ratio := by
  rw [significandFloat?_eq, Option.bind_eq_some_iff] at h
  obtain ⟨x, hx, h⟩ := h
  have hnonzero : x.isZero = false :=
    (ofRatio?_atLeast short_one Nat.one_ne_zero (by omega) hx).isZero_eq Nat.one_pos
  rw [scaled?_eq hnonzero] at h
  obtain ⟨z, hz, rfl⟩ := Option.map_eq_some_iff.mp h
  obtain ⟨p, hp, hz⟩ := Option.bind_eq_some_iff.mp hz
  have hxneg : x.negative = false := ofRatio?_negative Nat.one_ne_zero hx
  have hpneg : p.negative = false := ofRatio?_negative Nat.one_ne_zero (ofRatio?_of_power10? hp)
  have hzneg : z.negative = false := by rw [mul?_negative hz, hxneg, hpneg]; rfl
  refine ⟨x, p, z, hx, hp, hz, ?_⟩
  cases negative with
  | false => exact ⟨hzneg, rfl⟩
  | true => exact ⟨by simp [neg, hzneg], rfl⟩

theorem short_limit : Short (2 ^ 63) := ⟨1, 63, by decide, by decide⟩

theorem significandFloat?_limits (hk : 2 ^ 63 ≤ k)
    (h : significandFloat? negative k (0 : Nat) none = some y) :
    y.negative = negative ∧ y.Limits k := by
  obtain ⟨x, p, z, hx, hp, hz, hneg, hratio⟩ := significandFloat?_eq_some (by omega) h
  have hlimits := ofRatio?_limits hk hx
  have hone := power10?_zero_atLeast hp
  refine ⟨hneg, fun hnear => ?_, fun hfar => ?_⟩ <;> simp only [AtLeast, AtMost, hratio]
  · obtain ⟨hleast, hmost⟩ := hlimits.near hnear
    exact ⟨mul?_atLeast (c := 2 ^ 63) (d := 1) short_limit hleast hone hz,
      mul?_atMost (c := 2 ^ 63) (d := 1) short_limit hmost (power10?_zero_atMost hp) hz⟩
  · exact mul?_atLeast (d := 1) short_beyond (hlimits.far hfar) hone hz

theorem significandFloat?_large (hs : 2 ^ 64 ≤ s * 10 + 9) (hshift : 0 < shift)
    (h : significandFloat? negative s shift none = some y) :
    y.negative = negative ∧ y.AtLeast (2 ^ 63 + 2048) := by
  obtain ⟨x, p, z, hx, hp, hz, hneg, hratio⟩ := significandFloat?_eq_some (by omega) h
  have hxlarge : x.AtLeast (2 ^ 60) :=
    ofRatio?_atLeast ⟨1, 60, by decide, by decide⟩ Nat.one_ne_zero (by omega) hx
  have hzlarge : z.AtLeast (2 ^ 60 * 10) :=
    mul?_atLeast ⟨10, 60, by decide, by decide⟩ hxlarge (power10?_atLeast hshift hp) hz
  refine ⟨hneg, ?_⟩
  simp only [AtLeast, hratio]
  exact hzlarge.mono (by decide)

/-- What an integer in plain decimal is read as: itself where it fits 64 bits, a zero for the
negative zero, and a double close to it beyond. -/
inductive LiteralValue (negative : Bool) (k : Nat) : Json → Prop
  | integer (hfits : fits (signed negative k)) :
      LiteralValue negative k (.integer (signed negative k))
  | zero {y : Binary64} (hk : k = 0) (hy : y.isZero) : LiteralValue negative k (.float y)
  | limit {y : Binary64} (hk : 2 ^ 63 ≤ k) (hneg : y.negative = negative) (hy : y.Limits k) :
      LiteralValue negative k (.float y)

theorem value?_literal {v : Json} (h : (literal negative k).value? = some v) :
    LiteralValue negative k v := by
  rcases Nat.lt_or_ge k (2 ^ 64) with hshort | hlong
  · rw [value?_short hshort] at h
    split at h
    · rename_i hfits
      cases h
      exact .integer hfits.1
    rename_i hnot
    obtain ⟨y, hy, rfl⟩ := Option.map_eq_some_iff.mp h
    rcases Nat.lt_or_ge k (2 ^ 63) with hsmall | hlimit
    · -- An integer of 63 bits fits, so that this is the negative zero.
      have hfits : fits (signed negative k) := by cases negative <;> simp [fits, signed] <;> omega
      obtain rfl : k = 0 := by
        by_contra hne
        exact hnot ⟨hfits, fun hzero => hne hzero.2⟩
      have hzero : ofRatio? false 0 1 = some (zero false) := rfl
      rw [significandFloat?_eq, hzero, Option.bind_some] at hy
      refine .zero rfl ?_
      cases negative <;> (cases hy; rfl)
    · obtain ⟨hneg, hlimits⟩ := significandFloat?_limits hlimit hy
      exact .limit hlimit hneg hlimits
  · obtain ⟨s, shift, hshift, -, -, hfull, hvalue⟩ := value?_long negative hlong
    rw [hvalue] at h
    obtain ⟨y, hy, rfl⟩ := Option.map_eq_some_iff.mp h
    obtain ⟨hneg, hlarge⟩ := significandFloat?_large hfull hshift hy
    exact .limit (by omega) hneg ⟨fun hnear => by omega, fun _ => hlarge⟩

/-! ## Literals that are read -/

theorem ten_pow_le (n : Nat) : 10 ^ n ≤ 2 ^ (4 * n) := by
  rw [Nat.pow_mul]
  exact Nat.pow_le_pow_left (by decide) n

theorem power10?_isSome (hshift : shift ≤ 200) :
    ∃ p, power10? shift = some p ∧ p.AtMost (2 ^ (4 * shift)) := by
  have hbound : 10 ^ shift ≤ 2 ^ (4 * shift) * 1 := (Nat.mul_one _).symm ▸ ten_pow_le shift
  have hroom : 2 ^ (4 * shift) * 1 < 2 ^ (4 * shift + 1) * 1 :=
    Nat.mul_lt_mul_of_pos_right (Nat.pow_lt_pow_right (by decide) (Nat.lt_succ_self _)) Nat.one_pos
  rw [power10?_eq (by omega)]
  obtain ⟨p, hp⟩ := ofRatio?_isSome false (by omega) (hbound.trans_lt hroom)
  have hshort : Short (2 ^ (4 * shift)) := ⟨1, _, by decide, (Nat.one_mul _).symm⟩
  exact ⟨p, hp, ofRatio?_atMost hshort Nat.one_ne_zero hbound hp⟩

theorem significandFloat?_isSome (negative : Bool) (hs : s < 2 ^ 64) (hshift : shift ≤ 200) :
    ∃ y, significandFloat? negative s shift none = some y := by
  obtain ⟨x, hx⟩ := ofRatio?_isSome false (show 64 ≤ 1023 by decide)
    (show s < 2 ^ 64 * 1 by omega)
  rw [significandFloat?_eq, hx, Option.bind_some]
  suffices hscaled : ∃ z, scaled? x shift = some z by
    obtain ⟨z, hz⟩ := hscaled
    exact ⟨_, by rw [hz, Option.map_some]⟩
  cases hzero : x.isZero with
  | true => exact ⟨x, by simp [scaled?, hzero]⟩
  | false =>
    obtain ⟨p, hp, hpmost⟩ := power10?_isSome hshift
    have hxmost : x.AtMost (2 ^ 64) :=
      ofRatio?_atMost ⟨1, 64, by decide, by decide⟩ Nat.one_ne_zero (by omega) hx
    rw [scaled?_eq hzero, hp, Option.bind_some]
    refine ofRatio?_isSome _ (show 65 + 4 * shift ≤ 1023 by omega) ?_
    calc x.ratio.1 * p.ratio.1 ≤ 2 ^ 64 * x.ratio.2 * (2 ^ (4 * shift) * p.ratio.2) :=
          Nat.mul_le_mul hxmost hpmost
      _ = 2 ^ (64 + 4 * shift) * (x.ratio.2 * p.ratio.2) := by
        rw [Nat.mul_mul_mul_comm, Nat.pow_add]
      _ < 2 ^ (65 + 4 * shift) * (x.ratio.2 * p.ratio.2) :=
        Nat.mul_lt_mul_of_pos_right (Nat.pow_lt_pow_right (by decide) (by omega))
          (Nat.mul_pos x.ratio_snd_pos p.ratio_snd_pos)

theorem value?_isSome (negative : Bool) (hk : k < 10 ^ 200) : ∃ v, (literal negative k).value? = some v := by
  rcases Nat.lt_or_ge k (2 ^ 64) with hshort | hlong
  · rw [value?_short hshort]
    split
    · exact ⟨_, rfl⟩
    · obtain ⟨y, hy⟩ := significandFloat?_isSome negative hshort (Nat.zero_le _)
      exact ⟨_, by rw [hy, Option.map_some]⟩
  · obtain ⟨s, shift, -, hlength, hs, -, hvalue⟩ := value?_long negative hlong
    have hdigits := (Nat.length_toDigits_le_iff (by decide) (by decide)).mpr hk
    obtain ⟨y, hy⟩ := significandFloat?_isSome negative hs (hlength.trans hdigits)
    exact ⟨_, by rw [hvalue, hy, Option.map_some]⟩

end

end RouteContract.Json
