import RouteContract.Calendar.Timestamp
import RouteContract.Proofs.Number
import RouteContract.Proofs.Text

/-!
# Dates and timestamps are read back

What is written of a date or timestamp is read piece by piece: each reader takes
its own digits and leaves the rest of the text. A value that was read from any
text is within the bounds of its fields, so that it is read back from its own.
-/

set_option autoImplicit false

namespace RouteContract

namespace Text

/-- The characters of dates and timestamps that are no digits. -/
theorem isBlank_marks : isBlank '-' = false ∧ isBlank '+' = false ∧ isBlank ':' = false ∧
    isBlank '.' = false ∧ isBlank 'T' = false ∧ isBlank 'Z' = false := by decide

theorem isBlank_of_isDigit {c : Char} (h : c.isDigit) : isBlank c = false := by
  have hzero : '0'.toNat = 48 := rfl
  have hnine : '9'.toNat = 57 := rfl
  have hc := Char.isDigit_iff_toNat.mp h
  simp only [isBlank, blankRanges, List.any_cons, List.any_nil, Bool.or_false, Bool.or_eq_false_iff,
    Bool.and_eq_false_iff, decide_eq_false_iff_not]
  omega

theorem trimStart_of_isDigit {c : Char} (h : c.isDigit) (cs : List Char) :
    trimStart (c :: cs) = c :: cs := by
  rw [trimStart, List.dropWhile_cons_of_neg (by simp [isBlank_of_isDigit h])]

end Text

namespace Calendar

open Number (digit? ofDigits ofDigits_filterMap ofDigits_filterMap_lt)

section

variable {width n : Nat} {rest : List Char}

theorem isDigit_of_mem_padded {c : Char} (h : c ∈ padded width n) : c.isDigit := by
  rcases List.mem_append.mp h with h | h
  · rw [List.eq_of_mem_replicate h]
    rfl
  · exact Nat.isDigit_of_mem_toDigits (by decide) (by decide) h

theorem padded_ne_nil : padded width n ≠ [] := by simp [padded]

theorem ofDigits_padded : ofDigits 10 ((padded width n).filterMap digit?) = n := by
  have hzeros : ∀ k, (List.replicate k '0').foldl
      (fun n c => 10 * n + (c.toNat - '0'.toNat)) 0 = 0 := by
    intro k
    induction k with
    | zero => rfl
    | succ k ih => exact ih
  rw [ofDigits_filterMap fun c => isDigit_of_mem_padded, Nat.ofDigitChars, padded,
    List.foldl_append, hzeros]
  exact Nat.ofDigitChars_ten_toDigits

theorem length_padded (hn : n < 10 ^ width) (hw : 0 < width) : (padded width n).length = width := by
  have hle := (Nat.length_toDigits_le_iff (by decide) hw).mpr hn
  simp only [padded, List.length_append, List.length_replicate]
  omega

theorem exists_padded_append (width n : Nat) (rest : List Char) :
    ∃ c cs, padded width n ++ rest = c :: cs ∧ c.isDigit := by
  cases h : padded width n with
  | nil => exact absurd h padded_ne_nil
  | cons c cs => exact ⟨c, cs ++ rest, rfl, isDigit_of_mem_padded (h ▸ List.mem_cons_self)⟩

theorem trimStart_padded : Text.trimStart (padded width n ++ rest) = padded width n ++ rest := by
  obtain ⟨c, cs, heq, hc⟩ := exists_padded_append width n rest
  rw [heq, Text.trimStart_of_isDigit hc]

theorem takeWhile_padded (hrest : rest.takeWhile Char.isDigit = []) :
    (padded width n ++ rest).takeWhile Char.isDigit = padded width n := by
  rw [List.takeWhile_append_of_pos fun c => isDigit_of_mem_padded, hrest, List.append_nil]

theorem readUpTo_padded {most : Option Nat} (hmost : ∀ k ∈ most, (padded width n).length ≤ k)
    (hrest : rest.takeWhile Char.isDigit = []) :
    readUpTo most (padded width n ++ rest) = some (n, rest) := by
  have hsome : (padded width n).isEmpty = false := List.isEmpty_eq_false_iff.mpr padded_ne_nil
  cases most with
  | none => simp [readUpTo, takeWhile_padded hrest, hsome, ofDigits_padded]
  | some k =>
    have htake := List.take_of_length_le (hmost k rfl)
    simp [readUpTo, takeWhile_padded hrest, htake, hsome, ofDigits_padded]

theorem readWidth_padded (hn : n < 10 ^ width) (hw : 0 < width) :
    readWidth width (padded width n ++ rest) = some (n, rest) := by
  have hlength := length_padded hn hw
  have hdigits : (padded width n).all Char.isDigit :=
    List.all_eq_true.mpr fun c => isDigit_of_mem_padded
  simp only [readWidth, List.take_left' hlength, List.drop_left' hlength, hlength, hdigits,
    decide_true, Bool.and_self, if_true, ofDigits_padded]

@[simp]
theorem unspaced_padded : Text.Unspaced (padded width n) :=
  fun _ h => Text.isBlank_of_isDigit (isDigit_of_mem_padded h)

theorem expect_cons (c : Char) (rest : List Char) : expect c (c :: rest) = some rest := if_pos rfl

theorem lt_of_readWidth {cs : List Char} (h : readWidth width cs = some (n, rest)) :
    n < 10 ^ width := by
  simp only [readWidth, Option.ite_none_right_eq_some, Bool.and_eq_true, decide_eq_true_eq,
    Option.some.injEq, Prod.mk.injEq] at h
  obtain ⟨⟨hlength, -⟩, rfl, -⟩ := h
  simpa only [hlength] using ofDigits_filterMap_lt (cs.take width)

end

namespace Date

variable {d : Date}

theorem daysIn_le (year : Int) (month : Nat) : daysIn year month ≤ 31 := by
  unfold daysIn
  split
  · split <;> decide
  all_goals decide

/-- What a valid date is within. -/
theorem bounds_of_isValid (h : d.isValid) : d.month < 10 ^ 2 ∧ d.day < 10 ^ 2 := by
  simp only [isValid, Bool.and_eq_true, decide_eq_true_eq] at h
  have hdays := daysIn_le d.year d.month
  omega

theorem readYear_of_isDigit {c : Char} (h : c.isDigit) (cs : List Char) :
    readYear (c :: cs) = (readUpTo (some 4) (c :: cs)).map fun x => ((x.1 : Int), x.2) := by
  rw [readYear, Text.trimStart_of_isDigit h]
  split
  · rename_i he
    cases he
    cases h
  · rename_i he
    cases he
    cases h
  · rfl

theorem readYear_yearText {year : Int} {rest : List Char}
    (hrest : rest.takeWhile Char.isDigit = []) :
    readYear (yearText year ++ rest) = some (year, rest) := by
  have hread : readUpTo none (padded 4 year.natAbs ++ rest) = some (year.natAbs, rest) :=
    readUpTo_padded (by simp) hrest
  unfold yearText
  by_cases hneg : year < 0
  · have hyear : -(year.natAbs : Int) = year := by omega
    simp only [if_pos hneg, List.cons_append, readYear]
    rw [show Text.trimStart ('-' :: _) = '-' :: _ from rfl]
    simp only [hread, Option.map_some, hyear]
  have hyear : (year.natAbs : Int) = year := by omega
  by_cases hbig : 9999 < year
  · simp only [if_neg hneg, if_pos hbig, List.cons_append, readYear]
    rw [show Text.trimStart ('+' :: _) = '+' :: _ from rfl]
    simp only [hread, Option.map_some, hyear]
  · have hlength : (padded 4 year.natAbs).length = 4 := length_padded (by omega) (by decide)
    have hshort : readUpTo (some 4) (padded 4 year.natAbs ++ rest) = some (year.natAbs, rest) :=
      readUpTo_padded (by simp [hlength]) hrest
    obtain ⟨c, cs, heq, hc⟩ := exists_padded_append 4 year.natAbs rest
    simp only [if_neg hneg, if_neg hbig]
    rw [heq, readYear_of_isDigit hc, ← heq, hshort, Option.map_some, hyear]

theorem unspaced_chars (d : Date) : Text.Unspaced d.chars := by
  have hyear : Text.Unspaced (yearText d.year) := by
    unfold yearText
    split_ifs <;> simp [Text.isBlank_marks]
  simp [chars, hyear, Text.isBlank_marks]

theorem parse?_chars (h : d.isValid) : parse? d.chars = some d := by
  obtain ⟨hmonth, hday⟩ := bounds_of_isValid h
  have htwo : ∀ {n rest}, n < 10 ^ 2 → rest.takeWhile Char.isDigit = [] →
      readUpTo (some 2) (padded 2 n ++ rest) = some (n, rest) :=
    fun hn hrest => readUpTo_padded (by simp [length_padded hn]) hrest
  have hreadYear : readYear d.chars = some (d.year, _) := readYear_yearText rfl
  have hreadDay : readUpTo (some 2) (Text.trimStart (padded 2 d.day)) = some (d.day, []) := by
    rw [← List.append_nil (padded 2 d.day), trimStart_padded, htwo hday rfl]
  simp only [parse?, hreadYear, expect_cons, trimStart_padded, htwo hmonth, hreadDay,
    Option.bind_eq_bind, Option.bind_some, List.isEmpty_nil, Bool.true_and, h, if_true,
    List.takeWhile_cons, show Char.isDigit '-' = false from rfl, Bool.false_eq_true, if_false]

theorem isValid_of_parse? {cs : List Char} (h : parse? cs = some d) : d.isValid := by
  simp only [parse?, Option.bind_eq_bind, Option.bind_eq_some_iff, Option.ite_none_right_eq_some,
    Bool.and_eq_true, Option.some.injEq] at h
  obtain ⟨_, _, _, _, _, _, _, _, _, _, ⟨_, hvalid⟩, rfl⟩ := h
  exact hvalid

/-- A date that was read is read back from its text. -/
theorem reread {cs : List Char} (h : parse? cs = some d) :
    parse? (Text.trim d.text.toList) = some d := by
  rw [text, String.toList_ofList, d.unspaced_chars.trim_eq, parse?_chars (isValid_of_parse? h)]

end Date

theorem lt_of_readFractionOfSecond {cs rest : List Char} {n : Nat}
    (h : readFractionOfSecond cs = some (n, rest)) : n < 10 ^ 9 := by
  unfold readFractionOfSecond at h
  split at h
  · rename_i cs
    simp only [Option.ite_none_left_eq_some, Option.some.injEq, Prod.mk.injEq] at h
    obtain ⟨-, rfl, -⟩ := h
    generalize hkept : (cs.takeWhile Char.isDigit).take 9 = kept
    have hlength : kept.length ≤ 9 := by rw [← hkept]; exact List.length_take_le ..
    calc ofDigits 10 (kept.filterMap digit?) * 10 ^ (9 - kept.length)
        < 10 ^ kept.length * 10 ^ (9 - kept.length) :=
          Nat.mul_lt_mul_of_pos_right (ofDigits_filterMap_lt kept) (Nat.pow_pos (by decide))
      _ = 10 ^ 9 := by rw [← Nat.pow_add, Nat.add_sub_cancel' hlength]
  · cases h
    decide

theorem lt_of_readHoursMinutes {cs rest : List Char} {n : Nat}
    (h : readHoursMinutes cs = some (n, rest)) : n < 24 * 60 := by
  simp only [readHoursMinutes, Option.bind_eq_bind, Option.bind_eq_some_iff,
    Option.ite_none_right_eq_some, Bool.and_eq_true, decide_eq_true_eq, Option.some.injEq,
    Prod.mk.injEq] at h
  obtain ⟨_, _, _, _, _, _, ⟨_, _⟩, rfl, _⟩ := h
  omega

theorem natAbs_lt_of_readOffset {cs rest : List Char} {o : Int}
    (h : readOffset cs = some (o, rest)) : o.natAbs < 24 * 60 := by
  cases cs with
  | nil => cases h
  | cons c cs =>
    simp only [readOffset] at h
    split_ifs at h
    · cases h
      decide
    · obtain ⟨x, hx, he⟩ := Option.map_eq_some_iff.mp h
      cases he
      simpa using lt_of_readHoursMinutes hx
    · obtain ⟨x, hx, he⟩ := Option.map_eq_some_iff.mp h
      cases he
      simpa using lt_of_readHoursMinutes hx

namespace Timestamp

structure Bounded (t : Timestamp) : Prop where
  date : t.date.isValid
  nonneg : 0 ≤ t.date.year
  year : t.date.year.natAbs < 10 ^ 4
  hour : t.hour < 24
  minute : t.minute < 60
  second : t.second ≤ 60
  nanosecond : t.nanosecond < 10 ^ 9
  offset : t.offset.natAbs < 24 * 60

variable {t : Timestamp}

theorem bounded_of_parse? {cs : List Char} (h : parse? cs = some t) : t.Bounded := by
  -- Three fields of the date and three of the time, each but the last followed by a separator.
  obtain ⟨⟨year, _⟩, hyear, h⟩ := Option.bind_eq_some_iff.mp h
  obtain ⟨_, -, h⟩ := Option.bind_eq_some_iff.mp h
  obtain ⟨⟨month, _⟩, -, h⟩ := Option.bind_eq_some_iff.mp h
  obtain ⟨_, -, h⟩ := Option.bind_eq_some_iff.mp h
  obtain ⟨⟨day, _⟩, -, h⟩ := Option.bind_eq_some_iff.mp h
  obtain ⟨_, -, h⟩ := Option.bind_eq_some_iff.mp h
  obtain ⟨⟨hour, _⟩, -, h⟩ := Option.bind_eq_some_iff.mp h
  obtain ⟨_, -, h⟩ := Option.bind_eq_some_iff.mp h
  obtain ⟨⟨minute, _⟩, -, h⟩ := Option.bind_eq_some_iff.mp h
  obtain ⟨_, -, h⟩ := Option.bind_eq_some_iff.mp h
  obtain ⟨⟨second, _⟩, -, h⟩ := Option.bind_eq_some_iff.mp h
  obtain ⟨⟨nanosecond, _⟩, hnanosecond, h⟩ := Option.bind_eq_some_iff.mp h
  obtain ⟨⟨offset, _⟩, hoffset, h⟩ := Option.bind_eq_some_iff.mp h
  simp only [Option.ite_none_right_eq_some, Bool.and_eq_true, decide_eq_true_eq] at h
  obtain ⟨⟨⟨⟨⟨-, hdate⟩, hhour⟩, hminute⟩, hsecond⟩, heq⟩ := h
  cases heq
  exact {
    date := hdate
    nonneg := Int.natCast_nonneg year
    year := lt_of_readWidth hyear
    hour := hhour
    minute := hminute
    second := hsecond
    nanosecond := lt_of_readFractionOfSecond hnanosecond
    offset := natAbs_lt_of_readOffset hoffset }

theorem readFractionOfSecond_padded {width n : Nat} {rest : List Char} (hn : n < 10 ^ width)
    (hw : 0 < width) (hwidth : width ≤ 9) (hrest : rest.takeWhile Char.isDigit = []) :
    readFractionOfSecond ('.' :: (padded width n ++ rest)) =
      some (n * 10 ^ (9 - width), rest) := by
  have hlength := length_padded hn hw
  have htake : (padded width n).take 9 = padded width n :=
    List.take_of_length_le (hlength.le.trans hwidth)
  have hsome : (padded width n).isEmpty = false := List.isEmpty_eq_false_iff.mpr padded_ne_nil
  simp [readFractionOfSecond, takeWhile_padded hrest, hsome, htake, ofDigits_padded, hlength,
    List.drop_left' hlength]

theorem readFractionOfSecond_text {n : Nat} {rest : List Char} (hn : n < 10 ^ 9)
    (hrest : rest.takeWhile Char.isDigit = []) (hpoint : rest.head? ≠ some '.') :
    readFractionOfSecond (fractionText n ++ rest) = some (n, rest) := by
  unfold fractionText
  split_ifs with hzero hmilli hmicro
  · subst hzero
    unfold readFractionOfSecond
    split
    · rename_i he
      rw [List.nil_append] at he
      exact absurd (congrArg List.head? he) hpoint
    · rfl
  · have hback : n / 1000000 * 10 ^ (9 - 3) = n :=
      Nat.div_mul_cancel (Nat.dvd_of_mod_eq_zero hmilli)
    rw [List.cons_append, readFractionOfSecond_padded (by omega) (by decide) (by decide) hrest,
      hback]
  · have hback : n / 1000 * 10 ^ (9 - 6) = n :=
      Nat.div_mul_cancel (Nat.dvd_of_mod_eq_zero hmicro)
    rw [List.cons_append, readFractionOfSecond_padded (by omega) (by decide) (by decide) hrest,
      hback]
  · rw [List.cons_append, readFractionOfSecond_padded hn (by decide) (by decide) hrest,
      Nat.sub_self, Nat.pow_zero, Nat.mul_one]

theorem readHoursMinutes_padded {n : Nat} (h : n < 24 * 60) (rest : List Char) :
    readHoursMinutes (padded 2 (n / 60) ++ ':' :: (padded 2 (n % 60) ++ rest)) =
      some (n, rest) := by
  have hhours : n / 60 < 24 := by omega
  have hminutes : n % 60 < 60 := by omega
  have hsum : n / 60 * 60 + n % 60 = n := Nat.div_add_mod' n 60
  simp only [readHoursMinutes, readWidth_padded (show n / 60 < 10 ^ 2 by omega) (by decide),
    readWidth_padded (show n % 60 < 10 ^ 2 by omega) (by decide), expect_cons, hhours, hminutes,
    hsum, Option.bind_eq_bind, Option.bind_some, decide_true, Bool.and_self, if_true]

theorem readOffset_text {o : Int} (h : o.natAbs < 24 * 60) :
    readOffset (offsetText o) = some (o, []) := by
  have hread := readHoursMinutes_padded h []
  rw [List.append_nil] at hread
  unfold offsetText
  split_ifs with hzero hneg
  · subst hzero
    rfl
  · have ho : -(o.natAbs : Int) = o := by omega
    rw [readOffset, if_neg (by decide), if_neg (by decide), if_pos (by decide), hread]
    simp only [Option.map_some, ho]
  · have ho : (o.natAbs : Int) = o := by omega
    rw [readOffset, if_neg (by decide), if_pos rfl, hread]
    simp only [Option.map_some, ho]

theorem parse?_text (h : t.Bounded) : parse? t.text.toList = some t := by
  obtain ⟨hmonth, hday⟩ := Date.bounds_of_isValid h.date
  have hyear : Date.yearText t.date.year = padded 4 t.date.year.natAbs := by
    have hnonneg := h.nonneg
    have hlt := h.year
    unfold Date.yearText
    rw [if_neg (by omega), if_neg (by omega)]
  have hoffsetDigits : (offsetText t.offset).takeWhile Char.isDigit = [] := by
    unfold offsetText
    split_ifs <;> rfl
  have hoffsetPoint : (offsetText t.offset).head? ≠ some '.' := by
    unfold offsetText
    split_ifs <;> simp
  have htext : t.text.toList = padded 4 t.date.year.natAbs ++ '-' :: (padded 2 t.date.month ++
      '-' :: (padded 2 t.date.day ++ 'T' :: (padded 2 t.hour ++ ':' :: (padded 2 t.minute ++
        ':' :: (padded 2 t.second ++ (fractionText t.nanosecond ++ offsetText t.offset)))))) := by
    simp only [text, Date.chars, String.toList_ofList, hyear, List.append_assoc, List.cons_append]
  have htwo : ∀ {n rest}, n < 10 ^ 2 → readWidth 2 (padded 2 n ++ rest) = some (n, rest) :=
    fun hn => readWidth_padded hn (by decide)
  rw [htext]
  refine Option.bind_eq_some_iff.mpr ⟨_, readWidth_padded h.year (by decide), ?_⟩
  refine Option.bind_eq_some_iff.mpr ⟨_, expect_cons .., ?_⟩
  refine Option.bind_eq_some_iff.mpr ⟨_, htwo hmonth, ?_⟩
  refine Option.bind_eq_some_iff.mpr ⟨_, expect_cons .., ?_⟩
  refine Option.bind_eq_some_iff.mpr ⟨_, htwo hday, ?_⟩
  refine Option.bind_eq_some_iff.mpr ⟨_, (rfl : readSeparator ('T' :: _) = some _), ?_⟩
  refine Option.bind_eq_some_iff.mpr ⟨_, htwo (h.hour.trans (by decide)), ?_⟩
  refine Option.bind_eq_some_iff.mpr ⟨_, expect_cons .., ?_⟩
  refine Option.bind_eq_some_iff.mpr ⟨_, htwo (h.minute.trans (by decide)), ?_⟩
  refine Option.bind_eq_some_iff.mpr ⟨_, expect_cons .., ?_⟩
  refine Option.bind_eq_some_iff.mpr ⟨_, htwo (h.second.trans_lt (by decide)), ?_⟩
  refine Option.bind_eq_some_iff.mpr
    ⟨_, readFractionOfSecond_text h.nanosecond hoffsetDigits hoffsetPoint, ?_⟩
  refine Option.bind_eq_some_iff.mpr ⟨_, readOffset_text h.offset, ?_⟩
  have hdate : (⟨(t.date.year.natAbs : Int), t.date.month, t.date.day⟩ : Date) = t.date := by
    rw [Int.natAbs_of_nonneg h.nonneg]
  simp only [hdate, h.date, h.hour, h.minute, h.second, List.isEmpty_nil, decide_true,
    Bool.and_self, if_true]

theorem unspaced_text (t : Timestamp) : Text.Unspaced t.text.toList := by
  have hfraction : Text.Unspaced (fractionText t.nanosecond) := by
    unfold fractionText
    split_ifs <;> simp [Text.isBlank_marks]
  have hoffset : Text.Unspaced (offsetText t.offset) := by
    unfold offsetText
    split_ifs <;> simp [Text.isBlank_marks]
  simp [text, t.date.unspaced_chars, hfraction, hoffset, Text.isBlank_marks]

/-- A timestamp that was read is read back from its text. -/
theorem reread {cs : List Char} (h : parse? cs = some t) :
    parse? (Text.trim t.text.toList) = some t := by
  rw [t.unspaced_text.trim_eq, parse?_text (bounded_of_parse? h)]

end Timestamp

end Calendar

end RouteContract
