import RouteContract.Coercion.Text
import RouteContract.Proofs.Calendar
import RouteContract.Proofs.Number.Literals

/-!
# Integers from their digits

An integer in plain decimal, in a text or as a JSON literal, is coerced to itself
or refused outside 64 bits, with one exception: the 1024 integers next below the
least one are rounded to it. A literal that is too large for a double is no JSON,
and nothing is coerced.
-/

set_option autoImplicit false

namespace RouteContract.Coercion

open Number (Binary64 plain)
open Number.Binary64 (signed signed_false signed_true)
open Coerced (ok refuse orRefuse)

/-- The integer that digits are coerced to: the one they write within 64 bits, and the least one for
those that are rounded to it. -/
def nearby64? (n : Int) : Option Int :=
  if -2 ^ 63 - 1024 ≤ n ∧ n < -2 ^ 63 then some (-2 ^ 63) else integer64? n

section

variable {n : Int}

theorem integer64?_eq (n : Int) :
    integer64? n = if -2 ^ 63 ≤ n ∧ n < 2 ^ 63 then some n else none := rfl

theorem nearby64?_within (hlow : -2 ^ 63 ≤ n) : nearby64? n = integer64? n :=
  if_neg fun h => Int.not_lt.mpr hlow h.2

theorem nearby64?_eq_none (h : 2 ^ 63 ≤ n ∨ n < -2 ^ 63 - 1024) : nearby64? n = none := by
  rw [nearby64?, if_neg (by omega), integer64?_eq, if_neg (by omega)]

theorem nearby64?_near (hlow : -2 ^ 63 - 1024 ≤ n) (hhigh : n ≤ -2 ^ 63) :
    nearby64? n = some (-2 ^ 63) := by
  rcases Int.lt_or_eq_of_le hhigh with hlt | rfl
  · exact if_pos ⟨hlow, hlt⟩
  · rfl

/-- The exception is no other than the integers that are rounded. -/
theorem nearby64?_exact :
    nearby64? n = (if -2 ^ 63 ≤ n ∧ n < 2 ^ 63 then some n else none) ↔
      ¬(-2 ^ 63 - 1024 ≤ n ∧ n < -2 ^ 63) := by
  rw [← integer64?_eq]
  constructor
  · intro h hgap
    rw [nearby64?, if_pos hgap, integer64?_eq, if_neg (by omega)] at h
    cases h
  · exact fun hgap => if_neg hgap

end

section

variable {negative : Bool} {k : Nat} {x : Binary64}

theorem integral?_eq_none {c : Nat} (hc : 2 ^ 63 ≤ c) (h : x.AtLeast c)
    (hsign : x.negative = false ∨ 2 ^ 63 < c) : integral? x = none := by
  refine Option.bind_eq_none_iff.mpr fun n hn => ?_
  obtain ⟨q, hq, rfl⟩ := h.toInt?_eq hn
  rw [integer64?_eq, if_neg]
  cases hneg : x.negative with
  | false =>
    rw [signed_false]
    omega
  | true =>
    have hlt := hsign.resolve_left (by simp [hneg])
    rw [signed_true]
    omega

/-- A double close to an integer beyond the limit is coerced as that integer is. -/
theorem integral?_of_limits (hk : 2 ^ 63 ≤ k) (hneg : x.negative = negative) (h : x.Limits k) :
    integral? x = nearby64? (signed negative k) := by
  cases negative with
  | false =>
    rw [integral?_eq_none (Nat.le_refl _) h.atLeast (.inl hneg), signed_false,
      nearby64?_eq_none (.inl (by omega))]
  | true =>
    rw [signed_true]
    rcases Nat.lt_or_ge (2 ^ 63 + 1024) k with hfar | hnear
    · rw [integral?_eq_none (by decide) (h.far hfar) (.inr (by decide)),
        nearby64?_eq_none (.inr (by omega))]
    · obtain ⟨hleast, hmost⟩ := h.near hnear
      rw [nearby64?_near (by omega) (by omega), integral?,
        Number.Binary64.toInt?_of_bounds hleast hmost, hneg]
      rfl

theorem integerOfText?_plain :
    integerOfText? (plain negative k) = nearby64? (signed negative k) := by
  rw [integerOfText?, Number.integer?_plain, Option.bind_some, Number.decimal?_plain]
  by_cases hin : -2 ^ 63 ≤ signed negative k ∧ signed negative k < 2 ^ 63
  · rw [nearby64?_within hin.1, integer64?_eq, if_pos hin, Option.some_or]
  rw [integer64?_eq, if_neg hin, Option.none_or]
  have hk : 2 ^ 63 ≤ k := by
    cases negative <;> simp only [signed_false, signed_true] at hin <;> omega
  cases hx : Binary64.ofDecimal? negative k 0 with
  | some x =>
    obtain ⟨hneg, hlimits⟩ := Number.Binary64.ofDecimal?_limits hk hx
    exact integral?_of_limits hk hneg hlimits
  | none =>
    have hlarge : 2 ^ 64 ≤ k := by
      refine Nat.not_lt.mp fun hlt => ?_
      obtain ⟨x, hsome⟩ := Number.Binary64.ofDecimal?_isSome negative hlt
      rw [hx] at hsome
      cases hsome
    refine (nearby64?_eq_none ?_).symm
    cases negative <;> simp only [signed_false, signed_true] <;> omega

theorem integerOfJson?_literal {v : Json} (h : Json.LiteralValue negative k v) :
    integerOfJson? v = nearby64? (signed negative k) := by
  cases h with
  | integer hfits =>
    simp only [Json.fits, Bool.and_eq_true, decide_eq_true_eq] at hfits
    exact (nearby64?_within hfits.1).symm
  | zero hk hy =>
    rw [hk, integerOfJson?, integral?, Number.Binary64.toInt?_of_isZero hy]
    cases negative <;> rfl
  | limit hk hneg hy => exact integral?_of_limits hk hneg hy

end

section

variable {ds : Definitions} {extras : Extras} {s : Schema} {kind : Primitive}

theorem text_primitive (hs : deref ds maxHops s = .ok (.primitive kind)) (delimiter : Option Char)
    (first : String) (more : List String) (path : String) :
    text ds extras delimiter s (first :: more) path = some (textPrimitive kind first path) := by
  simp only [text, textWithin, through, hs]
  rfl

theorem json_primitive (hs : deref ds maxHops s = .ok (.primitive kind)) (v : Json)
    (path : String) : json ds extras s v path = some (jsonPrimitive kind v path) := by
  simp only [json, budget, jsonWithin, through, hs, jsonStep]

theorem unspaced_plain {negative : Bool} {k : Nat} : Text.Unspaced (plain negative k) := by
  refine Text.unspaced_append.mpr ⟨?_, fun c hc =>
    Text.isBlank_of_isDigit (Number.isDigit_of_mem_digits hc)⟩
  cases negative with
  | false => exact Text.unspaced_nil
  | true => exact Text.unspaced_cons.mpr ⟨Text.isBlank_marks.1, Text.unspaced_nil⟩

/-- Against an integer schema a text is coerced to the integer it writes, or refused as none where
it lies outside 64 bits, and so is the value of a JSON literal; literals of at most 200 digits have
a value. The exception are the integers from `-2 ^ 63 - 1024` up to `-2 ^ 63 - 1`, which are coerced
to `-2 ^ 63`. -/
theorem integer_plain (hs : deref ds maxHops s = .ok (.primitive .integer)) (negative : Bool)
    (k : Nat) (path : String) :
    (∀ delimiter more,
      text ds extras delimiter s (String.ofList (plain negative k) :: more) path =
        some (orRefuse ((nearby64? (signed negative k)).map .integer) path (.invalid "integer")
          (.string (String.ofList (plain negative k))))) ∧
    (∀ depth rest, Json.Stops rest →
      (k < 10 ^ 200 → ∃ v, Json.readValue? depth (plain negative k ++ rest) = some (v, rest)) ∧
      ∀ v rest', Json.readValue? depth (plain negative k ++ rest) = some (v, rest') →
        rest' = rest ∧ json ds extras s v path =
          some (orRefuse ((nearby64? (signed negative k)).map .integer) path (.invalid "integer")
            v)) ∧
    (nearby64? (signed negative k) =
        (if -2 ^ 63 ≤ signed negative k ∧ signed negative k < 2 ^ 63 then some (signed negative k)
          else none) ↔
      ¬(-2 ^ 63 - 1024 ≤ signed negative k ∧ signed negative k < -2 ^ 63)) := by
  refine ⟨fun delimiter more => ?_, fun depth rest hrest => ?_, nearby64?_exact⟩
  · rw [text_primitive hs, textPrimitive, String.toList_ofList, unspaced_plain.trim_eq,
      integerOfText?_plain]
  · rw [Json.readValue?_plain depth hrest]
    constructor
    · intro hk
      obtain ⟨v, hv⟩ := Json.value?_isSome negative hk
      exact ⟨v, by rw [hv, Option.map_some]⟩
    · intro v rest' hread
      obtain ⟨v, hv, ⟨⟩⟩ := Option.map_eq_some_iff.mp hread
      refine ⟨rfl, ?_⟩
      rw [json_primitive hs, jsonPrimitive, integerOfJson?_literal (Json.value?_literal hv)]

end

namespace Sample

/-- The first integer below the exception is refused. -/
theorem farther_refused :
    text [] .drop none (.primitive .integer) ["-9223372036854776833"] "p" =
      some (refuse "p" (.invalid "integer") (.string "-9223372036854776833")) ∧
    ∃ v, Json.readValue? 0 "-9223372036854776833".toList = some (v, []) ∧
      json [] .drop (.primitive .integer) v "p" = some (refuse "p" (.invalid "integer") v) := by
  have hplain : String.ofList (plain true 9223372036854776833) = "-9223372036854776833" := by
    decide +kernel
  have hchars : plain true 9223372036854776833 ++ [] = "-9223372036854776833".toList := by
    rw [← hplain, String.toList_ofList, List.append_nil]
  obtain ⟨htext, hjson, -⟩ :=
    @integer_plain [] .drop (.primitive .integer) rfl true 9223372036854776833 "p"
  obtain ⟨hread, hcoerced⟩ := hjson 0 [] (fun _ h => nomatch h)
  obtain ⟨v, hv⟩ := hread (by decide +kernel)
  refine ⟨?_, v, hchars ▸ hv, ?_⟩
  · rw [← hplain, htext none []]
    rfl
  · rw [(hcoerced v [] hv).2]
    rfl

/-- The integer next below the least one is coerced to the least one. -/
theorem below_least_coerced :
    (-9223372036854775809 : Int) < -2 ^ 63 ∧
    text [] .drop none (.primitive .integer) ["-9223372036854775809"] "p" =
      some (ok (.integer (-9223372036854775808))) :=
  ⟨by decide, rfl⟩

end Sample

end RouteContract.Coercion
