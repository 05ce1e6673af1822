import Mathlib.Data.List.TakeWhile
import RouteContract.Text.Blank

/-!
# Pieces and blanks

A text falls into the pieces between its separators, and pieces without the
separator are read back from the text that joins them. Trimming takes the blanks
at both ends of a text, however many are put there.
-/

set_option autoImplicit false

namespace RouteContract.Text

theorem pieces_eq_splitOn (d : Char) (cs : List Char) : pieces d cs = cs.splitOn d := by
  induction cs with
  | nil => rfl
  | cons c cs ih =>
    rw [pieces, ih, List.splitOn_cons_eq_if_modifyHead]
    by_cases hc : c = d
    · simp [hc]
    · cases hpieces : cs.splitOn d with
      | nil => exact absurd hpieces (List.splitOn_ne_nil d cs)
      | cons p ps => simp [hc]

theorem pieces_intercalate {d : Char} {ps : List (List Char)} (hfree : ∀ p ∈ ps, d ∉ p)
    (hne : ps ≠ []) : pieces d ([d].intercalate ps) = ps := by
  rw [pieces_eq_splitOn, List.splitOn_intercalate d hfree hne]

theorem stripPrefix?_eq_some {p cs rest : List Char} :
    stripPrefix? p cs = some rest ↔ cs = p ++ rest := by
  induction p generalizing cs with
  | nil => simp [stripPrefix?, eq_comm]
  | cons a p ih =>
    cases cs with
    | nil => simp [stripPrefix?]
    | cons c cs =>
      by_cases hc : a = c
      · simp [stripPrefix?, hc, ih]
      · simp [stripPrefix?, hc, Ne.symm hc]

theorem pieces_append {d : Char} {xs : List Char} (h : d ∉ xs) (ys : List Char) :
    pieces d (xs ++ d :: ys) = xs :: pieces d ys := by
  induction xs with
  | nil => simp [pieces]
  | cons x xs ih =>
    have hx : x ≠ d := fun he => h (he ▸ List.mem_cons_self)
    rw [List.cons_append, pieces, if_neg hx, ih fun hmem => h (List.mem_cons_of_mem x hmem)]

theorem intercalate_pieces (d : Char) (cs : List Char) : [d].intercalate (pieces d cs) = cs := by
  rw [pieces_eq_splitOn, List.intercalate_splitOn]

/-- No piece has the separator in it. -/
theorem not_mem_of_mem_pieces {d : Char} {cs p : List Char} (h : p ∈ pieces d cs) : d ∉ p := by
  induction cs generalizing p with
  | nil =>
    rw [pieces, List.mem_singleton] at h
    rw [h]
    exact List.not_mem_nil
  | cons c cs ih =>
    by_cases hc : c = d
    · rw [pieces, if_pos hc, List.mem_cons] at h
      rcases h with rfl | h
      · exact List.not_mem_nil
      · exact ih h
    · rw [pieces, if_neg hc] at h
      cases hrest : pieces d cs with
      | nil =>
        rw [hrest, List.mem_singleton] at h
        simp [h, Ne.symm hc]
      | cons q qs =>
        rw [hrest] at h ih
        rcases List.mem_cons.mp h with rfl | h
        · simp [Ne.symm hc, ih List.mem_cons_self]
        · exact ih (List.mem_cons_of_mem q h)

theorem filter_filled {ps : List (List Char)} (h : [] ∉ ps) : ps.filter (!·.isEmpty) = ps := by
  refine List.filter_eq_self.mpr fun p hp => ?_
  have hfilled : p ≠ [] := fun he => h (he ▸ hp)
  simpa using hfilled

theorem intercalate_cons (d : Char) (p : List Char) (ps : List (List Char)) :
    [d].intercalate (p :: ps) = p ++ ps.flatMap (d :: ·) := by
  induction ps generalizing p with
  | nil => simp
  | cons q ps ih =>
    rw [List.intercalate_cons_cons, ih, List.flatMap_cons]
    simp

theorem intercalate_concat (separator : List Char) {ps : List (List Char)} (h : ps ≠ [])
    (p : List Char) :
    separator.intercalate (ps ++ [p]) = separator.intercalate ps ++ separator ++ p := by
  induction ps with
  | nil => exact absurd rfl h
  | cons q ps ih =>
    cases ps with
    | nil => simp
    | cons r ps => simpa [List.intercalate_cons_cons] using ih (List.cons_ne_nil r ps)

theorem mem_intercalate {separator : List Char} {ps : List (List Char)} {c : Char}
    (h : c ∈ separator.intercalate ps) : c ∈ separator ∨ ∃ p ∈ ps, c ∈ p := by
  induction ps with
  | nil => simp at h
  | cons p ps ih =>
    cases ps with
    | nil => exact .inr ⟨p, List.mem_cons_self, by simpa using h⟩
    | cons q ps =>
      rw [List.intercalate_cons_cons, List.append_assoc, List.mem_append, List.mem_append] at h
      rcases h with h | h | h
      · exact .inr ⟨p, List.mem_cons_self, h⟩
      · exact .inl h
      · rcases ih h with h | ⟨r, hr, hc⟩
        · exact .inl h
        · exact .inr ⟨r, List.mem_cons_of_mem p hr, hc⟩

theorem head?_intercalate (separator : List Char) {p : List Char} (hp : p ≠ [])
    (ps : List (List Char)) : (separator.intercalate (p :: ps)).head? = p.head? := by
  obtain ⟨c, cs, rfl⟩ := List.exists_cons_of_ne_nil hp
  cases ps with
  | nil => simp
  | cons q ps => simp [List.intercalate_cons_cons]

theorem getLast?_intercalate (separator : List Char) {p : List Char} (hp : p ≠ [])
    (ps : List (List Char)) : (separator.intercalate (ps ++ [p])).getLast? = p.getLast? := by
  by_cases hps : ps = []
  · simp [hps]
  · rw [intercalate_concat separator hps, List.getLast?_append, List.getLast?_eq_some_getLast hp,
      Option.some_or]

/-! ## The first separator -/

theorem splitFirst_append {p : Char → Bool} {xs : List Char} (h : ∀ c ∈ xs, p c = false)
    {d : Char} (hd : p d = true) (ys : List Char) : splitFirst p (xs ++ d :: ys) = (xs, ys) := by
  have hfree : ∀ c ∈ xs, (!p c) = true := fun c hc => by simp [h c hc]
  simp [splitFirst, List.takeWhile_append_of_pos hfree, List.dropWhile_append_of_pos hfree, hd]

theorem splitFirst_of_free {p : Char → Bool} {xs : List Char} (h : ∀ c ∈ xs, p c = false) :
    splitFirst p xs = (xs, []) := by
  have hfree : ∀ c ∈ xs, (!p c) = true := fun c hc => by simp [h c hc]
  simp [splitFirst, List.takeWhile_eq_self_iff.mpr hfree, List.dropWhile_eq_nil_iff.mpr hfree]

/-! ## Prefixes that repeat -/

theorem dropPrefixes_of_none {p cs : List Char} (h : stripPrefix? p cs = none) (n : Nat) :
    dropPrefixes p n cs = cs := by
  cases n with
  | zero => rfl
  | succ n => rw [dropPrefixes, h]

theorem trimPrefixes_append {p rest : List Char} (hp : p ≠ []) (h : stripPrefix? p rest = none) :
    trimPrefixes p (p ++ rest) = rest := by
  have hown : stripPrefix? p (p ++ rest) = some rest := stripPrefix?_eq_some.mpr rfl
  obtain ⟨n, hn⟩ : ∃ n, (p ++ rest).length = n + 1 := by
    cases p with
    | nil => exact absurd rfl hp
    | cons c p => exact ⟨(p ++ rest).length, rfl⟩
  rw [trimPrefixes, hn, dropPrefixes, hown]
  exact dropPrefixes_of_none h n

theorem trimSuffixes_append {p rest : List Char} (hp : p ≠ [])
    (h : stripPrefix? p.reverse rest.reverse = none) : trimSuffixes p (rest ++ p) = rest := by
  rw [trimSuffixes, List.reverse_append, trimPrefixes_append (by simpa using hp) h,
    List.reverse_reverse]

/-! ## Trimming -/

def Blank (cs : List Char) : Prop := ∀ c ∈ cs, isBlank c = true

theorem blank_singleton {c : Char} (h : isBlank c = true) : Blank [c] := by
  rintro _ hc
  cases List.mem_singleton.mp hc
  exact h

theorem trimEnd_append {b : List Char} (hb : Blank b) (cs : List Char) :
    trimEnd (cs ++ b) = trimEnd cs := by
  rw [trimEnd, List.reverse_append,
    List.dropWhile_append_of_pos fun c hc => hb c (List.mem_reverse.mp hc), trimEnd]

theorem trimEnd_cons {c : Char} (hc : isBlank c = false) (cs : List Char) :
    trimEnd (c :: cs) = c :: trimEnd cs := by
  rw [trimEnd, List.reverse_cons, List.dropWhile_append, trimEnd]
  cases hdrop : cs.reverse.dropWhile isBlank with
  | nil => simp [hc]
  | cons d ds => simp

theorem trimStart_append {a : List Char} (ha : Blank a) (cs : List Char) :
    trimStart (a ++ cs) = trimStart cs := List.dropWhile_append_of_pos ha

/-- What a trimmed end has lost. -/
theorem exists_trimEnd (cs : List Char) : ∃ b, Blank b ∧ cs = trimEnd cs ++ b := by
  refine ⟨(cs.reverse.takeWhile isBlank).reverse, fun c hc => ?_, ?_⟩
  · exact List.mem_takeWhile_imp (List.mem_reverse.mp hc)
  · rw [trimEnd, ← List.reverse_append, List.takeWhile_append_dropWhile, List.reverse_reverse]

theorem trim_prepend {a : List Char} (ha : Blank a) (cs : List Char) : trim (a ++ cs) = trim cs := by
  rw [trim, trimStart_append ha, trim]

theorem trim_append {b : List Char} (hb : Blank b) (cs : List Char) : trim (cs ++ b) = trim cs := by
  rw [trim, trimStart, List.dropWhile_append, trim, trimStart]
  cases hdrop : cs.dropWhile isBlank with
  | nil =>
    have hrest : b.dropWhile isBlank = [] := List.dropWhile_eq_nil_iff.mpr hb
    simp [hrest]
  | cons c rest => simpa using trimEnd_append hb (c :: rest)

/-- Nothing is left of a text exactly when it is blank. -/
theorem trim_eq_nil_iff {cs : List Char} : trim cs = [] ↔ Blank cs := by
  constructor
  · intro h
    obtain ⟨b, hb, hstart⟩ := exists_trimEnd (trimStart cs)
    rw [← trim, h, List.nil_append] at hstart
    intro c hc
    rw [← List.takeWhile_append_dropWhile (p := isBlank) (l := cs), List.mem_append] at hc
    rcases hc with hc | hc
    · exact List.mem_takeWhile_imp hc
    · exact hb c (hstart ▸ hc)
  · intro h
    exact trim_append h []

theorem trim_trimEnd (cs : List Char) : trim (trimEnd cs) = trim cs := by
  obtain ⟨b, hb, hcs⟩ := exists_trimEnd cs
  have hlost := trim_append hb (trimEnd cs)
  rw [← hcs] at hlost
  exact hlost.symm

theorem trimStart_eq_self_iff {cs : List Char} :
    trimStart cs = cs ↔ ∀ c ∈ cs.head?, isBlank c = false := by
  cases cs with
  | nil => simp [trimStart]
  | cons c cs =>
    cases hc : isBlank c with
    | false => simp [trimStart, hc]
    | true =>
      have hlength := (List.dropWhile_suffix isBlank (l := cs)).length_le
      have hne : cs.dropWhile isBlank ≠ c :: cs := fun he => by
        rw [he, List.length_cons] at hlength
        omega
      simp [trimStart, hc, hne]

theorem trimEnd_eq_self_iff {cs : List Char} :
    trimEnd cs = cs ↔ ∀ c ∈ cs.getLast?, isBlank c = false := by
  rw [← List.head?_reverse, ← trimStart_eq_self_iff, trimStart, trimEnd,
    List.reverse_eq_iff]

/-- A text is its own trim exactly when no blank stands at either end. -/
theorem trim_eq_self_iff {cs : List Char} : trim cs = cs ↔
    (∀ c ∈ cs.head?, isBlank c = false) ∧ ∀ c ∈ cs.getLast?, isBlank c = false := by
  rw [← trimStart_eq_self_iff, ← trimEnd_eq_self_iff]
  constructor
  · intro h
    have hsuffix : trimStart cs <:+ cs := List.dropWhile_suffix isBlank
    obtain ⟨b, -, hb⟩ := exists_trimEnd (trimStart cs)
    have hlength : cs.length ≤ (trimStart cs).length := by
      rw [hb, List.length_append, ← trim, h]
      omega
    have hstart := hsuffix.eq_of_length_le hlength
    exact ⟨hstart, by rwa [trim, hstart] at h⟩
  · rintro ⟨hstart, hend⟩
    rw [trim, hstart, hend]

def Unspaced (cs : List Char) : Prop := ∀ c ∈ cs, isBlank c = false

@[simp]
theorem unspaced_nil : Unspaced [] := List.forall_mem_nil _

@[simp]
theorem unspaced_cons {c : Char} {cs : List Char} :
    Unspaced (c :: cs) ↔ isBlank c = false ∧ Unspaced cs := List.forall_mem_cons

@[simp]
theorem unspaced_append {cs ds : List Char} : Unspaced (cs ++ ds) ↔ Unspaced cs ∧ Unspaced ds :=
  List.forall_mem_append

/-- A text without blanks has none at its ends. -/
theorem Unspaced.trim_eq {cs : List Char} (h : Unspaced cs) : trim cs = cs :=
  trim_eq_self_iff.mpr
    ⟨fun c hc => h c (List.mem_of_head? hc), fun c hc => h c (List.mem_of_getLast? hc)⟩

/-- Trimmed texts with something in the first and the last are trimmed together. -/
theorem trim_intercalate_self (separator : List Char) {ps : List (List Char)}
    (h : ∀ p ∈ ps, trim p = p) (hfirst : ps.head? ≠ some []) (hlast : ps.getLast? ≠ some []) :
    trim (separator.intercalate ps) = separator.intercalate ps := by
  refine trim_eq_self_iff.mpr ⟨?_, ?_⟩
  · cases ps with
    | nil => simp
    | cons p ps =>
      have hp : p ≠ [] := fun he => hfirst (by rw [he]; rfl)
      rw [head?_intercalate separator hp]
      exact (trim_eq_self_iff.mp (h p List.mem_cons_self)).1
  · rcases List.eq_nil_or_concat ps with rfl | ⟨qs, q, rfl⟩
    · simp
    · rw [List.concat_eq_append] at h hlast ⊢
      have hq : q ≠ [] := fun he => hlast (by rw [he, List.getLast?_append]; rfl)
      rw [getLast?_intercalate separator hq]
      exact (trim_eq_self_iff.mp (h q (by simp))).2

end RouteContract.Text
