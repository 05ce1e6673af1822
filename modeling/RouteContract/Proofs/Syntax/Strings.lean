import RouteContract.SourceFile.Constant
import RouteContract.Syntax.Lexeme

/-!
# String literals

Any text can be written between double quotes with backslashes before the
characters that cannot stand there themselves. The literal is read to its end
wherever it stands, and nothing is assumed of the text or of what follows. What it
denotes for the reader is the text without its backslashes.
-/

set_option autoImplicit false

namespace RouteContract.Syntax

/-! ## Moving over a known text -/

namespace Cursor

structure At (c : Cursor) (cs : List Char) : Prop where
  rest : c.rest = cs
  left : c.left = cs.length

variable {c : Cursor}

theorem At.skip {xs ys : List Char} (h : c.At (xs ++ ys)) : (c.skip xs.length).At ys := by
  induction xs generalizing c with
  | nil => exact h
  | cons x xs ih =>
    obtain ⟨rest, left, position⟩ := c
    obtain ⟨rfl, rfl⟩ := h
    exact ih ⟨rfl, rfl⟩

theorem At.textTo {xs ys : List Char} (h : c.At (xs ++ ys)) :
    c.textTo (c.skip xs.length) = String.ofList xs := by
  have htaken : c.left - (c.skip xs.length).left = xs.length := by
    rw [h.left, h.skip.left, List.length_append]
    omega
  rw [Cursor.textTo, htaken, h.rest, List.take_left]

end Cursor

/-- No blank and no comment begins with a double quote. -/
theorem gap_quote {c : Cursor} {rest : List Char} (h : c.rest = '"' :: rest) : gap c = ([], c) := by
  obtain ⟨cs, left, position⟩ := c
  obtain rfl : cs = '"' :: rest := h
  cases left <;> rfl

/-! ## Writing -/

def mark? : Char → Option Char
  | '\\' => some '\\'
  | '"' => some '"'
  | '\n' => some 'n'
  | '\r' => some 'r'
  | '\t' => some 't'
  | _ => none

def escaped (c : Char) : List Char :=
  match mark? c with
  | some m => ['\\', m]
  | none => [c]

def literal (s : String) : List Char := '"' :: s.toList.flatMap escaped ++ ['"']

theorem mark?_eq_some {c m : Char} (h : mark? c = some m) :
    (c, m) ∈ [('\\', '\\'), ('"', '"'), ('\n', 'n'), ('\r', 'r'), ('\t', 't')] := by
  unfold mark? at h
  split at h <;> cases h <;> decide

theorem escapeLength?_mark {c m : Char} (h : mark? c = some m) (rest : List Char) :
    escapeLength? (m :: rest) = some 1 := by
  have hm := mark?_eq_some h
  simp only [List.mem_cons, List.not_mem_nil, or_false, Prod.mk.injEq] at hm
  rcases hm with ⟨-, rfl⟩ | ⟨-, rfl⟩ | ⟨-, rfl⟩ | ⟨-, rfl⟩ | ⟨-, rfl⟩ <;> rfl

/-! ## Reading -/

def unslashed (s : String) : String := String.ofList (s.toList.filter (· ≠ '\\'))

theorem unescape_mark {c m : Char} (h : mark? c = some m) :
    StringPiece.unescape (String.ofList ['\\', m]) = String.ofList ([c].filter (· ≠ '\\')) := by
  have hm := mark?_eq_some h
  simp only [List.mem_cons, List.not_mem_nil, or_false, Prod.mk.injEq] at hm
  rcases hm with ⟨rfl, rfl⟩ | ⟨rfl, rfl⟩ | ⟨rfl, rfl⟩ | ⟨rfl, rfl⟩ | ⟨rfl, rfl⟩ <;> decide

theorem decode_cons (p : StringPiece) (ps : List StringPiece) :
    StringPiece.decode (p :: ps) = p.text ++ StringPiece.decode ps := by
  simp [StringPiece.decode, String.join_cons]

section

variable {stops : Stops} {n : Nat} {c : Cursor} {x : Char} {xs ys : List Char}

theorem piecesWithin_escape (h : c.At ('\\' :: xs ++ ys))
    (hlength : escapeLength? (xs ++ ys) = some xs.length) :
    piecesWithin stops (n + 1) c =
      (piecesWithin stops n (c.skip ('\\' :: xs).length)).map fun r =>
        (.escape (String.ofList ('\\' :: xs)) :: r.1, r.2) := by
  rw [← h.textTo]
  obtain ⟨cs, left, position⟩ := c
  obtain rfl : cs = '\\' :: (xs ++ ys) := h.rest
  simp only [piecesWithin, hlength, Option.bind_eq_bind, Option.bind_some, List.length_cons]
  cases piecesWithin stops n _ <;> rfl

theorem piecesWithin_plain (h : c.At (x :: xs ++ ys)) (hx : x ≠ '\\')
    (hstops : stops x (xs ++ ys) = false)
    (hlength : piecesWithin.plainLength stops (x :: (xs ++ ys)) = (x :: xs).length) :
    piecesWithin stops (n + 1) c =
      (piecesWithin stops n (c.skip (x :: xs).length)).map fun r =>
        (.plain (String.ofList (x :: xs)) :: r.1, r.2) := by
  rw [← h.textTo]
  obtain ⟨cs, left, position⟩ := c
  obtain rfl : cs = x :: (xs ++ ys) := h.rest
  simp only [piecesWithin, hstops, hlength, Option.bind_eq_bind]
  cases piecesWithin stops n _ <;> rfl

theorem piecesWithin_stop (h : c.At (x :: ys)) (hx : x ≠ '\\') (hstops : stops x ys = true) :
    piecesWithin stops (n + 1) c = some ([], c) := by
  obtain ⟨cs, left, position⟩ := c
  obtain rfl : cs = x :: ys := h.rest
  simp [piecesWithin, hstops]

end

def endsQuoted : Stops := fun x _ => x = '"' || x = '\n' || x = '\r'

theorem mark?_eq_none {c : Char} (h : mark? c = none) :
    c ≠ '\\' ∧ ∀ rest, endsQuoted c rest = false := by
  have hne : ∀ d, mark? d ≠ none → c ≠ d := fun d hd hc => hd (hc ▸ h)
  simp [endsQuoted, hne '\\' (by decide), hne '"' (by decide), hne '\n' (by decide),
    hne '\r' (by decide)]

theorem plainLength_append {run rest : List Char} (hrun : ∀ c ∈ run, mark? c = none)
    (hrest : ∃ x xs, rest = x :: xs ∧ (x = '\\' ∨ x = '"')) :
    piecesWithin.plainLength endsQuoted (run ++ rest) = run.length := by
  induction run with
  | nil =>
    obtain ⟨x, xs, rfl, hx⟩ := hrest
    rcases hx with rfl | rfl <;> rfl
  | cons c run ih =>
    obtain ⟨hslash, hends⟩ := mark?_eq_none (hrun c List.mem_cons_self)
    have hlength := ih fun d hd => hrun d (List.mem_cons_of_mem c hd)
    simp [piecesWithin.plainLength, hslash, hends, hlength]

theorem flatMap_escaped_plain {run : List Char} (h : ∀ c ∈ run, mark? c = none) :
    run.flatMap escaped = run := by
  induction run with
  | nil => rfl
  | cons c run ih =>
    have hself : escaped c = [c] := by simp [escaped, h c List.mem_cons_self]
    rw [List.flatMap_cons, hself, ih fun d hd => h d (List.mem_cons_of_mem c hd)]
    rfl

theorem flatMap_escaped_head {s : List Char} (h : ∀ c ∈ s.head?, mark? c ≠ none)
    (rest : List Char) :
    ∃ x xs, s.flatMap escaped ++ '"' :: rest = x :: xs ∧ (x = '\\' ∨ x = '"') := by
  cases s with
  | nil => exact ⟨_, _, rfl, .inr rfl⟩
  | cons c s =>
    obtain ⟨m, hm⟩ := Option.ne_none_iff_exists'.mp (h c rfl)
    exact ⟨'\\', m :: (s.flatMap escaped ++ '"' :: rest), by simp [escaped, hm], .inl rfl⟩

theorem exists_run (s : List Char) : ∃ run tail, s = run ++ tail ∧ (∀ c ∈ run, mark? c = none) ∧
    ∀ c ∈ tail.head?, mark? c ≠ none := by
  induction s with
  | nil => exact ⟨[], [], by simp⟩
  | cons c s ih =>
    cases hc : mark? c with
    | some m => exact ⟨[], c :: s, rfl, by simp, by simp [hc]⟩
    | none =>
      obtain ⟨run, tail, rfl, hrun, htail⟩ := ih
      exact ⟨c :: run, tail, rfl, List.forall_mem_cons.mpr ⟨hc, hrun⟩, htail⟩

def Denotes (c : Cursor) (n : Nat) (rest : List Char) (text : String) : Prop :=
  ∃ ps stop, piecesWithin endsQuoted n c = some (ps, stop) ∧ stop.At ('"' :: rest) ∧
    StringPiece.decode ps = text

theorem Denotes.cons {c after : Cursor} {n : Nat} {rest : List Char} {text : String}
    {p : StringPiece} (h : Denotes after n rest text)
    (hp : piecesWithin endsQuoted (n + 1) c =
      (piecesWithin endsQuoted n after).map fun r => (p :: r.1, r.2)) :
    Denotes c (n + 1) rest (p.text ++ text) := by
  obtain ⟨ps, stop, hps, hstop, rfl⟩ := h
  exact ⟨p :: ps, stop, by rw [hp, hps]; rfl, hstop, decode_cons p ps⟩

/-- The pieces of a literal are its escapes and the longest runs of other characters between
them. -/
theorem denotes_escaped {n : Nat} {s rest : List Char} {c : Cursor} (hn : s.length < n)
    (hc : c.At (s.flatMap escaped ++ '"' :: rest)) :
    Denotes c n rest (String.ofList (s.filter (· ≠ '\\'))) := by
  induction n generalizing s c with
  | zero => omega
  | succ n ih =>
    cases s with
    | nil => exact ⟨[], c, piecesWithin_stop hc (by decide) rfl, hc, rfl⟩
    | cons x s =>
      cases hx : mark? x with
      | some m =>
        have htext : c.At ('\\' :: [m] ++ (s.flatMap escaped ++ '"' :: rest)) := by
          simpa [escaped, hx] using hc
        have hrest := ih (by simpa using hn) htext.skip
        have hall := hrest.cons (piecesWithin_escape htext (escapeLength?_mark hx _))
        rw [StringPiece.text, unescape_mark hx, ← String.ofList_append, ← List.filter_append] at hall
        exact hall
      | none =>
        obtain ⟨run, tail, rfl, hrun, htail⟩ : ∃ run tail, s = run ++ tail ∧
            (∀ c ∈ run, mark? c = none) ∧ ∀ c ∈ tail.head?, mark? c ≠ none :=
          exists_run s
        have hplain : ∀ c ∈ x :: run, mark? c = none := List.forall_mem_cons.mpr ⟨hx, hrun⟩
        have htext : c.At (x :: run ++ (tail.flatMap escaped ++ '"' :: rest)) := by
          rw [← List.cons_append, List.flatMap_append, flatMap_escaped_plain hplain,
            List.append_assoc] at hc
          exact hc
        have hlength := plainLength_append hplain (flatMap_escaped_head htail rest)
        obtain ⟨hslash, hends⟩ := mark?_eq_none hx
        have htailLength : tail.length < n := by
          simp at hn
          omega
        have hall := (ih htailLength htext.skip).cons
          (piecesWithin_plain htext hslash (hends _) hlength)
        have hkept : (x :: run).filter (· ≠ '\\') = x :: run := by
          refine List.filter_eq_self.mpr fun d hd => ?_
          simpa using (mark?_eq_none (hplain d hd)).1
        rw [← List.cons_append, List.filter_append, hkept, String.ofList_append]
        exact hall

theorem exactly_quote {c : Cursor} {ys : List Char} (h : c.At ('"' :: ys)) :
    exactly ('"').toString c = some ((), c.skip 1) := by
  obtain ⟨cs, left, position⟩ := c
  obtain rfl : cs = '"' :: ys := h.rest
  rfl

theorem length_le_escaped (s : List Char) : s.length ≤ (s.flatMap escaped).length := by
  induction s with
  | nil => simp
  | cons c s ih =>
    have hc : 1 ≤ (escaped c).length := by
      unfold escaped
      split <;> simp
    rw [List.flatMap_cons, List.length_append, List.length_cons]
    omega

theorem quotedBy_literal {c : Cursor} {s : String} {rest : List Char}
    (h : c.At (literal s ++ rest)) :
    ∃ ps stop, quotedBy '"' c = some (ps, stop) ∧ stop.At rest ∧
      StringPiece.decode ps = unslashed s := by
  have htext : c.At (['"'] ++ (s.toList.flatMap escaped ++ '"' :: rest)) := by
    simpa [literal] using h
  have hlength : s.toList.length < (c.skip 1).left + 1 := by
    have hleft : (c.skip 1).left = _ := htext.skip.left
    have hle := length_le_escaped s.toList
    rw [hleft, List.length_append]
    omega
  obtain ⟨ps, stop, hps, hstop, hdecode⟩ := denotes_escaped hlength htext.skip
  have hopen : sign ('"').toString c = some ((), c.skip 1) := by
    rw [sign, gap_quote htext.rest]
    exact exactly_quote htext
  refine ⟨ps, stop.skip 1, ?_, (show stop.At (['"'] ++ rest) from hstop).skip, hdecode⟩
  have hpieces : pieces endsQuoted (c.skip 1) = some (ps, stop) := hps
  have hstops : (fun x (_ : List Char) => decide (x = '"') || decide (x = '\n') ||
      decide (x = '\r')) = endsQuoted := rfl
  simp only [quotedBy, bind, StateT.bind, Option.bind, hopen, hstops, hpieces, exactly_quote hstop]
  rfl

theorem unslashed_eq_iff {s : String} : unslashed s = s ↔ '\\' ∉ s.toList := by
  rw [unslashed, ← String.toList_inj, String.toList_ofList, List.filter_eq_self]
  constructor
  · intro h hslash
    simpa using h '\\' hslash
  · intro h c hc
    have hne : c ≠ '\\' := fun he => h (he ▸ hc)
    simpa using hne

/-- A text is written between double quotes, with a backslash before each backslash, quote, line
feed, carriage return and tab. The literal is read to its end, and as a constant, a name or a source
it denotes the text without its backslashes. So it is the text itself exactly when there are none.
-/
theorem stringLiteral_literal (s : String) (rest : List Char) (position : Position) :
    ∃ ps stop, stringLiteral ⟨literal s ++ rest, (literal s ++ rest).length, position⟩ =
        some (ps, stop) ∧ stop.At rest ∧
      StringPiece.decode ps = unslashed s ∧ (Key.quoted ps).text = unslashed s ∧
      (Expr.string ps).constant? = some (.string (unslashed s)) ∧
      (StringPiece.decode ps = s ↔ '\\' ∉ s.toList) := by
  have hplace : (⟨literal s ++ rest, (literal s ++ rest).length, position⟩ : Cursor).At
      (literal s ++ rest) := ⟨rfl, rfl⟩
  obtain ⟨ps, stop, hps, hstop, hdecode⟩ := quotedBy_literal hplace
  refine ⟨ps, stop, ?_, hstop, hdecode, hdecode, ?_, ?_⟩
  · show (quotedBy '"' _).orElse _ = _
    rw [hps]
    rfl
  · rw [Expr.constant?, hdecode]
  · rw [hdecode]
    exact unslashed_eq_iff

namespace Sample

/-- A backslash is lost. -/
theorem path_unslashed : ∃ ps stop,
    stringLiteral (Cursor.ofText (literal "a\\b")) = some (ps, stop) ∧
      StringPiece.decode ps = "ab" ∧ StringPiece.decode ps ≠ "a\\b" := by
  exact ⟨[.plain "a", .escape "\\\\", .plain "b"], ⟨[], 0, ⟨0, 6⟩⟩, rfl, by decide, by decide⟩

end Sample

end RouteContract.Syntax
