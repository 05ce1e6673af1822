import RouteContract.Proofs.Text
import RouteContract.Proofs.TypeExpr

/-!
# What a name says of a type

A type is written into a name as words between marks: arguments and inline objects
stand between underscores, their parts are separated by points, and the members of
a union or an intersection are chained. Where no word has a mark in it, all of this
is read back. Modules, optional marks, defaults, index signatures and the grouping
of chains are not written at all, and neither is what kind of type a word stands
for.
-/

set_option autoImplicit false

namespace RouteContract

/-- A type as far as its name shows it. -/
inductive Sketch where
  | word (w : String)
  | generic (w : String) (first : Sketch) (more : List Sketch)
  | record (w : String) (first : Sketch) (more : List (String × Sketch))
  | chain (first : Sketch) (both : Bool) (rest : Sketch)

namespace Sketch

def joint (both : Bool) : List Char := if both then "-and-".toList else "-or-".toList

mutual

def write : Sketch → List Char
  | word w => w.toList
  | generic w first more => w.toList ++ '_' :: (write first ++ writeMore more)
  | record w first more => '_' :: (w.toList ++ '-' :: (write first ++ writeFields more))
  | chain first both rest => write first ++ (joint both ++ write rest)

def writeMore : List Sketch → List Char
  | [] => ['_']
  | s :: ss => '.' :: (write s ++ writeMore ss)

def writeFields : List (String × Sketch) → List Char
  | [] => ['_']
  | (w, s) :: fs => '.' :: (w.toList ++ '-' :: (write s ++ writeFields fs))

end

def append (both : Bool) : Sketch → Sketch → Sketch
  | chain first b rest, s => chain first b (append both rest s)
  | a, s => chain a both s

theorem write_append (both : Bool) (a s : Sketch) :
    (a.append both s).write = a.write ++ (joint both ++ s.write) := by
  fun_induction append both a s with
  | case1 first b rest s ih => simp only [write, ih, List.append_assoc]
  | case2 => rfl

def isMark (c : Char) : Bool := c = '_' || c = '-' || c = '.'

def Word (w : String) : Prop := w ≠ "" ∧ ∀ c ∈ w.toList, isMark c = false

/-- The words have no marks. In a chain, what stands first is no chain itself. -/
inductive Plain : Bool → Sketch → Prop
  | word {chained : Bool} {w : String} (hw : Word w) : Plain chained (word w)
  | generic {chained : Bool} {w : String} {s : Sketch} {ss : List Sketch} (hw : Word w)
      (hs : Plain true s) (hss : ∀ t ∈ ss, Plain true t) : Plain chained (generic w s ss)
  | record {chained : Bool} {w : String} {s : Sketch} {fs : List (String × Sketch)} (hw : Word w)
      (hs : Plain true s) (hnames : ∀ f ∈ fs, Word f.1) (hfs : ∀ f ∈ fs, Plain true f.2) :
      Plain chained (record w s fs)
  | chain {both : Bool} {a s : Sketch} (ha : Plain false a) (hs : Plain true s) :
      Plain true (chain a both s)

def Broken (r : List Char) : Prop := ∀ c ∈ r.head?, isMark c

def After (r : List Char) : Prop := Broken (r.dropWhile (· = '_'))

theorem After.broken {r : List Char} (h : After r) : Broken r := by
  cases r with
  | nil => exact nofun
  | cons c r =>
    by_cases hc : c = '_'
    · subst hc
      simp [Broken, isMark]
    · simpa [After, hc] using h

theorem after_close {r : List Char} : After ('_' :: r) ↔ After r := by simp [After]

theorem after_point (r : List Char) : After ('.' :: r) := by simp [After, Broken, isMark]

theorem after_joint (both : Bool) (r : List Char) : After (joint both ++ r) := by
  cases both <;> simp [After, Broken, isMark, joint]

theorem after_more (ss : List Sketch) {r : List Char} (h : After r) :
    After (writeMore ss ++ r) := by
  cases ss with
  | nil => exact after_close.mpr h
  | cons s ss => exact after_point _

theorem after_fields (fs : List (String × Sketch)) {r : List Char} (h : After r) :
    After (writeFields fs ++ r) := by
  cases fs with
  | nil => exact after_close.mpr h
  | cons f fs => exact after_point _

def Ends (chained : Bool) (r : List Char) : Prop := After r ∧ (chained → r.head? ≠ some '-')

theorem Word.exists_cons {w : String} (h : Word w) :
    ∃ c cs, w.toList = c :: cs ∧ isMark c = false := by
  cases hw : w.toList with
  | nil => exact absurd (String.toList_eq_nil_iff.mp hw) h.1
  | cons c cs => exact ⟨c, cs, rfl, h.2 c (hw ▸ List.mem_cons_self)⟩

theorem Word.not_after {w : String} (h : Word w) (r : List Char) : ¬ After (w.toList ++ r) := by
  obtain ⟨c, cs, hw, hc⟩ := h.exists_cons
  intro hafter
  have hbroken := hafter.broken
  rw [hw] at hbroken
  simp [Broken, hc] at hbroken

theorem Word.read {w v : String} (hw : Word w) (hv : Word v) {r s : List Char} (hr : Broken r)
    (hs : Broken s) (h : w.toList ++ r = v.toList ++ s) : w = v ∧ r = s := by
  have htake : ∀ {x : String} {y : List Char}, Word x → Broken y →
      (x.toList ++ y).takeWhile (!isMark ·) = x.toList := by
    intro x y hx hy
    rw [List.takeWhile_append_of_pos fun c hc => by simp [hx.2 c hc]]
    cases y with
    | nil => simp
    | cons c cs => simp [hy c rfl]
  have hlists : w.toList = v.toList := by rw [← htake hw hr, h, htake hv hs]
  obtain rfl : w = v := String.toList_inj.mp hlists
  exact ⟨rfl, List.append_cancel_left h⟩

/-- What begins a type does not end one. -/
theorem Plain.not_after {chained : Bool} {p : Sketch} (h : Plain chained p) (r : List Char) :
    ¬ After (p.write ++ r) := by
  induction h generalizing r with
  | word hw => exact hw.not_after r
  | generic hw =>
    rw [write, List.append_assoc]
    exact hw.not_after _
  | record hw =>
    rw [write, List.cons_append, List.append_assoc, after_close]
    exact hw.not_after _
  | chain _ _ ih _ =>
    rw [write, List.append_assoc]
    exact ih _

def Reads (chained : Bool) (p : Sketch) : Prop :=
  ∀ ⦃q : Sketch⦄ ⦃r s : List Char⦄, Plain chained q → Ends chained r → Ends chained s →
    p.write ++ r = q.write ++ s → p = q ∧ r = s

theorem ends_more (ss : List Sketch) {r : List Char} (h : After r) :
    Ends true (writeMore ss ++ r) := by
  refine ⟨after_more ss h, fun _ => ?_⟩
  cases ss <;> simp [writeMore]

theorem ends_fields (fs : List (String × Sketch)) {r : List Char} (h : After r) :
    Ends true (writeFields fs ++ r) := by
  refine ⟨after_fields fs h, fun _ => ?_⟩
  cases fs <;> simp [writeFields]

theorem reads_more {ss ts : List Sketch} (h : ∀ t ∈ ss, Reads true t)
    (hts : ∀ t ∈ ts, Plain true t) {r s : List Char} (hr : After r) (hs : After s)
    (heq : writeMore ss ++ r = writeMore ts ++ s) : ss = ts ∧ r = s := by
  induction ss generalizing ts with
  | nil =>
    cases ts with
    | nil => exact ⟨rfl, by simpa [writeMore] using heq⟩
    | cons t ts => simp [writeMore] at heq
  | cons p ss ih =>
    cases ts with
    | nil => simp [writeMore] at heq
    | cons t ts =>
      simp only [writeMore, List.cons_append, List.append_assoc, List.cons.injEq, true_and] at heq
      obtain ⟨rfl, hrest⟩ := h p List.mem_cons_self (hts t List.mem_cons_self)
        (ends_more ss hr) (ends_more ts hs) heq
      obtain ⟨rfl, rfl⟩ := ih (fun t ht => h t (List.mem_cons_of_mem p ht))
        (fun u hu => hts u (List.mem_cons_of_mem p hu)) hrest
      exact ⟨rfl, rfl⟩

/-- A name of a part of an object, and the type behind it. -/
theorem reads_field {w v : String} {p q : Sketch} {r s : List Char} (hw : Word w) (hv : Word v)
    (hp : Reads true p) (hq : Plain true q) (hr : Ends true r) (hs : Ends true s)
    (heq : w.toList ++ '-' :: (p.write ++ r) = v.toList ++ '-' :: (q.write ++ s)) :
    w = v ∧ p = q ∧ r = s := by
  have hdash : ∀ cs, Broken ('-' :: cs) := fun cs => by simp [Broken, isMark]
  obtain ⟨rfl, hrest⟩ := hw.read hv (hdash _) (hdash _) heq
  exact ⟨rfl, hp hq hr hs (List.cons.inj hrest).2⟩

theorem reads_fields {fs gs : List (String × Sketch)} (hwords : ∀ f ∈ fs, Word f.1)
    (h : ∀ f ∈ fs, Reads true f.2) (hnames : ∀ f ∈ gs, Word f.1) (hgs : ∀ f ∈ gs, Plain true f.2)
    {r s : List Char} (hr : After r) (hs : After s)
    (heq : writeFields fs ++ r = writeFields gs ++ s) : fs = gs ∧ r = s := by
  induction fs generalizing gs with
  | nil =>
    cases gs with
    | nil => exact ⟨rfl, by simpa [writeFields] using heq⟩
    | cons g gs => simp [writeFields] at heq
  | cons f fs ih =>
    cases gs with
    | nil => simp [writeFields] at heq
    | cons g gs =>
      obtain ⟨w, p⟩ := f
      obtain ⟨v, q⟩ := g
      simp only [writeFields, List.cons_append, List.append_assoc, List.cons.injEq, true_and]
        at heq
      obtain ⟨rfl, rfl, hrest⟩ := reads_field (hwords _ List.mem_cons_self)
        (hnames _ List.mem_cons_self) (h _ List.mem_cons_self) (hgs _ List.mem_cons_self)
        (ends_fields fs hr) (ends_fields gs hs) heq
      obtain ⟨rfl, rfl⟩ := ih (fun f hf => hwords f (List.mem_cons_of_mem _ hf))
        (fun f hf => h f (List.mem_cons_of_mem _ hf))
        (fun f hf => hnames f (List.mem_cons_of_mem _ hf))
        (fun f hf => hgs f (List.mem_cons_of_mem _ hf)) hrest
      exact ⟨rfl, rfl⟩

/-- A word that ends here has no arguments. -/
theorem Word.ne_generic {w v : String} (hw : Word w) (hv : Word v) {p : Sketch}
    (hp : Plain true p) {ss : List Sketch} {r s : List Char} (hr : After r) :
    w.toList ++ r ≠ (generic v p ss).write ++ s := by
  intro heq
  rw [write, List.append_assoc] at heq
  obtain ⟨-, rfl⟩ := hw.read hv hr.broken (by simp [Broken, isMark]) heq
  rw [List.cons_append, List.append_assoc, after_close] at hr
  exact hp.not_after _ hr

/-- What begins with a word is no object. -/
theorem Word.ne_record {w v : String} (hw : Word w) {p : Sketch} {fs : List (String × Sketch)}
    {r s : List Char} : w.toList ++ r ≠ (record v p fs).write ++ s := by
  obtain ⟨c, cs, hcs, hc⟩ := hw.exists_cons
  intro heq
  rw [hcs, write] at heq
  obtain ⟨rfl, -⟩ := List.cons.inj heq
  simp [isMark] at hc

theorem not_ends_joint (both : Bool) (r : List Char) : ¬ Ends true (joint both ++ r) := by
  intro h
  exact h.2 rfl (by cases both <;> rfl)

/-- What is no chain and is read as such is not taken for the first member of one. -/
theorem Reads.chained {p : Sketch} (h : Reads false p) (chained : Bool) : Reads chained p := by
  intro q r s hq hr hs heq
  have hr' : Ends false r := ⟨hr.1, nofun⟩
  have hs' : Ends false s := ⟨hs.1, nofun⟩
  cases hq with
  | word hw => exact h (.word hw) hr' hs' heq
  | generic hw ht hts => exact h (.generic hw ht hts) hr' hs' heq
  | record hw ht hnames hfs => exact h (.record hw ht hnames hfs) hr' hs' heq
  | @chain both a t ha ht =>
    rw [write, List.append_assoc, List.append_assoc] at heq
    obtain ⟨-, rfl⟩ := h ha hr' ⟨after_joint both _, nofun⟩ heq
    exact absurd hr (not_ends_joint both _)

theorem reads_word {w : String} (hw : Word w) : Reads false (word w) := by
  intro q r s hq hr hs heq
  cases hq with
  | word hv =>
    obtain ⟨rfl, rfl⟩ := hw.read hv hr.1.broken hs.1.broken heq
    exact ⟨rfl, rfl⟩
  | generic hv hp => exact absurd heq (hw.ne_generic hv hp hr.1)
  | record => exact absurd heq hw.ne_record

theorem reads_generic {w : String} {p : Sketch} {ss : List Sketch} (hw : Word w)
    (hplain : Plain true p) (hp : Reads true p) (hss : ∀ t ∈ ss, Reads true t) :
    Reads false (generic w p ss) := by
  intro q r s hq hr hs heq
  cases hq with
  | word hv => exact absurd heq.symm (hv.ne_generic hw hplain hs.1)
  | @generic _ v q ts hv hq hts =>
    simp only [write, List.append_assoc, List.cons_append] at heq
    have hopen : ∀ cs, Broken ('_' :: cs) := fun cs => by simp [Broken, isMark]
    obtain ⟨rfl, hargs⟩ := hw.read hv (hopen _) (hopen _) heq
    obtain ⟨rfl, hmore⟩ := hp hq (ends_more ss hr.1) (ends_more ts hs.1) (List.cons.inj hargs).2
    obtain ⟨rfl, rfl⟩ := reads_more hss hts hr.1 hs.1 hmore
    exact ⟨rfl, rfl⟩
  | record =>
    rw [write, List.append_assoc] at heq
    exact absurd heq hw.ne_record

theorem reads_record {w : String} {p : Sketch} {fs : List (String × Sketch)} (hw : Word w)
    (hnames : ∀ f ∈ fs, Word f.1) (hp : Reads true p) (hfs : ∀ f ∈ fs, Reads true f.2) :
    Reads false (record w p fs) := by
  intro q r s hq hr hs heq
  cases hq with
  | word hv => exact absurd heq.symm hv.ne_record
  | generic hv =>
    simp only [write, List.append_assoc] at heq
    exact absurd heq.symm hv.ne_record
  | @record _ v q gs hv hq hgnames hgs =>
    simp only [write, List.append_assoc, List.cons_append, List.cons.injEq, true_and] at heq
    obtain ⟨rfl, rfl, hmore⟩ :=
      reads_field hw hv hp hq (ends_fields fs hr.1) (ends_fields gs hs.1) heq
    obtain ⟨rfl, rfl⟩ := reads_fields hnames hfs hgnames hgs hr.1 hs.1 hmore
    exact ⟨rfl, rfl⟩

theorem joint_inj {b c : Bool} {r s : List Char} (h : joint b ++ r = joint c ++ s) :
    b = c ∧ r = s := by
  cases b <;> cases c <;> simp_all [joint]

theorem Plain.reads {chained : Bool} {p : Sketch} (h : Plain chained p) : Reads chained p := by
  induction h with
  | word hw => exact (reads_word hw).chained _
  | generic hw hplain _ hp hss => exact (reads_generic hw hplain hp hss).chained _
  | record hw _ hnames _ hp hfs => exact (reads_record hw hnames hp hfs).chained _
  | @chain both a p _ _ ha hp =>
    intro q r s hq hr hs heq
    have hjoint : ∀ b cs, Ends false (joint b ++ cs) := fun b cs => ⟨after_joint b cs, nofun⟩
    rw [write, List.append_assoc, List.append_assoc] at heq
    have hsingle : ¬ Plain false q := by
      intro hq
      obtain ⟨-, rfl⟩ := ha hq (hjoint both _) ⟨hs.1, nofun⟩ heq
      exact not_ends_joint both _ hs
    cases hq with
    | word hw => exact absurd (.word hw) hsingle
    | generic hw ht hts => exact absurd (.generic hw ht hts) hsingle
    | record hw ht hnames hfs => exact absurd (.record hw ht hnames hfs) hsingle
    | @chain both' b q hb hq =>
      rw [write, List.append_assoc, List.append_assoc] at heq
      obtain ⟨rfl, hrest⟩ := ha hb (hjoint both _) (hjoint both' _) heq
      obtain ⟨rfl, hmembers⟩ := joint_inj hrest
      obtain ⟨rfl, rfl⟩ := hp hq hr hs hmembers
      exact ⟨rfl, rfl⟩

/-- What is written without marks in its words is read back. -/
theorem Plain.write_inj {p q : Sketch} (hp : Plain true p) (hq : Plain true q)
    (h : p.write = q.write) : p = q := by
  have hend : Ends true [] := ⟨nofun, nofun⟩
  exact (hp.reads hq hend hend (by rw [h])).1

end Sketch

namespace TypeExpr

mutual

def sketch : TypeExpr → Sketch
  | keyword k => .word k.text
  | literal (.string s) => .word (sanitize s)
  | literal l => .word (sanitize l.text)
  | array t => .generic "Array" (sketch t) []
  | union ts => sketchChain false ts
  | intersection ts => sketchChain true ts
  | object ⟨[], _⟩ => .word "__"
  | object ⟨⟨name, t, _, _, _, _⟩ :: ps, _⟩ =>
    .record (sanitize name) (sketch t) (sketchProperties ps)
  | ref ⟨name, _, []⟩ => .word name
  | ref ⟨name, _, t :: ts⟩ => .generic name (sketch t) (sketchAll ts)
  | param name => .word name
  | unsupported _ => .word "unknown"

def sketchAll : List TypeExpr → List Sketch
  | [] => []
  | t :: ts => sketch t :: sketchAll ts

def sketchChain (both : Bool) : List TypeExpr → Sketch
  | [] => .word ""
  | [t] => sketch t
  | t :: ts => (sketch t).append both (sketchChain both ts)

def sketchProperties : List (Property TypeExpr) → List (String × Sketch)
  | [] => []
  | ⟨name, t, _, _, _, _⟩ :: ps => (sanitize name, sketch t) :: sketchProperties ps

end

open Sketch (joint writeMore writeFields)

mutual

/-- The name is what the sketch is written as. -/
theorem write_sketch : (t : TypeExpr) → t.sketch.write = t.encode.toList
  | .keyword k => rfl
  | .literal (.string s) => rfl
  | .literal (.number x) => rfl
  | .literal (.boolean b) => rfl
  | .array t => by
    simp only [sketch, encode, Sketch.write, writeMore, write_sketch t, String.toList_append]
    simp
  | .union ts => by
    rw [sketch, write_sketchChain false ts, encode, String.toList_intercalate]
    rfl
  | .intersection ts => by
    rw [sketch, write_sketchChain true ts, encode, String.toList_intercalate]
    rfl
  | .object ⟨[], is⟩ => rfl
  | .object ⟨⟨name, t, _, _, _, _⟩ :: ps, is⟩ => by
    simp only [sketch, encode, encodeProperties, Sketch.write, write_sketch t,
      write_sketchProperties ps, String.toList_append, String.toList_intercalate, List.map_cons]
    simp [Text.intercalate_cons, List.flatMap_map]
  | .ref ⟨name, _, []⟩ => rfl
  | .ref ⟨name, _, t :: ts⟩ => by
    simp only [sketch, encode, encodeAll, Sketch.write, write_sketch t, write_sketchAll ts,
      String.toList_append, String.toList_intercalate, List.map_cons]
    simp [Text.intercalate_cons, List.flatMap_map]
  | .param name => rfl
  | .unsupported c => rfl

theorem write_sketchAll : (ts : List TypeExpr) →
    writeMore (sketchAll ts) = (encodeAll ts).flatMap (fun s => '.' :: s.toList) ++ ['_']
  | [] => rfl
  | t :: ts => by
    simp only [sketchAll, encodeAll, writeMore, write_sketch t, write_sketchAll ts,
      List.flatMap_cons, List.cons_append, List.append_assoc]

theorem write_sketchChain (both : Bool) : (ts : List TypeExpr) →
    (sketchChain both ts).write = (joint both).intercalate ((encodeAll ts).map String.toList)
  | [] => rfl
  | [t] => by
    rw [sketchChain, write_sketch t]
    simp [encodeAll]
  | t :: u :: ts => by
    show ((sketch t).append both (sketchChain both (u :: ts))).write = _
    rw [Sketch.write_append, write_sketch t, write_sketchChain both (u :: ts)]
    simp [encodeAll, List.intercalate_cons_cons]

theorem write_sketchProperties : (ps : List (Property TypeExpr)) →
    writeFields (sketchProperties ps) =
      (encodeProperties ps).flatMap (fun s => '.' :: s.toList) ++ ['_']
  | [] => rfl
  | ⟨name, t, _, _, _, _⟩ :: ps => by
    simp only [sketchProperties, encodeProperties, writeFields, write_sketch t,
      write_sketchProperties ps, List.flatMap_cons, List.cons_append, List.append_assoc,
      String.toList_append]
    simp

end

theorem encode_eq_of_sketch {t u : TypeExpr} (h : t.sketch = u.sketch) : t.encode = u.encode := by
  rw [← String.toList_inj, ← write_sketch, ← write_sketch, h]

/-- Where no word has a mark in it, types have one name exactly if they have one sketch. -/
theorem encode_eq_iff {t u : TypeExpr} (ht : Sketch.Plain true t.sketch)
    (hu : Sketch.Plain true u.sketch) : t.encode = u.encode ↔ t.sketch = u.sketch := by
  refine ⟨fun h => ht.write_inj hu ?_, encode_eq_of_sketch⟩
  rw [write_sketch, write_sketch, h]

/-- Argument lists are told apart by the names of their instances exactly if their sketches differ,
where no word has a mark in it. -/
theorem canonicalName_eq_iff {name : String} {as bs : List TypeExpr}
    (ha : Sketch.Plain true (TypeExpr.ref ⟨name, none, as⟩).sketch)
    (hb : Sketch.Plain true (TypeExpr.ref ⟨name, none, bs⟩).sketch) :
    canonicalName name as = canonicalName name bs ↔ sketchAll as = sketchAll bs := by
  refine (encode_eq_iff ha hb).trans ?_
  cases as <;> cases bs <;> simp [sketch, sketchAll]

end TypeExpr

def Instance.sketch (i : Instance) : Sketch := (TypeExpr.ref ⟨i.id.name, none, i.args⟩).sketch

end RouteContract
