import RouteContract.Documentation
import RouteContract.Proofs.Text

/-!
# Documentation comments as they are written

A comment is laid out line by line, each line after a star. The description comes
first and may have empty lines inside, and the text of a tag may go on over more
lines. Reading the comment gives back what was laid out, and where the text of a
tag was broken makes no difference.
-/

set_option autoImplicit false

namespace RouteContract

structure IsLine (s : String) : Prop where
  trimmed : Text.trim s.toList = s.toList
  single : '\n' ∉ s.toList

instance (s : String) : Decidable (IsLine s) :=
  decidable_of_iff (Text.trim s.toList = s.toList ∧ '\n' ∉ s.toList)
    ⟨fun h => ⟨h.1, h.2⟩, fun h => ⟨h.trimmed, h.single⟩⟩

structure Continues (s : String) : Prop extends IsLine s where
  plain : ∀ c ∈ s.toList.head?, c ≠ '*' ∧ c ≠ '@'

instance (s : String) : Decidable (Continues s) :=
  decidable_of_iff (IsLine s ∧ s.toList.head?.all fun c => c ≠ '*' && c ≠ '@')
    ⟨fun h => ⟨h.1, by simpa [Option.all_eq_true] using h.2⟩,
      fun h => ⟨h.toIsLine, by simpa [Option.all_eq_true] using h.plain⟩⟩

/-- A tag with its text broken into lines: the text after the name, and the lines below it. -/
structure TagLayout where
  name : String
  first : String
  more : List String

namespace TagLayout

structure WellFormed (t : TagLayout) : Prop where
  name : Text.Unspaced t.name.toList
  first : IsLine t.first
  more : ∀ l ∈ t.more, Continues l ∧ l ≠ ""

instance (t : TagLayout) : Decidable t.WellFormed :=
  decidable_of_iff (t.name.toList.all (!Text.isBlank ·) ∧ IsLine t.first ∧
      ∀ l ∈ t.more, Continues l ∧ l ≠ "")
    ⟨fun h => ⟨by simpa [Text.Unspaced] using h.1, h.2.1, h.2.2⟩,
      fun h => ⟨by simpa [Text.Unspaced] using h.name, h.first, h.more⟩⟩

def texts (t : TagLayout) : List String := (t.first :: t.more).filter (· ≠ "")

def tag (t : TagLayout) : DocTag := ⟨t.name, " ".intercalate t.texts⟩

def lines (t : TagLayout) : List String := ("@" ++ t.name ++ " " ++ t.first) :: t.more

def oneLine (t : DocTag) : TagLayout := ⟨t.name, t.text, []⟩

theorem tag_oneLine (t : DocTag) : (oneLine t).tag = t := by
  obtain ⟨name, text⟩ := t
  by_cases htext : text = "" <;> simp [oneLine, tag, texts, htext]

namespace WellFormed

variable {t : TagLayout}

theorem texts (h : t.WellFormed) {s : String} (hs : s ∈ t.texts) : IsLine s ∧ s ≠ "" := by
  obtain ⟨hmem, hne⟩ := List.mem_filter.mp hs
  rcases List.mem_cons.mp hmem with rfl | hmore
  · exact ⟨h.first, by simpa using hne⟩
  · exact ⟨(h.more s hmore).1.toIsLine, by simpa using hne⟩

theorem isLine_text (h : t.WellFormed) : IsLine t.tag.text where
  trimmed := by
    rw [tag, String.toList_intercalate]
    have hnone : [] ∉ t.texts.map String.toList := by
      rintro hmem
      obtain ⟨s, hs, hempty⟩ := List.mem_map.mp hmem
      exact (h.texts hs).2 (String.toList_eq_nil_iff.mp hempty)
    refine Text.trim_intercalate_self _ (fun p hp => ?_) (fun he => ?_) fun he => ?_
    · obtain ⟨s, hs, rfl⟩ := List.mem_map.mp hp
      exact (h.texts hs).1.trimmed
    · exact hnone (List.mem_of_head? he)
    · exact hnone (List.mem_of_getLast? he)
  single := by
    rw [tag, String.toList_intercalate]
    intro hmem
    rcases Text.mem_intercalate hmem with hblank | ⟨p, hp, hbreak⟩
    · exact absurd hblank (by decide)
    · obtain ⟨s, hs, rfl⟩ := List.mem_map.mp hp
      exact (h.texts hs).1.single hbreak

theorem oneLine (h : t.WellFormed) : (oneLine t.tag).WellFormed :=
  ⟨h.name, h.isLine_text, fun _ hl => absurd hl List.not_mem_nil⟩

theorem single (h : t.WellFormed) : ∀ l ∈ t.lines, '\n' ∉ l.toList := by
  intro l hl
  rcases List.mem_cons.mp hl with rfl | hmore
  · have hname : '\n' ∉ t.name.toList := fun hmem => absurd (h.name _ hmem) (by decide)
    simp [hname, h.first.single]
  · exact (h.more l hmore).1.single

end WellFormed

end TagLayout

namespace Documentation

def descriptionLines : Option String → List String
  | none => []
  | some d => (Text.pieces '\n' d.toList).map String.ofList

structure Describes (d : Option String) : Prop where
  lines : ∀ l ∈ descriptionLines d, Continues l
  first : (descriptionLines d).head? ≠ some ""
  last : (descriptionLines d).getLast? ≠ some ""

instance (d : Option String) : Decidable (Describes d) :=
  decidable_of_iff ((∀ l ∈ descriptionLines d, Continues l) ∧
      (descriptionLines d).head? ≠ some "" ∧ (descriptionLines d).getLast? ≠ some "")
    ⟨fun h => ⟨h.1, h.2.1, h.2.2⟩, fun h => ⟨h.lines, h.first, h.last⟩⟩

def written (lines : List String) : String :=
  "/**\n" ++ String.join (lines.map fun l => " * " ++ l ++ "\n") ++ " */"

def comment (d : Option String) (ts : List TagLayout) : String :=
  written (descriptionLines d ++ ts.flatMap TagLayout.lines)

/-! ## Lines of a comment -/

def starred (l : String) : List Char := ' ' :: '*' :: ' ' :: l.toList

def rows (lines : List String) : List Char := lines.flatMap fun l => starred l ++ ['\n']

theorem toList_written (lines : List String) :
    (written lines).toList = "/**".toList ++ ('\n' :: rows lines ++ [' '] ++ "*/".toList) := by
  have hrows : (String.join (lines.map fun l => " * " ++ l ++ "\n")).toList = rows lines := by
    simp [rows, starred, String.toList_join, List.flatMap_map]
  simp [written, hrows]

/-- What stands between the delimiters: an empty line, the lines, and the blank before the end. -/
theorem body_written (lines : List String) :
    body (written lines).toList = '\n' :: rows lines ++ [' '] := by
  have htrim : Text.trim (written lines).toList = (written lines).toList := by
    rw [Text.trim_eq_self_iff, toList_written]
    constructor
    · intro c hc
      cases hc
      decide
    · intro c hc
      rw [← List.append_assoc, ← List.append_assoc, List.getLast?_append] at hc
      cases hc
      decide
  rw [body, htrim, toList_written, Text.trimPrefixes_append (by decide) rfl]
  refine Text.trimSuffixes_append (by decide) ?_
  rw [List.reverse_append]
  rfl

theorem pieces_rows {lines : List String} (h : ∀ l ∈ lines, '\n' ∉ l.toList) (rest : List Char) :
    Text.pieces '\n' (rows lines ++ rest) = lines.map starred ++ Text.pieces '\n' rest := by
  induction lines with
  | nil => rfl
  | cons l lines ih =>
    have hl : '\n' ∉ starred l := by simpa [starred] using h l List.mem_cons_self
    have hrest := ih fun l hl => h l (List.mem_cons_of_mem _ hl)
    have hrows : rows (l :: lines) ++ rest = starred l ++ '\n' :: (rows lines ++ rest) := by
      simp [rows]
    rw [hrows, Text.pieces_append hl, hrest]
    rfl

theorem pieces_written {lines : List String} (h : ∀ l ∈ lines, '\n' ∉ l.toList) :
    Text.pieces '\n' (body (written lines).toList) = [] :: (lines.map starred ++ [[' ']]) := by
  have hfirst := Text.pieces_append (List.not_mem_nil (a := '\n')) (rows lines ++ [' '])
  rw [body_written, List.cons_append, ← List.nil_append ('\n' :: _), hfirst, pieces_rows h]
  rfl

/-- The star in front of a line is layout, whatever the line is. -/
theorem bare_starred (l : String) : bare (starred l) = Text.trim l.toList := by
  have hpad : ∀ cs, Text.trim (' ' :: cs) = Text.trim cs := fun cs =>
    Text.trim_prepend (Text.blank_singleton (by decide)) cs
  have hstar : Text.trim (starred l) = '*' :: Text.trimEnd (' ' :: l.toList) := by
    rw [starred, hpad]
    exact Text.trimEnd_cons (by decide) _
  have hrest : (Text.trimEnd (' ' :: l.toList)).dropWhile (· = '*') =
      Text.trimEnd (' ' :: l.toList) := by
    obtain ⟨b, -, hb⟩ := Text.exists_trimEnd (' ' :: l.toList)
    cases htrim : Text.trimEnd (' ' :: l.toList) with
    | nil => rfl
    | cons c cs =>
      rw [htrim] at hb
      obtain ⟨rfl, -⟩ := List.cons.inj hb
      rfl
  calc bare (starred l) = Text.trim (Text.trimEnd (' ' :: l.toList)) := by
        rw [bare, hstar, List.dropWhile_cons_of_pos (by decide), hrest]
    _ = Text.trim l.toList := by rw [Text.trim_trimEnd, hpad]

/-! ## Tags -/

theorem addLine_text {ls : Lines} {l : List Char} (h : ∀ c ∈ l.head?, c ≠ '@') :
    addLine ls l =
      if ls.2.isEmpty then (ls.1 ++ [l], []) else (ls.1, extendLast l ls.2) := by
  unfold addLine
  split
  · exact absurd rfl (h '@' rfl)
  · rfl

theorem extendLast_concat (l : List Char) (ts : List DocTag) (t : DocTag) :
    extendLast l (ts ++ [t]) = ts ++ [DocTag.extend t l] := by
  induction ts with
  | nil => rfl
  | cons u ts ih =>
    cases ts with
    | nil => rfl
    | cons v ts => exact congrArg (u :: ·) ih

theorem extend_nil (t : DocTag) : DocTag.extend t [] = t := rfl

theorem intercalate_ne_empty {ps : List String} (h : ∀ p ∈ ps, p ≠ "") (hne : ps ≠ []) :
    " ".intercalate ps ≠ "" := by
  cases ps with
  | nil => exact absurd rfl hne
  | cons p ps =>
    have hp := h p List.mem_cons_self
    cases ps with
    | nil => simpa using hp
    | cons q ps => simp [String.intercalate_cons_cons]

theorem extend_intercalate {ps : List String} (h : ∀ p ∈ ps, p ≠ "") {l : String} (hl : l ≠ "")
    (name : String) :
    DocTag.extend ⟨name, " ".intercalate ps⟩ l.toList = ⟨name, " ".intercalate (ps ++ [l])⟩ := by
  have hsome : l.toList.isEmpty = false := by simpa using hl
  by_cases hps : ps = []
  · subst hps
    simp [DocTag.extend, hsome]
  · have htext : (" ".intercalate ps).isEmpty = false := by
      simpa using intercalate_ne_empty h hps
    simp [DocTag.extend, hsome, htext, String.intercalate_append_of_ne_nil hps]

/-- Lines below a tag go on with its text. -/
theorem foldl_more {more : List String} (hmore : ∀ l ∈ more, Continues l ∧ l ≠ "")
    (texts : List (List Char)) (tags : List DocTag) (name : String) {ps : List String}
    (hps : ∀ p ∈ ps, p ≠ "") :
    (more.map String.toList).foldl addLine (texts, tags ++ [⟨name, " ".intercalate ps⟩]) =
      (texts, tags ++ [⟨name, " ".intercalate (ps ++ more)⟩]) := by
  induction more generalizing ps with
  | nil => simp
  | cons l more ih =>
    obtain ⟨hl, hsome⟩ := hmore l List.mem_cons_self
    have hstep : addLine (texts, tags ++ [⟨name, " ".intercalate ps⟩]) l.toList =
        (texts, tags ++ [⟨name, " ".intercalate (ps ++ [l])⟩]) := by
      rw [addLine_text fun c hc => (hl.plain c hc).2]
      simp [extendLast_concat, extend_intercalate hps hsome]
    have hall : ∀ p ∈ ps ++ [l], p ≠ "" := by
      simpa [or_imp, forall_and] using And.intro hps hsome
    rw [List.map_cons, List.foldl_cons, hstep,
      ih (fun m hm => hmore m (List.mem_cons_of_mem l hm)) hall]
    simp

theorem openTag_append {name : String} (hname : Text.Unspaced name.toList)
    {first : String} (hfirst : IsLine first) :
    openTag (name.toList ++ ' ' :: first.toList) = ⟨name, first⟩ := by
  simp [openTag, Text.splitFirst_append hname (show Text.isBlank ' ' = true by decide),
    hfirst.trimmed]

theorem openTag_bare {name : String} (hname : Text.Unspaced name.toList) :
    openTag name.toList = ⟨name, ""⟩ := by
  simp [openTag, Text.splitFirst_of_free hname, Text.trim, Text.trimStart, Text.trimEnd]

/-- The blank after the name is trimmed where no text follows on the line. -/
theorem addLine_opening {t : TagLayout} (ht : t.WellFormed) (texts : List (List Char))
    (tags : List DocTag) :
    addLine (texts, tags) (Text.trim ("@" ++ t.name ++ " " ++ t.first).toList) =
      (texts, tags ++ [⟨t.name, t.first⟩]) := by
  have hline : ("@" ++ t.name ++ " " ++ t.first).toList =
      '@' :: (t.name.toList ++ ' ' :: t.first.toList) := by simp
  have hname : Text.trim ('@' :: t.name.toList) = '@' :: t.name.toList :=
    Text.Unspaced.trim_eq (Text.unspaced_cons.mpr ⟨by decide, ht.name⟩)
  by_cases hfirst : t.first = ""
  · have htrim : Text.trim ('@' :: t.name.toList ++ [' ']) = '@' :: t.name.toList :=
      (Text.trim_append (Text.blank_singleton (by decide)) _).trans hname
    rw [hline, hfirst, show '@' :: (t.name.toList ++ ' ' :: "".toList) =
      '@' :: t.name.toList ++ [' '] from rfl, htrim, addLine, openTag_bare ht.name]
  · have hparts : ∀ p ∈ ['@' :: t.name.toList, t.first.toList], Text.trim p = p :=
      List.forall_mem_cons.mpr ⟨hname, List.forall_mem_singleton.mpr ht.first.trimmed⟩
    have htrim := Text.trim_intercalate_self [' '] hparts (by simp) (by simpa using hfirst)
    have hjoined : [' '].intercalate ['@' :: t.name.toList, t.first.toList] =
        '@' :: (t.name.toList ++ ' ' :: t.first.toList) := by simp [List.intercalate_cons_cons]
    rw [hline, ← hjoined, htrim, hjoined, addLine, openTag_append ht.name ht.first]

theorem foldl_tag {t : TagLayout} (ht : t.WellFormed) (texts : List (List Char))
    (tags : List DocTag) :
    (t.lines.map fun l => bare (starred l)).foldl addLine (texts, tags) =
      (texts, tags ++ [t.tag]) := by
  have hmore : (t.more.map fun l => bare (starred l)) = t.more.map String.toList := by
    refine List.map_congr_left fun l hl => ?_
    rw [bare_starred, (ht.more l hl).1.trimmed]
  have htexts : t.texts = [t.first].filter (· ≠ "") ++ t.more := by
    have hself : t.more.filter (· ≠ "") = t.more :=
      List.filter_eq_self.mpr fun l hl => by simpa using (ht.more l hl).2
    rw [TagLayout.texts, ← List.singleton_append, List.filter_append, hself]
  have hfirst : t.first = " ".intercalate ([t.first].filter (· ≠ "")) := by
    by_cases h : t.first = "" <;> simp [h]
  have hsome : ∀ p ∈ [t.first].filter (· ≠ ""), p ≠ "" := by
    intro p hp
    simpa using (List.mem_filter.mp hp).2
  have hall := foldl_more ht.more texts tags t.name hsome
  rw [← hfirst, ← htexts] at hall
  rw [TagLayout.lines, List.map_cons, List.foldl_cons, bare_starred, addLine_opening ht, hmore]
  exact hall

theorem foldl_tags {ts : List TagLayout} (hts : ∀ t ∈ ts, t.WellFormed)
    (texts : List (List Char)) (tags : List DocTag) :
    ((ts.flatMap TagLayout.lines).map fun l => bare (starred l)).foldl addLine (texts, tags) =
      (texts, tags ++ ts.map TagLayout.tag) := by
  induction ts generalizing tags with
  | nil => simp
  | cons t ts ih =>
    rw [List.flatMap_cons, List.map_append, List.foldl_append,
      foldl_tag (hts t List.mem_cons_self), ih fun u hu => hts u (List.mem_cons_of_mem t hu)]
    simp

/-! ## Descriptions -/

theorem foldl_texts {ls : List String} (h : ∀ l ∈ ls, Continues l) (texts : List (List Char)) :
    (ls.map fun l => bare (starred l)).foldl addLine (texts, []) =
      (texts ++ ls.map String.toList, []) := by
  induction ls generalizing texts with
  | nil => simp
  | cons l ls ih =>
    have hl := h l List.mem_cons_self
    have hstep : addLine (texts, []) l.toList = (texts ++ [l.toList], []) :=
      addLine_text fun c hc => (hl.plain c hc).2
    rw [List.map_cons, List.foldl_cons, bare_starred, hl.trimmed, hstep,
      ih fun m hm => h m (List.mem_cons_of_mem l hm)]
    simp

/-- The last line of a comment is empty, and adds nothing to a tag. -/
theorem addLine_nil (texts : List (List Char)) (tags : List DocTag) :
    addLine (texts, tags) [] = (if tags = [] then texts ++ [[]] else texts, tags) := by
  rw [addLine_text (fun c hc => by cases hc)]
  rcases List.eq_nil_or_concat tags with rfl | ⟨ts, t, rfl⟩
  · rfl
  · simp [extendLast_concat, extend_nil]

/-- The empty lines at both ends of a description are trimmed. -/
theorem trim_intercalate (ps : List (List Char)) (b : Bool) :
    Text.trim (['\n'].intercalate ([] :: ps ++ (if b then [[]] else []))) =
      Text.trim (['\n'].intercalate ps) := by
  have hbreak : Text.Blank ['\n'] := Text.blank_singleton (by decide)
  have hstart : ∀ qs, Text.trim (['\n'].intercalate ([] :: qs)) =
      Text.trim (['\n'].intercalate qs) := by
    intro qs
    cases qs with
    | nil => rfl
    | cons q qs =>
      simpa [List.intercalate_cons_cons] using
        Text.trim_prepend hbreak (['\n'].intercalate (q :: qs))
  rw [List.cons_append, hstart]
  cases b with
  | false => simp
  | true =>
    by_cases hps : ps = []
    · subst hps
      rfl
    · simpa [Text.intercalate_concat _ hps] using
        Text.trim_append hbreak (['\n'].intercalate ps)

theorem intercalate_descriptionLines (d : Option String) :
    ['\n'].intercalate ((descriptionLines d).map String.toList) = (d.getD "").toList := by
  cases d with
  | none => rfl
  | some d => simp [descriptionLines, Text.intercalate_pieces]

theorem Describes.trimmed {d : Option String} (h : Describes d) :
    Text.trim (d.getD "").toList = (d.getD "").toList := by
  rw [← intercalate_descriptionLines]
  refine Text.trim_intercalate_self _ (fun p hp => ?_) (fun he => h.first ?_) fun he => h.last ?_
  · obtain ⟨l, hl, rfl⟩ := List.mem_map.mp hp
    exact (h.lines l hl).trimmed
  · rw [List.head?_map, Option.map_eq_some_iff] at he
    obtain ⟨l, hl, hempty⟩ := he
    rw [hl, String.toList_eq_nil_iff.mp hempty]
  · rw [List.getLast?_map, Option.map_eq_some_iff] at he
    obtain ⟨l, hl, hempty⟩ := he
    rw [hl, String.toList_eq_nil_iff.mp hempty]

/-- A description that is there is not empty. -/
theorem Describes.getD_eq {d : Option String} (h : Describes d) :
    (if (d.getD "").toList.isEmpty then none else some (String.ofList (d.getD "").toList)) = d := by
  cases d with
  | none => rfl
  | some d =>
    have hne : d ≠ "" := fun he => h.first (by rw [he]; rfl)
    simp [hne]

theorem ofComment_layout {d : Option String} (hd : Describes d) {ts : List TagLayout}
    (hts : ∀ t ∈ ts, t.WellFormed) : ofComment (comment d ts) = ⟨d, ts.map TagLayout.tag⟩ := by
  have hlines : ∀ l ∈ descriptionLines d ++ ts.flatMap TagLayout.lines, '\n' ∉ l.toList := by
    intro l hl
    rcases List.mem_append.mp hl with hl | hl
    · exact (hd.lines l hl).single
    · obtain ⟨t, ht, hl⟩ := List.mem_flatMap.mp hl
      exact (hts t ht).single l hl
  have hloop : (([] :: ((descriptionLines d ++ ts.flatMap TagLayout.lines).map starred ++
      [[' ']])).map bare).foldl addLine ([], []) =
        ([] :: (descriptionLines d).map String.toList ++ (if ts.isEmpty then [[]] else []),
          ts.map TagLayout.tag) := by
    have hends : bare [] = [] ∧ bare [' '] = [] := ⟨rfl, rfl⟩
    have hstart : addLine ([], []) [] = ([[]], []) := rfl
    simp only [List.map_cons, List.map_append, List.map_map, List.foldl_cons, List.foldl_append,
      Function.comp_def, hends, hstart, foldl_texts hd.lines, foldl_tags hts, List.map_nil,
      List.foldl_nil, List.nil_append, addLine_nil]
    cases ts <;> simp
  rw [ofComment, comment, pieces_written hlines, ofLines, hloop]
  simp only [trim_intercalate, intercalate_descriptionLines, hd.trimmed, hd.getD_eq]

/-- A description whose lines have no blanks at their ends and begin with no layout, its first and
last line not empty, and tags with names of no blanks are read back from the comment that they are
laid out in, wherever the texts of the tags are broken into lines at single blanks. So the same tags
on one line each read the same. -/
theorem ofComment_comment {d : Option String} (hd : Describes d) {ts : List TagLayout}
    (hts : ∀ t ∈ ts, t.WellFormed) :
    ofComment (comment d ts) = ⟨d, ts.map TagLayout.tag⟩ ∧
      ofComment (comment d (ts.map fun t => TagLayout.oneLine t.tag)) = ⟨d, ts.map TagLayout.tag⟩ := by
  refine ⟨ofComment_layout hd hts, ?_⟩
  have hlined : ∀ t ∈ ts.map (fun t => TagLayout.oneLine t.tag), t.WellFormed := by
    intro t ht
    obtain ⟨u, hu, rfl⟩ := List.mem_map.mp ht
    exact (hts u hu).oneLine
  rw [ofComment_layout hd hlined, List.map_map]
  congr 1
  exact List.map_congr_left fun t _ => TagLayout.tag_oneLine t.tag

namespace Sample

def summary : String := "Finds a user.\n\nBy number."

def tags : List TagLayout :=
  [⟨"param", "id - The number", ["of the", "user"]⟩, ⟨"default", "", ["[1,  2]"]⟩,
    ⟨"deprecated", "", []⟩]

theorem summary_read :
    Describes (some summary) ∧ (∀ t ∈ tags, t.WellFormed) ∧
    ofComment (comment (some summary) tags) = ⟨some summary,
      [⟨"param", "id - The number of the user"⟩, ⟨"default", "[1,  2]"⟩,
        ⟨"deprecated", ""⟩]⟩ := by
  have hd : Describes (some summary) := by decide +kernel
  have hts : ∀ t ∈ tags, t.WellFormed := by decide +kernel
  refine ⟨hd, hts, (ofComment_comment hd hts).1.trans ?_⟩
  decide +kernel

end Sample

end Documentation

end RouteContract
