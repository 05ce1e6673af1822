import Mathlib.Data.List.Induction
import RouteContract.Proofs.Lists
import RouteContract.Proofs.Text
import RouteContract.Route.Template

/-!
# Templates up to renaming

The names between braces can be changed without changing the shape of a template.
A name is any text without braces; it may be empty. Where every brace belongs to
a placeholder with a name, nothing else can be changed: the texts around the
placeholders are read back from the shape.
-/

set_option autoImplicit false

namespace RouteContract.Route

def BraceFree (name : List Char) : Prop := '{' ∉ name ∧ '}' ∉ name

inductive Renames : List Char → List Char → Prop
  | nil : Renames [] []
  | char (c : Char) {a b : List Char} (h : Renames a b) : Renames (c :: a) (c :: b)
  | group {n m a b : List Char} (hn : BraceFree n) (hm : BraceFree m) (h : Renames a b) :
      Renames ('{' :: (n ++ '}' :: a)) ('{' :: (m ++ '}' :: b))

/-- A text is kept outside of braces and left out inside. -/
theorem shapeFrom_append {text : List Char} (h : BraceFree text) (inside : Bool)
    (rest : List Char) :
    shapeFrom inside (text ++ rest) = (if inside then [] else text) ++ shapeFrom inside rest := by
  induction text with
  | nil => simp
  | cons c text ih =>
    obtain ⟨hopen, hclose⟩ := h
    rw [List.mem_cons, not_or] at hopen hclose
    rw [List.cons_append, shapeFrom, if_neg (Ne.symm hopen.1), if_neg (Ne.symm hclose.1),
      ih ⟨hopen.2, hclose.2⟩]
    cases inside with
    | false => rfl
    | true => rfl

theorem shapeFrom_group {n : List Char} (hn : BraceFree n) (inside : Bool) (a : List Char) :
    shapeFrom inside ('{' :: (n ++ '}' :: a)) = '{' :: '}' :: shapeFrom false a := by
  have hname : shapeFrom true (n ++ '}' :: a) = shapeFrom false a := by
    rw [shapeFrom_append hn]
    simp [shapeFrom]
  simp only [shapeFrom, if_true, hname]

/-- Renaming keeps the shape, also of a text that starts inside of braces. -/
theorem Renames.shapeFrom_eq {a b : List Char} (h : Renames a b) (inside : Bool) :
    shapeFrom inside a = shapeFrom inside b := by
  induction h generalizing inside with
  | nil => rfl
  | char c _ ih => simp only [shapeFrom, ih]
  | group hn hm _ ih => rw [shapeFrom_group hn, shapeFrom_group hm, ih]

theorem Renames.shape_eq {s t : String} (h : Renames s.toList t.toList) : shape s = shape t := by
  rw [shape, shape, h.shapeFrom_eq]

theorem Renames.append_left (text : List Char) {a b : List Char} (h : Renames a b) :
    Renames (text ++ a) (text ++ b) := by
  induction text with
  | nil => exact h
  | cons c text ih => exact .char c ih

/-! ## Searching for braces -/

theorem groups_text {text : List Char} (h : '{' ∉ text) (rest : List Char) :
    groups none (text ++ rest) = groups none rest := by
  induction text with
  | nil => rfl
  | cons c text ih =>
    rw [List.mem_cons, not_or] at h
    rw [List.cons_append, groups, if_neg (Ne.symm h.1)]
    exact ih h.2

theorem groups_name {name : List Char} (h : '}' ∉ name) (before rest : List Char) :
    groups (some before) (name ++ '}' :: rest) = (before.reverse ++ name) :: groups none rest := by
  induction name generalizing before with
  | nil => simp [groups]
  | cons c name ih =>
    rw [List.mem_cons, not_or] at h
    rw [List.cons_append, groups, if_neg (Ne.symm h.1), ih h.2]
    simp

/-- What stands up to the closing brace is found, and the search goes on behind it. -/
theorem groups_group {name : List Char} (h : '}' ∉ name) (rest : List Char) :
    groups none ('{' :: (name ++ '}' :: rest)) = name :: groups none rest :=
  groups_name h [] rest

/-! ## Texts and placeholders in turn -/

structure Slot where
  name : List Char
  text : List Char
  named : ¬ Text.Blank name
  nameFree : BraceFree name
  textFree : BraceFree text

def Slot.chars (s : Slot) : List Char := '{' :: (s.name ++ '}' :: s.text)

def Slot.placeholder (s : Slot) : String := String.ofList (Text.trim s.name)

structure Template where
  head : List Char
  slots : List Slot
  headFree : BraceFree head

def Template.chars (t : Template) : List Char := t.head ++ t.slots.flatMap Slot.chars

def Template.written (t : Template) : String := String.ofList t.chars

def Template.texts (t : Template) : List (List Char) := t.head :: t.slots.map (·.text)

theorem addPlaceholder_of_named {group : List Char} (h : ¬ Text.Blank group) (names : List String) :
    addPlaceholder names group =
      if String.ofList (Text.trim group) ∈ names then names
      else names ++ [String.ofList (Text.trim group)] := by
  have hname : String.ofList (Text.trim group) ≠ "" := by
    intro hempty
    refine h (Text.trim_eq_nil_iff.mp ?_)
    simpa using congrArg String.toList hempty
  simp [addPlaceholder, hname]

section

variable (slots : List Slot)

theorem groups_slots : groups none (slots.flatMap Slot.chars) = slots.map (·.name) := by
  induction slots with
  | nil => rfl
  | cons s slots ih =>
    rw [List.flatMap_cons, Slot.chars, List.cons_append, List.append_assoc, List.cons_append,
      groups_group s.nameFree.2, groups_text s.textFree.1, ih, List.map_cons]

theorem foldl_addPlaceholder :
    (slots.map (·.name)).foldl addPlaceholder [] = (slots.map Slot.placeholder).eraseDups := by
  induction slots using List.reverseRecOn with
  | nil => rfl
  | append_singleton slots s ih =>
    rw [List.map_append, List.map_append, List.foldl_append, ih, List.map_singleton,
      List.map_singleton, List.foldl_cons, List.foldl_nil, addPlaceholder_of_named s.named,
      eraseDups_concat]
    exact if_congr List.mem_eraseDups rfl rfl

theorem shapeFrom_slots : shapeFrom false (slots.flatMap Slot.chars) =
    slots.flatMap fun s => '{' :: '}' :: s.text := by
  induction slots with
  | nil => rfl
  | cons s slots ih =>
    rw [List.flatMap_cons, Slot.chars, List.cons_append, List.append_assoc, List.cons_append,
      shapeFrom_group s.nameFree, shapeFrom_append s.textFree, ih]
    rfl

end

theorem renames_slots {ss ts : List Slot} (h : ss.map (·.text) = ts.map (·.text)) :
    Renames (ss.flatMap Slot.chars) (ts.flatMap Slot.chars) := by
  induction ss generalizing ts with
  | nil =>
    obtain rfl := List.map_eq_nil_iff.mp h.symm
    exact .nil
  | cons s ss ih =>
    obtain ⟨t, ts, rfl, htext, hrest⟩ := List.map_eq_cons_iff.mp h.symm
    have hbehind := (ih hrest.symm).append_left s.text
    rw [List.flatMap_cons, List.flatMap_cons, Slot.chars, Slot.chars, htext]
    simpa using Renames.group s.nameFree t.nameFree hbehind

namespace Template

theorem placeholders_written (t : Template) :
    placeholders t.written = (t.slots.map Slot.placeholder).eraseDups := by
  rw [placeholders, written, String.toList_ofList, chars, groups_text t.headFree.1, groups_slots,
    foldl_addPlaceholder]

theorem shape_written (t : Template) : (shape t.written).toList =
    ['{'].intercalate (t.head :: t.slots.map fun s => '}' :: s.text) := by
  rw [shape, written, String.toList_ofList, String.toList_ofList, chars,
    shapeFrom_append t.headFree, shapeFrom_slots, Text.intercalate_cons, List.flatMap_map]
  rfl

/-- An opening brace in a shape is never part of a text, so the texts stand between them. -/
theorem pieces_shape (t : Template) : Text.pieces '{' (shape t.written).toList =
    t.head :: t.slots.map fun s => '}' :: s.text := by
  rw [shape_written]
  refine Text.pieces_intercalate (fun p hp => ?_) (List.cons_ne_nil _ _)
  rcases List.mem_cons.mp hp with rfl | hp
  · exact t.headFree.1
  · obtain ⟨s, -, rfl⟩ := List.mem_map.mp hp
    simp [s.textFree.1]

theorem texts_eq_of_shape_eq {s t : Template} (h : shape s.written = shape t.written) :
    s.texts = t.texts := by
  have hpieces := s.pieces_shape
  rw [h, t.pieces_shape] at hpieces
  obtain ⟨hhead, hslots⟩ := List.cons.inj hpieces
  have htexts := congrArg (List.map List.tail) hslots
  rw [List.map_map, List.map_map] at htexts
  exact (congrArg₂ List.cons hhead htexts).symm

theorem renames_of_texts_eq {s t : Template} (h : s.texts = t.texts) :
    Renames s.written.toList t.written.toList := by
  obtain ⟨hhead, hslots⟩ := List.cons.inj h
  rw [written, written, String.toList_ofList, String.toList_ofList, chars, chars, hhead]
  exact (renames_slots hslots).append_left t.head

/-- The placeholders of a template are its names without the blanks around them, each where it
stands first. Two templates have one shape exactly where they have equally many placeholders and the
same texts around them, that is where they differ in names between braces only. -/
theorem scans_agree (s t : Template) :
    placeholders t.written = (t.slots.map Slot.placeholder).eraseDups ∧
      (shape s.written = shape t.written ↔
        s.slots.length = t.slots.length ∧ s.texts = t.texts) ∧
      (shape s.written = shape t.written ↔ Renames s.written.toList t.written.toList) := by
  refine ⟨t.placeholders_written, ⟨fun h => ?_, fun h => ?_⟩, ⟨fun h => ?_, fun h => h.shape_eq⟩⟩
  · have htexts := texts_eq_of_shape_eq h
    exact ⟨by simpa [texts] using congrArg List.length htexts, htexts⟩
  · exact (renames_of_texts_eq h.2).shape_eq
  · exact renames_of_texts_eq (texts_eq_of_shape_eq h)

-- A name that repeats with other blanks around it is one placeholder.
example : placeholders "/\x7bid\x7d/of/\x7b id \x7d/\x7bto\x7d" = ["id", "to"] := by cbv

end Template

end RouteContract.Route
