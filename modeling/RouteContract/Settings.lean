import RouteContract.Json.Basic
import RouteContract.Security

/-! # Settings

The settings of a run are read from one JSON value. A setting that is left out has its default, a
name that is not known is ignored, and a list gives the settings by position. -/

set_option autoImplicit false

namespace RouteContract

inductive Extras where
  /-- Each one is an error. -/
  | reject
  /-- They are left out. -/
  | drop
  /-- They are passed on as they are. -/
  | keep
deriving DecidableEq, Repr

structure ValidationSettings where
  extras : Extras
  /-- Splits each query value of an array. -/
  queryDelimiter : Option Char
  /-- Splits each header value of an array. -/
  headerDelimiter : Char

def ValidationSettings.standard : ValidationSettings := ⟨.drop, none, ','⟩

structure Settings where
  sourceDir : String
  language : String
  security : Combination
  validation : ValidationSettings

def Settings.standard : Settings := ⟨"src", "typescript", .anyOf, .standard⟩

namespace Settings

def readChoice {α : Type} (choices : List (String × α)) : Json → Option α
  | .string s => Entries.find? choices s
  | .object [(s, .null)] => Entries.find? choices s
  | _ => none

def readChar : Json → Option Char
  | .string s => match s.toList with
    | [c] => some c
    | _ => none
  | _ => none

def readNullable {α : Type} (read : Json → Option α) : Json → Option (Option α)
  | .null => some none
  | v => (read v).map some

def arrange (names : List String) : Json → Option (List (Option Json))
  | .object fields => some (names.map (Entries.find? fields))
  | .array items =>
    if items.length ≤ names.length then
      some (items.map some ++ List.replicate (names.length - items.length) none)
    else none
  | _ => none

def setting {α : Type} (read : Json → Option α) (standard : α) : Option Json → Option α
  | some v => read v
  | none => some standard

def combinations : List (String × Combination) := [("anyOf", .anyOf), ("allOf", .allOf)]

def policies : List (String × Extras) := [("reject", .reject), ("drop", .drop), ("keep", .keep)]

def readValidation (v : Json) : Option ValidationSettings := do
  let standard := ValidationSettings.standard
  match ← arrange ["additionalProperties", "queryArrayDelimiter", "headerArrayDelimiter"] v with
  | [extras, query, header] =>
    return ⟨← setting (readChoice policies) standard.extras extras,
      ← setting (readNullable readChar) standard.queryDelimiter query,
      ← setting readChar standard.headerDelimiter header⟩
  | _ => none

def read (v : Json) : Option Settings := do
  let standard := Settings.standard
  match ← arrange ["sourceDir", "language", "security", "validation"] v with
  | [dir, language, security, validation] =>
    return ⟨← setting Json.string? standard.sourceDir dir,
      ← setting Json.string? standard.language language,
      ← setting (readChoice combinations) standard.security security,
      ← setting readValidation standard.validation validation⟩
  | _ => none

end Settings

end RouteContract
