import RouteContract.Declaration
import RouteContract.Entries

/-! # Security requirements

A requirement lists schemes, each with the scopes it has to grant; all of them must be satisfied. A
list of requirements offers alternatives, and the empty list asks for nothing. -/

set_option autoImplicit false

namespace RouteContract

abbrev Requirement := Entries String (List String)

inductive Combination where
  | anyOf | allOf
deriving DecidableEq, Repr

def appendNew {α : Type} [DecidableEq α] (values more : List α) : List α :=
  more.foldl (fun vs v => if v ∈ vs then vs else vs ++ [v]) values

namespace Requirement

def addScheme (r : Requirement) (use : SchemeUse) : Requirement :=
  r.insert use.1 (appendNew ((r.find? use.1).getD []) use.2)

def merge (r more : Requirement) : Requirement := more.foldl addScheme r

def ofSchemes (uses : List SchemeUse) : Requirement :=
  uses.foldl (fun r use => r.merge (Entries.insert [] use.1 use.2)) []

end Requirement

namespace Security

def requirements? : List AnnotationUse → Option (List Requirement)
  | [] => some []
  | ⟨.noSecurity, _⟩ :: _ => none
  | ⟨.security schemes, _⟩ :: rest => (requirements? rest).map (Requirement.ofSchemes schemes :: ·)
  | _ :: rest => requirements? rest

def declared (annotations : List AnnotationUse) (combination : Combination) :
    Option (List Requirement) :=
  match requirements? annotations with
  | none => some []
  | some [] => none
  | some rs =>
    match combination with
    | .anyOf => some rs
    | .allOf => some [rs.foldl Requirement.merge []]

end Security

end RouteContract
