import RouteContract.Extraction
import RouteContract.Request

/-!
# Small declaration graphs

Interfaces of one module and controllers with one operation, as they are
written for concrete runs.
-/

set_option autoImplicit false

namespace RouteContract.Sample

def property (name : String) (type : TypeExpr) : Property TypeExpr :=
  ⟨name, type, false, none, none, none⟩

def defaulted (name : String) (type : TypeExpr) (v : Json) : Property TypeExpr :=
  ⟨name, type, false, some ⟨"", some v⟩, none, none⟩

def interface (name : String) (bases : List String) (properties : List (Property TypeExpr)) :
    Declaration where
  id := ⟨"m", name⟩
  kind := .object (bases.map fun b => ⟨b, none, []⟩) ⟨properties, []⟩ false
  params := []
  description := none
  location := .memory

def parameter (name : String) (type : TypeExpr) (binding : Annotation) : Parameter where
  name := name
  type := some type
  optional := false
  default := none
  annotations := [⟨binding, .memory⟩]
  description := none
  format := none
  location := .memory

def unannotated (name : String) (type : TypeExpr) : Parameter where
  name := name
  type := some type
  optional := false
  default := none
  annotations := []
  description := none
  format := none
  location := .memory

def posting (parameters : List Parameter) : Controller where
  id := ⟨"m", "C"⟩
  annotations := []
  methods := [⟨"f", [⟨.verb .post "", .memory⟩], parameters, some (.keyword .void), none, .memory⟩]
  description := none
  location := .memory

def withBody (v : Json) : Request := { Request.empty with body := some v }

/-- A check over the operations of a contract finds the contract and an operation. -/
theorem exists_operation {g : Graph} {combination : Combination}
    {check : Contract → Operation → Bool}
    (h : (g.contract combination).toOption.any fun c => c.operations.any (check c)) :
    ∃ c o, g.contract combination = .ok c ∧ o ∈ c.operations ∧ check c o := by
  cases hc : g.contract combination with
  | error e => simp [hc, Except.toOption] at h
  | ok c =>
    rw [hc] at h
    obtain ⟨o, ho, hcheck⟩ := List.any_eq_true.mp h
    exact ⟨c, o, rfl, ho, hcheck⟩

end RouteContract.Sample
