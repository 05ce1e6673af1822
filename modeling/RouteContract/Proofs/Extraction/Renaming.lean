import RouteContract.Proofs.Extraction.Declarations
import RouteContract.Proofs.Resolution.Renaming
import RouteContract.Proofs.Samples

/-!
# Contracts under other names of type parameters

Extraction takes no more of the declarations than how types are resolved in them.
So a contract does not tell by which names the declarations call their type
parameters, be they those of a base in another order.
-/

set_option autoImplicit false

namespace RouteContract

/-- Other names of the type parameters change nothing, neither a contract nor a fault. The new names
have to be distinct within each declaration, whatever names other declarations have. -/
theorem Graph.contract_rename (g : Graph) (ρ : Declaration → String → String)
    (h : ∀ d ∈ g.declarations, d.isObject → d.Scoped ∧ (d.params.map (ρ d ·.name)).Nodup)
    (combination : Combination) :
    (g.rename ρ).contract combination = g.contract combination := by
  have hoperations := Extraction.operationsOf_congr (replaces_rename h).resolveType combination
  have hextract : Extraction.extract (g.rename ρ) combination =
      Extraction.extract g combination := by
    rw [Extraction.extract_eq, Extraction.extract_eq]
    exact congrArg (fun operations => operations [] g.controllers >>= _) hoperations
  unfold contract
  rw [hextract]

namespace Sample

def pair : Declaration where
  id := ⟨"m", "Pair"⟩
  kind := .object [] ⟨[property "first" (.param "T"), property "second" (.param "U")], []⟩ false
  params := [⟨"T", none⟩, ⟨"U", some (.array (.param "T"))⟩]
  description := none
  location := .memory

def swapped : Declaration where
  id := ⟨"m", "Swapped"⟩
  kind := .object [⟨"Pair", none, [.param "U", .param "T"]⟩]
    ⟨[property "listed" (.ref ⟨"Pair", none, [.param "T"]⟩)], []⟩ false
  params := [⟨"T", none⟩, ⟨"U", none⟩]
  description := none
  location := .memory

def swappedPosting : Graph := ⟨[pair, swapped], [posting [parameter "body"
  (.ref ⟨"Swapped", none, [.keyword .string, .keyword .number]⟩) .body]]⟩

def exchange (d : Declaration) (name : String) : String :=
  if d.id.name = "Swapped" then if name = "T" then "U" else "T" else name

theorem pair_scoped : pair.Scoped where
  kind := by
    intro name
    simp [pair, DeclKind.mentions_object, property, eq_comm]
  default := by
    intro before p after t hparams hdefault name hname
    rcases before with _ | ⟨q, _ | ⟨q', before⟩⟩
    · cases hparams
      cases hdefault
    · cases hparams
      cases hdefault
      simpa [eq_comm] using hname
    · simp [pair] at hparams

theorem swapped_scoped : swapped.Scoped where
  kind := by
    intro name
    simp only [swapped, DeclKind.mentions_object, property]
    simp [eq_comm, or_comm]
  default := by
    intro before p after t hparams hdefault
    have hmem : p ∈ swapped.params := by simp [hparams]
    rcases List.mem_cons.mp hmem with rfl | hmem
    · cases hdefault
    · rw [List.mem_singleton.mp hmem] at hdefault
      cases hdefault

def swappedSchema : Schema := .object ⟨[("first", ⟨.primitive .number, true, none, none⟩),
  ("second", ⟨.primitive .string, true, none, none⟩),
  ("listed", ⟨.reference "Pair_string.Array_string__", true, none, none⟩)], .implicit⟩

theorem swappedPosting_rename : ∃ c d, swappedPosting.contract .anyOf = .ok c ∧
    (swappedPosting.rename exchange).contract .anyOf = .ok c ∧
      c.definition? "Swapped_string.number_" = some d ∧ d.schema.same swappedSchema := by
  have hfound : ∃ c o, swappedPosting.contract .anyOf = .ok c ∧ o ∈ c.operations ∧
      ((c.definition? "Swapped_string.number_").any (·.schema.same swappedSchema)) = true :=
    exists_operation (by decide +kernel)
  obtain ⟨c, -, hc, -, hd⟩ := hfound
  obtain ⟨d, hd, hsame⟩ := (Option.any_eq_true _ _).mp hd
  have hscoped : ∀ d ∈ swappedPosting.declarations, d.isObject →
      d.Scoped ∧ (d.params.map (exchange d ·.name)).Nodup := by
    intro d hd _
    rcases List.mem_cons.mp hd with rfl | hd
    · exact ⟨pair_scoped, by decide⟩
    · rw [List.mem_singleton.mp hd]
      exact ⟨swapped_scoped, by decide⟩
  have hrenamed := swappedPosting.contract_rename exchange hscoped .anyOf
  exact ⟨c, d, hc, hrenamed.trans hc, hd, hsame⟩

end Sample

end RouteContract
