import Mathlib.Algebra.Order.BigOperators.Group.List
import Mathlib.Algebra.Order.Ring.Nat
import RouteContract.Coercion.Budget
import RouteContract.Proofs.Schema.Parts

/-!
# Nodes of schemas and values

Schemas and values are trees. The nodes of a tree are closed under taking
children, and what a measure counts at single nodes adds up to at most what it
counts for the whole tree.
-/

set_option autoImplicit false

namespace RouteContract

structure Tree (α : Type) where
  children : α → List α
  size : α → Nat
  sum_lt : ∀ a, ((children a).map size).sum < size a

namespace Tree

variable {α : Type} (T : Tree α)

theorem size_lt {a b : α} (h : b ∈ T.children a) : T.size b < T.size a :=
  (List.le_sum_of_mem (List.mem_map_of_mem h)).trans_lt (T.sum_lt a)

def nodes (a : α) : List α :=
  a :: (T.children a).attach.flatMap fun b => nodes b.1
termination_by T.size a
decreasing_by exact T.size_lt b.2

theorem nodes_eq (a : α) : T.nodes a = a :: (T.children a).flatMap T.nodes := by
  rw [nodes, List.flatMap_subtype (g := T.nodes) (fun _ _ => rfl), List.unattach_attach]

theorem mem_nodes_self (a : α) : a ∈ T.nodes a := by
  rw [nodes_eq]
  exact List.mem_cons_self

/-- What holds of a tree when it holds of its children holds of all trees. -/
theorem induction {P : α → Prop} (h : ∀ a, (∀ b ∈ T.children a, P b) → P a) (a : α) : P a := by
  induction hn : T.size a using Nat.strongRecOn generalizing a with
  | _ n ih =>
    subst hn
    exact h a fun b hb => ih _ (T.size_lt hb) b rfl

theorem nodes_closed {a b c : α} (hb : b ∈ T.nodes a) (hc : c ∈ T.children b) : c ∈ T.nodes a := by
  induction a using T.induction with
  | _ a ih =>
    rw [nodes_eq, List.mem_cons, List.mem_flatMap] at hb ⊢
    rcases hb with rfl | ⟨d, hd, hb⟩
    · exact .inr ⟨c, hc, T.mem_nodes_self c⟩
    · exact .inr ⟨d, hd, ih d hd hb⟩

/-- A measure that counts at least as much for a tree as for its children and itself. -/
theorem sum_nodes_le {count total : α → Nat}
    (h : ∀ a, count a + ((T.children a).map total).sum ≤ total a) (a : α) :
    ((T.nodes a).map count).sum ≤ total a := by
  induction a using T.induction with
  | _ a ih =>
    have hbelow : (((T.children a).flatMap T.nodes).map count).sum ≤
        ((T.children a).map total).sum := by
      rw [List.flatMap, List.map_flatten, List.sum_flatten, List.map_map, List.map_map]
      exact List.sum_le_sum ih
    rw [nodes_eq, List.map_cons, List.sum_cons]
    exact (Nat.add_le_add_left hbelow _).trans (h a)

end Tree

namespace Json

def children : Json → List Json
  | array vs => vs
  | object fields => fields.map (·.2)
  | _ => []

theorem sizeItems_eq (vs : List Json) : sizeItems vs = (vs.map size).sum := by
  induction vs with
  | nil => rfl
  | cons v vs ih => simp [sizeItems, ih]

theorem sizeFields_eq (fields : List (String × Json)) :
    sizeFields fields = (fields.map fun f => size f.2).sum := by
  induction fields with
  | nil => rfl
  | cons f fields ih => simp [sizeFields, ih]

theorem size_eq (v : Json) : 1 + (v.children.map size).sum = v.size := by
  cases v with
  | array vs => simp [children, size, sizeItems_eq, Nat.add_comm]
  | object fields => simp [children, size, sizeFields_eq, Nat.add_comm, Function.comp_def]
  | _ => rfl

def tree : Tree Json where
  children := children
  size := size
  sum_lt v := by
    have h := size_eq v
    omega

theorem nodes_length (v : Json) : (tree.nodes v).length ≤ v.size := by
  have h : ((tree.nodes v).map fun _ => 1).sum ≤ v.size :=
    tree.sum_nodes_le (fun v => (size_eq v).le) v
  simpa using h

end Json

namespace Schema

def ofAdditional : Additional Schema → List Schema
  | .schema s => [s]
  | _ => []

def children : Schema → List Schema
  | array s => [s]
  | object o => o.properties.map (·.2.schema) ++ ofAdditional o.additional
  | union ss => ss
  | intersection ss => ss
  | _ => []

def ownDefaults : Schema → List Json
  | object o => o.properties.filterMap (·.2.default)
  | _ => []

def weight : Schema → Nat
  | intersection _ => 2
  | _ => 1

theorem sizeAll_eq (ss : List Schema) : sizeAll ss = (ss.map size).sum := by
  induction ss with
  | nil => rfl
  | cons s ss ih => simp [sizeAll, ih]

theorem sizeProperties_eq (ps : List (String × PropertySchema Schema)) :
    sizeProperties ps = (ps.map fun p => size p.2.schema).sum := by
  induction ps with
  | nil => rfl
  | cons p ps ih => simp [sizeProperties, ih]

theorem sizeAdditional_eq (a : Additional Schema) :
    sizeAdditional a = ((ofAdditional a).map size).sum := by
  cases a <;> simp [sizeAdditional, ofAdditional]

theorem size_eq (s : Schema) : s.weight + (s.children.map size).sum = s.size := by
  cases s with
  | object o =>
    simp [weight, children, size, sizeProperties_eq, sizeAdditional_eq, Function.comp_def,
      Nat.add_comm]
  | union ss => simp [weight, children, size, sizeAll_eq, Nat.add_comm]
  | intersection ss => simp [weight, children, size, sizeAll_eq, Nat.add_comm]
  | array s => simp [weight, children, size, Nat.add_comm]
  | _ => rfl

theorem one_le_weight (s : Schema) : 1 ≤ s.weight := by
  cases s <;> simp [weight]

def tree : Tree Schema where
  children := children
  size := size
  sum_lt s := by
    have h := size_eq s
    have hw := one_le_weight s
    omega

theorem size_lt_of_child {s t : Schema} (h : t ∈ s.children) : t.size < s.size := tree.size_lt h

theorem defaultsAll_eq (ss : List Schema) : defaultsAll ss = (ss.map defaults).sum := by
  induction ss with
  | nil => rfl
  | cons s ss ih => simp [defaultsAll, ih]

theorem defaultsProperties_eq (ps : List (String × PropertySchema Schema)) :
    defaultsProperties ps =
      ((ps.filterMap (·.2.default)).map Json.size).sum + (ps.map fun p => defaults p.2.schema).sum := by
  induction ps with
  | nil => rfl
  | cons p ps ih =>
    obtain ⟨name, s, required, d, description⟩ := p
    cases d with
    | none => simp [defaultsProperties, ih, sizeOfDefault]; omega
    | some v => simp [defaultsProperties, ih, sizeOfDefault]; omega

theorem defaultsAdditional_eq (a : Additional Schema) :
    defaultsAdditional a = ((ofAdditional a).map defaults).sum := by
  cases a <;> simp [defaultsAdditional, ofAdditional]

theorem defaults_eq (s : Schema) :
    (s.ownDefaults.map Json.size).sum + (s.children.map defaults).sum = s.defaults := by
  cases s with
  | object o =>
    simp [ownDefaults, children, defaults, defaultsProperties_eq, defaultsAdditional_eq,
      Function.comp_def, Nat.add_assoc]
  | union ss => simp [ownDefaults, children, defaults, defaultsAll_eq]
  | intersection ss => simp [ownDefaults, children, defaults, defaultsAll_eq]
  | array s => simp [ownDefaults, children, defaults]
  | _ => rfl

/-- Every part of a schema but a definition is a child. -/
theorem Part.child {ds : Definitions} {s t : Schema} (h : Part ds s t) :
    t ∈ s.children ∨ ∃ name d, s = .reference name ∧ ds.find? name = some d ∧ t = d.schema := by
  cases h with
  | element s => exact .inl (by simp [children])
  | property hp => exact .inl (List.mem_append_left _ (List.mem_map_of_mem hp))
  | additional ha => exact .inl (by simp [children, ofAdditional, ha])
  | alternative hs => exact .inl hs
  | constraint hs => exact .inl hs
  | definition hd => exact .inr ⟨_, _, rfl, hd, rfl⟩

end Schema

end RouteContract
