import Mathlib.Data.List.GetD
import RouteContract.Proofs.Lists
import RouteContract.Proofs.Resolution.Bases
import RouteContract.Proofs.Resolution.Coupling
import RouteContract.Proofs.TypeExpr

/-!
# Resolution ends

A nested type is smaller than the type around it. The members of a declaration
are collected only while they are not being collected yet, and the instances that
they mention are built in the meantime. So however far type arguments grow, no
more declarations are nested in each other than the graph has, and resolution is
the run within any number of nested steps that is large enough.
-/

set_option autoImplicit false

namespace RouteContract

namespace Resolve

def Task.node : Task → Node
  | type t o => .type t o
  | members d args _ => .members d args

namespace Node

def ofRef? (g : Graph) (r : TypeRef TypeExpr) (o : Origin) : Option Node := do
  let named ← (g.lookup r o).toOption
  let i ← (named.instantiate g r.args o).toOption
  let d ← g.declaration? i.id
  return .members d i.args

def ofBase? (g : Graph) (d : Declaration) (args : List TypeExpr) (base : TypeRef TypeExpr) :
    Option Node := do
  let b ← (g.lookup base d.origin).toOption
  let i ← (b.instantiate g (TypeExpr.substituteAll (Declaration.bindingOf d.params args) base.args)
    d.origin).toOption
  return .members b i.args

def ofShape (shape : Shape TypeExpr) (o : Origin) : List Node :=
  shape.properties.map (fun p => .type p.type.stripUndefined.1 o) ++
    shape.index.map (fun signature => .type signature.value o)

def next (g : Graph) : Node → List Node
  | type (.array t) o => [.type t o]
  | type (.union ts) o => ts.map (.type · o)
  | type (.intersection ts) o => ts.map (.type · o)
  | type (.object shape) o => ofShape shape o
  | type (.ref r) o => r.args.map (.type · o) ++ (ofRef? g r o).toList
  | type _ _ => []
  | members d args =>
    match d.kind with
    | .object bases shape _ =>
      let bind := Declaration.bindingOf d.params args
      bases.filterMap (ofBase? g d args) ++ ofShape
        ⟨TypeExpr.substituteProperties bind shape.properties,
          TypeExpr.substituteIndex bind shape.index⟩ d.origin
    | _ => []

/-- The size of a type. Members come last, as what they ask for is not compared with them. -/
noncomputable def weight : Node → Nat
  | type t _ => sizeOf t + 1
  | members .. => 0

/-- How many declarations may be collected below the node, if `k` may be collected from it on. -/
def left : Node → Nat → Nat
  | type .., k => k
  | members .., k => k - 1

def Declared (g : Graph) : Node → Prop
  | type .. => True
  | members d _ => d ∈ g.declarations

theorem property_mem {shape : Shape TypeExpr} {p : Property TypeExpr} (hp : p ∈ shape.properties)
    (o : Origin) : Node.type p.type.stripUndefined.1 o ∈ ofShape shape o :=
  List.mem_append_left _ (List.mem_map_of_mem hp)

theorem index_mem {shape : Shape TypeExpr} {v : TypeExpr} (hv : IndexValue shape.index v)
    (o : Origin) : Node.type v o ∈ ofShape shape o := by
  apply List.mem_append_right
  generalize shape.index = index at hv
  cases hv with
  | value => simp

end Node

theorem BuiltinArgument.mem {r : TypeRef TypeExpr} {b : Builtin} {t : TypeExpr}
    (h : BuiltinArgument r b t) : t ∈ r.args := by
  have hget : ∀ {n : Nat}, n < r.args.length → r.args.getD n default ∈ r.args := by
    intro n hn
    rw [List.getD_eq_getElem _ _ hn]
    exact List.getElem_mem hn
  cases h with
  | array h => exact hget (by omega)
  | promise h => exact hget (by omega)
  | record h hv =>
    cases hv with
    | value => exact hget (by omega)

section

variable {g : Graph} {n : Nat} {task next : Task} {st st' : Situation}

theorem Task.declared_node (task : Task) : task.Declared g ↔ task.node.Declared g := by
  cases task with
  | type => exact Iff.rfl
  | members => exact Iff.rfl

theorem Calls.mem_next (h : Calls g n task st next st') : next.node ∈ task.node.next g := by
  cases h with
  | element => exact List.mem_singleton_self _
  | @alternative ts before after t o _ _ _ ht _ =>
    have hmem : t ∈ ts.filter (!·.isUndefined) := by simp [ht]
    exact List.mem_map_of_mem (List.mem_of_mem_filter hmem)
  | constraint _ => exact List.mem_map_of_mem (by simp)
  | property hp _ => exact Node.property_mem (by simp [hp]) _
  | index _ hv => exact Node.index_mem hv _
  | argument _ ht => exact List.mem_append_left _ (List.mem_map_of_mem ht.mem)
  | registration _ hl hi hd =>
    apply List.mem_append_right
    simp [Node.ofRef?, hl, hi, hd.declared, Except.toOption, Task.node]
  | @base d b bases before after base shape isClass args _ _ _ _ i hk _ hbases _ hbase =>
    simp only [Task.node, Node.next, hk]
    refine List.mem_append_left _ (List.mem_filterMap.mpr ⟨base, by simp [hbases], ?_⟩)
    simp [Node.ofBase?, hbase.found, hbase.instantiated, Except.toOption]
  | ownProperty hk _ _ hp _ =>
    simp only [Task.node, Node.next, hk]
    exact List.mem_append_right _ (Node.property_mem (by simp [hp]) _)
  | ownIndex hk _ _ _ hv =>
    simp only [Task.node, Node.next, hk]
    exact List.mem_append_right _ (Node.index_mem hv _)

def uncollected (g : Graph) (ids : List DeclId) : Nat :=
  (g.declarations.filter fun d => d.id ∉ ids).length

theorem uncollected_lt {d : Declaration} {ids : List DeclId} (hd : d ∈ g.declarations)
    (hnew : d.id ∉ ids) : uncollected g (ids ++ [d.id]) < uncollected g ids := by
  unfold uncollected
  have hsplit : g.declarations.filter (fun e => e.id ∉ ids ++ [d.id]) =
      (g.declarations.filter fun e => e.id ∉ ids).filter fun e => e.id ≠ d.id := by
    rw [List.filter_filter]
    apply List.filter_congr
    intro e _
    simp [and_comm]
  rw [hsplit]
  apply List.length_filter_lt_length_iff_exists.mpr
  exact ⟨d, List.mem_filter.mpr ⟨hd, by simpa using hnew⟩, by simp⟩

def Descends (k : Nat) (node : Node) (k' : Nat) (node' : Node) : Prop :=
  Prod.Lex (· < ·) (· < ·) (k', node'.weight) (k, node.weight)

theorem descends_shape {k : Nat} {shape : Shape TypeExpr} {o : Origin} {node : Node}
    (h : node ∈ Node.ofShape shape o) : Descends k (.type (.object shape) o) k node := by
  apply Prod.Lex.right
  obtain ⟨ps, is⟩ := shape
  unfold Node.ofShape at h
  simp only [List.mem_append, List.mem_map] at h
  rcases h with ⟨p, hp, rfl⟩ | ⟨signature, hs, rfl⟩
  · have hlt := Property.sizeOf_type_lt hp
    have hle := p.type.sizeOf_stripUndefined_le
    simp only [Node.weight, TypeExpr.object.sizeOf_spec, Shape.mk.sizeOf_spec]
    omega
  · have hlt := (IndexSignature.sizeOf_lt hs).2
    simp only [Node.weight, TypeExpr.object.sizeOf_spec, Shape.mk.sizeOf_spec]
    omega

/-- The type of a member list is smaller than the type it is in. -/
theorem descends_of_mem {k : Nat} {t u : TypeExpr} {o : Origin} {ts : List TypeExpr}
    (ht : t ∈ ts) (hu : sizeOf ts < sizeOf u) : Descends k (.type u o) k (.type t o) := by
  have hlt := List.sizeOf_lt_of_mem ht
  apply Prod.Lex.right
  simp only [Node.weight]
  omega

theorem Calls.descends (h : Calls g n task st next st') (htask : task.Declared g) {k : Nat}
    (hk : uncollected g st.2 ≤ k) :
    uncollected g st'.2 ≤ task.node.left k ∧ Descends k task.node (task.node.left k) next.node := by
  have hstack := h.stack
  cases task with
  | members d args object =>
    have hnew : d.id ∉ st.2 := by
      cases h with
      | base _ hnew => exact hnew
      | ownProperty _ hnew => exact hnew
      | ownIndex _ hnew => exact hnew
    have hlt := uncollected_lt htask hnew
    rw [hstack]
    simp only [Task.collected, Task.node, Node.left]
    exact ⟨by omega, Prod.Lex.left _ _ (by omega)⟩
  | type t o =>
    rw [show st'.2 = st.2 from hstack.trans (List.append_nil _)]
    refine ⟨hk, ?_⟩
    cases h with
    | element =>
      apply Prod.Lex.right
      simp only [Task.node, Node.weight, TypeExpr.array.sizeOf_spec]
      omega
    | @alternative ts before after t _ _ _ _ ht _ =>
      have hmem : t ∈ ts.filter (!·.isUndefined) := by simp [ht]
      exact descends_of_mem (List.mem_of_mem_filter hmem) (by simp)
    | @constraint before after t =>
      have hmem : t ∈ before ++ t :: after := by simp
      exact descends_of_mem hmem (by simp)
    | property hp _ => exact descends_shape (Node.property_mem (by simp [hp]) _)
    | index _ hv => exact descends_shape (Node.index_mem hv _)
    | @argument r _ _ _ _ _ ht =>
      apply descends_of_mem ht.mem
      cases r
      simp only [TypeExpr.ref.sizeOf_spec, TypeRef.mk.sizeOf_spec]
      omega
    | registration => exact Prod.Lex.right _ (Nat.succ_pos _)

/-- A run for the node has nested steps enough, whatever is registered, while at most `k` more
declarations may be collected. -/
def Finishes (g : Graph) (k : Nat) (node : Node) (n : Nat) : Prop :=
  ∀ task st, Task.node task = node → uncollected g st.2 ≤ k → ¬ task.Fails g n st .exhausted

/-- What a run may ask for is known in advance, and for each of it so many steps are enough. -/
theorem exists_finishes (g : Graph) (k : Nat) (node : Node) (hnode : node.Declared g) :
    ∃ N, ∀ n, N ≤ n → Finishes g k node n := by
  have hnext : ∀ node' ∈ node.next g, ∃ N, ∀ n, N ≤ n → node'.Declared g →
      Descends k node (node.left k) node' → Finishes g (node.left k) node' n := by
    intro node' _
    by_cases h : node'.Declared g ∧ Descends k node (node.left k) node'
    · obtain ⟨N, hN⟩ := exists_finishes g (node.left k) node' h.1
      exact ⟨N, fun n hn _ _ => hN n hn⟩
    · exact ⟨0, fun n _ hd hlt => absurd ⟨hd, hlt⟩ h⟩
  obtain ⟨N, hN⟩ := exists_bound hnext
  refine ⟨N + 1, fun n hn => ?_⟩
  obtain ⟨m, rfl⟩ : ∃ m, n = m + 1 := ⟨n - 1, by omega⟩
  rintro task st rfl hk hfail
  rcases (task.fails_succ Stop.exhausted_foreign).mp hfail with hrepeats | ⟨next, st', hcall, hfail⟩
  · cases task with
    | type => exact hrepeats
    | members => cases hrepeats.2.2
  · obtain ⟨hleft, hlt⟩ := hcall.descends (task.declared_node.mpr hnode) hk
    have hdeclared := next.declared_node.mp hcall.declared
    exact hN next.node hcall.mem_next _ (by omega) hdeclared hlt next st' rfl hleft hfail
termination_by (k, node.weight)
decreasing_by exact h.2

theorem uncollected_le (g : Graph) (ids : List DeclId) :
    uncollected g ids ≤ g.declarations.length := List.length_filter_le _ _

/-- For each type so many nested steps are enough, whatever is registered and being collected. -/
theorem exists_typeWithin_ends (g : Graph) (t : TypeExpr) (o : Origin) :
    ∃ N, ∀ n, N ≤ n → ∀ st, ¬ Fails (typeWithin g n t o) st .exhausted := by
  obtain ⟨N, hN⟩ := exists_finishes g g.declarations.length (.type t o) trivial
  exact ⟨N, fun n hn st => hN n hn (.type t o) st rfl (uncollected_le g st.2)⟩

/-- For each instance so many nested steps are enough, whatever is registered and being
collected. -/
theorem exists_instanceOf_ends (g : Graph) (i : Instance) :
    ∃ N, ∀ n, N ≤ n → ∀ st, ¬ Fails (instanceOf (membersWithin g n) g i) st .exhausted := by
  have hends : ∀ d, g.declaration? i.id = some d → ∃ N, ∀ n, N ≤ n →
      Finishes g g.declarations.length (.members d i.args) n :=
    fun d hd => exists_finishes g _ (.members d i.args) (List.mem_of_find?_eq_some hd)
  cases hd : g.declaration? i.id with
  | none =>
    refine ⟨0, fun n _ st h => ?_⟩
    obtain ⟨d, r, hregisters, -⟩ := (fails_instanceOf Stop.exhausted_foreign).mp h
    rw [hregisters.declared] at hd
    cases hd
  | some d =>
    obtain ⟨N, hN⟩ := hends d hd
    refine ⟨N, fun n hn st h => ?_⟩
    obtain ⟨d', r, hregisters, hfails⟩ := (fails_instanceOf Stop.exhausted_foreign).mp h
    rw [hregisters.declared] at hd
    cases hd
    exact hN n hn (.members d i.args .empty) (r, st.2) rfl (uncollected_le g st.2) hfails

end

def Settles : Judgement := fun _ _ _ _ m₁ m₂ =>
  ∀ st, ¬ Fails m₁ st .exhausted → outcome m₂ st = outcome m₁ st

namespace Settles

variable {ctx : Option Instance} {held : List String} {α β : Type} {names : α → List String}
  {names' : β → List String}

theorem refl (m : Resolve α) : Settles ctx held α names m m := fun _ _ => rfl

theorem cut (m : Resolve α) : Settles ctx held α names (throw .exhausted) m :=
  fun _ h => absurd (fails_throw.mpr rfl) h

theorem bind {m₁ m₂ : Resolve α} {f₁ f₂ : α → Resolve β} (hm : Settles ctx held α names m₁ m₂)
    (hf : ∀ a, Settles ctx (names a ++ held) β names' (f₁ a) (f₂ a)) :
    Settles ctx held β names' (m₁ >>= f₁) (m₂ >>= f₂) := by
  intro st h
  rw [fails_bind] at h
  rw [outcome_bind, outcome_bind, hm st fun hfail => h (.inl hfail)]
  rcases hrun : outcome m₁ st with ⟨e | a, st'⟩
  · rfl
  · exact hf a st' fun hfail => h (.inr ⟨a, st', hrun, hfail⟩)

theorem bracket {id : DeclId} {m₁ m₂ : Resolve α} (hm : Settles ctx held α names m₁ m₂) :
    Settles ctx held α names (bracket id m₁) (bracket id m₂) := by
  intro st h
  rw [fails_bracket] at h
  rw [outcome_bracket, outcome_bracket]
  split
  · rfl
  · rename_i hid
    rw [hm _ fun hfail => h (.inr ⟨by simpa using hid, hfail⟩)]

theorem register {name : String} {i : Instance} {m₁ m₂ : Resolve (Schema × Option String)}
    (hm : Settles (some i) [] _ (fun x => x.1.references) m₁ m₂) :
    Settles ctx held _ Schema.references (Registry.getOrCreate .fault name i m₁)
      (Registry.getOrCreate .fault name i m₂) := by
  intro st h
  rw [fails_getOrCreate] at h
  rw [outcome_getOrCreate, outcome_getOrCreate]
  cases hr : st.1.reserve name i with
  | error f => rfl
  | ok reservation =>
    cases reservation with
    | existing => rfl
    | fresh r => simp only [hm _ fun hfail => h (.inr ⟨r, hr, hfail⟩)]

end Settles

theorem settles_coupling (g : Graph) (roots : TypeExpr → Prop) :
    Coupling g roots (· ≤ ·) True Settles where
  refl := Nat.le_refl
  pred := Nat.le_of_succ_le_succ
  stopped := by
    intro n₁ n₂ hle hzero ctx
    obtain rfl : n₁ = 0 := by omega
    exact ⟨fun _ _ _ _ => .cut _, fun _ _ _ _ _ _ _ _ _ => .cut _⟩
  check _ _ := .refl _
  give he _ := he trivial ▸ .refl _
  bind h hf := h.bind fun a => hf a a fun _ => rfl
  merge _ h := h.bind fun _ => .refl _
  register _ _ _ _ hsteps h := .register (h _ hsteps)
  bracket := .bracket

/-- More nested steps change nothing in a run that is not cut short. -/
theorem typeWithin_settles {g : Graph} {n m : Nat} (h : n ≤ m) (t : TypeExpr) (o : Origin)
    (st : Situation) (hrun : ¬ Fails (typeWithin g n t o) st .exhausted) :
    outcome (typeWithin g m t o) st = outcome (typeWithin g n t o) st := by
  have hcoupled := (settles_coupling g (· = t)).within h none
  have hstands : Node.Stands g (· = t) none (.type t o) := ⟨t, o, rfl, .refl⟩
  exact hcoupled.1 t o hstands [] st hrun

/-- A run that is not cut short gives a schema or fails with a fault. -/
theorem outcome_of_finishes {α : Type} {m : Resolve α} {st : Situation}
    (h : ¬ Fails m st .exhausted) :
    ∃ (x : Except Fault α) (st' : Situation), outcome m st = (x.mapError .fault, st') := by
  rcases hm : outcome m st with ⟨(⟨f⟩ | ⟨⟩) | a, st'⟩
  · exact ⟨.error f, st', rfl⟩
  · exact absurd (congrArg Prod.fst hm) h
  · exact ⟨.ok a, st', rfl⟩

section

variable {α : Type}

theorem Search.result_of_exhausted {s : Search α} (h : Fails (s.run s.steps) s.start .exhausted) :
    s.result = Search.result { s with steps := 2 * s.steps } := by
  rw [Search.result]
  split
  · rfl
  · next hne =>
    have hcut : outcome (s.run s.steps) s.start =
        (.error .exhausted, (outcome (s.run s.steps) s.start).2) := Prod.ext_iff.mpr ⟨h, rfl⟩
    exact absurd hcut (hne _)

theorem Search.result_of_enough {s : Search α}
    (h : ¬ Fails (s.run s.steps) s.start .exhausted) :
    s.result = outcome (s.run s.steps) s.start := by
  rw [Search.result]
  split
  · next heq => exact absurd (congrArg Prod.fst heq) h
  · rfl

/-- The search ends where all numbers from some one on are enough. -/
theorem Search.exists_result_eq (s : Search α) (hsteps : 0 < s.steps) {N : Nat}
    (hends : ∀ n, N ≤ n → ¬ Fails (s.run n) s.start .exhausted) :
    ∃ n, ¬ Fails (s.run n) s.start .exhausted ∧ s.result = outcome (s.run n) s.start := by
  by_cases hcut : Fails (s.run s.steps) s.start .exhausted
  · have hlt : s.steps < N := by
      by_contra hle
      exact hends s.steps (by omega) hcut
    obtain ⟨n, hn, hresult⟩ :=
      exists_result_eq { s with steps := 2 * s.steps } (Nat.mul_pos (by omega) hsteps) hends
    exact ⟨n, hn, (result_of_exhausted hcut).trans hresult⟩
  · exact ⟨s.steps, hcut, result_of_enough hcut⟩
termination_by N - s.steps

/-- Where some number of steps is enough, an unlimited run is one of those that are not cut
short. -/
theorem exists_outcome_unlimited {run : Nat → Resolve α} {st : Situation} {N : Nat}
    (hends : ∀ n, N ≤ n → ¬ Fails (run n) st .exhausted) :
    ∃ n, ¬ Fails (run n) st .exhausted ∧ outcome (unlimited run) st = outcome (run n) st := by
  have hunlimited : outcome (unlimited run) st = Search.result ⟨run, st, 4000⟩ := by
    rw [Search.result]
    rfl
  rw [hunlimited]
  exact Search.exists_result_eq ⟨run, st, 4000⟩ (Nat.succ_pos _) hends

end

end Resolve

open Resolve

/-- So many nested steps are enough for a type, whatever is registered and being collected, and more
of them change nothing. -/
theorem Graph.exists_resolveType_eq (g : Graph) (t : TypeExpr) (o : Origin) :
    ∃ N, ∀ n, N ≤ n → g.resolveType t o = typeWithin g n t o := by
  obtain ⟨N, hN⟩ := exists_typeWithin_ends g t o
  refine ⟨N, fun n hn => funext fun st => ?_⟩
  obtain ⟨m, hm, hrun⟩ := exists_outcome_unlimited fun n hn => hN n hn st
  calc outcome (g.resolveType t o) st
      = outcome (typeWithin g m t o) st := hrun
    _ = outcome (typeWithin g (max m n) t o) st :=
      (typeWithin_settles (Nat.le_max_left m n) t o st hm).symm
    _ = outcome (typeWithin g n t o) st :=
      typeWithin_settles (Nat.le_max_right m n) t o st (hN n hn st)

/-- Resolution fails with a fault exactly where it does so within some number of nested steps. -/
theorem Graph.fails_resolveType_iff {g : Graph} {t : TypeExpr} {o : Origin} {st : Situation}
    {e : Stop} (he : e ≠ .exhausted) :
    Fails (g.resolveType t o) st e ↔ ∃ n, Fails (typeWithin g n t o) st e := by
  obtain ⟨N, hN⟩ := g.exists_resolveType_eq t o
  constructor
  · exact fun h => ⟨N, hN N (Nat.le_refl N) ▸ h⟩
  · rintro ⟨n, h⟩
    have hnot : ¬ Fails (typeWithin g n t o) st .exhausted := fun hcut =>
      he (Except.error.inj (h.symm.trans hcut))
    rw [hN (max n N) (Nat.le_max_right n N), Fails,
      typeWithin_settles (Nat.le_max_left n N) t o st hnot]
    exact h

theorem Graph.exists_gives_instanceOf {g : Graph} {i : Instance} {st st' : Situation} {s : Schema}
    (h : Gives (g.resolveInstance i) st s st') :
    ∃ n, Gives (instanceOf (membersWithin g n) g i) st s st' := by
  obtain ⟨N, hN⟩ := exists_instanceOf_ends g i
  obtain ⟨n, -, hrun⟩ := exists_outcome_unlimited fun n hn => hN n hn st
  exact ⟨n, hrun.symm.trans h⟩

theorem Graph.resolveType_not_exhausted (g : Graph) (t : TypeExpr) (o : Origin) (st : Situation) :
    ¬ Fails (g.resolveType t o) st .exhausted := by
  obtain ⟨N, hN⟩ := exists_typeWithin_ends g t o
  obtain ⟨M, hM⟩ := g.exists_resolveType_eq t o
  rw [hM (max N M) (Nat.le_max_right N M)]
  exact hN _ (Nat.le_max_left N M) st

/-- So many nested steps are enough for a type, whatever is registered: the run gives a schema or
fails with a fault, more steps change nothing, and resolution does the same. -/
theorem Graph.resolution_ends (g : Graph) (t : TypeExpr) (o : Origin) (ids : List DeclId) :
    ∃ n, ∀ r : Registry, ∃ (x : Except Fault Schema) (st' : Situation),
      (∀ m, n ≤ m → outcome (typeWithin g m t o) (r, ids) = (x.mapError .fault, st')) ∧
      outcome (g.resolveType t o) (r, ids) = (x.mapError .fault, st') := by
  obtain ⟨n, hn⟩ := g.exists_resolveType_eq t o
  refine ⟨n, fun r => ?_⟩
  obtain ⟨x, st', hrun⟩ := outcome_of_finishes (g.resolveType_not_exhausted t o (r, ids))
  exact ⟨x, st', fun m hm => hn m hm ▸ hrun, hrun⟩

namespace Resolve

variable {I : Registry → Prop}

theorem resolveType_keeps (hI : Registry.Invariant I) (g : Graph) : Keeps I g.resolveType := by
  intro t o
  obtain ⟨n, hn⟩ := g.exists_resolveType_eq t o
  rw [hn n (Nat.le_refl n)]
  exact (within_keeps hI g n).1 t o

/-- Two resolutions of a root are related as the runs within the same number of steps are. -/
theorem Coupling.resolveType {g : Graph} {roots : TypeExpr → Prop} {steps : Nat → Nat → Prop}
    {same : Prop} {P : Judgement} (hP : Coupling g roots steps same P) {t : TypeExpr}
    (ht : roots t) (o : Origin) : Types P none g.resolveType g.resolveType o t := by
  intro held
  obtain ⟨n, hn⟩ := g.exists_resolveType_eq t o
  rw [hn n (Nat.le_refl n)]
  exact (hP.within (hP.refl n) none).1 t o (Node.stands_root ht o) held

theorem resolveProperty_keeps (hI : Registry.Invariant I) (g : Graph) :
    Keeps I g.resolveProperty := property_keeps (resolveType_keeps hI g)

end Resolve

end RouteContract
