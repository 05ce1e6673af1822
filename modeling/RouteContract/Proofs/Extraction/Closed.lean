import RouteContract.Proofs.Extraction.Coupling
import RouteContract.Proofs.Operation
import RouteContract.Proofs.Resolution.Growth
import RouteContract.Proofs.Samples

/-!
# Contracts are closed

When all operations are found no definition is pending, and every name that is
mentioned is held. The checks at the end find nothing to refuse, and the
definitions of a contract are the entries of the registry.
-/

set_option autoImplicit false

namespace RouteContract

def RegistryEntry.definition? (e : RegistryEntry) : Option Definition :=
  match e.slot with
  | .pending => none
  | .defined schema description => some ⟨schema, description, e.owner.text⟩

namespace Registry

/-- Entries that are settled and closed are frozen one by one. -/
theorem freezeEntries_eq_ok {r : Registry} (hr : r.Sound) (hs : r.Settled)
    {entries : Entries String RegistryEntry} (h : ∀ x ∈ entries, x ∈ r.entries) :
    ∃ ds, r.freezeEntries entries = .ok ds ∧
      ∀ name, ds.find? name = (entries.find? name).bind RegistryEntry.definition? := by
  induction entries with
  | nil => exact ⟨[], rfl, fun _ => rfl⟩
  | cons x rest ih =>
    obtain ⟨key, owner, slot⟩ := x
    have hfind := Entries.find?_of_mem hr.nodup (h _ List.mem_cons_self)
    cases slot with
    | pending => exact absurd rfl (hs hfind)
    | defined schema description =>
      obtain ⟨ds, hds, hlookup⟩ := ih fun x hx => h x (List.mem_cons_of_mem _ hx)
      refine ⟨(key, ⟨schema, description, owner.text⟩) :: ds, ?_, fun name => ?_⟩
      · simp only [freezeEntries, check_eq_ok_iff.mpr (hr.closed hfind), hds, bind, Except.bind, pure,
          Except.pure]
      · by_cases hk : key = name
        · simp [Entries.find?, hk, RegistryEntry.definition?]
        · simp [Entries.find?, hk, hlookup]

theorem freeze_eq_ok {r : Registry} (hr : r.Sound) (hs : r.Settled) :
    ∃ ds, r.freeze = .ok ds ∧
      ∀ name, ds.find? name = (r.entries.find? name).bind RegistryEntry.definition? :=
  freezeEntries_eq_ok hr hs fun _ hx => hx

/-- The definitions are those of the entries, name by name. -/
theorem find?_frozen {r : Registry} (hr : r.Sound) (hs : r.Settled) {ds : Definitions}
    (h : r.freeze = .ok ds) (name : String) :
    ds.find? name = (r.entries.find? name).bind RegistryEntry.definition? := by
  obtain ⟨ds', hds, hlookup⟩ := freeze_eq_ok hr hs
  rw [h] at hds
  cases hds
  exact hlookup name

end Registry

namespace Contract

inductive Mentions (c : Contract) : Schema → Prop
  | definition {name : String} {d : Definition} (hd : (name, d) ∈ c.definitions) :
      Mentions c d.schema
  | parameter {o : Operation} {p : BoundParameter} {s : Schema} (ho : o ∈ c.operations)
      (hp : p ∈ o.parameters) (hs : p.schema = some s) : Mentions c s
  | implicitBody {o : Operation} {b : ObjectSchema Schema} (ho : o ∈ c.operations)
      (hb : o.implicitBody = some b) : Mentions c (.object b)
  | returns {o : Operation} {s : Schema} (ho : o ∈ c.operations) (hs : o.returns = some s) :
      Mentions c s
  | response {o : Operation} {status : Status} {r : Response} {s : Schema} (ho : o ∈ c.operations)
      (hr : (status, r) ∈ o.responses) (hs : r.schema = some s) : Mentions c s

end Contract

namespace Extraction

open Resolve
open Schema (allReferences)

theorem forM_eq_ok {α : Type} {f : α → Except Fault Unit} {xs : List α}
    (h : ∀ x ∈ xs, f x = .ok ()) : xs.forM f = .ok () := by
  induction xs with
  | nil => rfl
  | cons x xs ih =>
    show f x >>= (fun _ => xs.forM f) = .ok ()
    rw [h x List.mem_cons_self]
    exact ih fun y hy => h y (List.mem_cons_of_mem x hy)

theorem finish_eq_ok {r : Registry} (hr : r.Sound) (hs : r.Settled) {operations : List Operation}
    (ho : ∀ name ∈ allReferences (operationSchemas operations), r.contains name) :
    ∃ ds, finish r operations = .ok ⟨ds, operations⟩ ∧ r.freeze = .ok ds := by
  obtain ⟨ds, hds, -⟩ := Registry.freeze_eq_ok hr hs
  have hchecks : operations.forM (fun o => o.schemas.forM r.check) = .ok () := by
    refine forM_eq_ok fun o hoperation => forM_eq_ok fun s hschema => Registry.check_eq_ok_iff.mpr ?_
    intro name hname
    have hs' : s ∈ operationSchemas operations :=
      List.mem_flatMap.mpr ⟨o, hoperation, hschema⟩
    exact ho name (Schema.mem_allReferences.mpr ⟨s, hs', hname⟩)
  exact ⟨ds, by simp only [finish, hchecks, hds, bind, Except.bind, pure, Except.pure], hds⟩

section

variable {g : Graph} {roots : TypeExpr → Prop} {combination : Combination}

/-- Extraction fails where the operations are not found, and otherwise finds the contract of the
registry that they leave. -/
theorem contract_cases (hroots : ∀ c ∈ g.controllers, ∀ t, c.Writes t → roots t) :
    (∃ e, Fails (operationsOf g combination [] g.controllers) (.empty, []) e ∧
      g.contract combination = .error e) ∨
    ∃ operations st ds, Gives (operationsOf g combination [] g.controllers) (.empty, []) operations st ∧
      Leaves g roots none (allReferences (operationSchemas operations)) .empty st.1 ∧
      st.1.freeze = .ok ds ∧ g.contract combination = .ok ⟨ds, operations⟩ := by
  have hproper : Proper g roots none [] _ (fun os => allReferences (operationSchemas os))
      (operationsOf g combination [] g.controllers) :=
    operationsOf_single (proper_coupling g roots) hroots (List.nil_subset []) combination
  have hcontract : g.contract combination = (outcome (extract g combination) (.empty, [])).1 := rfl
  rw [hcontract, extract_eq, outcome_bind]
  rcases h : outcome (operationsOf g combination [] g.controllers) (.empty, [])
    with ⟨e | operations, st⟩
  · exact .inl ⟨e, by rw [Fails, h], rfl⟩
  · have hleaves := (hproper _ ready_empty).2 operations st h
    rw [List.append_nil] at hleaves
    obtain ⟨ds, hfinish, hfreeze⟩ :=
      finish_eq_ok hleaves.ready.sound hleaves.ready.settled hleaves.ready.held
    refine .inr ⟨operations, st, ds, h, hleaves, hfreeze, ?_⟩
    show (outcome (ofExcept (finish st.1 operations)) st).1 = _
    rw [hfinish]
    rfl

end

end Extraction

section

open Extraction

variable {g : Graph} {combination : Combination} {c : Contract}

/-- The definitions of a contract are the entries of a registry in order, which holds what the
operations mention. -/
theorem Graph.contract_ready (h : g.contract combination = .ok c) :
    ∃ r, Resolve.Ready g (fun _ => True) none
        (Schema.allReferences (operationSchemas c.operations)) r ∧
      r.freeze = .ok c.definitions := by
  have hroots : ∀ c ∈ g.controllers, ∀ t, c.Writes t → True := fun _ _ _ _ => trivial
  rcases contract_cases hroots with ⟨e, -, he⟩ | ⟨operations, st, ds, -, hleaves, hfreeze, hc⟩
  · rw [he] at h
    cases h
  · rw [hc] at h
    cases h
    exact ⟨st.1, hleaves.ready, hfreeze⟩

theorem Registry.mem_keys_frozen {r : Registry} (hr : r.Sound) (hs : r.Settled) {ds : Definitions}
    (hfreeze : r.freeze = .ok ds) {name : String} (hname : r.contains name) :
    name ∈ Entries.keys ds := by
  obtain ⟨⟨owner, slot⟩, he⟩ := Registry.contains_iff.mp hname
  rw [← Entries.find?_isSome_iff, Registry.find?_frozen hr hs hfreeze, he]
  cases slot with
  | pending => exact absurd rfl (hs he)
  | defined schema description => rfl

theorem Graph.contract_definitions_closed (h : g.contract combination = .ok c) :
    c.definitions.Closed := by
  obtain ⟨r, hr, hfreeze⟩ := Graph.contract_ready h
  intro name d hd key hkey
  obtain ⟨owner, hmem⟩ := Registry.mem_freezeEntries hfreeze hd
  have hentry := Entries.find?_of_mem hr.sound.nodup hmem
  exact Registry.mem_keys_frozen hr.sound hr.settled hfreeze (hr.sound.closed hentry key hkey)

/-- What an operation mentions has a definition. -/
theorem Graph.contract_operation_closed (h : g.contract combination = .ok c) {o : Operation}
    (ho : o ∈ c.operations) {s : Schema} (hs : s ∈ o.schemas) :
    s.references ⊆ Entries.keys c.definitions := by
  obtain ⟨r, hr, hfreeze⟩ := Graph.contract_ready h
  intro name hname
  refine Registry.mem_keys_frozen hr.sound hr.settled hfreeze (hr.held name ?_)
  exact Schema.mem_allReferences.mpr ⟨s, List.mem_flatMap.mpr ⟨o, ho, hs⟩, hname⟩

theorem Graph.contract_mentions_closed (h : g.contract combination = .ok c) {s : Schema}
    (hs : c.Mentions s) : s.references ⊆ Entries.keys c.definitions := by
  have hparameter : ∀ {o p s}, o ∈ c.operations → p ∈ o.parameters →
      BoundParameter.schema p = some s → s.references ⊆ Entries.keys c.definitions := by
    intro o p s ho hp hs
    apply Graph.contract_operation_closed h ho
    simp only [Operation.schemas, List.mem_append]
    exact .inl (.inl (List.mem_filterMap.mpr ⟨p, hp, hs⟩))
  cases hs with
  | definition hd => exact Graph.contract_definitions_closed h _ _ hd
  | parameter ho hp hs => exact hparameter ho hp hs
  | implicitBody ho hb =>
    rw [((Graph.contract_operation h ho).2 _ hb).1]
    intro name hname
    obtain ⟨s, hs, hname⟩ := Schema.mem_allReferences.mp (bodyObject_references _ hname)
    obtain ⟨p, hp, hs⟩ := List.mem_filterMap.mp hs
    exact hparameter ho hp hs hname
  | returns ho hs =>
    apply Graph.contract_operation_closed h ho
    simp [Operation.schemas, hs]
  | response ho hr hs =>
    apply Graph.contract_operation_closed h ho
    simp only [Operation.schemas, List.mem_append]
    exact .inl (.inr (mem_responseSchemas.mpr ⟨_, _, hr, hs⟩))

end

/-- A run never ends with a dangling reference, and where it gives a contract every name that is
reached from a schema of the contract, at any depth, has a definition. -/
theorem Graph.contract_closed (g : Graph) (combination : Combination) :
    (∀ name, g.contract combination ≠ .error (.fault (.dangling name))) ∧
    ∀ c, g.contract combination = .ok c → ∀ s, c.Mentions s → ∀ name,
      Schema.Reaches c.definitions s (.reference name) → name ∈ Entries.keys c.definitions := by
  constructor
  · intro name hc
    have hroots : ∀ c ∈ g.controllers, ∀ t, c.Writes t → True := fun _ _ _ _ => trivial
    have hproper : Resolve.Proper g (fun _ => True) none [] _
        (fun os => Schema.allReferences (Extraction.operationSchemas os))
        (Extraction.operationsOf g combination [] g.controllers) :=
      Extraction.operationsOf_single (Resolve.proper_coupling g _) hroots (List.nil_subset [])
        combination
    rcases Extraction.contract_cases hroots with ⟨e, hfails, he⟩ | ⟨operations, st, ds, -, -, -, he⟩
    · rw [he] at hc
      cases hc
      exact (hproper _ Resolve.ready_empty).1 name hfails
    · rw [he] at hc
      cases hc
  · intro c hc s hs name hreach
    have hdefinitions := Graph.contract_definitions_closed hc
    exact hdefinitions.reaches (Graph.contract_mentions_closed hc hs) hreach List.mem_cons_self

namespace Sample

def linked : Graph where
  declarations := [interface "A" [] [property "next" (.union [.named "A", .keyword .null])]]
  controllers := [posting [parameter "p" (.array (.named "A")) .body]]

def listed? : Option Schema → Option String
  | some (.array (.reference name)) => some name
  | _ => none

theorem linked_listed : ∃ c o, linked.contract .anyOf = .ok c ∧ o ∈ c.operations ∧
    o.parameters.any fun p => listed? p.schema = some "A" :=
  exists_operation (by decide +kernel)

theorem linked_closed : ∃ c s, linked.contract .anyOf = .ok c ∧ c.Mentions s ∧
    Schema.Reaches c.definitions s (.reference "A") ∧ "A" ∈ Entries.keys c.definitions := by
  obtain ⟨c, o, hc, ho, h⟩ := linked_listed
  obtain ⟨p, hp, hlisted⟩ := List.any_eq_true.mp h
  have hlisted := of_decide_eq_true hlisted
  have hs : p.schema = some (.array (.reference "A")) := by
    unfold listed? at hlisted
    split at hlisted
    · cases hlisted
      assumption
    · cases hlisted
  have hmention : c.Mentions (.array (.reference "A")) := .parameter ho hp hs
  have hreach : Schema.Reaches c.definitions (.array (.reference "A")) (.reference "A") :=
    .single (.element _)
  exact ⟨c, _, hc, hmention, hreach,
    (Graph.contract_closed linked .anyOf).2 c hc _ hmention _ hreach⟩

end Sample

end RouteContract
