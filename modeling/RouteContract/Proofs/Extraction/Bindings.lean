import RouteContract.Proofs.Entries
import RouteContract.Proofs.Extraction.Contracts
import RouteContract.Proofs.Lists
import RouteContract.Proofs.Samples

/-!
# Bindings of parameters

The parameters of a method are bound in order, beside a record of what the
earlier ones have taken. The record says exactly which placeholders are bound and
whether there is a body or a field of one, in whatever order these come. Nothing
is assumed of the path; its placeholders are read off the joined template.
-/

set_option autoImplicit false

namespace RouteContract

def pathWires (ps : List BoundParameter) : List String :=
  (ps.filter (·.source = .path)).map (·.wire)

structure WellBound (template : String) (ps : List BoundParameter) : Prop where
  distinct : (pathWires ps).Nodup
  placeholders : ∀ name, name ∈ pathWires ps ↔ name ∈ Route.placeholders template
  body : ps.countP (·.source = .body) ≤ 1
  apart : ∀ p ∈ ps, ∀ q ∈ ps, p.source = .body → q.source ≠ .field

theorem pathWires_concat_path {b : BoundParameter} (h : b.source = .path)
    (ps : List BoundParameter) : pathWires (ps ++ [b]) = pathWires ps ++ [b.wire] := by
  simp [pathWires, h]

theorem pathWires_concat_ne {b : BoundParameter} (h : b.source ≠ .path)
    (ps : List BoundParameter) : pathWires (ps ++ [b]) = pathWires ps := by
  simp [pathWires, h]

namespace Route

/-- A binding is chosen, and one to the path names a placeholder. -/
theorem bind_eq_ok {p : Parameter} {template operation : String} {b : Binding} :
    bind p template operation = .ok b ↔ choose p template operation = .ok b ∧
      (b.source = .path → b.wire ∈ placeholders template ∧ Parameter.mayBeUndefined p = false) := by
  unfold bind
  cases choose p template operation with
  | error f => simp [Bind.bind, Except.bind]
  | ok b' =>
    simp only [Bind.bind, Except.bind, pure, Except.pure, throw, throwThe, MonadExceptOf.throw,
      Except.ok.injEq]
    by_cases hpath : b'.source = .path
    · simp only [hpath, if_true]
      by_cases hm : b'.wire ∈ placeholders template <;> cases hu : Parameter.mayBeUndefined p <;>
        simp [hm]
      all_goals rintro rfl
      all_goals simp [hpath, hm]
    · simp only [hpath, if_false, Except.ok.injEq]
      refine ⟨?_, fun h => h.1⟩
      rintro rfl
      exact ⟨rfl, fun h => absurd h hpath⟩

end Route

namespace Extraction

open Resolve (Ensures)

structure Binds (template operation : String) (p : Parameter) (b : BoundParameter) : Prop where
  placed : ∀ use ∈ p.annotations, use.content.allowedOn .parameter
  name : b.name = p.name
  binding : Route.bind p template operation = .ok ⟨b.source, b.wire⟩

theorem names_of_binds {template operation : String} {ps : List Parameter}
    {bs : List BoundParameter} (h : List.Forall₂ (Binds template operation) ps bs) :
    bs.map (·.name) = ps.map (·.name) := by
  induction h with
  | nil => rfl
  | cons hb _ ih => rw [List.map_cons, List.map_cons, hb.name, ih]

structure Realizes (context : Context) (m : Method) (verb : Verb) (tail : String)
    (o : Operation) : Prop where
  controller : o.controller = context.name
  method : o.method = m.name
  verb : o.verb = verb
  stem : o.stem = context.stem
  path : o.path = Route.join o.stem tail
  placed : ∀ use ∈ m.annotations, use.content.allowedOn .method
  parameters : List.Forall₂ (Binds o.path o.title) m.parameters o.parameters
  wellBound : WellBound o.path o.parameters

structure Taken.Records (t : Taken) (ps : List BoundParameter) : Prop where
  placeholders : t.placeholders.keys = pathWires ps
  distinct : (pathWires ps).Nodup
  body : ps.countP (·.source = .body) = t.body.toNat
  fields : t.fields ↔ ∃ p ∈ ps, p.source = .field
  apart : ¬ (t.body ∧ t.fields)

theorem Taken.nothing_records : Taken.nothing.Records [] where
  placeholders := rfl
  distinct := List.nodup_nil
  body := rfl
  fields := by simp [nothing]
  apart := by simp [nothing]

/-- A parameter takes what its source stands for, and is refused where that is taken. -/
theorem Taken.Records.add {t t' : Taken} {ps : List BoundParameter} (h : t.Records ps)
    {p : Parameter} {b : BoundParameter} {operation : String}
    (hadd : t.add p ⟨b.source, b.wire⟩ operation = .ok t') : t'.Records (ps ++ [b]) := by
  obtain ⟨hplaceholders, hdistinct, hbody, hfields, hapart⟩ := h
  unfold Taken.add at hadd
  split at hadd
  case h_1 hsource =>
    have hsource : b.source = .body := hsource
    have hwires := pathWires_concat_ne (b := b) (by simp [hsource]) ps
    split at hadd
    · cases hadd
    · rename_i hfree
      cases hadd
      rw [Bool.or_eq_true, not_or] at hfree
      exact ⟨hwires ▸ hplaceholders, hwires ▸ hdistinct, by simp [hbody, hfree.1, hsource],
        by simp [hfields, hsource], by simp [hfree.2]⟩
  case h_2 hsource =>
    have hsource : b.source = .field := hsource
    have hwires := pathWires_concat_ne (b := b) (by simp [hsource]) ps
    split at hadd
    · cases hadd
    · rename_i hfree
      cases hadd
      exact ⟨hwires ▸ hplaceholders, hwires ▸ hdistinct, by simp [hbody, hsource],
        by simp [hsource], by simp [hfree]⟩
  case h_3 hsource =>
    have hsource : b.source = .path := hsource
    split at hadd
    · cases hadd
    · rename_i hfree
      cases hadd
      have hnew : b.wire ∉ pathWires ps := hplaceholders ▸ Entries.find?_eq_none_iff.mp hfree
      have hkeys : (t.placeholders.insert b.wire p.name).keys = pathWires (ps ++ [b]) := by
        rw [pathWires_concat_path hsource, Entries.keys_insert, hplaceholders, if_neg hnew]
      have hnodup := Entries.nodup_insert (hplaceholders ▸ hdistinct) b.wire p.name
      exact ⟨hkeys, hkeys ▸ hnodup, by simp [hbody, hsource], by simp [hfields, hsource], hapart⟩
  case h_4 hnotBody hnotField hnotPath =>
    have hnotBody : b.source ≠ .body := hnotBody
    have hnotField : b.source ≠ .field := hnotField
    have hwires := pathWires_concat_ne hnotPath ps
    cases hadd
    exact ⟨hwires ▸ hplaceholders, hwires ▸ hdistinct, by simp [hbody, hnotBody],
      by simp [hfields, hnotField], hapart⟩

theorem Taken.Records.wellBound {t : Taken} {ps : List BoundParameter} (h : t.Records ps)
    {template : String} (hpaths : ∀ p ∈ ps, p.source = .path → p.wire ∈ Route.placeholders template)
    (hall : ∀ name ∈ Route.placeholders template, t.placeholders.contains name) :
    WellBound template ps where
  distinct := h.distinct
  placeholders name := by
    constructor
    · intro hname
      obtain ⟨p, hp, rfl⟩ := List.mem_map.mp hname
      rw [List.mem_filter, decide_eq_true_eq] at hp
      exact hpaths p hp.1 hp.2
    · intro hname
      rw [← h.placeholders]
      exact Entries.find?_isSome_iff.mp (hall name hname)
  body := h.body ▸ Bool.toNat_le t.body
  apart p hp q hq hbody hfield := by
    have hpositive : 0 < ps.countP (·.source = .body) :=
      List.countP_pos_iff.mpr ⟨p, hp, by simpa using hbody⟩
    have htaken : t.body = true := by
      cases ht : t.body with
      | false => simp [h.body, ht] at hpositive
      | true => rfl
    exact h.apart ⟨htaken, h.fields.mpr ⟨q, hq, hfield⟩⟩

theorem checkPlacement_allows {uses : List AnnotationUse} {t : Target} {u : Unit}
    (h : AnnotationUse.checkPlacement uses t = .ok u) :
    ∀ use ∈ uses, use.content.allowedOn t := by
  unfold AnnotationUse.checkPlacement at h
  split at h
  · cases h
  · rename_i hnone
    simpa using hnone

section

variable {I : Registry → Prop} (hI : Registry.Invariant I) (g : Graph)

include hI

theorem boundParameter_binds {template operation : String} {p : Parameter} {b : Route.Binding}
    (hplaced : ∀ use ∈ p.annotations, use.content.allowedOn .parameter)
    (hbind : Route.bind p template operation = .ok b) :
    Ensures I (boundParameter g p b operation) fun bound =>
      Binds template operation p bound ∧ (⟨bound.source, bound.wire⟩ : Route.Binding) = b := by
  unfold boundParameter
  split
  · exact .pure ⟨⟨hplaced, rfl, hbind⟩, rfl⟩
  · split
    · exact .fail
    · exact (Resolve.resolveProperty_keeps hI g _ _).seq fun _ =>
        .pure ⟨⟨hplaced, rfl, hbind⟩, rfl⟩

theorem parametersFrom_bind (template operation : String) (taken : Taken) (ps : List Parameter) :
    Ensures I (parametersFrom g template operation taken ps) fun x =>
      List.Forall₂ (Binds template operation) ps x.1 ∧
        ∀ earlier, taken.Records earlier → x.2.Records (earlier ++ x.1) := by
  induction ps generalizing taken with
  | nil => exact .pure ⟨.nil, fun earlier h => by rwa [List.append_nil]⟩
  | cons p ps ih =>
    rw [parametersFrom_cons]
    refine (Ensures.ofExcept fun _ h => checkPlacement_allows h).bind fun _ hplaced => ?_
    refine (Ensures.ofExcept fun _ h => h).bind fun b hb => ?_
    refine (Ensures.ofExcept fun _ h => h).bind fun taken' hadd => ?_
    refine (boundParameter_binds hI g hplaced hb).bind fun bound hbound => ?_
    -- The rest is bound after `earlier` and this parameter.
    refine (ih taken').bind fun x hx => .pure ⟨.cons hbound.1 hx.1, fun earlier h => ?_⟩
    rw [List.append_cons]
    exact hx.2 _ (h.add (hbound.2 ▸ hadd))

theorem parameters_bind (m : Method) (template operation : String) :
    Ensures I (parameters g m template operation) fun ps =>
      List.Forall₂ (Binds template operation) m.parameters ps ∧ WellBound template ps := by
  apply (parametersFrom_bind hI g template operation .nothing m.parameters).bind
  intro x hx
  obtain ⟨bound, taken⟩ := x
  dsimp only
  split
  · exact .fail
  · rename_i hall
    refine .pure ⟨hx.1, (hx.2 [] Taken.nothing_records).wellBound (fun b hb hpath => ?_) ?_⟩
    · obtain ⟨p, -, hbinds⟩ := mem_of_forall₂_right hx.1 hb
      exact ((Route.bind_eq_ok.mp hbinds.binding).2 hpath).1
    · simpa using hall

/-- An operation is put together from the method and its bound parameters. -/
theorem operationOf_realizes (combination : Combination) (context : Context) (m : Method)
    (verb : Verb) (tail : String) :
    Ensures I (operationOf g combination context m verb tail)
      (Realizes context m verb tail) := by
  rw [operationOf_eq]
  refine (Ensures.ofExcept fun _ h => checkPlacement_allows h).bind fun _ hplaced => ?_
  refine (parameters_bind hI g m _ _).bind fun ps hps => (returned_keeps hI g m _).seq ?_
  intro returns
  refine (remarks_keep hI g _ _ _).seq fun remarks => .pure ?_
  exact {
    controller := rfl
    method := rfl
    verb := rfl
    stem := rfl
    path := rfl
    placed := hplaced
    parameters := hps.1
    wellBound := hps.2 }

end

end Extraction

/-- The path parameters of an operation are the placeholders of its path, each once. It has at most
one body, and no field of a body beside one. -/
theorem Graph.contract_well_bound {g : Graph} {combination : Combination} {c : Contract}
    (h : g.contract combination = .ok c) : ∀ o ∈ c.operations, WellBound o.path o.parameters :=
  (Graph.contract_ensures Registry.grounded_invariant Registry.grounded_empty
    (fun combination context m verb tail =>
      (Extraction.operationOf_realizes Registry.grounded_invariant g combination context m verb
        tail).weaken fun _ ho => ho.wellBound) h).2

namespace Sample

def shelving : Graph where
  declarations := []
  controllers := [{ posting [] with
    methods := [⟨"shelve", [⟨.verb .post "/shelves/{shelf}/{ place }", .memory⟩],
      [parameter "where" (.keyword .number) (.path (some "place")),
        parameter "item" (.keyword .string) .body,
        unannotated "shelf" (.keyword .string)],
      some (.keyword .void), none, .memory⟩] }]

theorem shelving_well_bound : ∃ c o, shelving.contract .anyOf = .ok c ∧ o ∈ c.operations ∧
    pathWires o.parameters = ["place", "shelf"] ∧
    Route.placeholders o.path = ["shelf", "place"] ∧ WellBound o.path o.parameters := by
  have hcheck : ∃ c o, shelving.contract .anyOf = .ok c ∧ o ∈ c.operations ∧
      (decide (pathWires o.parameters = ["place", "shelf"]) &&
        decide (Route.placeholders o.path = ["shelf", "place"])) = true :=
    exists_operation (by decide +kernel)
  obtain ⟨c, o, hc, ho, hnames⟩ := hcheck
  rw [Bool.and_eq_true, decide_eq_true_eq, decide_eq_true_eq] at hnames
  exact ⟨c, o, hc, ho, hnames.1, hnames.2, Graph.contract_well_bound hc o ho⟩

end Sample

end RouteContract
