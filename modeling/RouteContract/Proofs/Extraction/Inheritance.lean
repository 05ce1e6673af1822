import RouteContract.Proofs.Extraction.Checks
import RouteContract.Proofs.Extraction.Contracts
import RouteContract.Proofs.Resolution.Bases
import RouteContract.Proofs.Samples

/-!
# Contracts that inheritance prevents

Extraction reports an inheritance cycle where the resolution of a type does that
stands in a controller, after all that was resolved before it. Nothing is being
collected when such a resolution starts.
-/

set_option autoImplicit false

namespace RouteContract

namespace Extraction

open Resolve

/-- The end of extraction depends on nothing but the registry. -/
theorem finish_spares (r : Registry) (operations : List Operation) {e : Stop} (he : e.Untimely) :
    Spares e (finish r operations) := by
  rintro f hf rfl
  obtain ⟨_, hdangling⟩ := finish_dangles r operations f hf
  rw [hdangling] at he
  cases he

section

variable {g : Graph} {o : Origin} {st : Situation} {e : Stop}

theorem fails_response {status : Status} {description : Option String} {type : Option TypeExpr} :
    Fails (response g o status description type) st e ↔
      ∃ t, type = some t ∧ Fails (g.resolveType t o) st e := by
  cases type with
  | none => exact iff_of_false fails_pure (by simp)
  | some t =>
    have h : Fails (response g o status description (some t)) st e ↔
        Fails (g.resolveType t o) st e := fails_bind_pure.trans fails_bind_pure
    simp [h]

theorem fails_addToContext {context : Context} {use : AnnotationUse} :
    Fails (addToContext g o context use) st e ↔ ∃ status description t,
      use.content = .response status description (some t) ∧
        Fails (g.resolveType t o) st e := by
  unfold addToContext
  cases use.content with
  | response status description type =>
    simp only [fails_bind_pure, fails_response]
    simp
  | _ => simp

theorem fails_add_remark {r : Remarks} {use : AnnotationUse} :
    Fails (r.add g o use) st e ↔ ∃ status description t,
      use.content = .response status description (some t) ∧
        Fails (g.resolveType t o) st e := by
  unfold Remarks.add
  cases use.content with
  | response status description type =>
    simp only [fails_bind_pure, fails_response]
    simp
  | _ => simp

theorem fails_boundParameter (he : e.Untimely) {p : Parameter} {b : Route.Binding} {operation : String} :
    Fails (boundParameter g p b operation) st e ↔ b.source.isValidated ∧
      ∃ t, p.type = some t ∧
        Fails (g.resolveType t.stripUndefined.1 ⟨operation, p.location⟩) st e := by
  unfold boundParameter
  cases hv : b.source.isValidated with
  | false => simp
  | true =>
    cases ht : p.type with
    | none => simpa using he.foreign.ne_fault (f := .missingType (.parameter ..) _) rfl
    | some t =>
      simp only [Bool.not_true, Bool.false_eq_true, if_false, fails_bind_pure, true_and,
        Option.some.injEq, exists_eq_left']
      exact fails_bind_pure

theorem gives_parametersFrom_cons {template operation : String} {taken taken' : Taken}
    {p : Parameter} {ps : List Parameter} {bounds : List BoundParameter} {st'' : Situation} :
    Gives (parametersFrom g template operation taken (p :: ps)) st (bounds, taken') st'' ↔
      ∃ b taken1 bound rest st', AnnotationUse.checkPlacement p.annotations .parameter = .ok () ∧
        Route.bind p template operation = .ok b ∧ taken.add p b operation = .ok taken1 ∧
        Gives (boundParameter g p b operation) st bound st' ∧
        Gives (parametersFrom g template operation taken1 ps) st' (rest, taken') st'' ∧
        bounds = bound :: rest := by
  rw [parametersFrom_cons]
  simp only [gives_ofExcept_bind]
  constructor
  · rintro ⟨_, hplaced, b, hb, taken1, ht, h⟩
    obtain ⟨bound, st', hbound, h⟩ := gives_bind.mp h
    obtain ⟨⟨rest, taken2⟩, st1, hrest, h⟩ := gives_bind.mp h
    obtain ⟨he, rfl⟩ := gives_pure.mp h
    cases he
    exact ⟨b, taken1, bound, rest, st', hplaced, hb, ht, hbound, hrest, rfl⟩
  · rintro ⟨b, taken1, bound, rest, st', hplaced, hb, ht, hbound, hrest, rfl⟩
    refine ⟨(), hplaced, b, hb, taken1, ht, gives_bind.mpr ⟨bound, st', hbound, ?_⟩⟩
    exact gives_bind.mpr ⟨(rest, taken'), st'', hrest, gives_pure.mpr ⟨rfl, rfl⟩⟩

theorem fails_parametersFrom_cons (he : e.Untimely) {template operation : String} {taken : Taken} {p : Parameter}
    {ps : List Parameter} :
    Fails (parametersFrom g template operation taken (p :: ps)) st e ↔
      ∃ b taken1, AnnotationUse.checkPlacement p.annotations .parameter = .ok () ∧
        Route.bind p template operation = .ok b ∧ taken.add p b operation = .ok taken1 ∧
        (Fails (boundParameter g p b operation) st e ∨ ∃ bound st',
          Gives (boundParameter g p b operation) st bound st' ∧
            Fails (parametersFrom g template operation taken1 ps) st' e) := by
  have hforeign := he.foreign
  rw [parametersFrom_cons,
    fails_ofExcept_bind ((AnnotationUse.checkPlacement_local _ _).spares hforeign)]
  simp only [fails_ofExcept_bind ((Route.bind_local p template operation).spares hforeign),
    fails_ofExcept_bind ((Taken.add_local _ p _ operation).spares hforeign)]
  have hrest : ∀ (bound : BoundParameter) (taken1 : Taken) (st' : Situation),
      Fails (parametersFrom g template operation taken1 ps >>= fun x =>
        return (bound :: x.1, x.2)) st' e ↔
      Fails (parametersFrom g template operation taken1 ps) st' e :=
    fun bound taken1 st' => fails_bind_pure
  constructor
  · rintro ⟨_, hplaced, b, hb, taken1, ht, h⟩
    refine ⟨b, taken1, hplaced, hb, ht, (fails_bind.mp h).imp id ?_⟩
    exact fun ⟨bound, st', hbound, h⟩ => ⟨bound, st', hbound, (hrest bound taken1 st').mp h⟩
  · rintro ⟨b, taken1, hplaced, hb, ht, h⟩
    refine ⟨(), hplaced, b, hb, taken1, ht, fails_bind.mpr (h.imp id ?_)⟩
    exact fun ⟨bound, st', hbound, h⟩ => ⟨bound, st', hbound, (hrest bound taken1 st').mpr h⟩

theorem fails_parametersFrom (he : e.Untimely) {template operation : String} {taken : Taken}
    {ps : List Parameter} :
    Fails (parametersFrom g template operation taken ps) st e ↔
      ∃ before p after bound taken' taken'' b st', ps = before ++ p :: after ∧
        Gives (parametersFrom g template operation taken before) st (bound, taken') st' ∧
        AnnotationUse.checkPlacement p.annotations .parameter = .ok () ∧
        Route.bind p template operation = .ok b ∧ taken'.add p b operation = .ok taken'' ∧
        Fails (boundParameter g p b operation) st' e := by
  induction ps generalizing taken st with
  | nil => simp [parametersFrom]
  | cons p ps ih =>
    rw [fails_parametersFrom_cons he]
    constructor
    · rintro ⟨b, taken1, hplaced, hb, ht, h | ⟨bound, st', hbound, h⟩⟩
      · exact ⟨[], p, ps, [], taken, taken1, b, st, rfl, gives_pure.mpr ⟨rfl, rfl⟩, hplaced, hb, ht, h⟩
      · obtain ⟨before, q, after, bounds, taken2, taken3, b', st1, rfl, hg, hrest⟩ := ih.mp h
        refine ⟨p :: before, q, after, bound :: bounds, taken2, taken3, b', st1, rfl, ?_, hrest⟩
        exact gives_parametersFrom_cons.mpr
          ⟨b, taken1, bound, bounds, st', hplaced, hb, ht, hbound, hg, rfl⟩
    · rintro ⟨before, q, after, bounds, taken2, taken3, b', st1, hps, hg, hplaced', hb', ht', h⟩
      cases before with
      | nil =>
        cases hps
        obtain ⟨hx, rfl⟩ := gives_pure.mp hg
        cases hx
        exact ⟨b', taken3, hplaced', hb', ht', .inl h⟩
      | cons x before =>
        cases hps
        obtain ⟨b, taken1, bound, rest, st', hplaced, hb, ht, hbound, hrest, -⟩ :=
          gives_parametersFrom_cons.mp hg
        exact ⟨b, taken1, hplaced, hb, ht, .inr ⟨bound, st', hbound, ih.mpr
          ⟨before, q, after, rest, taken2, taken3, b', st1, rfl, hrest, hplaced', hb', ht', h⟩⟩⟩

end

inductive MethodResolves (g : Graph) (context : Context) (m : Method) (template title : String)
    (st : Situation) : TypeExpr → Origin → Situation → Prop
  | parameter {before after : List Parameter} {p : Parameter} {bound : List BoundParameter}
      {taken taken' : Taken} {b : Route.Binding} {t : TypeExpr} {st' : Situation}
      (hp : m.parameters = before ++ p :: after)
      (hb : Gives (parametersFrom g template title .nothing before) st (bound, taken) st')
      (hplaced : AnnotationUse.checkPlacement p.annotations .parameter = .ok ())
      (hbind : Route.bind p template title = .ok b) (htaken : taken.add p b title = .ok taken')
      (hv : b.source.isValidated) (ht : p.type = some t) :
      MethodResolves g context m template title st t.stripUndefined.1 ⟨title, p.location⟩ st'
  | returns {ps : List BoundParameter} {t : TypeExpr} {st' : Situation}
      (hps : Gives (parameters g m template title) st ps st') (ht : m.returns = some t) :
      MethodResolves g context m template title st t ⟨title, m.location⟩ st'
  | response {ps : List BoundParameter} {returns : Option Schema}
      {before after : List AnnotationUse} {use : AnnotationUse} {remarks : Remarks}
      {status : Status} {description : Option String} {t : TypeExpr} {st1 st2 st' : Situation}
      (hps : Gives (parameters g m template title) st ps st1)
      (hr : Gives (returned g m title) st1 returns st2)
      (huse : m.annotations = before ++ use :: after)
      (hb : Gives (before.foldlM (Remarks.add g ⟨title, m.location⟩) (.start context)) st2 remarks
        st')
      (ht : use.content = .response status description (some t)) :
      MethodResolves g context m template title st t ⟨title, m.location⟩ st'

inductive Resolves (g : Graph) (combination : Combination) : TypeExpr → Origin → Situation → Prop
  | controller {before after : List Controller} {c : Controller} {operations : List Operation}
      {uses uses' : List AnnotationUse} {use : AnnotationUse} {context : Context} {status : Status}
      {description : Option String} {t : TypeExpr} {st st' : Situation}
      (hc : g.controllers = before ++ c :: after)
      (hb : Gives (before.foldlM (addController g combination) []) (.empty, []) operations st)
      (hplaced : AnnotationUse.checkPlacement c.annotations .controller = .ok ())
      (huse : c.annotations = uses ++ use :: uses')
      (hu : Gives (uses.foldlM (addToContext g ⟨c.id.text, c.location⟩)
        (Context.start combination c)) st context st')
      (ht : use.content = .response status description (some t)) :
      Resolves g combination t ⟨c.id.text, c.location⟩ st'
  | method {before after : List Controller} {c : Controller} {operations operations' : List Operation}
      {ms ms' : List Method} {m : Method} {context : Context} {verb : Verb} {tail : String}
      {t : TypeExpr} {o : Origin} {st st1 st2 st' : Situation}
      (hc : g.controllers = before ++ c :: after)
      (hb : Gives (before.foldlM (addController g combination) []) (.empty, []) operations st)
      (hcontext : Gives (contextOf g combination c) st context st1)
      (hm : c.methods = ms ++ m :: ms')
      (hms : Gives (ms.foldlM (addMethod g combination context) operations) st1 operations' st2)
      (hverb : verbOf context m = .ok (some (verb, tail)))
      (hplaced : AnnotationUse.checkPlacement m.annotations .method = .ok ())
      (ht : MethodResolves g context m (Route.join context.stem tail)
        (context.name ++ "." ++ m.name) st2 t o st') :
      Resolves g combination t o st'

section

variable {g : Graph} {combination : Combination} {context : Context} {m : Method} {st : Situation}
  {e : Stop}

theorem fails_parameters (he : e.Untimely) {template title : String} :
    Fails (parameters g m template title) st e ↔
      Fails (parametersFrom g template title .nothing m.parameters) st e := by
  unfold parameters
  rw [fails_bind, or_iff_left]
  rintro ⟨⟨bound, taken⟩, st', -, h⟩
  dsimp only at h
  split at h
  · exact not_fails_local he.foreign rfl st' h
  · exact fails_pure h

theorem fails_returned (he : e.Untimely) {title : String} :
    Fails (returned g m title) st e ↔ ∃ t, m.returns = some t ∧
      Fails (g.resolveType t ⟨title, m.location⟩) st e := by
  unfold returned
  cases m.returns with
  | none => simpa using he.foreign.ne_fault (f := .missingType (.returnType _) _) rfl
  | some t =>
    simp only [Option.some.injEq, exists_eq_left']
    exact fails_bind_pure

theorem fails_operationOf (he : e.Untimely) {verb : Verb} {tail : String} :
    Fails (operationOf g combination context m verb tail) st e ↔
      AnnotationUse.checkPlacement m.annotations .method = .ok () ∧ ∃ t o st',
        MethodResolves g context m (Route.join context.stem tail) (context.name ++ "." ++ m.name)
          st t o st' ∧ Fails (g.resolveType t o) st' e := by
  have hplacement : Spares e (AnnotationUse.checkPlacement m.annotations .method) :=
    (AnnotationUse.checkPlacement_local _ _).spares he.foreign
  rw [operationOf_eq, fails_ofExcept_bind hplacement]
  simp only [fails_bind, fails_pure, and_false, exists_false, or_false, fails_parameters he,
    fails_parametersFrom he, fails_returned he, fails_boundParameter he, fails_foldlM,
    fails_add_remark]
  constructor
  · rintro ⟨_, hplaced, h⟩
    refine ⟨hplaced, ?_⟩
    rcases h with ⟨before, p, after, bound, taken, taken', b, st', hp, hb, hpp, hbind, ht, hv, t,
      htype, h⟩ | ⟨ps, st1, hps, ⟨t, ht, h⟩ | ⟨returns, st2, hr, before, use, after, remarks, st',
      huse, hb, status, description, t, ht, h⟩⟩
    · exact ⟨_, _, st', .parameter hp hb hpp hbind ht hv htype, h⟩
    · exact ⟨t, _, st1, .returns hps ht, h⟩
    · exact ⟨t, _, st', .response hps hr huse hb ht, h⟩
  · rintro ⟨hplaced, t, o, st', hm, h⟩
    refine ⟨(), hplaced, ?_⟩
    cases hm with
    | parameter hp hb hpp hbind htaken hv ht =>
      exact .inl ⟨_, _, _, _, _, _, _, st', hp, hb, hpp, hbind, htaken, hv, _, ht, h⟩
    | returns hps ht => exact .inr ⟨_, st', hps, .inl ⟨t, ht, h⟩⟩
    | response hps hr huse hb ht =>
      exact .inr ⟨_, _, hps, .inr ⟨_, _, hr, _, _, _, _, st', huse, hb, _, _, t, ht, h⟩⟩

theorem fails_addMethod (he : e.Untimely) {operations : List Operation} :
    Fails (addMethod g combination context operations m) st e ↔ ∃ verb tail,
      verbOf context m = .ok (some (verb, tail)) ∧
        Fails (operationOf g combination context m verb tail) st e := by
  unfold addMethod
  have hforeign := he.foreign
  rw [fails_ofExcept_bind ((verbOf_local context m).spares hforeign)]
  constructor
  · rintro ⟨v, hv, h⟩
    cases v with
    | none => exact absurd h fails_pure
    | some v =>
      obtain ⟨verb, tail⟩ := v
      rcases fails_bind.mp h with h | ⟨o, st', -, h⟩
      · exact ⟨verb, tail, hv, h⟩
      · exact absurd h (not_fails_ofExcept
          ((addOperation_local operations o).spares hforeign) st')
  · rintro ⟨verb, tail, hv, h⟩
    exact ⟨some (verb, tail), hv, fails_bind.mpr (.inl h)⟩

theorem fails_contextOf (he : e.Untimely) {c : Controller} :
    Fails (contextOf g combination c) st e ↔
      AnnotationUse.checkPlacement c.annotations .controller = .ok () ∧
        ∃ before use after context st', c.annotations = before ++ use :: after ∧
          Gives (before.foldlM (addToContext g ⟨c.id.text, c.location⟩)
            (Context.start combination c)) st context st' ∧
          ∃ status description t, use.content = .response status description (some t) ∧
            Fails (g.resolveType t ⟨c.id.text, c.location⟩) st' e := by
  have hplacement : Spares e
      (AnnotationUse.checkPlacement c.annotations .controller) :=
    (AnnotationUse.checkPlacement_local _ _).spares he.foreign
  rw [contextOf_eq, fails_ofExcept_bind hplacement]
  simp only [fails_foldlM, fails_addToContext]
  exact ⟨fun ⟨_, h⟩ => h, fun h => ⟨(), h⟩⟩

/-- Extraction stops untimely where resolution does. -/
theorem fails_extract (he : e.Untimely) :
    Fails (extract g combination) (.empty, []) e ↔ ∃ t o st,
      Resolves g combination t o st ∧ Fails (g.resolveType t o) st e := by
  have hcontrollers : Fails (extract g combination) (.empty, []) e ↔
      Fails (g.controllers.foldlM (addController g combination) []) (.empty, [])
        e := by
    unfold extract
    rw [fails_bind, or_iff_left]
    rintro ⟨operations, st', -, h⟩
    rcases fails_bind.mp h with h | ⟨r, st'', -, h⟩
    · exact fails_registry h
    · exact not_fails_ofExcept (finish_spares r operations he) st'' h
  rw [hcontrollers, fails_foldlM]
  simp only [addController, fails_bind, fails_contextOf he, fails_foldlM, fails_addMethod he,
    fails_operationOf he]
  constructor
  · rintro ⟨before, c, after, operations, st, hc, hb, h⟩
    rcases h with ⟨hplaced, uses, use, uses', context, st', huse, hu, status, description, t, ht, h⟩ |
      ⟨context, st1, hcontext, ms, m, ms', operations', st2, hm, hms, verb, tail, hverb, hplaced, t,
        o, st', hresolves, h⟩
    · exact ⟨t, _, st', .controller hc hb hplaced huse hu ht, h⟩
    · exact ⟨t, o, st', .method hc hb hcontext hm hms hverb hplaced hresolves, h⟩
  · rintro ⟨t, o, st', hresolves, h⟩
    cases hresolves with
    | controller hc hb hplaced huse hu ht =>
      exact ⟨_, _, _, _, _, hc, hb, .inl ⟨hplaced, _, _, _, _, st', huse, hu, _, _, t, ht, h⟩⟩
    | method hc hb hcontext hm hms hverb hplaced ht =>
      exact ⟨_, _, _, _, _, hc, hb, .inr ⟨_, _, hcontext, _, _, _, _, _, hm, hms, _, _, hverb,
        hplaced, t, o, st', ht, h⟩⟩

theorem bound_trivially (g : Graph) (p : Parameter) (b : Route.Binding) (operation : String) :
    Ensures (fun _ => True) (boundParameter g p b operation) fun _ => True :=
  (boundParameter_described trivial_invariant g p b operation).weaken fun _ _ => trivial

theorem MethodResolves.restores {template title : String} {t : TypeExpr} {o : Origin}
    {st' : Situation} (h : MethodResolves g context m template title st t o st') :
    st'.2 = st.2 := by
  have hparameters := parameters_ensure g (bound_trivially g) m template title
  cases h with
  | parameter _ hb =>
    exact (parametersFrom_ensure g (bound_trivially g) template title .nothing _).restores hb
  | returns hps => exact hparameters.restores hps
  | response hps hr _ hb =>
    have hremarks := foldlM_restores (add_remark_keeps trivial_invariant g _) hb
    have hreturned := (returned_keeps trivial_invariant g m title).restores hr
    rw [hremarks, hreturned, hparameters.restores hps]

/-- Nothing is being collected where extraction asks for a type. -/
theorem Resolves.restores {t : TypeExpr} {o : Origin} (h : Resolves g combination t o st) :
    st.2 = [] := by
  have hoperation : ∀ combination context m verb tail, Ensures (fun _ => True)
      (operationOf g combination context m verb tail) fun _ => True :=
    fun combination context m verb tail =>
      (operationOf_ensures trivial_invariant g (bound_trivially g) combination context m verb
        tail).weaken fun _ _ => trivial
  have hmethod : ∀ context os m, Ensures (fun _ => True)
      (addMethod g combination context os m) fun _ => True := fun context os m =>
    (addMethod_ensures g hoperation combination context m fun _ _ => trivial).weaken
      fun _ _ => trivial
  have hcontroller : ∀ os c, Ensures (fun _ => True)
      (addController g combination os c) fun _ => True := fun os c =>
    (addController_ensures trivial_invariant g hoperation combination c
      fun _ _ => trivial).weaken fun _ _ => trivial
  cases h with
  | controller hc hb hplaced huse hu ht =>
    have hbefore := foldlM_restores hcontroller hb
    have hcontext := foldlM_restores (addToContext_keeps trivial_invariant g _) hu
    rw [hcontext, hbefore]
  | method hc hb hcontext hm hms hverb hplaced ht =>
    have hbefore := foldlM_restores hcontroller hb
    have hcontext := (contextOf_keeps trivial_invariant g combination _).restores hcontext
    have hmethods := foldlM_restores (hmethod _) hms
    rw [ht.restores, hmethods, hcontext, hbefore]

end

end Extraction

open Resolve Extraction

theorem Graph.contract_not_exhausted (g : Graph) (combination : Combination) :
    g.contract combination ≠ .error .exhausted := by
  intro h
  have hextract : Fails (extract g combination) (.empty, []) .exhausted := h
  obtain ⟨t, o, st, -, hfails⟩ := (fails_extract .exhausted).mp hextract
  exact g.resolveType_not_exhausted t o st hfails

/-- Where no declaration inherits from itself, a resolution reports an inheritance cycle exactly
when the type of a property leads back, by any number of nested steps, to a declaration whose
members are being collected, or when an earlier run that failed left such a declaration. Extraction
does exactly when that happens to a type it asks for. -/
theorem Graph.inheritance_cycle_iff (g : Graph) (hacyclic : ∀ a, ¬ Relation.TransGen g.Inherits a a) :
    (∀ t o st cycle, Fails (g.resolveType t o) st (.looping cycle) ↔
      ∃ n, Resumes g n (.type t o) st cycle ∨ LeadsBack g n (.type t o) st cycle) ∧
    ∀ combination cycle, g.contract combination = .error (.looping cycle) ↔ ∃ t o r n,
      Resolves g combination t o (r, []) ∧ LeadsBack g n (.type t o) (r, []) cycle := by
  have hresolve : ∀ t o st cycle, Fails (g.resolveType t o) st (.looping cycle) ↔
      ∃ n, Resumes g n (.type t o) st cycle ∨ LeadsBack g n (.type t o) st cycle := by
    intro t o st cycle
    have hfault : Stop.looping cycle ≠ .exhausted := fun h => by cases h
    rw [Graph.fails_resolveType_iff hfault]
    refine exists_congr fun n => ?_
    have hfails : (Task.type t o).Fails g n st (.looping cycle) ↔
        Reenters g n (.type t o) st cycle := Task.fails_iff
    exact hfails.trans (reenters_iff hacyclic trivial)
  refine ⟨hresolve, fun combination cycle => ?_⟩
  have hcontract : g.contract combination = .error (.looping cycle) ↔
      Fails (extract g combination) (.empty, []) (.looping cycle) := Iff.rfl
  rw [hcontract, fails_extract (.looping cycle)]
  constructor
  · rintro ⟨t, o, ⟨r, ids⟩, hasked, h⟩
    obtain rfl : ids = [] := hasked.restores
    obtain ⟨n, h⟩ := (hresolve t o (r, []) cycle).mp h
    refine ⟨t, o, r, n, hasked, h.resolve_left ?_⟩
    rintro ⟨ids, d, -, hmem, -⟩
    cases hmem
  · rintro ⟨t, o, r, n, hasked, h⟩
    exact ⟨t, o, (r, []), hasked, (hresolve t o (r, []) cycle).mpr ⟨n, .inr h⟩⟩

namespace Sample

def described : Graph where
  declarations := [interface "A" [] [property "b" (.named "B")], interface "B" ["A"] []]
  controllers := [posting [parameter "p" (.named "A") .body]]

theorem described_inherits {a b : DeclId} (h : described.Inherits a b) :
    a = ⟨"m", "B"⟩ ∧ b = ⟨"m", "A"⟩ := by
  obtain ⟨d, hd, rfl, base, hbase, found, hfound, rfl⟩ := h
  simp only [described, List.mem_cons, List.not_mem_nil, or_false] at hd
  rcases hd with rfl | rfl
  · cases hbase
  · obtain rfl := List.mem_singleton.mp hbase
    cases hfound
    exact ⟨rfl, rfl⟩

theorem described_acyclic (a : DeclId) : ¬ Relation.TransGen described.Inherits a a := by
  intro h
  obtain ⟨b, hfirst, -⟩ := Relation.TransGen.head'_iff.mp h
  obtain ⟨c, -, hlast⟩ := Relation.TransGen.tail'_iff.mp h
  have hB : a = ⟨"m", "B"⟩ := (described_inherits hfirst).1
  have hA : a = ⟨"m", "A"⟩ := (described_inherits hlast).2
  rw [hB] at hA
  exact absurd hA (by decide)

set_option maxRecDepth 4000 in
theorem described_contract :
    described.contract .anyOf = .error (.looping ["m::A", "m::B", "m::A"]) := rfl

set_option maxRecDepth 4000 in
/-- The property of `A` is resolved while `A` is being collected, and asks for `B`, which extends
`A`. -/
theorem descendant_property_cycles :
    (∀ a, ¬ Relation.TransGen described.Inherits a a) ∧
      Fails (described.resolveType (.named "A") ⟨"m", .memory⟩) (.empty, [])
        (.looping ["m::A", "m::B", "m::A"]) ∧
      described.contract .anyOf = .error (.looping ["m::A", "m::B", "m::A"]) :=
  ⟨described_acyclic, rfl, described_contract⟩

theorem descendant_property_leads_back : ∃ t o r n,
    Resolves described .anyOf t o (r, []) ∧
      LeadsBack described n (.type t o) (r, []) ["m::A", "m::B", "m::A"] :=
  ((described.inheritance_cycle_iff described_acyclic).2 .anyOf _).mp described_contract

end Sample

end RouteContract
