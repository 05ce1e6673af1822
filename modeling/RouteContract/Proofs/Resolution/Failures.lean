import RouteContract.Proofs.Resolution.Denoting
import RouteContract.Proofs.Resolution.Termination
import RouteContract.Proofs.Samples

/-!
# What a failed resolution leaves behind

Nothing changes until a type asks for an instance that is not registered. Then
its name is claimed and its body is resolved, and a failure from there on takes
nothing back. Whether it comes to that can be read off the type and the registry.
-/

set_option autoImplicit false

namespace RouteContract

namespace Resolve

/-- How the resolution of a type begins: it ends or fails with nothing changed, or it claims the name
of an instance. -/
inductive Opening where
  | done
  | fault (f : Fault)
  | claims (i : Instance)

namespace Opening

def andThen : Opening → Opening → Opening
  | done, next => next
  | first, _ => first

@[simp] theorem done_andThen (op : Opening) : done.andThen op = op := rfl

@[simp] theorem andThen_done (op : Opening) : op.andThen done = op := by
  cases op with
  | _ => rfl

def check {α : Type} : Except Fault α → (α → Opening) → Opening
  | .error f, _ => fault f
  | .ok a, next => next a

def instanceOf (g : Graph) (r : Registry) (i : Instance) : Opening :=
  match g.declaration? i.id with
  | none => fault (.unresolved i.id.name i.id.text .memory)
  | some d =>
    if d.params.length ≠ i.args.length then fault (.arity d.id.text d.params.length i.args.length)
    else check (r.reserve i.name i) fun reservation => match reservation with
      | .existing => done
      | .fresh _ => claims i

def named (g : Graph) (r : Registry) (ref : TypeRef TypeExpr) (o : Origin) : Opening :=
  check (g.lookup ref o) fun d => check (d.instantiate g ref.args o) (instanceOf g r)

end Opening

mutual

def opening (g : Graph) (r : Registry) (o : Origin) : TypeExpr → Opening
  | .keyword k =>
    match k.primitive? with
    | some _ => .done
    | none => .fault (.unsupportedConstruct o.declaration .symbol o.location)
  | .literal _ => .done
  | .array t => opening g r o t
  | .union ts => openingAll g r o ts
  | .intersection ts => openingAll g r o ts
  | .object ⟨ps, is⟩ => (openingProperties g r o ps).andThen (openingIndex g r o is)
  | .ref ⟨name, module, args⟩ =>
    match (⟨name, module, args⟩ : TypeRef TypeExpr).builtin? with
    | none => .named g r ⟨name, module, args⟩ o
    | some (.primitive _) => .done
    | some .array => openingElement g r o name args
    | some .promise => openingElement g r o name args
    | some .record => openingRecord g r o name args
    | some .unsupported =>
      .fault (.unsupportedConstruct o.declaration (.utilityType name) o.location)
  | .param name => .fault (.unboundParameter name o.declaration)
  | .unsupported c => .fault (.unsupportedConstruct o.declaration (.kind c) o.location)

def openingAll (g : Graph) (r : Registry) (o : Origin) : List TypeExpr → Opening
  | [] => .done
  | t :: ts => (opening g r o t).andThen (openingAll g r o ts)

def openingProperties (g : Graph) (r : Registry) (o : Origin) : List (Property TypeExpr) → Opening
  | [] => .done
  | ⟨_, t, _, _, _, _⟩ :: ps => (opening g r o t).andThen (openingProperties g r o ps)

def openingIndex (g : Graph) (r : Registry) (o : Origin) : List (IndexSignature TypeExpr) → Opening
  | [] => .done
  | [⟨_, key, value⟩] =>
    if !key.same (.keyword .string) then
      .fault (.unsupportedConstruct o.declaration (.indexKey key) o.location)
    else opening g r o value
  | _ :: _ :: _ => .fault (.unsupportedConstruct o.declaration .severalIndexSignatures o.location)

def openingElement (g : Graph) (r : Registry) (o : Origin) (name : String) :
    List TypeExpr → Opening
  | [t] => opening g r o t
  | ts => .fault (.arity name 1 ts.length)

def openingRecord (g : Graph) (r : Registry) (o : Origin) (name : String) :
    List TypeExpr → Opening
  | [key, value] =>
    if !key.same (.keyword .string) then
      .fault (.unsupportedConstruct o.declaration (.indexKey key) o.location)
    else opening g r o value
  | ts => .fault (.arity name 2 ts.length)

end

def Opening.Describes {α : Type} (st : Situation) : Opening → Except Stop α × Situation → Prop
  | done, x => ∃ a, x = (.ok a, st)
  | fault f, x => x = (.error (.fault f), st)
  | claims i, x => st.1.entries.find? i.name = none ∧ HoldsFor i.name i x.2.1

structure Opens {α : Type} (op : Opening) (st : Situation) (m : Resolve α) : Prop where
  keeps : ∀ name owner, Ensures (HoldsFor name owner) m fun _ => True
  goes : Fails m st .exhausted ∨ op.Describes st (outcome m st)

namespace Opens

variable {α β : Type} {op op' : Opening} {st : Situation}

theorem pure (a : α) : Opens .done st (Pure.pure a : Resolve α) :=
  ⟨fun _ _ => .pure trivial, .inr ⟨a, rfl⟩⟩

theorem fail (f : Fault) : Opens (.fault f) st (Resolve.fail f : Resolve α) :=
  ⟨fun _ _ => .fail, .inr rfl⟩

theorem cut : Opens op st (throw .exhausted : Resolve α) :=
  ⟨fun _ _ => .throw, .inl (fails_throw.mpr rfl)⟩

theorem bind {m : Resolve α} {f : α → Resolve β} (hm : Opens op st m)
    (hf : ∀ a, Opens op' st (f a)) : Opens (op.andThen op') st (m >>= f) := by
  refine ⟨fun name owner => (hm.keeps name owner).seq fun a => (hf a).keeps name owner, ?_⟩
  rcases hm.goes with hcut | hgoes
  · exact .inl (fails_bind.mpr (.inl hcut))
  cases op with
  | done =>
    obtain ⟨a, ha⟩ := hgoes
    rcases (hf a).goes with hcut | hgoes
    · exact .inl (fails_bind.mpr (.inr ⟨a, st, ha, hcut⟩))
    · refine .inr ?_
      rw [outcome_bind, ha]
      exact hgoes
  | fault e =>
    refine .inr ?_
    rw [outcome_bind, show outcome m st = _ from hgoes]
    rfl
  | claims i =>
    obtain ⟨hfree, hheld⟩ := hgoes
    refine .inr ⟨hfree, ?_⟩
    rw [outcome_bind]
    rcases houtcome : outcome m st with ⟨e | a, st'⟩
    · rw [houtcome] at hheld
      exact hheld
    · rw [houtcome] at hheld
      exact ((hf a).keeps i.name i st' hheld).1

/-- A part whose result is only passed on. -/
theorem map {m : Resolve α} (hm : Opens op st m) (f : α → β) :
    Opens op st (m >>= fun a => return f a) := by
  rw [← op.andThen_done]
  exact hm.bind fun a => .pure (f a)

theorem check_bind {x : Except Fault α} {next : α → Opening} {f : α → Resolve β}
    (hf : ∀ a, Opens (next a) st (f a)) : Opens (.check x next) st (ofExcept x >>= f) := by
  cases x with
  | error e => exact .fail e
  | ok a => exact hf a

/-- A claimed name stays with its owner, also if the body fails. -/
theorem create {i : Instance} {build : Resolve (Schema × Option String)}
    (hbuild : ∀ name owner, Ensures (HoldsFor name owner) build fun x => x.1.isGround) :
    Opens (.check (st.1.reserve i.name i) fun reservation => match reservation with
      | .existing => .done
      | .fresh _ => .claims i) st (Registry.getOrCreate .fault i.name i build) := by
  refine ⟨fun name owner => .getOrCreate (holdsFor_invariant name owner) (hbuild name owner), .inr ?_⟩
  rw [outcome_getOrCreate]
  cases hr : st.1.reserve i.name i with
  | error f => rfl
  | ok reservation =>
    cases reservation with
    | existing => exact ⟨_, rfl⟩
    | fresh r =>
      obtain ⟨hfree, rfl⟩ := Registry.reserve_eq_fresh.mp hr
      have hclaimed : HoldsFor i.name i (st.1.claim i.name i) :=
        ⟨.pending, by rw [Registry.claim_find? hfree, if_pos rfl]⟩
      obtain ⟨hheld, hgives⟩ := hbuild i.name i (st.1.claim i.name i, st.2) hclaimed
      refine ⟨hfree, ?_⟩
      rcases hrun : outcome build (st.1.claim i.name i, st.2) with
        ⟨e | ⟨schema, description⟩, st'⟩
      · rw [hrun] at hheld
        simp only [hrun]
        exact hheld
      · rw [hrun] at hheld
        simp only [hrun]
        exact (holdsFor_invariant i.name i).define hheld (hgives _ st' hrun).1

end Opens

section

variable {g : Graph} {o : Origin} {st : Situation}
  {type : TypeExpr → Origin → Resolve Schema}
  {members : Declaration → List TypeExpr → ObjectSchema Schema → Resolve (ObjectSchema Schema)}

theorem opening_undefined {r : Registry} {t : TypeExpr} (h : t.isUndefined) :
    opening g r o t = .done := by
  unfold TypeExpr.isUndefined at h
  split at h
  · rfl
  · rfl
  · cases h

/-- Members that are left out change nothing. -/
theorem openingAll_filter (r : Registry) (ts : List TypeExpr) :
    openingAll g r o (ts.filter (!·.isUndefined)) = openingAll g r o ts := by
  induction ts with
  | nil => rfl
  | cons t ts ih =>
    rw [List.filter_cons]
    by_cases ht : t.isUndefined
    · simp [ht, openingAll, opening_undefined ht, ih]
    · simp [ht, openingAll, ih]

theorem opening_stripUndefined (r : Registry) (t : TypeExpr) :
    opening g r o t.stripUndefined.1 = opening g r o t := by
  cases t with
  | union members =>
    have hfilter := openingAll_filter (g := g) (o := o) r members
    unfold TypeExpr.stripUndefined
    dsimp only
    split
    · rfl
    · rename_i t rest hkept
      split
      · rfl
      · rw [hkept] at hfilter
        split
        · rename_i hrest
          rw [List.isEmpty_iff.mp hrest] at hfilter
          simpa [opening, openingAll] using hfilter
        · simpa only [opening] using hfilter
  | _ => rfl

theorem opens_all {ts : List TypeExpr} (ht : ∀ t st, Opens (opening g st.1 o t) st (type t o)) :
    Opens (openingAll g st.1 o ts) st (all type o ts) := by
  induction ts with
  | nil => exact .pure []
  | cons t ts ih => exact (ht t st).bind fun s => ih.map _

theorem opens_properties {table : Entries String (PropertySchema Schema)}
    {ps : List (Property TypeExpr)} (ht : ∀ t st, Opens (opening g st.1 o t) st (type t o)) :
    Opens (openingProperties g st.1 o ps) st (properties type o table ps) := by
  induction ps generalizing table with
  | nil => exact .pure table
  | cons p ps ih =>
    have hp : Opens (opening g st.1 o p.type) st (property type p o) := by
      rw [← opening_stripUndefined]
      exact (ht _ st).map _
    exact hp.bind fun schema => ih

theorem opens_additional {index : List (IndexSignature TypeExpr)}
    (ht : ∀ t st, Opens (opening g st.1 o t) st (type t o)) :
    Opens (openingIndex g st.1 o index) st (additional type index o) := by
  match index with
  | [] => exact .pure _
  | [⟨_, key, value⟩] =>
    unfold additional openingIndex
    dsimp only
    split
    · exact .fail _
    · split
      · exact .pure _
      · exact .pure _
      · exact (ht value st).map _
  | _ :: _ :: _ => exact .fail _

theorem opens_builtin {b : Builtin} {r : TypeRef TypeExpr} (hb : r.builtin? = some b)
    (ht : ∀ t st, Opens (opening g st.1 o t) st (type t o)) :
    Opens (opening g st.1 o (.ref r)) st (builtin type b r o) := by
  obtain ⟨name, module, args⟩ := r
  simp only [opening, hb]
  cases b with
  | primitive kind => exact .pure _
  | array =>
    match args with
    | [] => exact .fail _
    | [t] => exact (ht t st).map _
    | _ :: _ :: _ => exact .fail _
  | promise =>
    match args with
    | [] => exact .fail _
    | [t] => exact ht t st
    | _ :: _ :: _ => exact .fail _
  | record =>
    match args with
    | [] => exact .fail _
    | [_] => exact .fail _
    | [key, value] =>
      have hindex : Opens (openingIndex g st.1 o [⟨"key", key, value⟩]) st
          (additional type [⟨"key", key, value⟩] o) := opens_additional ht
      exact hindex.map _
    | _ :: _ :: _ :: _ => exact .fail _
  | unsupported => exact .fail _

theorem opens_instanceOf {i : Instance}
    (hm : ∀ name owner, MembersKeep (HoldsFor name owner) members) :
    Opens (.instanceOf g st.1 i) st (instanceOf members g i) := by
  unfold instanceOf Opening.instanceOf
  cases hd : g.declaration? i.id with
  | none => exact .fail _
  | some d =>
    have hname : TypeExpr.canonicalName d.id.name i.args = i.name := by
      rw [Graph.declaration?_id hd]
      rfl
    dsimp only
    rw [hname]
    by_cases harity : d.params.length = i.args.length
    · rw [if_neg (not_not.mpr harity), if_neg (not_not.mpr harity)]
      exact .create fun name owner => body_ground (hm name owner) d i.args
    · rw [if_pos harity, if_pos harity]
      exact .fail _

theorem opens_named {r : TypeRef TypeExpr} (hr : r.builtin? = none)
    (hm : ∀ name owner, MembersKeep (HoldsFor name owner) members) :
    Opens (opening g st.1 o (.ref r)) st (refOf type members g r o) := by
  obtain ⟨name, module, args⟩ := r
  simp only [opening, refOf, hr]
  exact .check_bind fun d => .check_bind fun i => opens_instanceOf hm

/-- Objects are merged with a look at the registry only. -/
theorem opens_merge {ts : List TypeExpr} {op : Opening} (h : Opens op st (all type o ts)) :
    Opens op st (intersectionOf type ts o) := by
  rw [← op.andThen_done]
  refine h.bind fun ss => ⟨fun name owner => Ensures.registry.seq fun r => ?_, .inr ?_⟩
  · split
    · exact .pure trivial
    · exact .pure trivial
  · rw [outcome_bind, show outcome registry st = (.ok st.1, st) from rfl]
    dsimp only
    split
    · exact ⟨_, rfl⟩
    · exact ⟨_, rfl⟩

/-- Resolution begins as its opening says. -/
theorem opens_within (g : Graph) (n : Nat) (t : TypeExpr) (o : Origin) (st : Situation) :
    Opens (opening g st.1 o t) st (typeWithin g n t o) := by
  induction n generalizing t st with
  | zero => exact .cut
  | succ n ih =>
    cases t with
    | keyword k =>
      simp only [typeWithin, opening]
      cases k.primitive? with
      | some kind => exact .pure _
      | none => exact .fail _
    | literal l => exact .pure _
    | array t => exact (ih t st).map _
    | union ts =>
      show Opens (openingAll g st.1 o ts) st (unionOf (typeWithin g n) ts o)
      rw [← openingAll_filter]
      exact (opens_all ih).map _
    | intersection ts => exact opens_merge (opens_all ih)
    | object shape =>
      exact (opens_properties ih).bind fun ps => (opens_additional ih).map _
    | ref r =>
      cases hr : r.builtin? with
      | some b =>
        simp only [typeWithin, refOf, hr]
        exact opens_builtin hr ih
      | none =>
        exact opens_named hr fun name owner => (within_keeps (holdsFor_invariant name owner) g n).2
    | param name => exact .fail _
    | unsupported c => exact .fail _

end

/-- Entries are kept and gain definitions at most. -/
theorem below_invariant (r : Registry) : Registry.Invariant r.Below where
  reserve := by
    intro r₁ r₂ name owner h hr
    obtain ⟨hfree, rfl⟩ := Registry.reserve_eq_fresh.mp hr
    exact Registry.Below.trans h (Registry.claim_below hfree)
  define := by
    intro r₁ name schema description h _
    rcases hp : r₁.entries.find? name with _ | ⟨owner, _ | ⟨s, d⟩⟩
    · rwa [show r₁.define name schema description = r₁ by simp only [Registry.define, hp]]
    · exact Registry.Below.trans h (Registry.define_below hp)
    · rwa [show r₁.define name schema description = r₁ by simp only [Registry.define, hp]]

end Resolve

open Resolve

/-- A failed resolution leaves no trace, so that the same type fails again and any other type
resolves as before, exactly if its opening is the fault. Otherwise it has claimed the name of the
first instance that it asked for and that was not registered. In no case is an entry lost. -/
theorem Graph.failure_traceless_iff (g : Graph) (t : TypeExpr) (o : Origin) (st st' : Situation)
    (f : Fault) (h : outcome (g.resolveType t o) st = (.error (.fault f), st')) :
    (opening g st.1 o t = .fault f ↔ st' = st ∧ Fails (g.resolveType t o) st' (.fault f) ∧
      ∀ u o', outcome (g.resolveType u o') st' = outcome (g.resolveType u o') st) ∧
    (opening g st.1 o t ≠ .fault f → ∃ i, opening g st.1 o t = .claims i ∧
      st.1.entries.find? i.name = none ∧ HoldsFor i.name i st'.1) ∧
    st.1.Below st'.1 := by
  have hbelow : st.1.Below (outcome (g.resolveType t o) st).2.1 :=
    (resolveType_keeps (below_invariant st.1) g t o st (Registry.Below.refl st.1)).1
  rw [h] at hbelow
  obtain ⟨n, hn⟩ := g.exists_resolveType_eq t o
  have hopens := (opens_within g n t o st).goes
  rw [Fails, ← hn n (Nat.le_refl n), h] at hopens
  rcases hopens with hcut | hgoes
  · cases hcut
  · cases hop : opening g st.1 o t with
    | done =>
      rw [hop] at hgoes
      obtain ⟨s, hs⟩ := hgoes
      cases hs
    | fault f' =>
      rw [hop] at hgoes
      cases hgoes
      refine ⟨?_, fun hne => absurd rfl hne, hbelow⟩
      exact iff_of_true rfl ⟨rfl, congrArg Prod.fst h, fun _ _ => rfl⟩
    | claims i =>
      rw [hop] at hgoes
      obtain ⟨hfree, hheld⟩ := hgoes
      refine ⟨iff_of_false (fun hop => by cases hop) ?_, fun _ => ⟨i, rfl, hfree, hheld⟩, hbelow⟩
      rintro ⟨rfl, -⟩
      obtain ⟨slot, hslot⟩ := hheld
      rw [hfree] at hslot
      cases hslot

namespace Sample

def unfinished : Graph where
  declarations := [interface "A" [] [property "x" (.named "Missing")]]
  controllers := []

def leftover : Situation := (Registry.claim .empty "A" ⟨⟨"m", "A"⟩, []⟩, [⟨"m", "A"⟩])

theorem leftover_existing : leftover.1.reserve "A" ⟨⟨"m", "A"⟩, []⟩ = .ok .existing :=
  Registry.reserve_eq_existing.mpr ⟨_, rfl, by simp [Instance.same, TypeExpr.sameAll]⟩

/-- The second resolution takes what the first one has left for a definition. -/
theorem failure_leaves_claim :
    outcome (unfinished.resolveType (.named "A") ⟨"m", .memory⟩) (.empty, []) =
      (.error (.fault (.unresolved "Missing" "m::A" .memory)), leftover) ∧
    leftover ≠ (.empty, []) ∧
    Gives (unfinished.resolveType (.named "A") ⟨"m", .memory⟩) leftover (.reference "A")
      leftover := by
  refine ⟨rfl, nofun, ?_⟩
  obtain ⟨n, hn⟩ := unfinished.exists_resolveType_eq (.named "A") ⟨"m", .memory⟩
  rw [hn (n + 1) (Nat.le_succ n)]
  show outcome (Registry.getOrCreate .fault "A" ⟨⟨"m", "A"⟩, []⟩ _) leftover = _
  rw [outcome_getOrCreate, leftover_existing]

/-- `A` is claimed before its property is looked at, the unknown type itself leaves nothing. -/
theorem failure_traces :
    (∃ i, opening unfinished .empty ⟨"m", .memory⟩ (.named "A") = .claims i ∧
      HoldsFor i.name i leftover.1) ∧
    opening unfinished .empty ⟨"m", .memory⟩ (.named "Missing") =
      .fault (.unresolved "Missing" "m" .memory) := by
  constructor
  · have hfailure := unfinished.failure_traceless_iff (.named "A") ⟨"m", .memory⟩ (.empty, [])
      leftover (.unresolved "Missing" "m::A" .memory) rfl
    obtain ⟨i, hi, -, hheld⟩ := hfailure.2.1 nofun
    exact ⟨i, hi, hheld⟩
  · have hfailure := unfinished.failure_traceless_iff (.named "Missing") ⟨"m", .memory⟩
      (.empty, []) (.empty, []) (.unresolved "Missing" "m" .memory) rfl
    exact hfailure.1.mpr ⟨rfl, rfl, fun _ _ => rfl⟩

end Sample

end RouteContract
