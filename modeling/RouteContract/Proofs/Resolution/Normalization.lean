import RouteContract.Resolution

/-!
# Normalization of type arguments

Normalization of a type succeeds or fails part by part. Where the type is written
matters for the fault only. The arguments of an instance are the written ones and
then the defaults, each of them normalized.
-/

set_option autoImplicit false

namespace RouteContract

def Graph.Binds (g : Graph) (name module : String) : Prop :=
  Builtin.ofName? name = none ∧ ∃ d, g.named name = [d] ∧ d.id.module = module

theorem Graph.Binds.unique {g : Graph} {name m m' : String} (h : g.Binds name m)
    (h' : g.Binds name m') : m = m' := by
  obtain ⟨-, d, hd, rfl⟩ := h
  obtain ⟨-, d', hd', rfl⟩ := h'
  rw [hd] at hd'
  cases hd'
  rfl

namespace Graph

inductive BoundTo (g : Graph) (name : String) : Option String → Option String → Prop
  | written (module : String) : BoundTo g name (some module) (some module)
  | builtin (h : (Builtin.ofName? name).isSome) : BoundTo g name none none
  | found {module : String} (h : g.Binds name module) : BoundTo g name none (some module)

variable {g : Graph} {o o' : Origin}

theorem lookup_mem {r : TypeRef TypeExpr} {d : Declaration} (h : g.lookup r o = .ok d) :
    d ∈ g.declarations := by
  unfold lookup at h
  split at h
  · split at h
    · rename_i found hfound
      cases h
      exact List.mem_of_find?_eq_some hfound
    · cases h
  · split at h
    · cases h
    · rename_i found hfound
      cases h
      have hmem : d ∈ g.named r.name := by simp [hfound]
      exact (List.mem_filter.mp hmem).1
    · cases h

theorem lookup_unbound {name : String} {d : Declaration} :
    g.lookup ⟨name, none, []⟩ o = .ok d ↔ g.named name = [d] := by
  unfold lookup
  dsimp only
  split
  · rename_i h
    simp [h]
  · rename_i h
    simp [h]
  · rename_i hnone hone
    apply iff_of_false nofun
    exact hone d

theorem normalize_ref {name : String} {module : Option String} {ts : List TypeExpr}
    {c : TypeExpr} : g.normalize o (.ref ⟨name, module, ts⟩) = .ok c ↔ ∃ ts' module',
      g.normalizeAll o ts = .ok ts' ∧ g.BoundTo name module module' ∧
        c = .ref ⟨name, module', ts'⟩ := by
  rw [normalize]
  cases g.normalizeAll o ts with
  | error f => simp [bind, Except.bind]
  | ok ts' =>
    have hresult : ∀ {m : Option String}, (∀ m', g.BoundTo name module m' ↔ m' = m) →
        ((pure (.ref ⟨name, m, ts'⟩) : Except Fault TypeExpr) = .ok c ↔
          ∃ ts'' module', (.ok ts' : Except Fault _) = .ok ts'' ∧ g.BoundTo name module module' ∧
            c = .ref ⟨name, module', ts''⟩) := by
      intro m hm
      simp [hm, pure, Except.pure, eq_comm]
    cases module with
    | some module =>
      apply hresult
      intro m'
      constructor
      · rintro ⟨⟩
        rfl
      · rintro rfl
        exact .written module
    | none =>
      by_cases hb : (Builtin.ofName? name).isSome
      · simp only [bind, Except.bind, hb, if_true]
        apply hresult
        intro m'
        constructor
        · rintro (_ | _ | h)
          · rfl
          · rw [h.1] at hb
            cases hb
        · rintro rfl
          exact .builtin hb
      · simp only [bind, Except.bind, hb]
        cases hl : g.lookup ⟨name, none, []⟩ o with
        | error f =>
          apply iff_of_false (fun h => by cases h)
          rintro ⟨_, _, -, h | h | ⟨-, d, hd, -⟩, -⟩
          · exact hb h
          · rw [lookup_unbound.mpr hd] at hl
            cases hl
        | ok d =>
          apply hresult
          intro m'
          constructor
          · rintro (_ | h | ⟨-, d', hd', rfl⟩)
            · exact absurd h hb
            · rw [lookup_unbound.mpr hd'] at hl
              cases hl
              rfl
          · rintro rfl
            exact .found ⟨by simpa using hb, d, lookup_unbound.mp hl, rfl⟩

theorem bind_pure_eq_ok {α β : Type} {x : Except Fault α} {f : α → β} {b : β} :
    (x >>= fun a => pure (f a)) = .ok b ↔ ∃ a, x = .ok a ∧ b = f a := by
  cases x with
  | error e => simp [bind, Except.bind]
  | ok a => simp [bind, Except.bind, pure, Except.pure, eq_comm]

theorem normalize_array {t c : TypeExpr} :
    g.normalize o (.array t) = .ok c ↔ ∃ t', g.normalize o t = .ok t' ∧ c = .array t' := by
  rw [normalize]
  exact bind_pure_eq_ok

theorem normalize_union {ts : List TypeExpr} {c : TypeExpr} :
    g.normalize o (.union ts) = .ok c ↔ ∃ ts', g.normalizeAll o ts = .ok ts' ∧ c = .union ts' := by
  rw [normalize]
  exact bind_pure_eq_ok

theorem normalize_intersection {ts : List TypeExpr} {c : TypeExpr} :
    g.normalize o (.intersection ts) = .ok c ↔
      ∃ ts', g.normalizeAll o ts = .ok ts' ∧ c = .intersection ts' := by
  rw [normalize]
  exact bind_pure_eq_ok

theorem normalizeAll_cons {t : TypeExpr} {ts cs : List TypeExpr} :
    g.normalizeAll o (t :: ts) = .ok cs ↔ ∃ c cs', g.normalize o t = .ok c ∧
      g.normalizeAll o ts = .ok cs' ∧ cs = c :: cs' := by
  rw [normalizeAll]
  cases g.normalize o t with
  | error f => simp [bind, Except.bind]
  | ok c =>
    cases g.normalizeAll o ts with
    | error f => simp [bind, Except.bind]
    | ok cs' => simp [bind, Except.bind, pure, Except.pure, eq_comm]

mutual

/-- Where a type is written is seen in faults only. -/
theorem normalize_elsewhere (o' : Origin) : (t : TypeExpr) → {c : TypeExpr} →
    g.normalize o t = .ok c → g.normalize o' t = .ok c
  | .ref ⟨name, module, args⟩, c, h => by
    obtain ⟨args', module', hargs, hm, rfl⟩ := normalize_ref.mp h
    exact normalize_ref.mpr ⟨args', module', normalizeAll_elsewhere o' args hargs, hm, rfl⟩
  | .array t, c, h => by
    obtain ⟨t', ht, rfl⟩ := normalize_array.mp h
    exact normalize_array.mpr ⟨t', normalize_elsewhere o' t ht, rfl⟩
  | .union ts, c, h => by
    obtain ⟨ts', hts, rfl⟩ := normalize_union.mp h
    exact normalize_union.mpr ⟨ts', normalizeAll_elsewhere o' ts hts, rfl⟩
  | .intersection ts, c, h => by
    obtain ⟨ts', hts, rfl⟩ := normalize_intersection.mp h
    exact normalize_intersection.mpr ⟨ts', normalizeAll_elsewhere o' ts hts, rfl⟩
  | .param _, _, h => by
    rw [normalize] at h
    cases h
  | .keyword _, _, h => by
    rw [normalize] at h ⊢
    exact h
  | .literal _, _, h => by
    rw [normalize] at h ⊢
    exact h
  | .object _, _, h => by
    rw [normalize] at h ⊢
    exact h
  | .unsupported _, _, h => by
    rw [normalize] at h ⊢
    exact h

theorem normalizeAll_elsewhere (o' : Origin) : (ts : List TypeExpr) → {cs : List TypeExpr} →
    g.normalizeAll o ts = .ok cs → g.normalizeAll o' ts = .ok cs
  | [], _, h => by
    rw [normalizeAll] at h ⊢
    exact h
  | t :: ts, _, h => by
    obtain ⟨c, cs, hc, hcs, rfl⟩ := normalizeAll_cons.mp h
    exact normalizeAll_cons.mpr
      ⟨c, cs, normalize_elsewhere o' t hc, normalizeAll_elsewhere o' ts hcs, rfl⟩

end

def FindsAlike (g g' : Graph) : Prop :=
  ∀ r o, (g'.lookup r o).map Declaration.id = (g.lookup r o).map Declaration.id

mutual

/-- Of a declaration that it finds, normalization takes no more than the identity. -/
theorem FindsAlike.normalize {g' : Graph} (h : g.FindsAlike g') (o : Origin) :
    (t : TypeExpr) → g'.normalize o t = g.normalize o t
  | .ref ⟨name, module, args⟩ => by
    have hmodule : ∀ (x : Except Fault Declaration) (ts : List TypeExpr),
        (do let d ← x; return .ref ⟨name, some d.id.module, ts⟩) =
          (x.map Declaration.id).map fun id => TypeExpr.ref ⟨name, some id.module, ts⟩ := by
      intro x ts
      cases x with
      | error f => rfl
      | ok d => rfl
    unfold Graph.normalize
    simp only [h.normalizeAll o args, hmodule, h ⟨name, none, []⟩ o]
  | .array t => by
    unfold Graph.normalize
    rw [h.normalize o t]
  | .union ts => by
    unfold Graph.normalize
    rw [h.normalizeAll o ts]
  | .intersection ts => by
    unfold Graph.normalize
    rw [h.normalizeAll o ts]
  | .param _ => by unfold Graph.normalize; rfl
  | .keyword _ => by unfold Graph.normalize; rfl
  | .literal _ => by unfold Graph.normalize; rfl
  | .object _ => by unfold Graph.normalize; rfl
  | .unsupported _ => by unfold Graph.normalize; rfl

theorem FindsAlike.normalizeAll {g' : Graph} (h : g.FindsAlike g') (o : Origin) :
    (ts : List TypeExpr) → g'.normalizeAll o ts = g.normalizeAll o ts
  | [] => by unfold Graph.normalizeAll; rfl
  | t :: ts => by
    unfold Graph.normalizeAll
    rw [h.normalize o t, h.normalizeAll o ts]

end

end Graph

namespace Declaration

def given (written : List TypeExpr) (earlier : List TypeParam) (concrete : List TypeExpr)
    (p : TypeParam) : Option TypeExpr :=
  (written[earlier.length]?).or
    (p.default.map fun t => t.substitute (bindingOf earlier concrete))

variable {g : Graph} {d : Declaration} {o : Origin}

theorem completeArgs_cons {written concrete cs : List TypeExpr} {earlier rest : List TypeParam}
    {p : TypeParam} : d.completeArgs g written o earlier concrete (p :: rest) = .ok cs ↔
      ∃ t c, given written earlier concrete p = some t ∧ g.normalize o t = .ok c ∧
        d.completeArgs g written o (earlier ++ [p]) (concrete ++ [c]) rest = .ok cs := by
  have hend : ∀ t, (do
      let c ← g.normalize o t
      d.completeArgs g written o (earlier ++ [p]) (concrete ++ [c]) rest) = .ok cs ↔
      ∃ c, g.normalize o t = .ok c ∧
        d.completeArgs g written o (earlier ++ [p]) (concrete ++ [c]) rest = .ok cs := by
    intro t
    cases g.normalize o t with
    | error f => simp [bind, Except.bind]
    | ok c => simp [bind, Except.bind]
  rw [completeArgs]
  unfold given
  cases written[earlier.length]? with
  | some t => exact (hend t).trans (by simp)
  | none =>
    cases p.default with
    | some t => exact (hend (t.substitute (bindingOf earlier concrete))).trans (by simp)
    | none =>
      apply iff_of_false nofun
      simp

/-- Arguments are completed behind those there are, and the written ones among them are
normalized. -/
theorem completeArgs_written {written concrete cs : List TypeExpr} {earlier rest : List TypeParam}
    (h : d.completeArgs g written o earlier concrete rest = .ok cs) :
    ∃ added, cs = concrete ++ added ∧ ∀ k t, k < rest.length →
      written[earlier.length + k]? = some t → ∃ c, added[k]? = some c ∧ g.normalize o t = .ok c := by
  induction rest generalizing earlier concrete with
  | nil =>
    cases h
    exact ⟨[], by simp, by simp⟩
  | cons p rest ih =>
    obtain ⟨t, c, ht, hc, hrest⟩ := completeArgs_cons.mp h
    obtain ⟨added, rfl, hadded⟩ := ih hrest
    refine ⟨c :: added, by simp, fun k u hk hu => ?_⟩
    cases k with
    | zero =>
      simp only [given, show written[earlier.length]? = some u from hu, Option.some_or,
        Option.some.injEq] at ht
      exact ⟨c, rfl, ht ▸ hc⟩
    | succ k =>
      apply hadded k u (Nat.lt_of_succ_lt_succ hk)
      rw [← hu, List.length_append, List.length_singleton]
      congr 1
      omega

theorem instantiate_iff {written : List TypeExpr} {i : Instance} :
    d.instantiate g written o = .ok i ↔ written.length ≤ d.params.length ∧ i.id = d.id ∧
      d.completeArgs g written o [] [] d.params = .ok i.args := by
  unfold instantiate
  by_cases hl : d.params.length < written.length
  · simp only [hl, if_true]
    apply iff_of_false nofun
    rintro ⟨h, -⟩
    omega
  · simp only [hl, if_false]
    cases d.completeArgs g written o [] [] d.params with
    | error f =>
      apply iff_of_false nofun
      rintro ⟨-, -, h⟩
      cases h
    | ok args =>
      obtain ⟨id, args'⟩ := i
      simp [bind, Except.bind, pure, Except.pure, Nat.le_of_not_lt hl, eq_comm]

end Declaration

end RouteContract
