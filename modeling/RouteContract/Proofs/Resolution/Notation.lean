import RouteContract.Proofs.Lists
import RouteContract.Proofs.Resolution.Normalization
import RouteContract.Proofs.Resolution.Referring
import RouteContract.Proofs.Samples
import RouteContract.Proofs.TypeExpr

/-!
# Types that differ in notation

An array type may be written in two ways, and a reference may name its module or
leave it out where only one declaration has the name. Names of instances do not
show the difference. Normalization of type arguments removes it for references,
but not inside inline objects, and it leaves arrays as they are written.
-/

set_option autoImplicit false

namespace RouteContract

/-- Two types differ in whether references name their modules. When the notation is `free`, they
also do so inside inline objects, and an array is written in either way. -/
inductive Graph.Respelled (g : Graph) (free : Prop) : TypeExpr → TypeExpr → Prop
  | refl (t : TypeExpr) : Respelled g free t t
  | array {t u : TypeExpr} (h : Respelled g free t u) : Respelled g free (.array t) (.array u)
  | union {ts us : List TypeExpr} (hl : ts.length = us.length)
      (h : ∀ t u, (t, u) ∈ ts.zip us → Respelled g free t u) :
      Respelled g free (.union ts) (.union us)
  | intersection {ts us : List TypeExpr} (hl : ts.length = us.length)
      (h : ∀ t u, (t, u) ∈ ts.zip us → Respelled g free t u) :
      Respelled g free (.intersection ts) (.intersection us)
  | ref {name : String} {module : Option String} {ts us : List TypeExpr}
      (hl : ts.length = us.length) (h : ∀ t u, (t, u) ∈ ts.zip us → Respelled g free t u) :
      Respelled g free (.ref ⟨name, module, ts⟩) (.ref ⟨name, module, us⟩)
  | unbind {name module : String} {ts us : List TypeExpr} (hb : g.Binds name module)
      (hl : ts.length = us.length) (h : ∀ t u, (t, u) ∈ ts.zip us → Respelled g free t u) :
      Respelled g free (.ref ⟨name, some module, ts⟩) (.ref ⟨name, none, us⟩)
  | bind {name module : String} {ts us : List TypeExpr} (hb : g.Binds name module)
      (hl : ts.length = us.length) (h : ∀ t u, (t, u) ∈ ts.zip us → Respelled g free t u) :
      Respelled g free (.ref ⟨name, none, ts⟩) (.ref ⟨name, some module, us⟩)
  | named {t u : TypeExpr} (hf : free) (h : Respelled g free t u) :
      Respelled g free (.array t) (.ref ⟨"Array", none, [u]⟩)
  | bracketed {t u : TypeExpr} (hf : free) (h : Respelled g free t u) :
      Respelled g free (.ref ⟨"Array", none, [t]⟩) (.array u)
  | object {ps qs : List (Property TypeExpr)} {is js : List (IndexSignature TypeExpr)} (hf : free)
      (hpl : ps.length = qs.length) (hp : ∀ p q, (p, q) ∈ ps.zip qs → { p with type := q.type } = q)
      (ht : ∀ p q, (p, q) ∈ ps.zip qs → Respelled g free p.type q.type)
      (hil : is.length = js.length) (hi : ∀ i j, (i, j) ∈ is.zip js → i.keyName = j.keyName)
      (hk : ∀ i j, (i, j) ∈ is.zip js → Respelled g free i.key j.key)
      (hv : ∀ i j, (i, j) ∈ is.zip js → Respelled g free i.value j.value) :
      Respelled g free (.object ⟨ps, is⟩) (.object ⟨qs, js⟩)

abbrev Graph.Rebound (g : Graph) : TypeExpr → TypeExpr → Prop := g.Respelled False

namespace Graph.Respelled

variable {g : Graph} {free : Prop}

theorem encode_ref (name : String) (module : Option String) {ts us : List TypeExpr}
    (h : ts.map TypeExpr.encode = us.map TypeExpr.encode) (module' : Option String) :
    TypeExpr.encode (.ref ⟨name, module, ts⟩) = TypeExpr.encode (.ref ⟨name, module', us⟩) := by
  cases ts with
  | nil =>
    cases us with
    | nil => rfl
    | cons u us => cases h
  | cons t ts =>
    cases us with
    | nil => cases h
    | cons u us => 
      simp only [TypeExpr.encode, TypeExpr.encodeAll_eq, h]

/-- The notation is not seen in a name. -/
theorem encode_eq {t u : TypeExpr} (h : g.Respelled free t u) : t.encode = u.encode := by
  induction h with
  | refl => rfl
  | array _ ih => simp only [TypeExpr.encode, ih]
  | union hl _ ih => simp only [TypeExpr.encode, TypeExpr.encodeAll_eq, map_eq_map hl ih]
  | intersection hl _ ih => simp only [TypeExpr.encode, TypeExpr.encodeAll_eq, map_eq_map hl ih]
  | ref hl _ ih => exact encode_ref _ _ (map_eq_map hl ih) _
  | unbind _ hl _ ih => exact encode_ref _ _ (map_eq_map hl ih) _
  | bind _ hl _ ih => exact encode_ref _ _ (map_eq_map hl ih) _
  | named _ _ ih => simp [TypeExpr.encode, TypeExpr.encodeAll, ih, String.append_assoc]
  | bracketed _ _ ih => simp [TypeExpr.encode, TypeExpr.encodeAll, ih, String.append_assoc]
  | object _ hpl hp _ _ _ _ _ ih =>
    simp only [TypeExpr.encode, TypeExpr.encodeProperties_eq]
    rw [map_eq_map hpl fun p q hpq => ?_]
    have hname := congrArg Property.name (hp p q hpq)
    dsimp only at hname
    rw [hname, ih p q hpq]

variable {o o' : Origin}

def Normalizes (g : Graph) (free : Prop) (o o' : Origin) (t u : TypeExpr) : Prop :=
  ∀ t', g.normalize o t = .ok t' →
    ∃ u', g.normalize o' u = .ok u' ∧ g.Respelled free t' u' ∧ (¬ free → t' = u')

theorem normalizeAll {ts us ts' : List TypeExpr} (hl : ts.length = us.length)
    (h : ∀ t u, (t, u) ∈ ts.zip us → Normalizes g free o o' t u)
    (hts : g.normalizeAll o ts = .ok ts') :
    ∃ us', g.normalizeAll o' us = .ok us' ∧ ts'.length = us'.length ∧
      (∀ t u, (t, u) ∈ ts'.zip us' → g.Respelled free t u) ∧ (¬ free → ts' = us') := by
  induction ts generalizing us ts' with
  | nil =>
    cases us with
    | nil =>
      rw [Graph.normalizeAll] at hts
      cases hts
      exact ⟨[], by rw [Graph.normalizeAll], rfl, by simp, fun _ => rfl⟩
    | cons u us => cases hl
  | cons t ts ih =>
    cases us with
    | nil => cases hl
    | cons u us =>
      obtain ⟨c, cs, hc, hcs, rfl⟩ := normalizeAll_cons.mp hts
      simp only [List.zip_cons_cons, List.mem_cons] at h
      obtain ⟨u', hu', hr, he⟩ := h t u (.inl rfl) c hc
      obtain ⟨us', hus', hl', hrs, hes⟩ :=
        ih (Nat.succ.inj hl) (fun t u htu => h t u (.inr htu)) hcs
      refine ⟨u' :: us', normalizeAll_cons.mpr ⟨u', us', hu', hus', rfl⟩, by simp [hl'], ?_, ?_⟩
      · intro t u htu
        rcases List.mem_cons.mp htu with htu | htu
        · cases htu
          exact hr
        · exact hrs t u htu
      · exact fun hf => by rw [he hf, hes hf]

theorem normalizes {t u : TypeExpr} (h : g.Respelled free t u) : Normalizes g free o o' t u := by
  induction h with
  | refl t =>
    intro t' ht
    exact ⟨t', normalize_elsewhere o' t ht, .refl t', fun _ => rfl⟩
  | array _ ih =>
    intro c hc
    obtain ⟨t', ht, rfl⟩ := normalize_array.mp hc
    obtain ⟨u', hu, hr, he⟩ := ih t' ht
    exact ⟨.array u', normalize_array.mpr ⟨u', hu, rfl⟩, .array hr, fun hf => by rw [he hf]⟩
  | union hl _ ih =>
    intro c hc
    obtain ⟨ts', hts, rfl⟩ := normalize_union.mp hc
    obtain ⟨us', hus, hl', hr, he⟩ := normalizeAll hl ih hts
    exact ⟨.union us', normalize_union.mpr ⟨us', hus, rfl⟩, .union hl' hr, fun hf => by rw [he hf]⟩
  | intersection hl _ ih =>
    intro c hc
    obtain ⟨ts', hts, rfl⟩ := normalize_intersection.mp hc
    obtain ⟨us', hus, hl', hr, he⟩ := normalizeAll hl ih hts
    exact ⟨.intersection us', normalize_intersection.mpr ⟨us', hus, rfl⟩, .intersection hl' hr,
      fun hf => by rw [he hf]⟩
  | ref hl _ ih =>
    intro c hc
    obtain ⟨ts', module', hts, hm, rfl⟩ := normalize_ref.mp hc
    obtain ⟨us', hus, hl', hr, he⟩ := normalizeAll hl ih hts
    exact ⟨_, normalize_ref.mpr ⟨us', module', hus, hm, rfl⟩, .ref hl' hr, fun hf => by rw [he hf]⟩
  | unbind hb hl _ ih =>
    intro c hc
    obtain ⟨ts', module', hts, hm, rfl⟩ := normalize_ref.mp hc
    obtain ⟨us', hus, hl', hr, he⟩ := normalizeAll hl ih hts
    cases hm
    exact ⟨_, normalize_ref.mpr ⟨us', _, hus, .found hb, rfl⟩, .ref hl' hr, fun hf => by rw [he hf]⟩
  | bind hb hl _ ih =>
    intro c hc
    obtain ⟨ts', module', hts, hm, rfl⟩ := normalize_ref.mp hc
    obtain ⟨us', hus, hl', hr, he⟩ := normalizeAll hl ih hts
    cases hm with
    | builtin h =>
      rw [hb.1] at h
      cases h
    | found h =>
      obtain rfl := h.unique hb
      exact ⟨_, normalize_ref.mpr ⟨us', _, hus, .written _, rfl⟩, .ref hl' hr,
        fun hf => by rw [he hf]⟩
  | named hf _ ih =>
    intro c hc
    obtain ⟨t', ht, rfl⟩ := normalize_array.mp hc
    obtain ⟨u', hu, hr, -⟩ := ih t' ht
    have hus : g.normalizeAll o' [_] = .ok [u'] :=
      normalizeAll_cons.mpr ⟨u', [], hu, by rw [Graph.normalizeAll], rfl⟩
    exact ⟨_, normalize_ref.mpr ⟨[u'], none, hus, .builtin rfl, rfl⟩, .named hf hr,
      fun hn => absurd hf hn⟩
  | bracketed hf _ ih =>
    intro c hc
    obtain ⟨ts', module', hts, hm, rfl⟩ := normalize_ref.mp hc
    obtain ⟨t', cs, ht, hcs, rfl⟩ := normalizeAll_cons.mp hts
    rw [Graph.normalizeAll] at hcs
    cases hcs
    cases hm with
    | found h => cases h.1
    | builtin =>
      obtain ⟨u', hu, hr, -⟩ := ih t' ht
      exact ⟨_, normalize_array.mpr ⟨u', hu, rfl⟩, .bracketed hf hr, fun hn => absurd hf hn⟩
  | object hf hpl hp ht hil hi hk hv =>
    intro c hc
    rw [normalize] at hc
    cases hc
    exact ⟨_, by rw [normalize], .object hf hpl hp ht hil hi hk hv, fun hn => absurd hf hn⟩

theorem rebound_all {ts us cs : List TypeExpr}
    (h : ∀ t u, (t, u) ∈ ts.zip us → ∀ {c}, g.normalize o t = .ok c → g.normalize o' u = .ok c →
      g.Rebound t u) (hts : g.normalizeAll o ts = .ok cs) (hus : g.normalizeAll o' us = .ok cs) :
    ∀ t u, (t, u) ∈ ts.zip us → g.Rebound t u := by
  induction ts generalizing us cs with
  | nil => simp
  | cons t ts ih =>
    cases us with
    | nil => simp
    | cons u us =>
      obtain ⟨c, cs, hc, hcs, rfl⟩ := normalizeAll_cons.mp hts
      obtain ⟨c', cs', hc', hcs', he⟩ := normalizeAll_cons.mp hus
      cases he
      simp only [List.zip_cons_cons, List.mem_cons] at h ⊢
      rintro t' u' (he | htu)
      · cases he
        exact h t u (.inl rfl) hc hc'
      · exact ih (fun t u htu => h t u (.inr htu)) hcs hcs' t' u' htu

/-- Types with one normalization differ in the modules of references only. -/
theorem rebound {t u c : TypeExpr} (h : g.Respelled free t u) (ht : g.normalize o t = .ok c)
    (hu : g.normalize o' u = .ok c) : g.Rebound t u := by
  induction h generalizing c with
  | refl t => exact .refl t
  | array _ ih =>
    obtain ⟨t', ht', rfl⟩ := normalize_array.mp ht
    obtain ⟨u', hu', he⟩ := normalize_array.mp hu
    cases he
    exact .array (ih ht' hu')
  | union hl _ ih =>
    obtain ⟨cs, hts, rfl⟩ := normalize_union.mp ht
    obtain ⟨cs', hus, he⟩ := normalize_union.mp hu
    cases he
    exact .union hl (rebound_all ih hts hus)
  | intersection hl _ ih =>
    obtain ⟨cs, hts, rfl⟩ := normalize_intersection.mp ht
    obtain ⟨cs', hus, he⟩ := normalize_intersection.mp hu
    cases he
    exact .intersection hl (rebound_all ih hts hus)
  | ref hl _ ih =>
    obtain ⟨cs, m, hts, -, rfl⟩ := normalize_ref.mp ht
    obtain ⟨cs', m', hus, -, he⟩ := normalize_ref.mp hu
    cases he
    exact .ref hl (rebound_all ih hts hus)
  | unbind hb hl _ ih =>
    obtain ⟨cs, m, hts, -, rfl⟩ := normalize_ref.mp ht
    obtain ⟨cs', m', hus, -, he⟩ := normalize_ref.mp hu
    cases he
    exact .unbind hb hl (rebound_all ih hts hus)
  | bind hb hl _ ih =>
    obtain ⟨cs, m, hts, -, rfl⟩ := normalize_ref.mp ht
    obtain ⟨cs', m', hus, -, he⟩ := normalize_ref.mp hu
    cases he
    exact .bind hb hl (rebound_all ih hts hus)
  | named =>
    obtain ⟨t', -, rfl⟩ := normalize_array.mp ht
    obtain ⟨us', m', -, -, he⟩ := normalize_ref.mp hu
    cases he
  | bracketed =>
    obtain ⟨ts', m', -, -, rfl⟩ := normalize_ref.mp ht
    obtain ⟨u', -, he⟩ := normalize_array.mp hu
    cases he
  | object =>
    rw [normalize] at ht hu
    cases ht
    cases hu
    exact .refl _

def Meets (x t : TypeExpr) : Prop := x = t ∨ x.same t

theorem eq_of_sameAll {xs ts us : List TypeExpr} (hl : ts.length = us.length)
    (h : ∀ t u, (t, u) ∈ ts.zip us → ∀ x, Meets x t → x.same u → t = u)
    (hts : xs = ts ∨ TypeExpr.sameAll xs ts) (hus : TypeExpr.sameAll xs us) : ts = us := by
  induction ts generalizing xs us with
  | nil => exact (List.eq_nil_of_length_eq_zero hl.symm).symm
  | cons t ts ih =>
    cases us with
    | nil => cases hl
    | cons u us =>
      cases xs with
      | nil => simp [TypeExpr.sameAll] at hus
      | cons x xs =>
        simp only [TypeExpr.sameAll, Bool.and_eq_true, List.cons.injEq] at hts hus
        simp only [List.zip_cons_cons, List.mem_cons] at h
        have hx : t = u := h t u (.inl rfl) x (hts.imp And.left And.left) hus.1
        rw [hx, ih (Nat.succ.inj hl) (fun t u htu => h t u (.inr htu))
          (hts.imp And.right And.right) hus.2]

theorem eq_of_sameProperties {xps ps qs : List (Property TypeExpr)} (hl : ps.length = qs.length)
    (hp : ∀ p q, (p, q) ∈ ps.zip qs → { p with type := q.type } = q)
    (h : ∀ p q, (p, q) ∈ ps.zip qs → ∀ x, Meets x p.type → x.same q.type → p.type = q.type)
    (hps : xps = ps ∨ TypeExpr.sameProperties xps ps) (hqs : TypeExpr.sameProperties xps qs) :
    ps = qs := by
  induction ps generalizing xps qs with
  | nil => exact (List.eq_nil_of_length_eq_zero hl.symm).symm
  | cons p ps ih =>
    cases qs with
    | nil => cases hl
    | cons q qs =>
      cases xps with
      | nil => simp [TypeExpr.sameProperties] at hqs
      | cons x xps =>
        simp only [List.zip_cons_cons, List.mem_cons] at h hp
        obtain ⟨hq, hqs⟩ := TypeExpr.same_of_sameProperties hqs
        have hparts : Meets x.type p.type ∧ (xps = ps ∨ TypeExpr.sameProperties xps ps) := by
          rcases hps with he | hps
          · cases he
            exact ⟨.inl rfl, .inl rfl⟩
          · exact (TypeExpr.same_of_sameProperties hps).imp .inr .inr
        have htype : p.type = q.type := h p q (.inl rfl) x.type hparts.1 hq
        have hpq : p = q := by rw [← hp p q (.inl rfl), ← htype]
        rw [hpq, ih (Nat.succ.inj hl) (fun p q hpq => hp p q (.inr hpq))
          (fun p q hpq => h p q (.inr hpq)) hparts.2 hqs]

theorem eq_of_sameIndex {xis is js : List (IndexSignature TypeExpr)} (hl : is.length = js.length)
    (hi : ∀ i j, (i, j) ∈ is.zip js → i.keyName = j.keyName)
    (hk : ∀ i j, (i, j) ∈ is.zip js → ∀ x, Meets x i.key → x.same j.key → i.key = j.key)
    (hv : ∀ i j, (i, j) ∈ is.zip js → ∀ x, Meets x i.value → x.same j.value → i.value = j.value)
    (his : xis = is ∨ TypeExpr.sameIndex xis is) (hjs : TypeExpr.sameIndex xis js) : is = js := by
  induction is generalizing xis js with
  | nil => exact (List.eq_nil_of_length_eq_zero hl.symm).symm
  | cons i is ih =>
    cases js with
    | nil => cases hl
    | cons j js =>
      cases xis with
      | nil => simp [TypeExpr.sameIndex] at hjs
      | cons x xis =>
        simp only [List.zip_cons_cons, List.mem_cons] at hi hk hv
        obtain ⟨hjkey, hjvalue, hjs⟩ := TypeExpr.same_of_sameIndex hjs
        have hparts : Meets x.key i.key ∧ Meets x.value i.value ∧
            (xis = is ∨ TypeExpr.sameIndex xis is) := by
          rcases his with he | his
          · cases he
            exact ⟨.inl rfl, .inl rfl, .inl rfl⟩
          · obtain ⟨hkey, hvalue, his⟩ := TypeExpr.same_of_sameIndex his
            exact ⟨.inr hkey, .inr hvalue, .inr his⟩
        have hname := hi i j (.inl rfl)
        have hkey := hk i j (.inl rfl) x.key hparts.1 hjkey
        have hvalue := hv i j (.inl rfl) x.value hparts.2.1 hjvalue
        have hij : i = j := by
          obtain ⟨_, _, _⟩ := i
          obtain ⟨_, _, _⟩ := j
          cases hname
          cases hkey
          cases hvalue
          rfl
        rw [hij, ih (Nat.succ.inj hl) (fun i j hij => hi i j (.inr hij))
          (fun i j hij => hk i j (.inr hij)) (fun i j hij => hv i j (.inr hij)) hparts.2.2 hjs]

/-- Of different spellings of one type, at most one is the same as a third type. -/
theorem eq_of_same {t u x : TypeExpr} (h : g.Respelled free t u) (hx : Meets x t)
    (hu : x.same u) : t = u := by
  induction h generalizing x with
  | refl t => rfl
  | array _ ih =>
    obtain ⟨y, rfl, hy⟩ := TypeExpr.same_array.mp hu
    rw [ih (by simpa [Meets, TypeExpr.same] using hx) hy]
  | union hl _ ih =>
    obtain ⟨xs, rfl, hxs⟩ := TypeExpr.same_union.mp hu
    have hmeets := by simpa [Meets, TypeExpr.same] using hx
    rw [eq_of_sameAll hl (fun t u htu x => ih t u htu) hmeets hxs]
  | intersection hl _ ih =>
    obtain ⟨xs, rfl, hxs⟩ := TypeExpr.same_intersection.mp hu
    have hmeets := by simpa [Meets, TypeExpr.same] using hx
    rw [eq_of_sameAll hl (fun t u htu x => ih t u htu) hmeets hxs]
  | ref hl _ ih =>
    obtain ⟨xs, rfl, hxs⟩ := TypeExpr.same_ref.mp hu
    have hmeets := by simpa [Meets, TypeExpr.same] using hx
    rw [eq_of_sameAll hl (fun t u htu x => ih t u htu) hmeets hxs]
  | unbind =>
    obtain ⟨xs, rfl, -⟩ := TypeExpr.same_ref.mp hu
    simp [Meets, TypeExpr.same] at hx
  | bind =>
    obtain ⟨xs, rfl, -⟩ := TypeExpr.same_ref.mp hu
    simp [Meets, TypeExpr.same] at hx
  | named =>
    obtain ⟨xs, rfl, -⟩ := TypeExpr.same_ref.mp hu
    simp [Meets, TypeExpr.same] at hx
  | bracketed =>
    obtain ⟨y, rfl, -⟩ := TypeExpr.same_array.mp hu
    simp [Meets, TypeExpr.same] at hx
  | object _ hpl hp _ hil hi _ _ iht ihk ihv =>
    obtain ⟨xps, xis, rfl, hxps, hxis⟩ := TypeExpr.same_object.mp hu
    simp only [Meets, TypeExpr.object.injEq, Shape.mk.injEq, TypeExpr.same, Bool.and_eq_true] at hx
    rw [eq_of_sameProperties hpl hp (fun p q hpq x => iht p q hpq)
        (hx.imp And.left And.left) hxps,
      eq_of_sameIndex hil hi (fun i j hij x => ihk i j hij) (fun i j hij x => ihv i j hij)
        (hx.imp And.right And.right) hxis]

/-- Respelled arguments give respelled types. -/
theorem substitute (hf : free) {f f' : String → Option TypeExpr}
    (h : ∀ name, g.Respelled free ((f name).getD (.param name)) ((f' name).getD (.param name))) :
    (t : TypeExpr) → g.Respelled free (t.substitute f) (t.substitute f')
  | .param name => by
    rw [TypeExpr.substitute, TypeExpr.substitute]
    exact h name
  | .array t => by
    rw [TypeExpr.substitute, TypeExpr.substitute]
    exact .array (substitute hf h t)
  | .union ts => by
    simp only [TypeExpr.substitute, TypeExpr.substituteAll_eq]
    refine .union (by simp) fun t u htu => ?_
    obtain ⟨v, hv, rfl, rfl⟩ := exists_of_mem_zip_map htu
    exact substitute hf h v
  | .intersection ts => by
    simp only [TypeExpr.substitute, TypeExpr.substituteAll_eq]
    refine .intersection (by simp) fun t u htu => ?_
    obtain ⟨v, hv, rfl, rfl⟩ := exists_of_mem_zip_map htu
    exact substitute hf h v
  | .ref ⟨name, module, args⟩ => by
    simp only [TypeExpr.substitute, TypeExpr.substituteAll_eq]
    refine .ref (by simp) fun t u htu => ?_
    obtain ⟨v, hv, rfl, rfl⟩ := exists_of_mem_zip_map htu
    exact substitute hf h v
  | .object ⟨ps, is⟩ => by
    simp only [TypeExpr.substitute, TypeExpr.substituteProperties_eq, TypeExpr.substituteIndex_eq]
    refine .object hf (by simp) ?_ ?_ (by simp) ?_ ?_ ?_
    · intro p q hpq
      obtain ⟨v, -, rfl, rfl⟩ := exists_of_mem_zip_map hpq
      rfl
    · intro p q hpq
      obtain ⟨v, hv, rfl, rfl⟩ := exists_of_mem_zip_map hpq
      have hlt := Property.sizeOf_type_lt hv
      exact substitute hf h v.type
    · intro i j hij
      obtain ⟨v, -, rfl, rfl⟩ := exists_of_mem_zip_map hij
      rfl
    · intro i j hij
      obtain ⟨v, hv, rfl, rfl⟩ := exists_of_mem_zip_map hij
      have hlt := IndexSignature.sizeOf_lt hv
      exact substitute hf h v.key
    · intro i j hij
      obtain ⟨v, hv, rfl, rfl⟩ := exists_of_mem_zip_map hij
      have hlt := IndexSignature.sizeOf_lt hv
      exact substitute hf h v.value
  | .keyword k => .refl _
  | .literal l => .refl _
  | .unsupported c => .refl _

end Graph.Respelled

namespace Declaration

section

variable {g : Graph} {free : Prop} {d : Declaration} {o o' : Origin}

open List (Forall₂)

theorem bindingOf_respelled {concrete concrete' : List TypeExpr} {earlier : List TypeParam}
    (hc : Forall₂ (g.Respelled free) concrete concrete') (name : String) :
    g.Respelled free ((bindingOf earlier concrete name).getD (.param name))
      ((bindingOf earlier concrete' name).getD (.param name)) := by
  unfold bindingOf
  cases earlier.findIdx? (·.name = name) with
  | none => exact .refl _
  | some k =>
    simp only [Option.bind_some]
    rcases getElem?_of_forall₂ hc k with ⟨hnone, hnone'⟩ | ⟨x, y, hx, hy, hxy⟩
    · rw [hnone, hnone']
      exact .refl _
    · rw [hx, hy]
      exact hxy

theorem given_respelled {written written' concrete concrete' : List TypeExpr}
    {earlier : List TypeParam} {p : TypeParam} {t : TypeExpr}
    (hw : Forall₂ (g.Respelled free) written written')
    (hc : Forall₂ (g.Respelled free) concrete concrete') (he : ¬ free → concrete = concrete')
    (h : given written earlier concrete p = some t) :
    ∃ u, given written' earlier concrete' p = some u ∧ g.Respelled free t u := by
  unfold given at h ⊢
  rcases getElem?_of_forall₂ hw earlier.length with ⟨hnone, hnone'⟩ | ⟨x, y, hx, hy, hxy⟩
  · rw [hnone, Option.none_or] at h
    rw [hnone', Option.none_or]
    obtain ⟨default, hdefault, rfl⟩ := Option.map_eq_some_iff.mp h
    refine ⟨default.substitute (bindingOf earlier concrete'), by rw [hdefault]; rfl, ?_⟩
    by_cases hf : free
    · exact .substitute hf (bindingOf_respelled hc) default
    · rw [he hf]
      exact .refl _
  · rw [hx, Option.some_or] at h
    cases h
    exact ⟨y, by rw [hy, Option.some_or], hxy⟩

theorem completeArgs_respelled {written written' concrete concrete' cs : List TypeExpr}
    {earlier rest : List TypeParam} (hw : Forall₂ (g.Respelled free) written written')
    (hc : Forall₂ (g.Respelled free) concrete concrete') (he : ¬ free → concrete = concrete')
    (h : d.completeArgs g written o earlier concrete rest = .ok cs) :
    ∃ cs', d.completeArgs g written' o' earlier concrete' rest = .ok cs' ∧
      Forall₂ (g.Respelled free) cs cs' ∧ (¬ free → cs = cs') := by
  induction rest generalizing earlier concrete concrete' with
  | nil =>
    cases h
    exact ⟨concrete', rfl, hc, he⟩
  | cons p rest ih =>
    obtain ⟨t, c, ht, hn, hrest⟩ := completeArgs_cons.mp h
    obtain ⟨u, hu, htu⟩ := given_respelled hw hc he ht
    obtain ⟨c', hn', hcc, hec⟩ := htu.normalizes c hn
    have hall : Forall₂ (g.Respelled free) (concrete ++ [c]) (concrete' ++ [c']) :=
      List.rel_append hc (.cons hcc .nil)
    obtain ⟨cs', hcs', hr, hes⟩ := ih hall (fun hf => by rw [he hf, hec hf]) hrest
    exact ⟨cs', completeArgs_cons.mpr ⟨u, c', hu, hn', hcs'⟩, hr, hes⟩

/-- Spellings of the same arguments give spellings of one instance, and one instance where only
references outside inline objects are spelled differently. -/
theorem instantiate_respelled (o' : Origin) {written written' : List TypeExpr} {i : Instance}
    (hw : Forall₂ (g.Respelled free) written written') (h : d.instantiate g written o = .ok i) :
    ∃ j, d.instantiate g written' o' = .ok j ∧ j.id = i.id ∧
      Forall₂ (g.Respelled free) i.args j.args ∧ (¬ free → i = j) := by
  obtain ⟨hl, hid, hargs⟩ := instantiate_iff.mp h
  obtain ⟨cs, hcs, hr, he⟩ := completeArgs_respelled hw .nil (fun _ => rfl) hargs
  refine ⟨⟨i.id, cs⟩, instantiate_iff.mpr ⟨hw.length_eq ▸ hl, hid, hcs⟩, rfl, hr, fun hf => ?_⟩
  rw [← he hf]

theorem rebound_of_instantiate {written written' : List TypeExpr} {i : Instance}
    (hw : Forall₂ (g.Respelled free) written written') (h : d.instantiate g written o = .ok i)
    (h' : d.instantiate g written' o' = .ok i) : Forall₂ g.Rebound written written' := by
  obtain ⟨hl, -, hargs⟩ := instantiate_iff.mp h
  obtain ⟨hl', -, hargs'⟩ := instantiate_iff.mp h'
  obtain ⟨added, he, hadded⟩ := completeArgs_written hargs
  obtain ⟨added', he', hadded'⟩ := completeArgs_written hargs'
  obtain rfl : added = added' := he.symm.trans he'
  refine List.forall₂_iff_get.mpr ⟨hw.length_eq, fun k hk hk' => ?_⟩
  obtain ⟨c, hc, hn⟩ := hadded k (written.get ⟨k, hk⟩) (by omega) (by simp [hk])
  obtain ⟨c', hc', hn'⟩ := hadded' k (written'.get ⟨k, hk'⟩) (by omega) (by simp [hk'])
  obtain rfl : c = c' := Option.some.inj (hc.symm.trans hc')
  exact (hw.get hk hk').rebound hn hn'

end

end Declaration

theorem Instance.name_respelled {g : Graph} {free : Prop} {i j : Instance} (hid : j.id = i.id)
    (h : List.Forall₂ (g.Respelled free) i.args j.args) : j.name = i.name := by
  obtain ⟨hl, hzip⟩ := List.forall₂_iff_zip.mp h
  have hmap : i.args.map TypeExpr.encode = j.args.map TypeExpr.encode :=
    map_eq_map hl fun t u htu => (hzip htu).encode_eq
  unfold name TypeExpr.canonicalName
  rw [hid, Graph.Respelled.encode_ref _ none hmap none]

open Resolve
open List (Forall₂)

theorem Instance.eq_of_same {g : Graph} {free : Prop} {i j x : Instance} (hid : j.id = i.id)
    (h : Forall₂ (g.Respelled free) i.args j.args) (hi : x = i ∨ x.same i) (hj : x.same j) :
    i = j := by
  obtain ⟨hl, hzip⟩ := List.forall₂_iff_zip.mp h
  have hargs : x.args = i.args ∨ TypeExpr.sameAll x.args i.args :=
    hi.imp (congrArg Instance.args) fun hi => (Bool.and_eq_true_iff.mp hi).2
  have heq : i.args = j.args := Graph.Respelled.eq_of_sameAll hl
    (fun t u htu x => (hzip htu).eq_of_same) hargs (Bool.and_eq_true_iff.mp hj).2
  obtain ⟨id, args⟩ := i
  obtain ⟨id', args'⟩ := j
  cases hid
  cases heq
  rfl

/-- A reference has been resolved, and another one has the same arguments in a different notation.
It gives the same result and registers nothing exactly if the arguments differ only in whether
references outside inline objects name their modules, provided that the first reference gives its
own result again. Otherwise the names collide. -/
theorem Graph.respelled_repeats_iff (g : Graph) {ra rb : TypeRef TypeExpr} {oa ob : Origin}
    {d : Declaration} (ha : ra.builtin? = none) (hb : rb.builtin? = none)
    (hla : g.lookup ra oa = .ok d) (hlb : g.lookup rb ob = .ok d)
    (hargs : Forall₂ (g.Respelled True) ra.args rb.args) {st st' : Situation} {s : Schema}
    (h : Gives (g.resolveType (.ref ra) oa) st s st') :
    ∃ i j e, d.instantiate g ra.args oa = .ok i ∧ d.instantiate g rb.args ob = .ok j ∧
      s = .reference i.name ∧ st'.1.entries.find? i.name = some e ∧
      (Gives (g.resolveType (.ref rb) ob) st' s st' ↔
        Forall₂ g.Rebound ra.args rb.args ∧
          Gives (g.resolveType (.ref ra) oa) st' s st') ∧
      (¬ Gives (g.resolveType (.ref rb) ob) st' s st' →
        outcome (g.resolveType (.ref rb) ob) st' =
          (.error (.fault (.nameCollision i.name e.owner.text j.text)), st')) := by
  obtain ⟨i, hi⟩ := instantiated_of_gives ha hla h
  obtain ⟨j, hj, hid, hr, -⟩ := Declaration.instantiate_respelled ob hargs hi
  obtain ⟨n, hruna⟩ := exists_resolveType_ref ha hla hi
  obtain ⟨m, hrunb⟩ := exists_resolveType_ref hb hlb hj
  rw [hruna] at h
  obtain ⟨d', e, hd, harity, he, howner⟩ := held_of_gives
    (fun name owner => (within_keeps (holdsFor_invariant name owner) g n).2) h
  have hname : j.name = i.name := Instance.name_respelled hid hr
  have hs : s = .reference i.name := (gives_instanceOf h).1
  rw [hruna, hrunb, hs]
  unfold Gives
  rw [outcome_instanceOf_held hd harity he,
    outcome_instanceOf_held (hid ▸ hd) (harity.trans hr.length_eq) (hname ▸ he), hname]
  refine ⟨i, j, e, hi, hj, rfl, he, ?_⟩
  by_cases hsame : e.owner.same j
  · have hij : i = j := Instance.eq_of_same hid hr howner hsame
    have hrebound : Forall₂ g.Rebound ra.args rb.args :=
      Declaration.rebound_of_instantiate hargs hi (hij ▸ hj)
    simp [hsame, hij, hrebound]
  · simp only [hsame]
    refine ⟨iff_of_false nofun ?_, fun _ => rfl⟩
    rintro ⟨hrebound, hfirst⟩
    obtain ⟨j', hj', -, -, he'⟩ := Declaration.instantiate_respelled ob hrebound hi
    rw [hj] at hj'
    cases hj'
    obtain rfl := he' id
    simp [hsame] at hfirst

namespace Sample

def boxDeclaration : Declaration :=
  { interface "Box" [] [property "value" (.param "T")] with params := [⟨"T", none⟩] }

def boxes : Graph where
  declarations := [boxDeclaration, interface "User" [] []]
  controllers := []

def box (t : TypeExpr) : TypeRef TypeExpr := ⟨"Box", none, [t]⟩

def boxed (name : String) (t : TypeExpr) (s : Schema) (needs : Entries String RegistryEntry) :
    Situation :=
  (⟨(name, ⟨⟨⟨"m", "Box"⟩, [t]⟩, .defined (.object ⟨[("value", ⟨s, true, none, none⟩)], .implicit⟩)
    none⟩) :: needs⟩, [])

def strings : Situation :=
  boxed "Box_Array_string__" (.array (.keyword .string)) (.array (.primitive .string)) []

/-- `Box<string[]>` and `Box<Array<string>>` have one name, and the second one is refused. -/
theorem array_notations_collide :
    boxes.Respelled True (.array (.keyword .string)) (.ref ⟨"Array", none, [.keyword .string]⟩) ∧
    Gives (boxes.resolveType (.ref (box (.array (.keyword .string)))) ⟨"m", .memory⟩) (.empty, [])
      (.reference "Box_Array_string__") strings ∧
    Fails (boxes.resolveType (.ref (box (.ref ⟨"Array", none, [.keyword .string]⟩)))
      ⟨"m", .memory⟩) strings (.fault (.nameCollision "Box_Array_string__" "m::Box<string[]>"
        "m::Box<Array<string>>")) := by
  refine ⟨.named trivial (.refl _), rfl, ?_⟩
  have hsame : Instance.same ⟨⟨"m", "Box"⟩, [.array (.keyword .string)]⟩
      ⟨⟨"m", "Box"⟩, [.ref ⟨"Array", none, [.keyword .string]⟩]⟩ = false := by
    simp [Instance.same, TypeExpr.sameAll, TypeExpr.same]
  have hrefused : strings.1.reserve "Box_Array_string__"
      ⟨⟨"m", "Box"⟩, [.ref ⟨"Array", none, [.keyword .string]⟩]⟩ =
        .error (.nameCollision "Box_Array_string__" "m::Box<string[]>"
          "m::Box<Array<string>>") := by
    simp only [Registry.reserve, strings, boxed, Entries.find?, if_true, hsame]
    rfl
  obtain ⟨n, hn⟩ := exists_resolveType_ref (g := boxes)
    (r := box (.ref ⟨"Array", none, [.keyword .string]⟩)) (o := ⟨"m", .memory⟩) rfl rfl rfl
  rw [hn]
  exact fails_getOrCreate.mpr (.inl ⟨_, hrefused, rfl⟩)

def boundUser : TypeExpr := .ref ⟨"User", some "m", []⟩

def users : Situation :=
  boxed "Box_User_" boundUser (.reference "User")
    [("User", ⟨⟨⟨"m", "User"⟩, []⟩, .defined (.object .empty) none⟩)]

/-- `Box<User>` is the box of the `User` that names its module. -/
theorem module_notations_repeat :
    Gives (boxes.resolveType (.ref (box boundUser)) ⟨"m", .memory⟩) (.empty, [])
      (.reference "Box_User_") users ∧
    Gives (boxes.resolveType (.ref (box (.named "User"))) ⟨"m", .memory⟩) users
      (.reference "Box_User_") users := by
  have hbinds : boxes.Binds "User" "m" := ⟨rfl, _, rfl, rfl⟩
  have hspelled : ∀ free, Forall₂ (boxes.Respelled free) [boundUser] [.named "User"] :=
    fun free => .cons (.unbind hbinds rfl (by simp)) .nil
  have hfirst : Gives (boxes.resolveType (.ref (box boundUser)) ⟨"m", .memory⟩) (.empty, [])
      (.reference "Box_User_") users := rfl
  have hsame : Instance.same ⟨⟨"m", "Box"⟩, [boundUser]⟩ ⟨⟨"m", "Box"⟩, [boundUser]⟩ := by
    simp [boundUser, Instance.same, TypeExpr.sameAll, TypeExpr.same]
  have hagain : Gives (boxes.resolveType (.ref (box boundUser)) ⟨"m", .memory⟩) users
      (.reference "Box_User_") users := by
    obtain ⟨n, hn⟩ := exists_resolveType_ref (g := boxes) (r := box boundUser)
      (o := ⟨"m", .memory⟩) rfl rfl rfl
    rw [hn]
    exact gives_getOrCreate.mpr
      ⟨rfl, .inl ⟨Registry.reserve_eq_existing.mpr ⟨_, rfl, hsame⟩, rfl⟩⟩
  have hlookup : ∀ t, boxes.lookup (box t) ⟨"m", .memory⟩ = .ok boxDeclaration := fun _ => rfl
  obtain ⟨i, j, e, -, -, -, -, hrepeats, -⟩ :=
    boxes.respelled_repeats_iff rfl rfl (hlookup _) (hlookup _) (hspelled True) hfirst
  exact ⟨hfirst, hrepeats.mpr ⟨hspelled False, hagain⟩⟩

end Sample

end RouteContract
