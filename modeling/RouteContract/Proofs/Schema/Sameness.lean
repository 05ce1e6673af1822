import RouteContract.Proofs.Lists
import RouteContract.Proofs.Schema.Merging
import RouteContract.Proofs.Schema.Objects

/-!
# Schemas that are the same

Equality of schemas and of values looks up the entries of one table in the other
and takes both zeros for one number. On tables that repeat no key it gives a
relation that the parts inherit, whatever their order, and that merging objects
keeps.
-/

set_option autoImplicit false

namespace RouteContract

namespace Entries

variable {κ α : Type}

structure Matched (R : α → α → Prop) (t u : Entries κ α) : Prop where
  keys : ∀ key, key ∈ t.keys ↔ key ∈ u.keys
  values : ∀ key a b, (key, a) ∈ t → (key, b) ∈ u → R a b

structure Paired (R : α → α → Prop) (t u : Entries κ α) : Prop where
  left : ∀ x ∈ t, ∃ y ∈ u, x.1 = y.1 ∧ R x.2 y.2
  right : ∀ y ∈ u, ∃ x ∈ t, x.1 = y.1 ∧ R x.2 y.2

section

variable {R : α → α → Prop} {t u : Entries κ α}

theorem Paired.refl (h : ∀ a, R a a) (t : Entries κ α) : Paired R t t :=
  ⟨fun x hx => ⟨x, hx, rfl, h x.2⟩, fun x hx => ⟨x, hx, rfl, h x.2⟩⟩

theorem Matched.paired (h : Matched R t u) : Paired R t u where
  left x hx := by
    obtain ⟨b, hb⟩ := mem_keys.mp ((h.keys x.1).mp (mem_keys.mpr ⟨x.2, hx⟩))
    exact ⟨(x.1, b), hb, rfl, h.values x.1 x.2 b hx hb⟩
  right y hy := by
    obtain ⟨a, ha⟩ := mem_keys.mp ((h.keys y.1).mpr (mem_keys.mpr ⟨y.2, hy⟩))
    exact ⟨(y.1, a), ha, rfl, h.values y.1 a y.2 ha hy⟩

theorem Paired.filter (h : Paired R t u) {f g : κ → Bool} (hfg : ∀ key, f key = g key) :
    Paired R (List.filter (fun x => f x.1) t) (List.filter (fun x => g x.1) u) where
  left x hx := by
    obtain ⟨hmem, hf⟩ := List.mem_filter.mp hx
    obtain ⟨y, hy, hkey, hxy⟩ := h.left x hmem
    exact ⟨y, List.mem_filter.mpr ⟨hy, by rw [← hfg, ← hkey, hf]⟩, hkey, hxy⟩
  right y hy := by
    obtain ⟨hmem, hg⟩ := List.mem_filter.mp hy
    obtain ⟨x, hx, hkey, hxy⟩ := h.right y hmem
    exact ⟨x, List.mem_filter.mpr ⟨hx, by rw [hfg, hkey, hg]⟩, hkey, hxy⟩

theorem Matched.reverse (h : Matched R t u) : Matched R t.reverse u.reverse where
  keys key := by simpa [Entries.keys] using h.keys key
  values key a b ha hb := h.values key a b (List.mem_reverse.mp ha) (List.mem_reverse.mp hb)

variable [DecidableEq κ]

theorem Matched.find? (h : Matched R t u) (key : κ) :
    Option.Rel R (t.find? key) (u.find? key) := by
  cases ha : t.find? key with
  | none =>
    have hu : key ∉ u.keys := (h.keys key).not.mp (find?_eq_none_iff.mp ha)
    rw [find?_eq_none_iff.mpr hu]
    exact .none
  | some a =>
    have ht : key ∈ t.keys := mem_keys.mpr ⟨a, mem_of_find? ha⟩
    obtain ⟨b, hb⟩ := Option.isSome_iff_exists.mp (find?_isSome_iff.mpr ((h.keys key).mp ht))
    rw [hb]
    exact .some (h.values key a b (mem_of_find? ha) (mem_of_find? hb))

theorem Paired.contains (h : Paired R t u) (key : κ) :
    Entries.contains t key = Entries.contains u key := by
  have hkeys : key ∈ t.keys ↔ key ∈ u.keys := by
    simp only [mem_keys]
    constructor
    · rintro ⟨a, ha⟩
      obtain ⟨y, hy, rfl, -⟩ := h.left _ ha
      exact ⟨y.2, hy⟩
    · rintro ⟨b, hb⟩
      obtain ⟨x, hx, rfl, -⟩ := h.right _ hb
      exact ⟨x.2, hx⟩
  rw [Bool.eq_iff_iff]
  exact find?_isSome_iff.trans (hkeys.trans find?_isSome_iff.symm)

/-- Tables of one length, one of which repeats no key, match when the other has all of its keys. -/
theorem matched_of_found (hnodup : t.keys.Nodup) (hlength : t.length = u.length)
    (h : ∀ key a, (key, a) ∈ t → ∃ b, u.find? key = some b ∧ R a b) : Matched R t u := by
  have hsub : t.keys ⊆ u.keys := by
    intro key hkey
    obtain ⟨a, ha⟩ := mem_keys.mp hkey
    obtain ⟨b, hb, -⟩ := h key a ha
    exact mem_keys.mpr ⟨b, mem_of_find? hb⟩
  have hperm : t.keys.Perm u.keys := by
    apply (List.subperm_of_subset hnodup hsub).perm_of_length_le
    simp [Entries.keys, hlength]
  refine ⟨fun key => hperm.mem_iff, fun key a b ha hb => ?_⟩
  obtain ⟨b', hb', hab⟩ := h key a ha
  rwa [eq_of_nodup (hperm.nodup hnodup) hb (mem_of_find? hb')]

end

end Entries

theorem option_rel_or {α : Type} {R : α → α → Prop} {a b c d : Option α} (h : Option.Rel R a b)
    (h' : Option.Rel R c d) : Option.Rel R (a.or c) (b.or d) := by
  cases h with
  | none => simpa using h'
  | some h => exact .some h

theorem option_rel_refl {α : Type} {R : α → α → Prop} (h : ∀ a, R a a) (a : Option α) :
    Option.Rel R a a := by
  cases a with
  | none => exact .none
  | some a => exact .some (h a)

namespace Number.Binary64

variable {x y z : Binary64}

theorem same_iff : x.same y ↔ x = y ∨ x.isZero ∧ y.isZero := by simp [same]

theorem same_self (x : Binary64) : x.same x := same_iff.mpr (.inl rfl)

theorem same_congr (h : x.same y) (z : Binary64) : z.same x = z.same y := by
  rw [Bool.eq_iff_iff, same_iff, same_iff]
  rcases same_iff.mp h with rfl | ⟨hx, hy⟩
  · exact Iff.rfl
  · constructor
    · rintro (rfl | ⟨hz, -⟩)
      · exact .inr ⟨hx, hy⟩
      · exact .inr ⟨hz, hy⟩
    · rintro (rfl | ⟨hz, -⟩)
      · exact .inr ⟨hy, hx⟩
      · exact .inr ⟨hz, hx⟩

theorem same_symm (x y : Binary64) : x.same y = y.same x := by
  rw [Bool.eq_iff_iff, same_iff, same_iff, eq_comm, and_comm]

theorem toInt?_of_isZero (h : x.isZero) : x.toInt? = some 0 := by
  have hm : x.mantissa = 0 := by simpa [isZero] using h
  cases hn : x.negative <;> simp [toInt?, ratio, hm, signed, hn]

theorem toInt?_of_same (h : x.same y) : x.toInt? = y.toInt? := by
  rcases same_iff.mp h with rfl | ⟨hx, hy⟩
  · rfl
  · rw [toInt?_of_isZero hx, toInt?_of_isZero hy]

end Number.Binary64

namespace EnumValue

theorem same_self (a : EnumValue) : a.same a := by
  cases a with
  | string s => simp [same]
  | number x => exact x.same_self

theorem same_congr {a b : EnumValue} (h : a.same b) (c : EnumValue) : c.same a = c.same b := by
  cases a with
  | string s =>
    cases b with
    | string t =>
      have hst : s = t := by simpa [same] using h
      rw [hst]
    | number y => cases h
  | number x =>
    cases b with
    | string t => cases h
    | number y =>
      cases c with
      | string s => rfl
      | number z => exact Number.Binary64.same_congr h z

end EnumValue

namespace Json

inductive Agrees : Json → Json → Prop
  | refl (v : Json) : Agrees v v
  | float {x y : Number.Binary64} (h : x.same y) : Agrees (.float x) (.float y)
  | array {vs ws : List Json} (h : List.Forall₂ Agrees vs ws) : Agrees (.array vs) (.array ws)
  | object {fields fields' : Entries String Json}
      (hk : ∀ key, key ∈ fields.keys ↔ key ∈ fields'.keys)
      (hv : ∀ key v w, (key, v) ∈ fields → (key, w) ∈ fields' → Agrees v w) :
      Agrees (.object fields) (.object fields')

theorem Agrees.matched {fields fields' : Entries String Json}
    (h : Agrees (.object fields) (.object fields')) :
    fields = fields' ∨ Entries.Matched Agrees fields fields' := by
  cases h with
  | refl => exact .inl rfl
  | object hk hv => exact .inr ⟨hk, hv⟩

theorem Agrees.paired {fields fields' : Entries String Json}
    (h : Agrees (.object fields) (.object fields')) : Entries.Paired Agrees fields fields' := by
  rcases h.matched with rfl | h
  · exact .refl .refl _
  · exact h.paired

theorem Agrees.find? {fields fields' : Entries String Json}
    (h : Agrees (.object fields) (.object fields')) (key : String) :
    Option.Rel Agrees (Entries.find? fields key) (Entries.find? fields' key) := by
  rcases h.matched with rfl | h
  · exact option_rel_refl .refl _
  · exact h.find? key

def Keyed (v : Json) : Prop :=
  ∀ fields, .object fields ∈ tree.nodes v → (Entries.keys fields).Nodup

theorem Keyed.of_child {v w : Json} (h : v.Keyed) (hw : w ∈ v.children) : w.Keyed := by
  intro fields hfields
  refine h fields ?_
  rw [Tree.nodes_eq]
  exact List.mem_cons_of_mem _ (List.mem_flatMap.mpr ⟨w, hw, hfields⟩)

theorem sameItems_iff {vs ws : List Json} :
    sameItems vs ws ↔ List.Forall₂ (fun v w => v.same w = true) vs ws := by
  induction vs generalizing ws with
  | nil => cases ws <;> simp [sameItems]
  | cons v vs ih => cases ws <;> simp [sameItems, ih]

theorem sameFields_iff {fields fields' : List (String × Json)} :
    sameFields fields fields' ↔
      ∀ key v, (key, v) ∈ fields → ∃ w, Entries.find? fields' key = some w ∧ v.same w = true := by
  induction fields with
  | nil => simp [sameFields]
  | cons x fields ih =>
    obtain ⟨key, v⟩ := x
    rw [sameFields, Bool.and_eq_true, ih]
    constructor
    · rintro ⟨hx, hrest⟩ k w hw
      rcases List.mem_cons.mp hw with hw | hw
      · cases hw
        split at hx
        · rename_i b hb
          exact ⟨b, hb, hx⟩
        · cases hx
      · exact hrest k w hw
    · intro h
      obtain ⟨b, hb, hsame⟩ := h key v List.mem_cons_self
      exact ⟨by rw [hb]; exact hsame, fun k w hw => h k w (List.mem_cons_of_mem _ hw)⟩

theorem same_self {v : Json} (hv : v.Keyed) : v.same v := by
  induction v using tree.induction with
  | _ v ih =>
    cases v with
    | null => rfl
    | bool b => simp [same]
    | integer n => simp [same]
    | float x => exact x.same_self
    | string s => simp [same]
    | array vs =>
      exact sameItems_iff.mpr (List.forall₂_same.mpr fun v hmem => ih v hmem (hv.of_child hmem))
    | object fields =>
      have hnodup := hv fields (tree.mem_nodes_self _)
      simp only [same, decide_true, Bool.true_and]
      refine sameFields_iff.mpr fun key v hmem => ⟨v, Entries.find?_of_mem hnodup hmem, ?_⟩
      have hchild : v ∈ (object fields).children := List.mem_map_of_mem (f := Prod.snd) hmem
      exact ih v hchild (hv.of_child hchild)

theorem agrees_of_same {v w : Json} (hv : v.Keyed) (h : v.same w) : Agrees v w := by
  induction v using tree.induction generalizing w with
  | _ v ih =>
    cases v with
    | array vs =>
      cases w with
      | array ws =>
        refine .array (forall₂_imp_left (sameItems_iff.mp h) fun v hmem w hsame => ?_)
        exact ih v hmem (hv.of_child hmem) hsame
      | _ => cases h
    | object fields =>
      cases w with
      | object fields' =>
        simp only [same, Bool.and_eq_true, decide_eq_true_eq] at h
        have hnodup := hv fields (tree.mem_nodes_self _)
        have hmatched : Entries.Matched Agrees fields fields' := by
          refine Entries.matched_of_found hnodup h.1 fun key v hmem => ?_
          obtain ⟨w, hw, hsame⟩ := sameFields_iff.mp h.2 key v hmem
          have hchild : v ∈ (object fields).children := List.mem_map_of_mem (f := Prod.snd) hmem
          exact ⟨w, hw, ih v hchild (hv.of_child hchild) hsame⟩
        exact .object hmatched.keys hmatched.values
      | _ => cases h
    | float x =>
      cases w with
      | float y => exact .float h
      | _ => cases h
    | null =>
      cases w with
      | null => exact .refl _
      | _ => cases h
    | bool b =>
      cases w with
      | bool b' =>
        obtain rfl : b = b' := by simpa [same] using h
        exact .refl _
      | _ => cases h
    | integer n =>
      cases w with
      | integer n' =>
        obtain rfl : n = n' := by simpa [same] using h
        exact .refl _
      | _ => cases h
    | string s =>
      cases w with
      | string s' =>
        obtain rfl : s = s' := by simpa [same] using h
        exact .refl _
      | _ => cases h

end Json

structure PropertySchema.Agrees {σ : Type} (R : σ → σ → Prop) (p q : PropertySchema σ) : Prop where
  schema : R p.schema q.schema
  required : p.required = q.required
  default : Option.Rel Json.Agrees p.default q.default

inductive Additional.Agrees {σ : Type} (R : σ → σ → Prop) : Additional σ → Additional σ → Prop
  | implicit : Agrees R .implicit .implicit
  | any : Agrees R .any .any
  | schema {s t : σ} (h : R s t) : Agrees R (.schema s) (.schema t)

namespace Schema

inductive Agrees : Schema → Schema → Prop
  | refl (s : Schema) : Agrees s s
  | array {s t : Schema} (h : Agrees s t) : Agrees (.array s) (.array t)
  | enum {as bs : List EnumValue} (h : List.Forall₂ (fun a b => a.same b = true) as bs) :
      Agrees (.enum as) (.enum bs)
  | object {o o' : ObjectSchema Schema}
      (hk : ∀ name, name ∈ Entries.keys o.properties ↔ name ∈ Entries.keys o'.properties)
      (hs : ∀ name p q, (name, p) ∈ o.properties → (name, q) ∈ o'.properties →
        Agrees p.schema q.schema)
      (hp : ∀ name p q, (name, p) ∈ o.properties → (name, q) ∈ o'.properties →
        p.required = q.required ∧ Option.Rel Json.Agrees p.default q.default)
      (ha : Additional.Agrees Agrees o.additional o'.additional) : Agrees (.object o) (.object o')
  | union {ss ts : List Schema} (h : List.Forall₂ Agrees ss ts) : Agrees (.union ss) (.union ts)
  | intersection {ss ts : List Schema} (h : List.Forall₂ Agrees ss ts) :
      Agrees (.intersection ss) (.intersection ts)

abbrev PropertiesAgree : PropertySchema Schema → PropertySchema Schema → Prop :=
  PropertySchema.Agrees Agrees

theorem Agrees.of_matched {o o' : ObjectSchema Schema}
    (hp : Entries.Matched PropertiesAgree o.properties o'.properties)
    (ha : Additional.Agrees Agrees o.additional o'.additional) : Agrees (.object o) (.object o') :=
  .object hp.keys (fun name p q hmem hmem' => (hp.values name p q hmem hmem').schema)
    (fun name p q hmem hmem' =>
      ⟨(hp.values name p q hmem hmem').required, (hp.values name p q hmem hmem').default⟩) ha

/-- Objects that agree are one, or match property by property. -/
theorem Agrees.matched {o o' : ObjectSchema Schema} (h : Agrees (.object o) (.object o')) :
    o = o' ∨ (Entries.Matched PropertiesAgree o.properties o'.properties ∧
      Additional.Agrees Agrees o.additional o'.additional) := by
  cases h with
  | refl => exact .inl rfl
  | object hk hs hp ha =>
    refine .inr ⟨⟨hk, fun name p q hmem hmem' => ?_⟩, ha⟩
    obtain ⟨hr, hd⟩ := hp name p q hmem hmem'
    exact ⟨hs name p q hmem hmem', hr, hd⟩

theorem propertiesAgree_refl (p : PropertySchema Schema) : PropertiesAgree p p :=
  ⟨.refl _, rfl, option_rel_refl Json.Agrees.refl _⟩

theorem additional_refl (a : Additional Schema) : Additional.Agrees Agrees a a := by
  cases a with
  | implicit => exact .implicit
  | any => exact .any
  | schema s => exact .schema (.refl s)

theorem Agrees.paired {o o' : ObjectSchema Schema} (h : Agrees (.object o) (.object o')) :
    Entries.Paired PropertiesAgree o.properties o'.properties ∧
      Additional.Agrees Agrees o.additional o'.additional := by
  rcases h.matched with rfl | ⟨hp, ha⟩
  · exact ⟨.refl propertiesAgree_refl _, additional_refl _⟩
  · exact ⟨hp.paired, ha⟩

def Keyed (s : Schema) : Prop :=
  ∀ o, s.Has o → (Entries.keys o.properties).Nodup ∧
    ∀ name p v, (name, p) ∈ o.properties → p.default = some v → v.Keyed

theorem Keyed.of_child {s t : Schema} (h : s.Keyed) (ht : t ∈ s.children) : t.Keyed :=
  fun o ho => h o (ho.of_child ht)

theorem keyed_of_children {s : Schema}
    (ho : ∀ o, s = .object o → (Entries.keys o.properties).Nodup ∧
      ∀ name p v, (name, p) ∈ o.properties → p.default = some v → v.Keyed)
    (hs : ∀ t ∈ s.children, t.Keyed) : s.Keyed := by
  intro o h
  rcases has_iff.mp h with h | ⟨t, ht, h⟩
  · exact ho o h
  · exact hs t ht o h

theorem sameValues_iff {as bs : List EnumValue} :
    sameValues as bs ↔ List.Forall₂ (fun a b => a.same b = true) as bs := by
  induction as generalizing bs with
  | nil => cases bs <;> simp [sameValues]
  | cons a as ih => cases bs <;> simp [sameValues, ih]

theorem sameAll_iff {ss ts : List Schema} :
    sameAll ss ts ↔ List.Forall₂ (fun s t => s.same t = true) ss ts := by
  induction ss generalizing ts with
  | nil => cases ts <;> simp [sameAll]
  | cons s ss ih => cases ts <;> simp [sameAll, ih]

theorem default_agrees {d d' : Option Json} (hd : ∀ v, d = some v → v.Keyed)
    (h : sameDefault d d') : Option.Rel Json.Agrees d d' := by
  cases d with
  | none =>
    cases d' with
    | none => exact .none
    | some w => cases h
  | some v =>
    cases d' with
    | none => cases h
    | some w => exact .some (Json.agrees_of_same (hd v rfl) h)

theorem additional_agrees {a b : Additional Schema}
    (ha : ∀ s t, a = .schema s → s.same t → Agrees s t) (h : sameAdditional a b) :
    Additional.Agrees Agrees a b := by
  cases a with
  | implicit =>
    cases b with
    | implicit => exact .implicit
    | _ => simp [sameAdditional] at h
  | any =>
    cases b with
    | any => exact .any
    | _ => simp [sameAdditional] at h
  | schema s =>
    cases b with
    | schema t => exact .schema (ha s t rfl (by simpa only [sameAdditional] using h))
    | _ => simp [sameAdditional] at h

theorem sameProperties_iff {ps qs : List (String × PropertySchema Schema)} :
    sameProperties ps qs ↔ ∀ name p, (name, p) ∈ ps → ∃ q, Entries.find? qs name = some q ∧
      p.schema.same q.schema = true ∧ p.required = q.required ∧
      sameDefault p.default q.default ∧ p.description = q.description := by
  induction ps with
  | nil => simp [sameProperties]
  | cons x ps ih =>
    obtain ⟨name, s, required, default, description⟩ := x
    rw [sameProperties, Bool.and_eq_true, ih]
    constructor
    · rintro ⟨hx, hrest⟩ k p hp
      rcases List.mem_cons.mp hp with hp | hp
      · cases hp
        split at hx
        · rename_i q hq
          exact ⟨q, hq, by simpa [and_assoc] using hx⟩
        · cases hx
      · exact hrest k p hp
    · intro h
      obtain ⟨q, hq, hsame⟩ := h name _ List.mem_cons_self
      exact ⟨by rw [hq]; simpa [and_assoc] using hsame,
        fun k p hp => h k p (List.mem_cons_of_mem _ hp)⟩

theorem agrees_of_same {s t : Schema} (hs : s.Keyed) (h : s.same t) : Agrees s t := by
  induction s using tree.induction generalizing t with
  | _ s ih =>
    have members : ∀ {ss ts : List Schema}, (∀ m ∈ ss, m ∈ s.children) → sameAll ss ts →
        List.Forall₂ Agrees ss ts := fun hmem hsame =>
      forall₂_imp_left (sameAll_iff.mp hsame) fun m hm _ hmt =>
        ih m (hmem m hm) (hs.of_child (hmem m hm)) hmt
    cases s with
    | primitive kind =>
      cases t with
      | primitive kind' =>
        obtain rfl : kind = kind' := by simpa [same] using h
        exact .refl _
      | _ => simp [same] at h
    | array e =>
      cases t with
      | array e' =>
        have he : e ∈ (array e).children := List.mem_singleton_self e
        exact .array (ih e he (hs.of_child he) (by simpa only [same] using h))
      | _ => simp [same] at h
    | enum as =>
      cases t with
      | enum bs => exact .enum (sameValues_iff.mp (by simpa only [same] using h))
      | _ => simp [same] at h
    | object o =>
      cases t with
      | object o' =>
        obtain ⟨hnodup, hdefaults⟩ := hs o (has_self o)
        obtain ⟨ps, a⟩ := o
        obtain ⟨qs, b⟩ := o'
        simp only [same, Bool.and_eq_true, decide_eq_true_eq] at h
        obtain ⟨⟨hlength, hproperties⟩, hadditional⟩ := h
        refine .of_matched (Entries.matched_of_found hnodup hlength fun name p hp => ?_) ?_
        · obtain ⟨q, hq, hschema, hrequired, hdefault, -⟩ :=
            sameProperties_iff.mp hproperties name p hp
          have hchild := mem_children_object.mpr (.inl ⟨name, p, hp, rfl⟩)
          exact ⟨q, hq, ih _ hchild (hs.of_child hchild) hschema, hrequired,
            default_agrees (fun v hv => hdefaults name p v hp hv) hdefault⟩
        · refine additional_agrees (fun e e' ha he => ?_) hadditional
          have hchild := mem_children_object.mpr (.inr ha)
          exact ih e hchild (hs.of_child hchild) he
      | _ => simp [same] at h
    | union ss =>
      cases t with
      | union ts => exact .union (members (fun _ hm => hm) (by simpa only [same] using h))
      | _ => simp [same] at h
    | intersection ss =>
      cases t with
      | intersection ts =>
        exact .intersection (members (fun _ hm => hm) (by simpa only [same] using h))
      | _ => simp [same] at h
    | reference name =>
      cases t with
      | reference name' =>
        obtain rfl : name = name' := by simpa [same] using h
        exact .refl _
      | _ => simp [same] at h

end Schema

namespace ObjectSchema

open Schema (Agrees PropertiesAgree propertiesAgree_refl additional_refl)

variable {o o' : ObjectSchema Schema} {os os' : List (ObjectSchema Schema)}

theorem latest?_cons (o : ObjectSchema Schema) (os : List (ObjectSchema Schema)) (name : String) :
    latest? (o :: os) name =
      (latest? os name).or (Entries.find? o.properties.reverse name) := by
  rw [latest?, latest?, versions, List.flatMap_cons, List.reverse_append, Entries.find?_append]
  rfl

theorem demands_cons (o : ObjectSchema Schema) (os : List (ObjectSchema Schema)) (name : String) :
    demands (o :: os) name =
      ((o.properties.any fun x => x.1 = name && x.2.required) || demands os name) := by
  rw [demands, versions, List.flatMap_cons, List.any_append]
  rfl

theorem latest?_agrees (h : List.Forall₂ (fun o o' => Agrees (.object o) (.object o')) os os')
    (name : String) : Option.Rel PropertiesAgree (latest? os name) (latest? os' name) := by
  induction h with
  | nil => exact .none
  | cons ho _ ih =>
    rw [latest?_cons, latest?_cons]
    refine option_rel_or ih ?_
    rcases ho.matched with rfl | ⟨hp, -⟩
    · exact option_rel_refl propertiesAgree_refl _
    · exact hp.reverse.find? name

theorem any_required_eq {ps qs : Entries String (PropertySchema Schema)}
    (h : Entries.Paired PropertiesAgree ps qs) (name : String) :
    (ps.any fun x => x.1 = name && x.2.required) =
      qs.any fun x => x.1 = name && x.2.required := by
  rw [Bool.eq_iff_iff]
  simp only [List.any_eq_true, Bool.and_eq_true, decide_eq_true_eq]
  constructor
  · rintro ⟨x, hx, hname, hr⟩
    obtain ⟨y, hy, hkey, hxy⟩ := h.left x hx
    exact ⟨y, hy, hkey ▸ hname, hxy.required ▸ hr⟩
  · rintro ⟨y, hy, hname, hr⟩
    obtain ⟨x, hx, hkey, hxy⟩ := h.right y hy
    exact ⟨x, hx, hkey ▸ hname, hxy.required ▸ hr⟩

theorem demands_agree (h : List.Forall₂ (fun o o' => Agrees (.object o) (.object o')) os os')
    (name : String) : demands os name = demands os' name := by
  induction h with
  | nil => rfl
  | cons ho _ ih => rw [demands_cons, demands_cons, ih, any_required_eq ho.paired.1 name]

theorem merge_additional_agrees {a a' : ObjectSchema Schema}
    (ha : Additional.Agrees Agrees a.additional a'.additional)
    (ho : Additional.Agrees Agrees o.additional o'.additional) :
    Additional.Agrees Agrees (a.merge o).additional (a'.merge o').additional := by
  simp only [merge]
  generalize o.additional = b at ho
  generalize o'.additional = b' at ho
  cases ho with
  | implicit => exact ha
  | any => exact .any
  | schema h => exact .schema h

theorem merged_additional_agrees
    (h : List.Forall₂ (fun o o' => Agrees (.object o) (.object o')) os os')
    {a a' : ObjectSchema Schema} (ha : Additional.Agrees Agrees a.additional a'.additional) :
    Additional.Agrees Agrees (os.foldl merge a).additional (os'.foldl merge a').additional := by
  induction h generalizing a a' with
  | nil => exact ha
  | cons ho _ ih => exact ih (merge_additional_agrees ha ho.paired.2)

/-- Merging does not tell apart objects that agree. -/
theorem merged_agrees (h : List.Forall₂ (fun o o' => Agrees (.object o) (.object o')) os os') :
    Agrees (.object (os.foldl merge .empty)) (.object (os'.foldl merge .empty)) := by
  refine .of_matched ⟨fun name => ?_, fun name p q hmem hmem' => ?_⟩
    (merged_additional_agrees h (additional_refl _))
  · have hlatest := latest?_agrees h name
    rw [← Entries.find?_isSome_iff, ← Entries.find?_isSome_iff, find?_merged, find?_merged,
      Option.isSome_map, Option.isSome_map]
    generalize latest? os name = p at hlatest
    generalize latest? os' name = q at hlatest
    cases hlatest <;> simp
  · obtain ⟨p, hp, rfl⟩ := mem_merged.mp hmem
    obtain ⟨q, hq, rfl⟩ := mem_merged.mp hmem'
    have hlatest := latest?_agrees h name
    rw [hp, hq] at hlatest
    cases hlatest with
    | some hpq => exact ⟨hpq.schema, demands_agree h name, hpq.default⟩

end ObjectSchema

end RouteContract
