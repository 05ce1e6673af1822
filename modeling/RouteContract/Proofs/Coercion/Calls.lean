import Mathlib.Data.List.Perm.Subperm
import Mathlib.Logic.Relation
import RouteContract.Proofs.Coercion.Stability

/-!
# The calls of coercion

The coercion of a value against a schema asks for other coercions: of the parts
of the value, of the same value against other schemas, and of defaults. It ends
within a number of nested steps exactly when all that it asks for end within
one step less, so it never ends once it asks for itself.
-/

set_option autoImplicit false

namespace RouteContract

/-- A chain longer than a list that it never leaves comes back to one of its places. -/
theorem exists_cycle {α : Type} {R : α → α → Prop} {x : α} {l places : List α}
    (h : List.IsChain R (x :: l)) (hx : x ∈ places)
    (hclosed : ∀ a b, a ∈ places → R a b → b ∈ places) (hlen : places.length ≤ l.length) :
    ∃ y, Relation.ReflTransGen R x y ∧ Relation.TransGen R y y := by
  have hp : List.Pairwise (Relation.TransGen R) (x :: l) :=
    List.isChain_iff_pairwise.mp (h.imp fun _ _ => .single)
  have reached : ∀ y ∈ x :: l, Relation.ReflTransGen R x y := by
    intro y hy
    rcases List.mem_cons.mp hy with rfl | hy
    · exact .refl
    · exact ((List.pairwise_cons.mp hp).1 y hy).to_reflTransGen
  have hsub : ∀ y ∈ x :: l, y ∈ places := by
    intro y hy
    have hxy := reached y hy
    clear hy
    induction hxy with
    | refl => exact hx
    | tail _ hab ih => exact hclosed _ _ ih hab
  by_contra hno
  push Not at hno
  have hnodup : (x :: l).Nodup := by
    apply hp.imp_of_mem
    rintro a b ha - hab rfl
    exact hno a (reached a ha) hab
  have hle := (List.subperm_of_subset hnodup hsub).length_le
  rw [List.length_cons] at hle
  omega

namespace Coercion

structure Attempt where
  schema : Schema
  value : Json

section

variable (ds : Definitions) (extras : Extras)

def EndsWithin (n : Nat) (a : Attempt) : Prop :=
  (jsonWithin ds extras n a.schema a.value "").isSome

def Endless (a : Attempt) : Prop := ∀ n, ¬ EndsWithin ds extras n a

def Fails (a : Attempt) : Prop :=
  ∃ n c, jsonWithin ds extras n a.schema a.value "" = some c ∧ c.isClean = false

inductive Passes : Attempt → Attempt → Prop
  | item {s e : Schema} {vs : List Json} {v : Json} (h : deref ds maxHops s = .ok (.array e))
      (hv : v ∈ vs) : Passes ⟨s, .array vs⟩ ⟨e, v⟩
  | declared {s : Schema} {o : ObjectSchema Schema} {fields : List (String × Json)} {name : String}
      {p : PropertySchema Schema} {v : Json} (h : deref ds maxHops s = .ok (.object o))
      (hp : (name, p) ∈ o.properties) (hv : Entries.find? fields name = some v) :
      Passes ⟨s, .object fields⟩ ⟨p.schema, v⟩
  | undeclared {s e : Schema} {o : ObjectSchema Schema} {fields : List (String × Json)}
      {key : String} {v : Json} (h : deref ds maxHops s = .ok (.object o))
      (hv : (key, v) ∈ fields) (hn : Entries.contains o.properties key = false)
      (ha : o.additional = .schema e) : Passes ⟨s, .object fields⟩ ⟨e, v⟩
  | alternative {s m : Schema} {before after : List Schema} {v : Json}
      (h : deref ds maxHops s = .ok (.union (before ++ m :: after)))
      (hb : ∀ x ∈ before, Fails ds extras ⟨x, v⟩) : Passes ⟨s, v⟩ ⟨m, v⟩
  | merged {s : Schema} {members : List Schema} {os : List (ObjectSchema Schema)} {v : Json}
      (h : deref ds maxHops s = .ok (.intersection members))
      (ho : objects ds members = .ok (some os)) :
      Passes ⟨s, v⟩ ⟨.object (os.foldl ObjectSchema.merge .empty), v⟩
  | constraint {s m : Schema} {members : List Schema} {v : Json}
      (h : deref ds maxHops s = .ok (.intersection members))
      (ho : objects ds members = .ok none) (hm : m ∈ members) : Passes ⟨s, v⟩ ⟨m, v⟩

inductive TakesDefault : Attempt → Attempt → Prop
  | default {s : Schema} {o : ObjectSchema Schema} {fields : List (String × Json)} {name : String}
      {p : PropertySchema Schema} {v : Json} (h : deref ds maxHops s = .ok (.object o))
      (hp : (name, p) ∈ o.properties) (hn : Entries.find? fields name = none)
      (hd : p.default = some v) : TakesDefault ⟨s, .object fields⟩ ⟨p.schema, v⟩

def Calls (a b : Attempt) : Prop := Passes ds extras a b ∨ TakesDefault ds a b

abbrev Leads : Attempt → Attempt → Prop := Relation.ReflTransGen (Calls ds extras)

/-- On the way of the attempt a default is taken whose coercion takes it again. -/
def NeedsItself (x : Attempt) : Prop :=
  ∃ a b, Leads ds extras x a ∧ TakesDefault ds a b ∧ Leads ds extras b a

end

section

variable {ds : Definitions} {extras : Extras} {n : Nat}

theorem endsWithin_iff {s : Schema} {v : Json} (path : String) :
    EndsWithin ds extras n ⟨s, v⟩ ↔ (jsonWithin ds extras n s v path).isSome :=
  ⟨jsonWithin_isSome_mono (Nat.le_refl n), jsonWithin_isSome_mono (Nat.le_refl n)⟩

theorem not_endsWithin_zero (a : Attempt) : ¬ EndsWithin ds extras 0 a := by
  simp [EndsWithin, jsonWithin]

theorem fails_iff {s : Schema} {v : Json} {path : String} {c : Coerced Typed}
    (hc : jsonWithin ds extras n s v path = some c) :
    Fails ds extras ⟨s, v⟩ ↔ c.isClean = false := by
  constructor
  · rintro ⟨m, d, hd, hu⟩
    exact (jsonWithin_alike hc hd).isClean.trans hu
  · intro hu
    obtain ⟨d, hd, hcd⟩ := jsonWithin_extends (Nat.le_refl n) s v path "" c hc
    exact ⟨n, d, hd, hcd.isClean.symm.trans hu⟩

theorem items_end {e : Schema} {vs : List Json} {path : String} :
    (jsonStep (jsonWithin ds extras n) ds extras (.array e) (.array vs) path).isSome ↔
      ∀ v ∈ vs, EndsWithin ds extras n ⟨e, v⟩ := by
  have hitems : (jsonStep (jsonWithin ds extras n) ds extras (.array e) (.array vs) path).isSome ↔
      (items (jsonWithin ds extras n) e path 0 vs).isSome := by
    cases hi : items (jsonWithin ds extras n) e path 0 vs <;> simp [jsonStep, hi]
  rw [hitems, items_isSome_iff]
  constructor
  · intro h v hv
    obtain ⟨i, hi, rfl⟩ := List.mem_iff_getElem.mp hv
    have hx : (vs[i], i) ∈ vs.zipIdx := by simp [List.mk_mem_zipIdx_iff_getElem?, hi]
    exact (endsWithin_iff _).mpr (h _ hx)
  · intro h x hx
    exact (endsWithin_iff _).mp (h x.1 (List.fst_mem_of_mem_zipIdx hx))

theorem parts_end {o : ObjectSchema Schema} {fields : List (String × Json)} {path : String} :
    (parts (jsonWithin ds extras n) extras o fields path).isSome ↔
      (∀ name p v, (name, p) ∈ o.properties →
        (Entries.find? fields name).or p.default = some v →
          EndsWithin ds extras n ⟨p.schema, v⟩) ∧
      ∀ key v e, (key, v) ∈ fields → Entries.contains o.properties key = false →
        o.additional = .schema e → EndsWithin ds extras n ⟨e, v⟩ := by
  rw [parts_isSome_iff]
  refine and_congr ?_ ?_
  · constructor
    · intro h name p v hp hv
      exact (endsWithin_iff _).mpr (property_isSome_iff.mp (h (name, p) hp) v hv)
    · intro h x hx
      exact property_isSome_iff.mpr fun v hv => (endsWithin_iff _).mp (h x.1 x.2 v hx hv)
  · constructor
    · intro h key v e hv hn ha
      have hx : (key, v) ∈ fields.filter fun x => !Entries.contains o.properties x.1 :=
        List.mem_filter.mpr ⟨hv, by simp [hn]⟩
      exact (endsWithin_iff _).mpr (extra_isSome_iff.mp (h (key, v) hx) e ha)
    · intro h x hx
      obtain ⟨hm, hn⟩ := List.mem_filter.mp hx
      exact extra_isSome_iff.mpr fun e ha =>
        (endsWithin_iff _).mp (h x.1 x.2 e hm (by simpa using hn) ha)

theorem object_ends {o : ObjectSchema Schema} {fields : List (String × Json)} {path : String} :
    (jsonStep (jsonWithin ds extras n) ds extras (.object o) (.object fields) path).isSome ↔
      (parts (jsonWithin ds extras n) extras o fields path).isSome := by
  cases hp : parts (jsonWithin ds extras n) extras o fields path <;> simp [jsonStep, object, hp]

theorem union_ends {members : List Schema} {v : Json} {path : String} :
    (firstMatch (jsonWithin ds extras n · v path) members path v members).isSome ↔
      ∀ before m after, members = before ++ m :: after →
        (∀ x ∈ before, Fails ds extras ⟨x, v⟩) → EndsWithin ds extras n ⟨m, v⟩ := by
  rw [firstMatch_isSome_iff_of_fails fun m c hc => fails_iff hc]
  simp only [endsWithin_iff path]

theorem intersection_ends {members : List Schema} {v : Json} {path : String} :
    (intersection (jsonWithin ds extras n) ds members v path).isSome ↔
      (∀ os, objects ds members = .ok (some os) →
        EndsWithin ds extras n ⟨.object (os.foldl ObjectSchema.merge .empty), v⟩) ∧
      (objects ds members = .ok none → ∀ m ∈ members, EndsWithin ds extras n ⟨m, v⟩) := by
  unfold intersection
  cases objects ds members with
  | error complaint => simp
  | ok os =>
    cases os with
    | some os => simp [endsWithin_iff path]
    | none =>
      have hm := mapM_isSome_iff (f := fun s => jsonWithin ds extras n s v path) members
      cases hc : members.mapM fun s => jsonWithin ds extras n s v path with
      | none => simpa [hc, endsWithin_iff path] using hm
      | some cs => simpa [hc, endsWithin_iff path] using hm

/-- An attempt ends exactly when all that it asks for end within one step less. -/
theorem endsWithin_succ_iff {a : Attempt} :
    EndsWithin ds extras (n + 1) a ↔ ∀ b, Calls ds extras a b → EndsWithin ds extras n b := by
  obtain ⟨s, v⟩ := a
  have hs : EndsWithin ds extras (n + 1) ⟨s, v⟩ ↔
      (through ds s "" fun s => jsonStep (jsonWithin ds extras n) ds extras s v "").isSome := Iff.rfl
  rw [hs]
  unfold through
  constructor
  · intro h b hb
    rcases hb with hb | hb
    · cases hb with
      | item hd hv =>
        rw [hd] at h
        exact items_end.mp h _ hv
      | declared hd hp hv =>
        rw [hd] at h
        exact (parts_end.mp (object_ends.mp h)).1 _ _ _ hp (by simp [hv])
      | undeclared hd hv hn ha =>
        rw [hd] at h
        exact (parts_end.mp (object_ends.mp h)).2 _ _ _ hv hn ha
      | alternative hd hb =>
        rw [hd] at h
        exact union_ends.mp h _ _ _ rfl hb
      | merged hd ho =>
        rw [hd] at h
        exact (intersection_ends.mp h).1 _ ho
      | constraint hd ho hm =>
        rw [hd] at h
        exact (intersection_ends.mp h).2 ho _ hm
    · cases hb with
      | default hd hp hn hv =>
        rw [hd] at h
        exact (parts_end.mp (object_ends.mp h)).1 _ _ _ hp (by simp [hn, hv])
  · intro h
    cases hd : deref ds maxHops s with
    | error complaint => rfl
    | ok t =>
      cases t with
      | primitive kind => rfl
      | enum values => rfl
      | array e =>
        cases v with
        | array vs => exact items_end.mpr fun v hv => h _ (.inl (.item hd hv))
        | _ => rfl
      | object o =>
        cases v with
        | object fields =>
          refine object_ends.mpr (parts_end.mpr ⟨fun name p v hp hv => ?_, fun key v e hv hn ha => ?_⟩)
          · cases hg : Entries.find? fields name with
            | some w =>
              simp only [hg, Option.some_or, Option.some.injEq] at hv
              exact h _ (.inl (.declared hd hp (hv ▸ hg)))
            | none => exact h _ (.inr (.default hd hp hg (by simpa [hg] using hv)))
          · exact h _ (.inl (.undeclared hd hv hn ha))
        | _ => rfl
      | union members =>
        apply union_ends.mpr
        intro before m after he hb
        subst he
        exact h _ (.inl (.alternative hd hb))
      | intersection members =>
        refine intersection_ends.mpr ⟨fun os ho => ?_, fun ho m hm => ?_⟩
        · exact h _ (.inl (.merged hd ho))
        · exact h _ (.inl (.constraint hd ho hm))
      | reference name => rfl

/-- What an ending attempt asks for ends in fewer steps. -/
theorem EndsWithin.of_calls {a b : Attempt} (h : EndsWithin ds extras n a)
    (hb : Calls ds extras a b) : ∃ m < n, EndsWithin ds extras m b := by
  cases n with
  | zero => exact absurd h (not_endsWithin_zero a)
  | succ n => exact ⟨n, Nat.lt_succ_self n, endsWithin_succ_iff.mp h b hb⟩

theorem EndsWithin.of_transGen {a b : Attempt} (h : EndsWithin ds extras n a)
    (hb : Relation.TransGen (Calls ds extras) a b) : ∃ m < n, EndsWithin ds extras m b := by
  induction hb with
  | single hb => exact h.of_calls hb
  | tail _ hb ih =>
    obtain ⟨m, hm, hc⟩ := ih
    obtain ⟨k, hk, hd⟩ := hc.of_calls hb
    exact ⟨k, by omega, hd⟩

theorem endless_of_transGen {a : Attempt} (h : Relation.TransGen (Calls ds extras) a a) :
    Endless ds extras a := by
  intro n
  induction n using Nat.strongRecOn with
  | _ n ih =>
    intro hn
    obtain ⟨m, hm, ha⟩ := hn.of_transGen h
    exact ih m hm ha

theorem Endless.of_leads {a b : Attempt} (h : Leads ds extras a b) (hb : Endless ds extras b) :
    Endless ds extras a := by
  intro n hn
  rcases Relation.reflTransGen_iff_eq_or_transGen.mp h with rfl | h
  · exact hb n hn
  · obtain ⟨m, -, hm⟩ := hn.of_transGen h
    exact hb m hm

/-- An attempt on whose way a default needs itself never ends. -/
theorem NeedsItself.endless {x : Attempt} (h : NeedsItself ds extras x) : Endless ds extras x := by
  obtain ⟨a, b, hxa, hab, hba⟩ := h
  exact .of_leads hxa (endless_of_transGen (.head' (.inr hab) hba))

/-- An attempt that does not end within some steps asks for others in a chain as long. -/
theorem exists_chain {a : Attempt} (h : ¬ EndsWithin ds extras n a) :
    ∃ l, List.IsChain (Calls ds extras) (a :: l) ∧ l.length = n := by
  induction n generalizing a with
  | zero => exact ⟨[], .singleton a, rfl⟩
  | succ n ih =>
    rw [endsWithin_succ_iff] at h
    push Not at h
    obtain ⟨b, hab, hb⟩ := h
    obtain ⟨l, hl, hn⟩ := ih hb
    exact ⟨b :: l, .cons_cons hab hl, by simp [hn]⟩

end

end Coercion

end RouteContract
