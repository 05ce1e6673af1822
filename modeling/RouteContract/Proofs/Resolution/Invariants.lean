import RouteContract.Proofs.Resolution.Runs
import RouteContract.Proofs.Schema.Parts

/-!
# Invariants of resolution

Resolution changes the registry only by claiming free names and by defining
claimed ones, and what it defines is an object or an enum. An invariant that
these two changes keep is kept by every run, also by one that fails.
-/

set_option autoImplicit false

namespace RouteContract

structure Registry.Invariant (I : Registry → Prop) : Prop where
  reserve : ∀ ⦃r r' : Registry⦄ ⦃name : String⦄ ⦃owner : Instance⦄, I r →
    r.reserve name owner = .ok (.fresh r') → I r'
  define : ∀ ⦃r : Registry⦄ ⦃name : String⦄ ⦃schema : Schema⦄ ⦃description : Option String⦄, I r →
    schema.isGround → I (r.define name schema description)

namespace Resolve

/-- A run keeps the invariant, however it ends. What it gives has the property, and then the same
members are being collected as before. -/
def Ensures {α : Type} (I : Registry → Prop) (m : Resolve α) (Q : α → Prop) : Prop :=
  ∀ st : Situation, I st.1 → I (outcome m st).2.1 ∧
    ∀ a st', Gives m st a st' → Q a ∧ st'.2 = st.2

def Obtains {α : Type} (I : Registry → Prop) (m : Resolve α) (a : α) : Prop :=
  ∃ st st', I st.1 ∧ Gives m st a st'

namespace Ensures

variable {α β : Type} {I : Registry → Prop}

theorem weaken {m : Resolve α} {P Q : α → Prop} (h : Ensures I m P) (hpq : ∀ a, P a → Q a) :
    Ensures I m Q :=
  fun st hst => ⟨(h st hst).1, fun a st' ha => ((h st hst).2 a st' ha).imp (hpq a) id⟩

theorem after {m : Resolve α} {Q : α → Prop} (h : Ensures I m Q) {st st' : Situation} {a : α}
    (hst : I st.1) (hm : Gives m st a st') : I st'.1 := by
  have hkeep := (h st hst).1
  rwa [show outcome m st = (.ok a, st') from hm] at hkeep

theorem obtains {m : Resolve α} {Q : α → Prop} (h : Ensures I m Q) : Ensures I m (Obtains I m) :=
  fun st hst => ⟨(h st hst).1, fun _ st' ha => ⟨⟨st, st', hst, ha⟩, ((h st hst).2 _ st' ha).2⟩⟩

theorem pure {Q : α → Prop} {a : α} (h : Q a) : Ensures I (Pure.pure a) Q := by
  intro st hst
  refine ⟨hst, fun b st' hb => ?_⟩
  obtain ⟨rfl, rfl⟩ := gives_pure.mp hb
  exact ⟨h, rfl⟩

theorem throw {Q : α → Prop} {e : Stop} : Ensures I (throw e) Q :=
  fun _ hst => ⟨hst, fun _ _ h => absurd h gives_throw⟩

theorem fail {Q : α → Prop} {f : Fault} : Ensures I (Resolve.fail f) Q := throw

theorem ofExcept {x : Except Fault α} {Q : α → Prop} (h : ∀ a, x = .ok a → Q a) :
    Ensures I (Resolve.ofExcept x) Q := by
  cases x with
  | error f => exact fail
  | ok a => exact pure (h a rfl)

theorem unread {x : Except Fault α} : Ensures I (Resolve.ofExcept x) fun _ => True :=
  ofExcept fun _ _ => trivial

theorem registry : Ensures I Resolve.registry I := by
  intro st hst
  refine ⟨hst, fun r st' hr => ?_⟩
  obtain ⟨rfl, rfl⟩ := gives_registry.mp hr
  exact ⟨hst, rfl⟩

theorem inheritance : Ensures I Resolve.inheritance fun _ => True := by
  intro st hst
  refine ⟨hst, fun ids st' h => ?_⟩
  obtain ⟨-, rfl⟩ := gives_inheritance.mp h
  exact ⟨trivial, rfl⟩

theorem bind {m : Resolve α} {f : α → Resolve β} {P : α → Prop} {Q : β → Prop}
    (h : Ensures I m P) (hf : ∀ a, P a → Ensures I (f a) Q) : Ensures I (m >>= f) Q := by
  intro st hst
  obtain ⟨hkeep, hgive⟩ := h st hst
  refine ⟨?_, fun b st'' hb => ?_⟩
  · rw [outcome_bind]
    rcases hm : outcome m st with ⟨e | a, st'⟩
    · rw [hm] at hkeep
      exact hkeep
    · rw [hm] at hkeep
      exact (hf a (hgive a st' hm).1 st' hkeep).1
  · obtain ⟨a, st', ha, hb⟩ := gives_bind.mp hb
    obtain ⟨hp, hstack⟩ := hgive a st' ha
    have hst' : I st'.1 := h.after hst ha
    obtain ⟨hq, hstack'⟩ := (hf a hp st' hst').2 b st'' hb
    exact ⟨hq, hstack'.trans hstack⟩

/-- A sequence whose parts are not looked at. -/
theorem seq {m : Resolve α} {f : α → Resolve β} {P : α → Prop} {Q : β → Prop}
    (h : Ensures I m P) (hf : ∀ a, Ensures I (f a) Q) : Ensures I (m >>= f) Q :=
  h.bind fun a _ => hf a

theorem mapM {f : α → Resolve β} {xs : List α} {Q : β → Prop}
    (h : ∀ x ∈ xs, Ensures I (f x) Q) : Ensures I (xs.mapM f) fun ys => ∀ y ∈ ys, Q y := by
  induction xs with
  | nil => exact pure (by simp)
  | cons x xs ih =>
    rw [List.mapM_cons]
    refine (h x (by simp)).bind fun y hy => (ih fun z hz => h z (by simp [hz])).bind fun ys hys => ?_
    apply pure
    intro z hz
    rcases List.mem_cons.mp hz with rfl | hz
    · exact hy
    · exact hys z hz

/-- What every step of a loop keeps holds at its end. -/
theorem foldlM {f : β → α → Resolve β} {xs : List α} {b : β} {Q : β → Prop} (hb : Q b)
    (h : ∀ c, Q c → ∀ x ∈ xs, Ensures I (f c x) Q) : Ensures I (xs.foldlM f b) Q := by
  induction xs generalizing b with
  | nil => exact pure hb
  | cons x xs ih =>
    rw [List.foldlM_cons]
    exact (h b hb x (by simp)).bind fun c hc => ih hc fun d hd y hy => h d hd y (by simp [hy])

/-- What a round carries on, from the elements that are done to one more, holds after the loop. -/
theorem foldlM_carries {f : β → α → Resolve β} {P : List α → β → Prop} {xs : List α} {b : β}
    (hb : P [] b) (h : ∀ done c x, P done c → Ensures I (f c x) (P (done ++ [x]))) :
    Ensures I (xs.foldlM f b) (P xs) := by
  have general : ∀ done c, P done c → Ensures I (xs.foldlM f c) (P (done ++ xs)) := by
    clear hb
    induction xs with
    | nil =>
      intro done c hc
      exact pure (by simpa using hc)
    | cons x xs ih =>
      intro done c hc
      rw [List.foldlM_cons]
      refine (h done c x hc).bind fun d hd => (ih (done ++ [x]) d hd).weaken fun e he => ?_
      simpa using he
  exact general [] b hb

theorem getOrCreate (hI : Registry.Invariant I) {name : String} {owner : Instance}
    {build : Resolve (Schema × Option String)} (h : Ensures I build fun x => x.1.isGround) :
    Ensures I (Registry.getOrCreate .fault name owner build) fun _ => True := by
  intro st hst
  unfold Gives
  rw [outcome_getOrCreate]
  cases hr : st.1.reserve name owner with
  | error f => exact ⟨hst, nofun⟩
  | ok reservation =>
    cases reservation with
    | existing =>
      refine ⟨hst, fun s st' h => ?_⟩
      cases h
      exact ⟨trivial, rfl⟩
    | fresh r =>
      obtain ⟨hkeep, hgive⟩ := h (r, st.2) (hI.reserve hst hr)
      rcases hb : outcome build (r, st.2) with ⟨e | ⟨schema, description⟩, st'⟩
      · rw [hb] at hkeep
        simp only [hb]
        exact ⟨hkeep, nofun⟩
      · rw [hb] at hkeep
        obtain ⟨hground, hstack⟩ := hgive _ st' hb
        simp only [hb]
        refine ⟨hI.define hkeep hground, fun s st'' h => ?_⟩
        cases h
        exact ⟨trivial, hstack⟩

theorem bracket {id : DeclId} {m : Resolve α} {Q : α → Prop} (h : Ensures I m Q) :
    Ensures I (Resolve.bracket id m) Q := by
  intro st hst
  unfold Gives
  rw [outcome_bracket]
  split
  · exact ⟨hst, nofun⟩
  obtain ⟨hkeep, hgive⟩ := h (st.1, st.2 ++ [id]) hst
  rcases hm : outcome m (st.1, st.2 ++ [id]) with ⟨e | a, st'⟩
  · rw [hm] at hkeep
    exact ⟨hkeep, nofun⟩
  · rw [hm] at hkeep
    obtain ⟨hq, hstack⟩ := hgive a st' hm
    refine ⟨hkeep, fun b st'' hb => ?_⟩
    cases hb
    refine ⟨hq, ?_⟩
    rw [hstack]
    exact List.dropLast_concat

end Ensures

section

variable {I : Registry → Prop} {type : TypeExpr → Origin → Resolve Schema}
  {members : Declaration → List TypeExpr → ObjectSchema Schema → Resolve (ObjectSchema Schema)}

def Keeps {α β γ : Type} (I : Registry → Prop) (f : α → β → Resolve γ) : Prop :=
  ∀ a b, Ensures I (f a b) fun _ => True

theorem property_keeps (ht : Keeps I type) : Keeps I (property type) :=
  fun p o => (ht p.type.stripUndefined.1 o).seq fun _ => .pure trivial

theorem properties_keep (ht : Keeps I type) (o : Origin)
    (table : Entries String (PropertySchema Schema)) :
    ∀ ps, Ensures I (properties type o table ps) fun _ => True := by
  intro ps
  rw [properties_eq_foldlM]
  exact .foldlM trivial fun _ _ p _ => (property_keeps ht p o).seq fun _ => .pure trivial

theorem additional_keeps (ht : Keeps I type) : Keeps I (additional type) := by
  intro index o
  unfold additional
  split
  · exact .pure trivial
  · split
    · exact .fail
    · split
      · exact .pure trivial
      · exact .pure trivial
      · exact (ht _ o).seq fun _ => .pure trivial
  · exact .fail

theorem all_keeps (ht : Keeps I type) : Keeps I (all type) := by
  intro o ts
  rw [all_eq_mapM]
  exact (Ensures.mapM fun t _ => ht t o).weaken fun _ _ => trivial

theorem builtin_keeps (ht : Keeps I type) (b : Builtin) : Keeps I (builtin type b) := by
  intro r o
  have args : ∀ n, Ensures I (expectArgs r n) fun _ => True := by
    intro n
    unfold expectArgs
    split
    · exact .pure trivial
    · exact .fail
  cases b with
  | primitive kind => exact .pure trivial
  | array => exact (args 1).seq fun _ => (ht _ o).seq fun _ => .pure trivial
  | promise => exact (args 1).seq fun _ => ht _ o
  | record => exact (args 2).seq fun _ => (additional_keeps ht _ o).seq fun _ => .pure trivial
  | unsupported => exact .fail

def MembersKeep (I : Registry → Prop) (members : Declaration → List TypeExpr →
    ObjectSchema Schema → Resolve (ObjectSchema Schema)) : Prop :=
  ∀ d args object, Ensures I (members d args object) fun _ => True

theorem body_ground (hm : MembersKeep I members) (d : Declaration) (args : List TypeExpr) :
    Ensures I (body members d args) fun x => x.1.isGround := by
  unfold body
  split
  · exact (hm d args .empty).seq fun _ => .pure rfl
  · split
    · exact .pure rfl
    · exact .fail
  · exact Ensures.unread.seq fun _ => .pure rfl

theorem instanceOf_keeps (hI : Registry.Invariant I) (hm : MembersKeep I members) (g : Graph)
    (i : Instance) : Ensures I (instanceOf members g i) fun _ => True := by
  unfold instanceOf
  split
  · exact .fail
  · rename_i d _
    split
    · exact .fail
    · exact .getOrCreate hI (body_ground hm d i.args)

theorem refOf_keeps (hI : Registry.Invariant I) (ht : Keeps I type) (hm : MembersKeep I members)
    (g : Graph) : Keeps I (refOf type members g) := by
  intro r o
  unfold refOf
  split
  · exact builtin_keeps ht _ r o
  · apply Ensures.unread.seq
    intro d
    apply Ensures.unread.seq
    intro i
    exact instanceOf_keeps hI hm g i

theorem baseMembers_keep (hm : MembersKeep I members) (g : Graph) (d : Declaration)
    (args : List TypeExpr) : Keeps I (baseMembers members g d args) := by
  intro object base
  rw [baseMembers_eq]
  split
  · exact .fail
  · apply Ensures.unread.seq
    intro b
    split
    · exact .fail
    · exact Ensures.unread.seq fun i => hm b i.args object

theorem ownMembers_keep (ht : Keeps I type) (hm : MembersKeep I members) (g : Graph)
    (d : Declaration) (bases : List (TypeRef TypeExpr)) (shape : Shape TypeExpr)
    (args : List TypeExpr) (object : ObjectSchema Schema) :
    Ensures I (ownMembers type members g d bases shape args object) fun _ => True := by
  have hbases : Ensures I (bases.foldlM (baseMembers members g d args) object) fun _ => True :=
    .foldlM trivial fun object _ base _ => baseMembers_keep hm g d args object base
  have hadditional : ∀ inherited, Ensures I (ownAdditional type d shape args inherited)
      fun _ => True := by
    intro inherited
    unfold ownAdditional
    split
    · exact .pure trivial
    · exact additional_keeps ht _ _
  have hcollect : Ensures I (collect type members g d bases shape args object) fun _ => True :=
    hbases.seq fun object => (properties_keep ht _ _ _).seq fun ps =>
      (hadditional object.additional).seq fun a => .pure trivial
  rw [ownMembers_eq]
  exact .bracket hcollect

theorem within_keeps (hI : Registry.Invariant I) (g : Graph) (n : Nat) :
    Keeps I (typeWithin g n) ∧ MembersKeep I (membersWithin g n) := by
  induction n with
  | zero => exact ⟨fun _ _ => .throw, fun _ _ _ => .throw⟩
  | succ n ih =>
    obtain ⟨ht, hm⟩ := ih
    refine ⟨fun t o => ?_, fun d args object => ?_⟩
    · unfold typeWithin
      cases t with
      | keyword k =>
        dsimp only
        split
        · exact .pure trivial
        · exact .fail
      | literal l => exact .pure trivial
      | array t => exact (ht t o).seq fun _ => .pure trivial
      | union ts => exact (all_keeps ht o _).seq fun _ => .pure trivial
      | intersection ts =>
        refine (all_keeps ht o _).seq fun schemas => Ensures.registry.seq fun r => ?_
        split
        · exact .pure trivial
        · exact .pure trivial
      | object shape =>
        exact (properties_keep ht o [] _).seq fun _ =>
          (additional_keeps ht _ o).seq fun _ => .pure trivial
      | ref r => exact refOf_keeps hI ht hm g r o
      | param name => exact .fail
      | unsupported c => exact .fail
    · unfold membersWithin
      split
      · exact ownMembers_keep ht hm g d _ _ args object
      · exact Ensures.inheritance.seq fun _ => .fail

end

end Resolve

namespace Registry

def Grounded (r : Registry) : Prop :=
  ∀ name owner schema description,
    (name, ⟨owner, .defined schema description⟩) ∈ r.entries → schema.isGround

theorem grounded_empty : Grounded .empty := nofun

theorem grounded_invariant : Invariant Grounded where
  reserve := by
    intro r r' name owner hr h
    unfold reserve at h
    split at h
    · cases h
      intro name' owner' schema description hmem
      rcases List.mem_append.mp hmem with hmem | hmem
      · exact hr name' owner' schema description hmem
      · simp at hmem
    · split at h <;> cases h
  define := by
    intro r name schema description hr hground
    unfold define
    split
    · intro name' owner' schema' description' hmem
      rcases Entries.mem_insert hmem with hmem | ⟨-, he⟩
      · exact hr name' owner' schema' description' hmem
      · cases he
        exact hground
    · exact hr

/-- Every frozen definition is a defined entry. -/
theorem mem_freezeEntries {r : Registry} {entries : Entries String RegistryEntry}
    {definitions : Definitions} (h : r.freezeEntries entries = .ok definitions) {name : String}
    {d : Definition} (hd : (name, d) ∈ definitions) :
    ∃ owner, (name, ⟨owner, .defined d.schema d.description⟩) ∈ entries := by
  obtain ⟨⟨key, owner, slot⟩, hmem, hfreezes⟩ :=
    mem_of_forall₂_right (freezeEntries_eq_ok_iff.mp h) hd
  cases hfreezes.name
  cases hfreezes.slot
  exact ⟨owner, hmem⟩

theorem Grounded.freeze {r : Registry} (hr : r.Grounded) {definitions : Definitions}
    (h : r.freeze = .ok definitions) {name : String} {d : Definition}
    (hd : (name, d) ∈ definitions) : d.schema.isGround := by
  obtain ⟨owner, hmem⟩ := mem_freezeEntries h hd
  exact hr name owner d.schema d.description hmem

end Registry

end RouteContract
