import RouteContract.Proofs.Lists
import RouteContract.Proofs.Registry
import RouteContract.Security

/-!
# Scripts of calls

A builder calls the registry that has called it, to any depth, and may give up
after any call. Nesting does not show in the registry: the calls reach it one
after the other, and each finds what the earlier ones have made of the empty
registry. What a single call keeps is therefore kept by every tree of calls.
-/

set_option autoImplicit false

namespace RouteContract.Registry

inductive Call where
  | reserve (name : String) (owner : Instance)
  | define (name : String) (schema : Schema) (description : Option String)

def call (r : Registry) : Call → Registry
  | .reserve name owner =>
    match r.reserve name owner with
    | .ok (.fresh r') => r'
    | _ => r
  | .define name schema description => r.define name schema description

structure Moment where
  call : Call
  found : Registry

def Moment.reserved? (m : Moment) : Option String :=
  match m.call with
  | .reserve name owner => if (m.found.reserve name owner).isOk then some name else none
  | .define .. => none

def replayFrom (r : Registry) (history : List Moment) : Registry :=
  history.foldl (fun r m => r.call m.call) r

def replay (history : List Moment) : Registry := replayFrom .empty history

/-- Calls one after the other, which may depend on the registry and on the answers to earlier ones,
failures among them. A builder is a script as well: it ends with a schema or with a fault. -/
inductive Script where
  | done (result : Except Fault (Schema × Option String))
  | look (next : Registry → Script)
  | reserve (name : String) (owner : Instance) (next : Except Fault Reservation → Script)
  | define (name : String) (schema : Schema) (description : Option String) (next : Script)
  | getOrCreate (name : String) (owner : Instance) (build : Script)
      (next : Except Fault Schema → Script)

abbrev Noted (α : Type) := Building (List Moment) Fault α

namespace Noted

variable {α : Type}

def registry : Noted Registry := return (← get).1

def note (c : Call) : Noted Unit := modify fun (r, history) => (r, history ++ [⟨c, r⟩])

def perform (c : Call) : Noted Unit :=
  note c >>= fun _ => modify fun (r, history) => (r.call c, history)

def getOrCreate (name : String) (owner : Instance) (build : Noted (Schema × Option String)) :
    Noted Schema :=
  note (.reserve name owner) >>= fun _ =>
    Registry.getOrCreate id name owner (build >>= fun x =>
      note (.define name x.1 x.2) >>= fun _ => return x)

def observe (m : Noted α) : Noted (Except Fault α) := ExceptT.lift m.run

end Noted

open Noted (note perform observe)
open Building (outcome outcome_bind outcome_getOrCreate)

def Script.run : Script → Noted (Schema × Option String)
  | .done result => MonadExcept.ofExcept result
  | .look next => Noted.registry >>= fun r => (next r).run
  | .reserve name owner next => Noted.registry >>= fun r =>
      perform (.reserve name owner) >>= fun _ => (next (r.reserve name owner)).run
  | .define name schema description next =>
      perform (.define name schema description) >>= fun _ => next.run
  | .getOrCreate name owner build next =>
      observe (Noted.getOrCreate name owner build.run) >>= fun answer => (next answer).run

def Script.final (s : Script) : Registry := (outcome s.run (.empty, [])).2.1

def Script.history (s : Script) : List Moment := (outcome s.run (.empty, [])).2.2

section

variable {r r' : Registry} {history : List Moment}

theorem call_reserve_of_fresh {name : String} {owner : Instance}
    (h : r.reserve name owner = .ok (.fresh r')) : r.call (.reserve name owner) = r' := by
  simp only [call, h]

theorem call_reserve_of_existing {name : String} {owner : Instance}
    (h : r.reserve name owner = .ok .existing) : r.call (.reserve name owner) = r := by
  simp only [call, h]

theorem call_reserve_of_error {name : String} {owner : Instance} {f : Fault}
    (h : r.reserve name owner = .error f) : r.call (.reserve name owner) = r := by
  simp only [call, h]

theorem define_eq_self {name : String} {schema : Schema} {description : Option String}
    (h : ∀ owner, r.entries.find? name ≠ some ⟨owner, .pending⟩) :
    r.define name schema description = r := by
  unfold define
  split
  · rename_i owner he
    exact absurd he (h owner)
  · rfl

/-- A call loses nothing. -/
theorem call_below (r : Registry) (c : Call) : r.Below (r.call c) := by
  cases c with
  | reserve name owner =>
    rcases h : r.reserve name owner with f | (r' | _)
    · rw [call_reserve_of_error h]
      exact Below.refl r
    · obtain ⟨hfree, rfl⟩ := reserve_eq_fresh.mp h
      rw [call_reserve_of_fresh h]
      exact claim_below hfree
    · rw [call_reserve_of_existing h]
      exact Below.refl r
  | define name schema description =>
    by_cases h : ∃ owner, r.entries.find? name = some ⟨owner, .pending⟩
    · obtain ⟨owner, hpending⟩ := h
      exact define_below hpending
    · rw [call, define_eq_self (not_exists.mp h)]
      exact Below.refl r

theorem replayFrom_below (r : Registry) (history : List Moment) :
    r.Below (replayFrom r history) := by
  induction history generalizing r with
  | nil => exact Below.refl r
  | cons m history ih => exact Below.trans (call_below r m.call) (ih (r.call m.call))

theorem replay_append (past future : List Moment) :
    replay (past ++ future) = replayFrom (replay past) future := List.foldl_append

theorem define_keys (r : Registry) (name : String) (schema : Schema)
    (description : Option String) :
    (r.define name schema description).entries.keys = r.entries.keys := by
  unfold define
  split
  · rename_i owner h
    have hmem : name ∈ r.entries.keys := Entries.find?_isSome_iff.mp (by simp [h])
    rw [Entries.keys_insert, if_pos hmem]
  · rfl

/-- A reservation that succeeds puts the name at the end unless it is held; no other call changes
the names. -/
theorem call_keys (m : Moment) :
    (m.found.call m.call).entries.keys =
      appendNew m.found.entries.keys m.reserved?.toList := by
  obtain ⟨c, r⟩ := m
  cases c with
  | reserve name owner =>
    rcases h : r.reserve name owner with f | (r' | _)
    · simp [Moment.reserved?, call_reserve_of_error h, h, Except.isOk, Except.toBool, appendNew]
    · obtain ⟨hfree, rfl⟩ := reserve_eq_fresh.mp h
      have hnew : name ∉ r.entries.keys := Entries.find?_eq_none_iff.mp hfree
      rw [call_reserve_of_fresh h]
      simp [Moment.reserved?, h, Except.isOk, Except.toBool, appendNew, claim, hnew]
      simp [Entries.keys]
    · obtain ⟨e, he, -⟩ := reserve_eq_existing.mp h
      have hheld : name ∈ r.entries.keys := Entries.find?_isSome_iff.mp (by simp [he])
      simp [Moment.reserved?, call_reserve_of_existing h, h, Except.isOk, Except.toBool, appendNew,
        hheld]
  | define name schema description =>
    exact define_keys r name schema description

def Leads : Registry → List Moment → Registry → Prop
  | r, [], r' => r = r'
  | r, m :: history, r' => m.found = r ∧ Leads (r.call m.call) history r'

theorem Leads.append {r r' r'' : Registry} {past future : List Moment} (h : Leads r past r')
    (h' : Leads r' future r'') : Leads r (past ++ future) r'' := by
  induction past generalizing r with
  | nil =>
    cases h
    exact h'
  | cons m past ih => exact ⟨h.1, ih h.2⟩

theorem Leads.replayed (h : Leads r history r') : r' = replayFrom r history := by
  induction history generalizing r with
  | nil => exact h.symm
  | cons m history ih => exact ih h.2

theorem Leads.found {past future : List Moment} {m : Moment}
    (h : Leads r (past ++ m :: future) r') : m.found = replayFrom r past := by
  induction past generalizing r with
  | nil => exact h.1
  | cons x past ih => exact ih h.2

namespace Noted

variable {α β : Type}

def Faithful (m : Noted α) : Prop := ∀ st, ∃ new,
  (outcome m st).2.2 = st.2 ++ new ∧ Leads st.1 new (outcome m st).2.1

theorem Faithful.bind {m : Noted α} {f : α → Noted β} (hm : Faithful m)
    (hf : ∀ a, Faithful (f a)) : Faithful (m >>= f) := by
  intro st
  obtain ⟨new, hnew, hleads⟩ := hm st
  rw [outcome_bind]
  rcases hout : outcome m st with ⟨e | a, st'⟩
  · rw [hout] at hnew hleads
    exact ⟨new, hnew, hleads⟩
  · rw [hout] at hnew hleads
    obtain ⟨later, hlater, hleads'⟩ := hf a st'
    refine ⟨new ++ later, ?_, hleads.append hleads'⟩
    rw [hlater, hnew, List.append_assoc]

theorem Faithful.observe {m : Noted α} (hm : Faithful m) : Faithful (observe m) := hm

theorem faithful_ofExcept (result : Except Fault α) :
    Faithful (MonadExcept.ofExcept result : Noted α) := by
  intro st
  cases result with
  | error f => exact ⟨[], (List.append_nil _).symm, rfl⟩
  | ok a => exact ⟨[], (List.append_nil _).symm, rfl⟩

theorem faithful_registry : Faithful registry := fun _ => ⟨[], (List.append_nil _).symm, rfl⟩

theorem faithful_perform (c : Call) : Faithful (perform c) := fun st =>
  ⟨[⟨c, st.1⟩], rfl, rfl, rfl⟩

theorem outcome_note (c : Call) (st : Registry × List Moment) :
    outcome (note c) st = (.ok (), (st.1, st.2 ++ [⟨c, st.1⟩])) := rfl

/-- The builder runs between the reservation and the definition, and only for a free name. -/
theorem faithful_getOrCreate {build : Noted (Schema × Option String)} (hbuild : Faithful build)
    (name : String) (owner : Instance) : Faithful (getOrCreate name owner build) := by
  intro st
  unfold getOrCreate
  rw [outcome_bind, outcome_note]
  simp only [outcome_getOrCreate]
  rcases hr : st.1.reserve name owner with f | (r | _)
  · exact ⟨_, rfl, rfl, call_reserve_of_error hr⟩
  · obtain ⟨new, hnew, hleads⟩ := hbuild (r, st.2 ++ [⟨.reserve name owner, st.1⟩])
    have hreserved : Leads st.1 [⟨.reserve name owner, st.1⟩] r :=
      ⟨rfl, call_reserve_of_fresh hr⟩
    simp only [outcome_bind build]
    rcases hout : outcome build (r, st.2 ++ [⟨.reserve name owner, st.1⟩]) with ⟨e | x, st'⟩
    · rw [hout] at hnew hleads
      simp only [hout]
      refine ⟨[⟨.reserve name owner, st.1⟩] ++ new, ?_, hreserved.append hleads⟩
      rw [← List.append_assoc]
      exact hnew
    · rw [hout] at hnew hleads
      have hdefined : Leads st'.1 [⟨.define name x.1 x.2, st'.1⟩] (st'.1.define name x.1 x.2) :=
        ⟨rfl, rfl⟩
      simp only [hout]
      refine ⟨[⟨.reserve name owner, st.1⟩] ++ (new ++ [⟨.define name x.1 x.2, st'.1⟩]), ?_,
        hreserved.append (hleads.append hdefined)⟩
      rw [← List.append_assoc, ← List.append_assoc, ← hnew]
      rfl
  · exact ⟨_, rfl, rfl, call_reserve_of_existing hr⟩

end Noted

open Noted

/-- Every tree of calls is a sequence of calls. -/
theorem Script.faithful_run (s : Script) : Faithful s.run := by
  induction s with
  | done result => exact faithful_ofExcept result
  | look next ih => exact faithful_registry.bind ih
  | reserve name owner next ih =>
    exact faithful_registry.bind fun r => (faithful_perform _).bind fun _ => ih _
  | define name schema description next ih => exact (faithful_perform _).bind fun _ => ih
  | getOrCreate name owner build next ihb ih =>
    exact (faithful_getOrCreate ihb name owner).observe.bind ih

theorem Script.leads (s : Script) : Leads .empty s.history s.final := by
  obtain ⟨new, hnew, hleads⟩ := s.faithful_run (.empty, [])
  have hhistory : s.history = new := hnew
  rw [hhistory]
  exact hleads

theorem Leads.cut {past future : List Moment} (h : Leads r (past ++ future) r') :
    Leads r past (replayFrom r past) := by
  induction past generalizing r with
  | nil => rfl
  | cons m past ih => exact ⟨h.1, ih h.2⟩

theorem Leads.keys (h : Leads r history r') :
    r'.entries.keys = appendNew r.entries.keys (history.filterMap Moment.reserved?) := by
  induction history generalizing r with
  | nil =>
    cases h
    rfl
  | cons m history ih =>
    obtain ⟨rfl, h⟩ := h
    rw [ih h, call_keys m]
    cases hm : m.reserved? <;> simp [hm, appendNew]

theorem nodup_appendNew {values : List String} (h : values.Nodup) (more : List String) :
    (appendNew values more).Nodup := by
  induction more generalizing values with
  | nil => exact h
  | cons v more ih =>
    show (appendNew (if v ∈ values then values else values ++ [v]) more).Nodup
    split
    · exact ih h
    · rename_i hv
      refine ih (List.nodup_append.mpr ⟨h, by simp, ?_⟩)
      simpa using fun a ha => ne_of_mem_of_not_mem ha hv

theorem reserve_isError_iff {name : String} {owner : Instance} :
    (∃ f, r.reserve name owner = .error f) ↔
      ∃ e, r.entries.find? name = some e ∧ e.owner.same owner = false := by
  constructor
  · rintro ⟨f, h⟩
    exact reserve_eq_error h
  · rintro ⟨e, he, hother⟩
    refine ⟨.nameCollision name e.owner.text owner.text, ?_⟩
    simp [reserve, he, hother]

end

structure Script.Orderly (s : Script) : Prop where
  /-- Each call finds what the calls before it have made of the empty registry. -/
  found : ∀ {past m future}, s.history = past ++ m :: future → m.found = replay past
  final : s.final = replay s.history
  /-- No owner changes, and no schema or description that is defined. -/
  kept : ∀ {past middle future}, s.history = past ++ middle ++ future →
    (replay past).Below (replay (past ++ middle))
  /-- The names stand in the order in which they were reserved for the first time. -/
  ordered : ∀ {past future}, s.history = past ++ future →
    (replay past).entries.keys = appendNew [] (past.filterMap Moment.reserved?)
  nodup : s.final.entries.keys.Nodup
  refuses : ∀ {past name owner found future},
    s.history = past ++ ⟨.reserve name owner, found⟩ :: future →
    ((∃ f, found.reserve name owner = .error f) ↔
      ∃ e, found.entries.find? name = some e ∧ e.owner.same owner = false)
  /-- A refused reservation changes nothing. -/
  refused : ∀ {past name owner found future f},
    s.history = past ++ ⟨.reserve name owner, found⟩ :: future →
    found.reserve name owner = .error f →
    replay (past ++ [⟨.reserve name owner, found⟩]) = replay past
  freezes : (∃ ds, s.final.freeze = .ok ds) ↔ ∀ x ∈ s.final.entries, s.final.Ready x.2
  frozen : ∀ {ds}, s.final.freeze = .ok ds →
    List.Forall₂ s.final.Freezes s.final.entries ds

theorem Script.orderly (s : Script) : s.Orderly where
  found h := by
    have hleads := s.leads
    rw [h] at hleads
    exact hleads.found
  final := s.leads.replayed
  kept {past middle future} _ := by
    rw [replay_append]
    exact replayFrom_below (replay past) middle
  ordered h := by
    have hleads := s.leads
    rw [h] at hleads
    exact hleads.cut.keys
  nodup := by
    rw [s.leads.keys]
    exact nodup_appendNew List.nodup_nil _
  refuses _ := reserve_isError_iff
  refused {past name owner found future f} h hf := by
    have hleads := s.leads
    rw [h] at hleads
    have hfound : found = replay past := hleads.found
    rw [replay_append, ← hfound]
    exact call_reserve_of_error hf
  freezes := exists_freezeEntries_iff
  frozen h := freezeEntries_eq_ok_iff.mp h

-- a builder that defines the name it is called for: what it returns comes too late
example (owner : Instance) : ((Script.getOrCreate "A" owner
    (.define "A" (.primitive .string) none (.done (.ok (.primitive .any, none))))
    fun _ => .done (.ok (.reference "A", none))).final.defined? "A") =
      some (.primitive .string) := rfl

end RouteContract.Registry
