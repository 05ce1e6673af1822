/-! # Insertion-ordered tables

A table is a list of key–value pairs. A new key goes to the end, a known key keeps its place, and
every answer that shows an order shows this one. -/

set_option autoImplicit false

namespace RouteContract

/-- A table whose order is the order in which its keys were first written. -/
abbrev Entries (κ α : Type) := List (κ × α)

namespace Entries

variable {κ α β : Type} [DecidableEq κ]

def find? : Entries κ α → κ → Option α
  | [], _ => none
  | (k, a) :: rest, key => if k = key then some a else find? rest key

def contains (t : Entries κ α) (key : κ) : Bool := (t.find? key).isSome

omit [DecidableEq κ] in
def keys (t : Entries κ α) : List κ := t.map Prod.fst

omit [DecidableEq κ] in
def values (t : Entries κ α) : List α := t.map Prod.snd

def insert : Entries κ α → κ → α → Entries κ α
  | [], key, a => [(key, a)]
  | (k, b) :: rest, key, a => if k = key then (k, a) :: rest else (k, b) :: insert rest key a

def insertNew (t : Entries κ α) (key : κ) (a : α) : Entries κ α :=
  if t.contains key then t else t ++ [(key, a)]

def upsert (t : Entries κ α) (key : κ) (a : α) (f : α → α) : Entries κ α :=
  t.insert key (f ((t.find? key).getD a))

def erase : Entries κ α → κ → Entries κ α
  | [], _ => []
  | (k, a) :: rest, key => if k = key then rest else (k, a) :: erase rest key

def ofList (pairs : List (κ × α)) : Entries κ α :=
  pairs.foldl (fun t p => t.insert p.1 p.2) []

@[simp] theorem find?_nil (key : κ) : find? ([] : Entries κ α) key = none := rfl

theorem find?_insert (t : Entries κ α) (key key' : κ) (a : α) :
    (t.insert key a).find? key' = if key = key' then some a else t.find? key' := by
  induction t with
  | nil => simp [insert, find?]
  | cons p rest ih =>
    obtain ⟨k, b⟩ := p
    by_cases h : k = key
    · subst h
      by_cases h' : k = key' <;> simp [insert, find?, h']
    · by_cases h' : k = key'
      · subst h'
        simp [insert, find?, h, Ne.symm h]
      · simp [insert, find?, h, h', ih]

theorem keys_insert (t : Entries κ α) (key : κ) (a : α) :
    (t.insert key a).keys = if key ∈ t.keys then t.keys else t.keys ++ [key] := by
  induction t with
  | nil => simp [insert, keys]
  | cons p rest ih =>
    obtain ⟨k, b⟩ := p
    by_cases h : k = key
    · subst h
      simp [insert, keys]
    · have ih' : List.map Prod.fst (insert rest key a)
          = if key ∈ List.map Prod.fst rest then List.map Prod.fst rest
            else List.map Prod.fst rest ++ [key] := ih
      by_cases hm : key ∈ List.map Prod.fst rest
      · simp only [hm, if_true] at ih'
        simp [insert, keys, h, ih', hm]
      · simp only [hm, if_false] at ih'
        simp [insert, keys, h, ih', hm, Ne.symm h]

end Entries

end RouteContract
