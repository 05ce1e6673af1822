import RouteContract.Resolution

/-!
# Faults of checks

Lookup, instantiation, claims of names and enum members fail with faults of
their own. A cycle of inheritance is none of them, since that depends on what is
being collected, and neither is a dangling reference, which depends on the whole
registry.
-/

set_option autoImplicit false

namespace RouteContract

def Raises {α : Type} (P : Fault → Prop) (x : Except Fault α) : Prop := ∀ f, x = .error f → P f

namespace Raises

variable {α β : Type} {P : Fault → Prop}

theorem ok (a : α) : Raises P (.ok a) := nofun

theorem error {f : Fault} (h : P f) : Raises P (.error f : Except Fault α) := by
  rintro _ ⟨⟩
  exact h

theorem bind {x : Except Fault α} {f : α → Except Fault β} (hx : Raises P x)
    (hf : ∀ a, Raises P (f a)) : Raises P (x >>= f) := by
  cases x with
  | error e => exact error (hx e rfl)
  | ok a => exact hf a

theorem mapM {f : α → Except Fault β} (hf : ∀ a, Raises P (f a)) (xs : List α) :
    Raises P (xs.mapM f) := by
  induction xs with
  | nil => exact ok []
  | cons x xs ih =>
    rw [List.mapM_cons]
    exact (hf x).bind fun _ => ih.bind fun _ => ok _

theorem forM {f : α → Except Fault Unit} (hf : ∀ a, Raises P (f a)) (xs : List α) :
    Raises P (xs.forM f) := by
  induction xs with
  | nil => exact ok ()
  | cons x xs ih => exact (hf x).bind fun _ => ih

end Raises

def Fault.isLocal : Fault → Bool
  | .inheritanceCycle _ | .dangling _ => false
  | _ => true

abbrev Local {α : Type} (x : Except Fault α) : Prop := Raises (fun f => f.isLocal) x

namespace Graph

theorem lookup_local (g : Graph) (r : TypeRef TypeExpr) (o : Origin) : Local (g.lookup r o) := by
  unfold lookup
  split
  · split
    · exact .ok _
    · exact .error rfl
  · split
    · exact .error rfl
    · exact .ok _
    · exact .error rfl

mutual

theorem normalize_local (g : Graph) (o : Origin) : (t : TypeExpr) → Local (g.normalize o t)
  | .ref ⟨name, module, args⟩ => by
    unfold normalize
    apply (normalizeAll_local g o args).bind
    intro args
    split
    · exact .ok _
    · split
      · exact .ok _
      · exact (lookup_local g _ o).bind fun _ => .ok _
  | .array t => by
    unfold normalize
    exact (normalize_local g o t).bind fun _ => .ok _
  | .union ts => by
    unfold normalize
    exact (normalizeAll_local g o ts).bind fun _ => .ok _
  | .intersection ts => by
    unfold normalize
    exact (normalizeAll_local g o ts).bind fun _ => .ok _
  | .param _ => by
    unfold normalize
    exact .error rfl
  | .keyword _ => by unfold normalize; exact .ok _
  | .literal _ => by unfold normalize; exact .ok _
  | .object _ => by unfold normalize; exact .ok _
  | .unsupported _ => by unfold normalize; exact .ok _

theorem normalizeAll_local (g : Graph) (o : Origin) :
    (ts : List TypeExpr) → Local (g.normalizeAll o ts)
  | [] => by
    unfold normalizeAll
    exact .ok _
  | t :: ts => by
    unfold normalizeAll
    exact (normalize_local g o t).bind fun _ => (normalizeAll_local g o ts).bind fun _ => .ok _

end

end Graph

namespace Declaration

theorem completeArgs_local (g : Graph) (d : Declaration) (written : List TypeExpr) (o : Origin)
    (earlier : List TypeParam) (concrete : List TypeExpr) (rest : List TypeParam) :
    Local (d.completeArgs g written o earlier concrete rest) := by
  induction rest generalizing earlier concrete with
  | nil => exact .ok _
  | cons p rest ih =>
    unfold completeArgs
    have hend : ∀ arg : TypeExpr, Local (do
        let arg ← g.normalize o arg
        completeArgs g d written o (earlier ++ [p]) (concrete ++ [arg]) rest) :=
      fun arg => (g.normalize_local o arg).bind fun arg => ih _ _
    split
    · exact hend _
    · exact hend _
    · exact .error rfl

theorem instantiate_local (g : Graph) (d : Declaration) (written : List TypeExpr) (o : Origin) :
    Local (d.instantiate g written o) := by
  unfold instantiate
  split
  · exact .error rfl
  · exact (d.completeArgs_local g written o [] [] d.params).bind fun _ => .ok _

end Declaration

theorem Registry.reserve_local (r : Registry) (name : String) (owner : Instance) :
    Local (r.reserve name owner) := by
  unfold reserve
  split
  · exact .ok _
  · split
    · exact .ok _
    · exact .error rfl

theorem EnumMember.value?_local (d : Declaration) (m : EnumMember) : Local (m.value? d) := by
  unfold value?
  split
  · exact .ok _
  · exact .ok _
  · exact .error rfl

end RouteContract
