import RouteContract.Coercion.Text
import RouteContract.Proofs.Coercion.Loops
import RouteContract.Proofs.FieldErrors

/-!
# Coercion that records errors as it goes

Here one table of errors is handed from step to step. Loops go on after a
failure with a flag lowered, members of a union are tried on a blank table that
is thrown away, and a broken reference ends a step early. The result is that of
coercion with its reports added to the table in order.
-/

set_option autoImplicit false

namespace RouteContract

abbrev Recording (α : Type) := FieldErrors → Option (α × FieldErrors)

namespace Recording

section

variable {α β : Type}

def done (a : α) : Recording α := fun errors => some (a, errors)

def andThen (m : Recording α) (f : α → Recording β) : Recording β :=
  fun errors => (m errors).bind fun x => f x.1 x.2

def enter (c : Coerced α) : Recording (Option α) :=
  fun errors => some (c.value?, errors.addAll c.reports)

def invalid (path : String) (complaint : Complaint) (raw : Json) : Recording (Option α) :=
  enter (.refuse path complaint raw)

def broken (path : String) (complaint : Complaint) : Recording (Option α) :=
  enter ⟨none, [(path, ⟨complaint, none⟩)]⟩

def gather {ι : Type} (attempt : ι → Recording (Option α)) (out : List α) (ok : Bool) :
    List ι → Recording (List α × Bool)
  | [] => done (out, ok)
  | x :: xs => andThen (attempt x) fun
    | some a => gather attempt (out ++ [a]) ok xs
    | none => gather attempt out false xs

def whole (r : List α × Bool) : Option (List α) := if r.2 then some r.1 else none

def firstMatch (attempt : Schema → Recording (Option Typed)) (all : List Schema) (path : String)
    (raw : Json) : List Schema → Recording (Option Typed)
  | [] => invalid path (.noMember all) raw
  | s :: rest => fun errors => (attempt s []).bind fun x =>
    if x.1.isSome && x.2.isEmpty then some (x.1, errors)
    else firstMatch attempt all path raw rest errors

def through (ds : Definitions) (s : Schema) (path : String)
    (step : Schema → Recording (Option α)) : Recording (Option α) :=
  match Coercion.deref ds Coercion.maxHops s with
  | .ok s => step s
  | .error complaint => broken path complaint

end

section

-- `json` coerces a nested value.
variable (json : Schema → Json → String → Recording (Option Typed))

def property (name : String) (p : PropertySchema Schema) (given : Option Json) (path : String) :
    Recording (Option (Option (String × Typed))) :=
  match given.or p.default with
  | some v => andThen (json p.schema v (Coercion.child path name)) fun t? =>
    done (t?.map fun t => some (name, t))
  | none =>
    if p.required then
      enter ⟨none, [(Coercion.child path name, ⟨.missing name, none⟩)]⟩
    else done (some none)

def extra (extras : Extras) (a : Additional Schema) (key : String) (raw : Json) (path : String) :
    Recording (Option (Option (String × Typed))) :=
  match a with
  | .any => done (some (some (key, .any raw)))
  | .schema s => andThen (json s raw (Coercion.child path key)) fun t? =>
    done (t?.map fun t => some (key, t))
  | .implicit => match extras with
    | .reject => invalid (Coercion.child path key) (.excess key) raw
    | .drop => done (some none)
    | .keep => done (some (some (key, .any raw)))

def fields (extras : Extras) (o : ObjectSchema Schema) (given : List (String × Json))
    (path : String) : Recording (List (Option (String × Typed)) × Bool) :=
  andThen (gather (fun x => property json x.1 x.2 (Entries.find? given x.1) path) [] true
    o.properties) fun declared =>
  gather (fun x => extra json extras o.additional x.1 x.2 path) declared.1 declared.2
    (given.filter fun x => !Entries.contains o.properties x.1)

def intersection (ds : Definitions) (members : List Schema) (v : Json) (path : String) :
    Recording (Option Typed) :=
  match Coercion.objects ds members with
  | .error complaint => broken path complaint
  | .ok (some os) => json (.object (os.foldl ObjectSchema.merge .empty)) v path
  | .ok none => andThen (gather (fun s => json s v path) [] true members) fun r =>
    done ((whole r).bind (·.getLast?))

def jsonStep (ds : Definitions) (extras : Extras) (s : Schema) (v : Json) (path : String) :
    Recording (Option Typed) :=
  match s with
  | .primitive kind => enter (Coercion.jsonPrimitive kind v path)
  | .enum values =>
    enter (.orRefuse (Coercion.listedJson? values v) path (.notListed values) v)
  | .array element => match v with
    | .array vs =>
      andThen (gather (fun x => json element x.1 (Coercion.index path x.2)) [] true vs.zipIdx)
        fun r => done ((whole r).map .array)
    | _ => invalid path (.invalid "array") v
  | .object o => match v with
    | .object given => andThen (fields json extras o given path) fun r =>
      done ((whole r).map fun entries => .object (entries.filterMap id))
    | _ => invalid path (.invalid "object") v
  | .union members => firstMatch (json · v path) members path v members
  | .intersection members => intersection json ds members v path
  | .reference name => invalid path (.unknownSchema name) v

end

section

variable (ds : Definitions) (extras : Extras)

def jsonWithin : Nat → Schema → Json → String → Recording (Option Typed)
  | 0, _, _, _ => fun _ => none
  | n + 1, s, v, path => through ds s path fun s => jsonStep (jsonWithin n) ds extras s v path

def json (s : Schema) (v : Json) (path : String) : Recording (Option Typed) :=
  jsonWithin ds extras (Coercion.budget ds s v) s v path

def oneTextWithin : Nat → Schema → String → String → Recording (Option Typed)
  | 0, _, _, _ => fun _ => none
  | n + 1, s, text, path => through ds s path fun s => match s with
    | .primitive kind => enter (Coercion.textPrimitive kind text path)
    | .enum values =>
      enter (.orRefuse (Coercion.listedText? values text) path (.notListed values) (.string text))
    | .union members => firstMatch (oneTextWithin n · text path) members path (.string text) members
    | structured => match Json.parse? text with
      | some v => json ds extras structured v path
      | none => invalid path (.invalid (Coercion.describe structured)) (.string text)

def textWithin (delimiter : Option Char) (steps : Nat) :
    Nat → Schema → List String → String → Recording (Option Typed)
  | 0, _, _, _ => fun _ => none
  | n + 1, s, values, path => through ds s path fun s => match s with
    | .array element =>
      andThen (gather (fun x => oneTextWithin ds extras steps element x.1 (Coercion.index path x.2))
        [] true (values.flatMap (Coercion.split delimiter)).zipIdx) fun r =>
      done ((whole r).map .array)
    | .union members => firstMatch (textWithin delimiter steps n · values path) members path
      (Coercion.rawTexts values) members
    | other => match values with
      | [] => done none
      | first :: _ => oneTextWithin ds extras steps other first path

def text (delimiter : Option Char) (s : Schema) (values : List String) (path : String) :
    Recording (Option Typed) :=
  let steps := Coercion.schemaNodes ds s + 1
  textWithin ds extras delimiter steps steps s values path

end

end Recording

namespace Recording

section

variable {α β ι : Type}

def Records (m : Recording (Option α)) (c : Option (Coerced α)) : Prop :=
  ∀ errors : FieldErrors, m errors = c.map fun c => (c.value?, errors.addAll c.reports)

theorem records_enter (c : Coerced α) : Records (enter c) (some c) := fun _ => rfl

theorem records_done (a : α) : Records (done (some a)) (some (.ok a)) := fun _ => rfl

theorem Records.map {m : Recording (Option α)} {c : Option (Coerced α)} (h : Records m c)
    (f : α → β) : Records (andThen m fun a => done (a.map f)) (c.map (·.map f)) := by
  intro errors
  rw [andThen, h errors]
  cases c with
  | none => rfl
  | some c => rfl

theorem whole_cons (r : List α × Bool) (a : α) : whole (a :: r.1, r.2) = (whole r).map (a :: ·) := by
  cases h : r.2 <;> simp [whole, h]

/-- What has been gathered before only stands in front, and a lowered flag stays down. -/
theorem gather_eq {attempt : ι → Recording (Option α)} {f : ι → Option (Coerced α)} {xs : List ι}
    (h : ∀ x ∈ xs, Records (attempt x) (f x)) (out : List α) (ok : Bool) (errors : FieldErrors) :
    gather attempt out ok xs errors = (xs.mapM f).map fun cs =>
      ((out ++ cs.filterMap (·.value?), ok && cs.all (·.value?.isSome)),
        errors.addAll (cs.flatMap (·.reports))) := by
  induction xs generalizing out ok errors with
  | nil => simp [gather, done, FieldErrors.addAll]
  | cons x xs ih =>
    have hrest := fun out ok errors => ih (fun y hy => h y (by simp [hy])) out ok errors
    rw [gather, andThen, h x (by simp) errors, List.mapM_cons]
    cases hc : f x with
    | none => rfl
    | some c =>
      cases hv : c.value? with
      | none =>
        simp only [Option.map_some, Option.bind_some, hv, hrest, bind, pure]
        cases xs.mapM f with
        | none => rfl
        | some cs => simp [hv, FieldErrors.addAll_append]
      | some a =>
        simp only [Option.map_some, Option.bind_some, hv, hrest, bind, pure]
        cases xs.mapM f with
        | none => rfl
        | some cs => simp [hv, FieldErrors.addAll_append]

theorem sequence_eq_whole (cs : List (Coerced α)) :
    (Coerced.sequence cs).value? = whole (cs.filterMap (·.value?), cs.all (·.value?.isSome)) := by
  induction cs with
  | nil => rfl
  | cons c cs ih =>
    cases hv : c.value? with
    | none => simp [Coerced.sequence, hv, whole]
    | some a =>
      have h := whole_cons (cs.filterMap (·.value?), cs.all (·.value?.isSome)) a
      simp only [Coerced.sequence, hv, Option.bind_some, ih, List.filterMap_cons, List.all_cons,
        Option.isSome_some, Bool.true_and, h]

/-- A loop with a flag gives all values or none, as a sequence of coercions does. -/
theorem records_gather {attempt : ι → Recording (Option α)} {f : ι → Option (Coerced α)}
    {xs : List ι} (h : ∀ x ∈ xs, Records (attempt x) (f x)) (g : Option (List α) → Option β) :
    Records (andThen (gather attempt [] true xs) fun r => done (g (whole r)))
      ((xs.mapM f).map fun cs =>
        ⟨g (Coerced.sequence cs).value?, (Coerced.sequence cs).reports⟩) := by
  intro errors
  rw [andThen, gather_eq h]
  cases xs.mapM f with
  | none => rfl
  | some cs => simp [done, sequence_eq_whole, Coerced.sequence_reports]

theorem records_firstMatch {attempt : Schema → Recording (Option Typed)}
    {f : Schema → Option (Coerced Typed)} (all : List Schema) (path : String) (raw : Json)
    {members : List Schema} (h : ∀ m ∈ members, Records (attempt m) (f m)) :
    Records (firstMatch attempt all path raw members)
      (Coercion.firstMatch f all path raw members) := by
  induction members with
  | nil => exact records_enter _
  | cons m rest ih =>
    intro errors
    have hrest := ih (fun x hx => h x (by simp [hx])) errors
    rw [firstMatch, h m (by simp) [], Coercion.firstMatch]
    cases hc : f m with
    | none => rfl
    | some c =>
      have hclean : (c.value?.isSome && (FieldErrors.addAll [] c.reports).isEmpty) = c.isClean := by
        rw [Coerced.isClean, Bool.eq_iff_iff]
        simp [FieldErrors.addAll_eq_nil_iff]
      simp only [Option.map_some, Option.bind_some, hclean, bind, pure]
      cases c.isClean with
      | true => rfl
      | false => exact hrest

theorem records_through {ds : Definitions} {s : Schema} {path : String}
    {step : Schema → Recording (Option α)} {f : Schema → Option (Coerced α)}
    (h : ∀ s, Records (step s) (f s)) :
    Records (through ds s path step) (Coercion.through ds s path f) := by
  unfold through Coercion.through
  cases Coercion.deref ds Coercion.maxHops s with
  | ok s => exact h s
  | error complaint => exact records_enter _

end

section

variable {ds : Definitions} (extras : Extras)
  {K : Schema → Json → String → Recording (Option Typed)}
  {J : Schema → Json → String → Option (Coerced Typed)}
  (hK : ∀ s v path, Records (K s v path) (J s v path))

include hK

theorem records_property (name : String) (p : PropertySchema Schema) (given : Option Json)
    (path : String) : Records (property K name p given path)
      (Coercion.property J name p given path) := by
  unfold property Coercion.property
  cases given.or p.default with
  | some v =>
    have h := (hK p.schema v (Coercion.child path name)).map fun t => some (name, t)
    simpa [Option.map_eq_bind, Function.comp_def] using h
  | none =>
    dsimp only
    split
    · exact records_enter _
    · exact records_done _

theorem records_extra (a : Additional Schema) (key : String) (raw : Json) (path : String) :
    Records (extra K extras a key raw path) (Coercion.extra J extras a key raw path) := by
  unfold extra Coercion.extra
  cases a with
  | any => exact records_done _
  | schema s =>
    have h := (hK s raw (Coercion.child path key)).map fun t => some (key, t)
    simpa [Option.map_eq_bind, Function.comp_def] using h
  | implicit =>
    cases extras with
    | reject => exact records_enter _
    | drop => exact records_done _
    | keep => exact records_done _

theorem records_object (o : ObjectSchema Schema) (given : List (String × Json)) (path : String) :
    Records (andThen (fields K extras o given path) fun r =>
        done ((whole r).map fun entries => .object (entries.filterMap id)))
      (Coercion.object J extras o given path) := by
  intro errors
  have hdeclared := gather_eq fun x (_ : x ∈ o.properties) =>
    records_property hK x.1 x.2 (Entries.find? given x.1) path
  have hothers := gather_eq
    fun x (_ : x ∈ given.filter fun x => !Entries.contains o.properties x.1) =>
      records_extra extras hK o.additional x.1 x.2 path
  rw [andThen, fields, andThen, hdeclared, Coercion.object, Coercion.parts]
  simp only [bind, pure]
  cases o.properties.mapM fun x =>
      Coercion.property J x.1 x.2 (Entries.find? given x.1) path with
  | none => rfl
  | some declared =>
    simp only [Option.map_some, Option.bind_some, hothers]
    cases (given.filter fun x => !Entries.contains o.properties x.1).mapM fun x =>
        Coercion.extra J extras o.additional x.1 x.2 path with
    | none => rfl
    | some others =>
      simp [done, Coerced.map, sequence_eq_whole, Coerced.sequence_reports,
        FieldErrors.addAll_append]

theorem records_intersection (members : List Schema) (v : Json) (path : String) :
    Records (intersection K ds members v path) (Coercion.intersection J ds members v path) := by
  unfold intersection Coercion.intersection
  cases Coercion.objects ds members with
  | error complaint => exact records_enter _
  | ok os =>
    cases os with
    | some os => exact hK _ v path
    | none =>
      have h := records_gather (fun s (_ : s ∈ members) => hK s v path) fun ts =>
        ts.bind (·.getLast?)
      simpa [Option.map_eq_bind, Function.comp_def] using h

theorem records_jsonStep (s : Schema) (v : Json) (path : String) :
    Records (jsonStep K ds extras s v path) (Coercion.jsonStep J ds extras s v path) := by
  cases s with
  | primitive kind => exact records_enter _
  | enum values => exact records_enter _
  | array element =>
    cases v with
    | array vs =>
      have h := records_gather
        (fun x (_ : x ∈ vs.zipIdx) => hK element x.1 (Coercion.index path x.2))
        (Option.map Typed.array)
      simpa [jsonStep, Coercion.jsonStep, Coercion.items_eq_mapM, Option.map_eq_bind,
        Function.comp_def, Coerced.map] using h
    | _ => exact records_enter _
  | object o =>
    cases v with
    | object given => exact records_object extras hK o given path
    | _ => exact records_enter _
  | union members => exact records_firstMatch members path v fun m _ => hK m v path
  | intersection members => exact records_intersection hK members v path
  | reference name => exact records_enter _

end

section

variable (ds : Definitions) (extras : Extras)

theorem records_jsonWithin (n : Nat) (s : Schema) (v : Json) (path : String) :
    Records (jsonWithin ds extras n s v path) (Coercion.jsonWithin ds extras n s v path) := by
  induction n generalizing s v path with
  | zero => exact fun _ => rfl
  | succ n ih => exact records_through fun s => records_jsonStep extras ih s v path

/-- The reports of coercion are what it records, in the order in which it does. -/
theorem records_json (s : Schema) (v : Json) (path : String) :
    Records (json ds extras s v path) (Coercion.json ds extras s v path) :=
  records_jsonWithin ds extras _ s v path

theorem records_read (s : Schema) (text path : String) :
    Records (match Json.parse? text with
        | some v => json ds extras s v path
        | none => invalid path (.invalid (Coercion.describe s)) (.string text))
      (match Json.parse? text with
        | some v => Coercion.json ds extras s v path
        | none => some (.refuse path (.invalid (Coercion.describe s)) (.string text))) := by
  cases Json.parse? text with
  | some v => exact records_json ds extras s v path
  | none => exact records_enter _

theorem records_oneTextWithin (n : Nat) (s : Schema) (text path : String) :
    Records (oneTextWithin ds extras n s text path)
      (Coercion.oneTextWithin ds extras n s text path) := by
  induction n generalizing s with
  | zero => exact fun _ => rfl
  | succ n ih =>
    refine records_through fun s => ?_
    cases s with
    | primitive kind => exact records_enter _
    | enum values => exact records_enter _
    | union members => exact records_firstMatch members path _ fun m _ => ih m
    | _ => exact records_read ds extras _ text path

theorem records_first (steps : Nat) (s : Schema) (values : List String) (path : String) :
    Records (match values with
        | [] => done none
        | first :: _ => oneTextWithin ds extras steps s first path)
      (match values with
        | [] => some ⟨none, []⟩
        | first :: _ => Coercion.oneTextWithin ds extras steps s first path) := by
  cases values with
  | nil => exact fun _ => rfl
  | cons first rest => exact records_oneTextWithin ds extras steps s first path

theorem records_textWithin (delimiter : Option Char) (steps n : Nat) (s : Schema)
    (values : List String) (path : String) :
    Records (textWithin ds extras delimiter steps n s values path)
      (Coercion.textWithin ds extras delimiter steps n s values path) := by
  induction n generalizing s with
  | zero => exact fun _ => rfl
  | succ n ih =>
    refine records_through fun s => ?_
    cases s with
    | array element =>
      have h := records_gather
        (fun x (_ : x ∈ (values.flatMap (Coercion.split delimiter)).zipIdx) =>
          records_oneTextWithin ds extras steps element x.1 (Coercion.index path x.2))
        (Option.map Typed.array)
      simpa [Coercion.texts_eq_mapM, Option.map_eq_bind, Function.comp_def, Coerced.map] using h
    | union members => exact records_firstMatch members path _ fun m _ => ih m
    | primitive kind => exact records_first ds extras steps _ values path
    | enum vs => exact records_first ds extras steps _ values path
    | object o => exact records_first ds extras steps _ values path
    | intersection members => exact records_first ds extras steps _ values path
    | reference name => exact records_first ds extras steps _ values path

theorem records_text (delimiter : Option Char) (s : Schema) (values : List String) (path : String) :
    Records (text ds extras delimiter s values path)
      (Coercion.text ds extras delimiter s values path) :=
  records_textWithin ds extras delimiter _ _ s values path

end

end Recording

end RouteContract
