import Mathlib.Data.List.Forall2

/-!
# Lists that are worked through

A traversal that may stop gives one result for each element, a loop carries on
what its rounds carry on, related lists have a partner for each element, lists of
equal length are compared along their zip, two splits of a list are compared by
their elements, a search depends on the elements alone, bounds for all elements
have a common one, and of repeated elements the first is kept.
-/

set_option autoImplicit false

namespace RouteContract

theorem mapM_eq_some_iff {α β : Type} {f : α → Option β} {xs : List α} {ys : List β} :
    xs.mapM f = some ys ↔ List.Forall₂ (fun x y => f x = some y) xs ys := by
  induction xs generalizing ys with
  | nil => cases ys <;> simp
  | cons x xs ih =>
    cases hx : f x with
    | none => cases ys <;> simp [hx]
    | some y =>
      cases ys with
      | nil => simp [hx, Option.bind_eq_some_iff]
      | cons z zs =>
        rw [List.forall₂_cons, ← ih]
        simp [hx, Option.bind_eq_some_iff, and_comm]

theorem mapM_isSome_iff {α β : Type} {f : α → Option β} (xs : List α) :
    (xs.mapM f).isSome ↔ ∀ x ∈ xs, (f x).isSome := by
  induction xs with
  | nil => simp
  | cons x xs ih =>
    cases hx : f x with
    | none => simp [hx]
    | some y =>
      cases hxs : xs.mapM f with
      | none =>
        have hn : ¬ ∀ x ∈ xs, (f x).isSome := by simpa [hxs] using ih
        simpa [hx, hxs] using hn
      | some ys =>
        have ht : ∀ x ∈ xs, (f x).isSome := by simpa [hxs] using ih
        simpa [hx, hxs] using ht

/-- What holds at the start and is carried on by each round, from the elements before it to those up
to it, holds after a loop. -/
theorem foldlM_carries {α β : Type} {f : β → α → Option β} {P : List α → β → Prop} {xs : List α}
    {b c : β} (h : xs.foldlM f b = some c) (hb : P [] b)
    (round : ∀ done b c, ∀ x ∈ xs, P done b → f b x = some c → P (done ++ [x]) c) : P xs c := by
  have general : ∀ done ys b, P done b → ys ⊆ xs → ys.foldlM f b = some c → P (done ++ ys) c := by
    intro done ys
    induction ys generalizing done with
    | nil =>
      intro b hb _ h
      cases h
      simpa using hb
    | cons y ys ih =>
      intro b hb hys h
      rw [List.foldlM_cons] at h
      obtain ⟨d, hd, hrest⟩ := Option.bind_eq_some_iff.mp h
      have hy := round done b d y (hys List.mem_cons_self) hb hd
      simpa using ih (done ++ [y]) d hy (fun z hz => hys (List.mem_cons_of_mem y hz)) hrest
  exact general [] xs b hb (List.Subset.refl xs) h

theorem mem_of_forall₂_right {α β : Type} {R : α → β → Prop} {xs : List α} {ys : List β}
    (h : List.Forall₂ R xs ys) {y : β} (hy : y ∈ ys) : ∃ x ∈ xs, R x y := by
  induction h with
  | nil => simp at hy
  | @cons a b as bs hab _ ih =>
    rcases List.mem_cons.mp hy with rfl | hy
    · exact ⟨a, by simp, hab⟩
    · obtain ⟨x, hx, hr⟩ := ih hy
      exact ⟨x, by simp [hx], hr⟩

theorem mem_of_forall₂_left {α β : Type} {R : α → β → Prop} {xs : List α} {ys : List β}
    (h : List.Forall₂ R xs ys) {x : α} (hx : x ∈ xs) : ∃ y ∈ ys, R x y := by
  obtain ⟨y, hy, hr⟩ := mem_of_forall₂_right h.flip hx
  exact ⟨y, hy, hr⟩

theorem exists_forall₂ {α β : Type} {R : α → β → Prop} {xs : List α} (h : ∀ x ∈ xs, ∃ y, R x y) :
    ∃ ys, List.Forall₂ R xs ys := by
  induction xs with
  | nil => exact ⟨[], .nil⟩
  | cons x xs ih =>
    obtain ⟨y, hy⟩ := h x List.mem_cons_self
    obtain ⟨ys, hys⟩ := ih fun z hz => h z (List.mem_cons_of_mem x hz)
    exact ⟨y :: ys, .cons hy hys⟩

theorem forall₂_append_left {α β : Type} {R : α → β → Prop} {xs xs' : List α} {ys : List β} :
    List.Forall₂ R (xs ++ xs') ys ↔
      ∃ zs zs', ys = zs ++ zs' ∧ List.Forall₂ R xs zs ∧ List.Forall₂ R xs' zs' := by
  induction xs generalizing ys with
  | nil => simp
  | cons x xs ih =>
    simp only [List.cons_append, List.forall₂_cons_left_iff, ih]
    constructor
    · rintro ⟨y, _, hxy, ⟨zs, zs', rfl, hzs, hzs'⟩, rfl⟩
      exact ⟨y :: zs, zs', rfl, ⟨y, zs, hxy, hzs, rfl⟩, hzs'⟩
    · rintro ⟨_, zs', rfl, ⟨y, zs, hxy, hzs, rfl⟩, hzs'⟩
      exact ⟨y, zs ++ zs', hxy, ⟨zs, zs', rfl, hzs, hzs'⟩, rfl⟩

theorem forall₂_comp {α β γ : Type} {R : α → β → Prop} {S : β → γ → Prop} {T : α → γ → Prop}
    {xs : List α} {ys : List β} {zs : List γ} (h : List.Forall₂ R xs ys)
    (h' : List.Forall₂ S ys zs) (hT : ∀ x y z, R x y → S y z → T x z) : List.Forall₂ T xs zs := by
  induction h generalizing zs with
  | nil =>
    cases h'
    exact .nil
  | cons hxy _ ih =>
    cases h' with
    | cons hyz hrest => exact .cons (hT _ _ _ hxy hyz) (ih hrest)

theorem forall₂_imp_left {α β : Type} {R S : α → β → Prop} {xs : List α} {ys : List β}
    (hxs : List.Forall₂ R xs ys) (h : ∀ x ∈ xs, ∀ y, R x y → S x y) : List.Forall₂ S xs ys := by
  induction hxs with
  | nil => exact .nil
  | cons hxy _ ih =>
    exact .cons (h _ List.mem_cons_self _ hxy) (ih fun x hx => h x (List.mem_cons_of_mem _ hx))

theorem forall₂_congr_left {α β : Type} {R S : α → β → Prop} {xs : List α} {ys : List β}
    (h : ∀ x ∈ xs, ∀ y, R x y ↔ S x y) : List.Forall₂ R xs ys ↔ List.Forall₂ S xs ys :=
  ⟨fun hR => forall₂_imp_left hR fun x hx y => (h x hx y).mp,
    fun hS => forall₂_imp_left hS fun x hx y => (h x hx y).mpr⟩

theorem getLast?_of_forall₂ {α β : Type} {R : α → β → Prop} {xs : List α} {ys : List β}
    (h : List.Forall₂ R xs ys) {x : α} {y : β} (hx : xs.getLast? = some x)
    (hy : ys.getLast? = some y) : R x y := by
  rw [List.getLast?_eq_head?_reverse] at hx hy
  have hreverse := List.forall₂_reverse_iff.mpr h
  generalize xs.reverse = xs' at hx hreverse
  generalize ys.reverse = ys' at hy hreverse
  cases hreverse with
  | nil => cases hx
  | cons hr _ =>
    cases hx
    cases hy
    exact hr

/-- A loop does not tell elements apart that none of its rounds tells apart. -/
theorem foldlM_eq_of_forall₂ {m : Type → Type} [Monad m] {α β : Type} {R : α → α → Prop}
    {f : β → α → m β} {xs ys : List α} (h : List.Forall₂ R xs ys)
    (hf : ∀ b x y, R x y → f b y = f b x) (b : β) : ys.foldlM f b = xs.foldlM f b := by
  induction h generalizing b with
  | nil => rfl
  | cons hxy _ ih =>
    rw [List.foldlM_cons, List.foldlM_cons, hf b _ _ hxy]
    exact congrArg _ (funext ih)

theorem getElem?_of_forall₂ {α β : Type} {R : α → β → Prop} {xs : List α} {ys : List β}
    (h : List.Forall₂ R xs ys) (k : Nat) : (xs[k]? = none ∧ ys[k]? = none) ∨
      ∃ x y, xs[k]? = some x ∧ ys[k]? = some y ∧ R x y := by
  induction h generalizing k with
  | nil => exact .inl ⟨rfl, rfl⟩
  | @cons x y xs ys hxy _ ih =>
    cases k with
    | zero => exact .inr ⟨x, y, rfl, rfl, hxy⟩
    | succ k => simpa using ih k

theorem map_eq_map {α β : Type} {f : α → β} {xs ys : List α} (hl : xs.length = ys.length)
    (h : ∀ x y, (x, y) ∈ xs.zip ys → f x = f y) : xs.map f = ys.map f := by
  induction xs generalizing ys with
  | nil =>
    cases ys with
    | nil => rfl
    | cons y ys => cases hl
  | cons x xs ih =>
    cases ys with
    | nil => cases hl
    | cons y ys =>
      simp only [List.zip_cons_cons, List.mem_cons] at h
      rw [List.map_cons, List.map_cons, h x y (.inl rfl),
        ih (Nat.succ.inj hl) fun x y hxy => h x y (.inr hxy)]

theorem exists_of_mem_zip_map {α β γ : Type} {f : α → β} {f' : α → γ} {xs : List α} {b : β} {c : γ}
    (h : (b, c) ∈ (xs.map f).zip (xs.map f')) : ∃ x ∈ xs, f x = b ∧ f' x = c := by
  rw [List.zip_map'] at h
  simpa using h

/-- Two splits of a list are one, or the element of one is behind that of the other. -/
theorem eq_or_mem_of_split {α : Type} {before before' after after' : List α} {x y : α}
    (h : before ++ x :: after = before' ++ y :: after') :
    (x = y ∧ after = after') ∨ y ∈ after ∨ x ∈ after' := by
  rcases List.append_eq_append_iff.mp h with ⟨mid, -, hmid⟩ | ⟨mid, -, hmid⟩
  · cases mid with
    | nil =>
      cases hmid
      exact .inl ⟨rfl, rfl⟩
    | cons z mid =>
      cases hmid
      exact .inr (.inl (by simp))
  · cases mid with
    | nil =>
      cases hmid
      exact .inl ⟨rfl, rfl⟩
    | cons z mid =>
      cases hmid
      exact .inr (.inr (by simp))

/-- A search finds the same place where it asks the same of all elements. -/
theorem findIdx?_congr {α : Type} {p q : α → Bool} {xs : List α} (h : ∀ x ∈ xs, p x = q x) :
    xs.findIdx? p = xs.findIdx? q := by
  induction xs with
  | nil => rfl
  | cons x xs ih =>
    rw [List.findIdx?_cons, List.findIdx?_cons, h x List.mem_cons_self,
      ih fun y hy => h y (List.mem_cons_of_mem x hy)]

/-- Bounds for finitely many elements have a common bound. -/
theorem exists_bound {α : Type} {P : α → Nat → Prop} {xs : List α}
    (h : ∀ x ∈ xs, ∃ N, ∀ n, N ≤ n → P x n) : ∃ N, ∀ x ∈ xs, ∀ n, N ≤ n → P x n := by
  induction xs with
  | nil => exact ⟨0, by simp⟩
  | cons x xs ih =>
    obtain ⟨M, hM⟩ := h x (by simp)
    obtain ⟨N, hN⟩ := ih fun y hy => h y (by simp [hy])
    refine ⟨max M N, fun y hy n hn => ?_⟩
    rcases List.mem_cons.mp hy with rfl | hy
    · exact hM n (by omega)
    · exact hN y hy n (by omega)

/-- One more element is kept where it is new. -/
theorem eraseDups_concat {α : Type} [BEq α] [LawfulBEq α] (as : List α) (b : α) :
    (as ++ [b]).eraseDups = if b ∈ as then as.eraseDups else as.eraseDups ++ [b] := by
  rw [List.eraseDups_append]
  split
  · rename_i hold
    simp [List.removeAll, hold]
  · rename_i hnew
    simp [List.removeAll, hnew, List.eraseDups_cons]

end RouteContract
