import RouteContract.Proofs.Text
import RouteContract.Route.Template

/-!
# Normal paths

A normal path has a slash in front, no empty segment, and no slash at its end but
for the root, which is a single slash. Joining puts the segments of two texts one
after the other; its results are the normal paths. Nothing is assumed of the
texts, which may have slashes anywhere.
-/

set_option autoImplicit false

namespace RouteContract.Route

structure Normal (path : String) : Prop where
  slash : path.toList.head? = some '/'
  filled : path ≠ "/" → [] ∉ Text.pieces '/' path.toList.tail
  ending : path ≠ "/" → path.toList.getLast? ≠ some '/'

def IsSegment (s : String) : Prop := s ≠ "" ∧ '/' ∉ s.toList

theorem isSegment_of_mem {path s : String} (h : s ∈ segments path) : IsSegment s := by
  obtain ⟨p, hp, rfl⟩ := List.mem_map.mp h
  obtain ⟨hpiece, hfilled⟩ := List.mem_filter.mp hp
  refine ⟨fun hempty => ?_, ?_⟩
  · have hnil : p = [] := by simpa using congrArg String.toList hempty
    simp [hnil] at hfilled
  · rw [String.toList_ofList]
    exact Text.not_mem_of_mem_pieces hpiece

theorem toList_ofSegments (parts : List String) :
    (ofSegments parts).toList = '/' :: ['/'].intercalate (parts.map String.toList) := by
  rw [ofSegments, String.toList_append, String.toList_intercalate]
  rfl

section

variable {parts : List String} (h : ∀ s ∈ parts, IsSegment s)

include h

theorem nil_not_mem_parts : [] ∉ parts.map String.toList := by
  intro hnil
  obtain ⟨s, hs, hempty⟩ := List.mem_map.mp hnil
  exact (h s hs).1 (String.toList_inj.mp hempty)

theorem pieces_parts (hne : parts ≠ []) :
    Text.pieces '/' (['/'].intercalate (parts.map String.toList)) = parts.map String.toList := by
  refine Text.pieces_intercalate (fun p hp => ?_) (by simpa using hne)
  obtain ⟨s, hs, rfl⟩ := List.mem_map.mp hp
  exact (h s hs).2

theorem segments_ofSegments : segments (ofSegments parts) = parts := by
  by_cases hne : parts = []
  · subst hne
    decide +kernel
  rw [segments, toList_ofSegments, Text.pieces, if_pos rfl, pieces_parts h hne,
    List.filter_cons_of_neg (by simp), Text.filter_filled (nil_not_mem_parts h), List.map_map]
  exact (List.map_congr_left fun _ _ => String.ofList_toList).trans (List.map_id _)

theorem normal_ofSegments : Normal (ofSegments parts) := by
  have hne : ofSegments parts ≠ "/" → parts ≠ [] := fun hroot he => hroot (by rw [he]; rfl)
  refine ⟨by rw [toList_ofSegments]; rfl, fun hroot => ?_, fun hroot => ?_⟩
  · rw [toList_ofSegments, List.tail_cons, pieces_parts h (hne hroot)]
    exact nil_not_mem_parts h
  · -- The last character is that of the last segment.
    obtain ⟨init, last, rfl⟩ := (List.eq_nil_or_concat parts).resolve_left (hne hroot)
    rw [List.concat_eq_append] at h ⊢
    obtain ⟨hfilled, hfree⟩ := h last (by simp)
    have hlast : last.toList ≠ [] := fun he => hfilled (String.toList_inj.mp he)
    rw [toList_ofSegments, List.map_append, List.map_singleton, List.getLast?_cons,
      Text.getLast?_intercalate _ hlast, List.getLast?_eq_some_getLast hlast, Option.getD_some]
    intro hslash
    exact hfree (Option.some.inj hslash ▸ List.getLast_mem hlast)

end

/-- A normal path is put together again from its segments. -/
theorem Normal.ofSegments_segments {path : String} (h : Normal path) :
    ofSegments (segments path) = path := by
  by_cases hroot : path = "/"
  · subst hroot
    decide +kernel
  obtain ⟨cs, hcs⟩ := List.head?_eq_some_iff.mp h.slash
  have hfilled := h.filled hroot
  rw [hcs, List.tail_cons] at hfilled
  have hsegments : (segments path).map String.toList = Text.pieces '/' cs := by
    rw [segments, hcs, Text.pieces, if_pos rfl, List.filter_cons_of_neg (by simp),
      Text.filter_filled hfilled, List.map_map]
    exact (List.map_congr_left fun _ _ => String.toList_ofList).trans (List.map_id _)
  rw [← String.toList_inj, toList_ofSegments, hsegments, Text.intercalate_pieces, hcs]

/-! ## Joining -/

theorem isSegment_of_mem_append {p q s : String} (h : s ∈ segments p ++ segments q) :
    IsSegment s := by
  rcases List.mem_append.mp h with hp | hq
  · exact isSegment_of_mem hp
  · exact isSegment_of_mem hq

theorem normal_join (p q : String) : Normal (join p q) :=
  normal_ofSegments fun _ => isSegment_of_mem_append

theorem segments_join (p q : String) : segments (join p q) = segments p ++ segments q :=
  segments_ofSegments fun _ => isSegment_of_mem_append

theorem segments_empty : segments "" = [] := by decide +kernel

theorem join_join (p q r : String) : join (join p q) r = join p (join q r) :=
  calc join (join p q) r
    _ = ofSegments (segments p ++ segments q ++ segments r) := by rw [join, segments_join]
    _ = ofSegments (segments p ++ (segments q ++ segments r)) := by rw [List.append_assoc]
    _ = join p (join q r) := by rw [join, segments_join]

theorem empty_join (q : String) : join "" q = ofSegments (segments q) := by
  rw [join, segments_empty, List.nil_append]

theorem join_empty (p : String) : join p "" = ofSegments (segments p) := by
  rw [join, segments_empty, List.append_nil]

/-- A path can be brought into normal form before another one is joined to it. -/
theorem join_empty_join (p q : String) : join (join p "") q = join p q := by
  rw [join_join, empty_join, join, segments_ofSegments fun _ => isSegment_of_mem, join]

theorem normal_iff {path : String} : Normal path ↔ ∃ p q, join p q = path := by
  constructor
  · intro h
    exact ⟨path, "", (join_empty path).trans h.ofSegments_segments⟩
  · rintro ⟨p, q, rfl⟩
    exact normal_join p q

end RouteContract.Route
