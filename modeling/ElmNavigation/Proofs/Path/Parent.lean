import ElmNavigation.Proofs.Path
import Mathlib.Data.List.DropRight

/-! The parent of a path. Parts that are joined by slashes are the parts of what is spelled, so the
beginning of a path that ends between two of its parts has the components of these parts, under the same
root or leading `.`. A parent is such a beginning: it has the components of the path but for the last. -/

namespace ElmNavigation.Path

/-! ### Joining parts -/

theorem joinSegments_cons (first : List Char) {rest : List (List Char)} (h : rest ≠ []) :
    joinSegments (first :: rest) = first ++ '/' :: joinSegments rest := by
  cases rest with
  | nil => contradiction
  | cons second rest => simp [joinSegments, List.intercalate]

theorem joinSegments_segments (text : List Char) : joinSegments (segments text) = text := by
  induction text with
  | nil => rfl
  | cons c text ih =>
      rw [segments]
      split
      · next hslash =>
          rw [joinSegments_cons [] (segments_ne_nil text), ih, hslash]
          rfl
      · split
        · next hnil => exact absurd hnil (segments_ne_nil text)
        · next first rest hsegments =>
            rw [hsegments] at ih
            rw [← ih]
            cases rest with
            | nil => simp [joinSegments, List.intercalate]
            | cons second rest => simp [joinSegments_cons]

theorem slash_notMem_of_mem_segments {text segment : List Char} (h : segment ∈ segments text) :
    '/' ∉ segment := by
  induction text generalizing segment with
  | nil =>
      obtain rfl := List.mem_singleton.mp h
      exact List.not_mem_nil
  | cons c text ih =>
      rw [segments] at h
      split at h
      · rcases List.mem_cons.mp h with rfl | h
        · exact List.not_mem_nil
        · exact ih h
      · next hslash =>
          split at h
          · next hnil => exact absurd hnil (segments_ne_nil text)
          · next first rest hsegments =>
              rcases List.mem_cons.mp h with rfl | h
              · have hfirst : '/' ∉ first := ih (by rw [hsegments]; exact .head _)
                simp [Ne.symm hslash, hfirst]
              · exact ih (by rw [hsegments]; exact .tail _ h)

theorem segments_joinSegments {parts : List (List Char)} (hne : parts ≠ []) (h : ∀ part ∈ parts, '/' ∉ part) :
    segments (joinSegments parts) = parts := by
  induction parts with
  | nil => contradiction
  | cons first rest ih =>
      obtain ⟨hfirst, hrest⟩ := List.forall_mem_cons.mp h
      by_cases hnil : rest = []
      · subst hnil
        simpa [joinSegments, List.intercalate] using segments_of_notMem hfirst
      · rw [joinSegments_cons first hnil, segments_append, segments_of_notMem hfirst, ih hnil hrest]
        rfl

theorem joinSegments_isPrefix {front parts : List (List Char)} (h : front <+: parts) :
    joinSegments front <+: joinSegments parts := by
  induction front generalizing parts with
  | nil => exact List.nil_prefix
  | cons first front ih =>
      obtain ⟨rest, rfl⟩ := h
      rw [List.cons_append]
      by_cases hnil : front = []
      · subst hnil
        cases rest with
        | nil => exact List.prefix_rfl
        | cons second rest =>
            rw [List.nil_append, joinSegments_cons first (List.cons_ne_nil _ _)]
            simp [joinSegments, List.intercalate]
      · rw [joinSegments_cons first hnil, joinSegments_cons first (by simp [hnil]),
          List.prefix_append_right_inj]
        exact List.cons_prefix_cons.mpr ⟨rfl, ih (List.prefix_append front rest)⟩

/-- The components of parts that are joined are those of the parts. -/
theorem filterMap_segments_joinSegments {parts : List (List Char)} (h : ∀ part ∈ parts, '/' ∉ part) :
    (segments (joinSegments parts)).filterMap component? = parts.filterMap component? := by
  by_cases hnil : parts = []
  · subst hnil
    rfl
  · rw [segments_joinSegments hnil h]

/-! ### Parts that count for nothing -/

theorem component?_eq_none_iff {segment : List Char} :
    component? segment = none ↔ segment = [] ∨ segment = ['.'] := by
  unfold component?
  split_ifs with htrivial <;> simp [htrivial]

/-- Trimming takes parts away that count for nothing. -/
theorem exists_trimEnd_append (parts : List (List Char)) :
    ∃ idle, parts = trimEnd parts ++ idle ∧ ∀ part ∈ idle, component? part = none := by
  refine ⟨parts.rtakeWhile fun part => part == [] || part == ['.'],
    List.rdropWhile_append_rtakeWhile.symm, ?_⟩
  intro part hmem
  refine component?_eq_none_iff.mpr ?_
  simpa using List.mem_rtakeWhile_imp hmem

theorem trimEnd_isPrefix (parts : List (List Char)) : trimEnd parts <+: parts := by
  obtain ⟨idle, hparts, _⟩ := exists_trimEnd_append parts
  exact ⟨idle, hparts.symm⟩

theorem filterMap_trimEnd (parts : List (List Char)) :
    (trimEnd parts).filterMap component? = parts.filterMap component? := by
  obtain ⟨idle, hparts, hidle⟩ := exists_trimEnd_append parts
  conv_rhs => rw [hparts, List.filterMap_append, List.filterMap_eq_nil_iff.mpr hidle, List.append_nil]

/-- The last of the parts that are left counts. -/
theorem exists_last_of_trimEnd {parts : List (List Char)} (h : trimEnd parts ≠ []) :
    ∃ front segment last, trimEnd parts = front ++ [segment] ∧ component? segment = some last := by
  have hlast := List.rdropWhile_last_not _ _ h
  obtain ⟨last, hcomponent⟩ : ∃ last, component? ((trimEnd parts).getLast h) = some last := by
    refine Option.ne_none_iff_exists'.mp fun hnone => hlast ?_
    rw [Bool.or_eq_true, beq_iff_eq, beq_iff_eq]
    exact component?_eq_none_iff.mp hnone
  exact ⟨_, _, last, (List.dropLast_append_getLast h).symm, hcomponent⟩

/-- A part stands for `..` or for a name. -/
theorem of_component?_eq_some {segment : List Char} {component : Component}
    (h : component? segment = some component) : component ≠ .root ∧ component ≠ .here := by
  unfold component? at h
  split_ifs at h <;> cases h <;> simp

/-! ### The beginning of a path -/

/-- The component that stands for what leads a path. -/
def leading (path : Path) : List Component :=
  if path.isAbsolute then [.root] else if path.beginsHere then [.here] else []

/-- What follows the root or the leading `.` of a path. -/
def body (path : Path) : List Char :=
  path.text.toList.drop path.lead.length

theorem lead_append_body (path : Path) : path.lead ++ path.body = path.text.toList := by
  unfold body lead
  split_ifs with habsolute hhere
  · cases htext : path.text.toList with
    | nil => simp [isAbsolute, htext] at habsolute
    | cons c text => simp_all [isAbsolute]
  · cases htext : path.text.toList with
    | nil => simp [beginsHere, htext, segments] at hhere
    | cons c text =>
        rw [beginsHere, htext, segments] at hhere
        split at hhere
        · simp at hhere
        · split at hhere <;> simp_all
  · rfl

theorem segments_cons {c : Char} (hc : c ≠ '/') {text first : List Char} {rest : List (List Char)}
    (h : segments text = first :: rest) : segments (c :: text) = (c :: first) :: rest := by
  rw [segments, if_neg hc, h]

theorem head?_segments_of_isAbsolute {path : Path} (h : path.isAbsolute = true) :
    (segments path.text.toList).head? = some [] := by
  cases htext : path.text.toList with
  | nil => simp [isAbsolute, htext] at h
  | cons c text =>
      have hc : c = '/' := by simpa [isAbsolute, htext] using h
      simp [segments, hc]

/-- A path that is neither empty nor absolute begins with a part that is not empty. -/
theorem head?_segments_ne {path : Path} (hne : path.text ≠ "") (habsolute : path.isAbsolute = false) :
    (segments path.text.toList).head? ≠ some [] := by
  cases htext : path.text.toList with
  | nil => exact absurd (String.toList_eq_nil_iff.mp htext) hne
  | cons c text =>
      have hc : c ≠ '/' := by
        rintro rfl
        simp [isAbsolute, htext] at habsolute
      obtain ⟨first, rest, hsegments⟩ := List.exists_cons_of_ne_nil (segments_ne_nil text)
      simp [segments_cons hc hsegments]

section Spelling

variable {path : Path} {parts : List (List Char)} (hparts : ∀ part ∈ parts, '/' ∉ part)

include hparts

theorem components_of_absolute (htext : path.text.toList = '/' :: joinSegments parts) :
    path.components = .root :: parts.filterMap component? := by
  have habsolute : path.isAbsolute = true := by simp [isAbsolute, htext]
  have hsegments : segments path.text.toList = [] :: segments (joinSegments parts) := by
    simp [htext, segments]
  rw [components, if_pos habsolute, hsegments, ← filterMap_segments_joinSegments hparts]
  rfl

theorem components_of_here (htext : path.text.toList = '.' :: joinSegments parts)
    (hhead : ∀ first ∈ parts.head?, first = []) : path.components = .here :: parts.filterMap component? := by
  obtain ⟨rest, hrest⟩ : ∃ rest, segments (joinSegments parts) = [] :: rest := by
    cases parts with
    | nil => exact ⟨[], rfl⟩
    | cons first rest =>
        obtain rfl := hhead first rfl
        exact ⟨rest, segments_joinSegments (List.cons_ne_nil _ _) hparts⟩
  have hsegments : segments path.text.toList = ['.'] :: rest := by
    rw [htext, segments_cons (by decide) hrest]
  have habsolute : path.isAbsolute = false := by simp [isAbsolute, htext]
  have hhere : path.beginsHere = true := by simp [beginsHere, hsegments]
  rw [components, habsolute, hhere, hsegments, ← filterMap_segments_joinSegments hparts, hrest]
  rfl

theorem components_of_plain (htext : path.text.toList = joinSegments parts)
    (hhead : ∀ first ∈ parts.head?, first ≠ [] ∧ first ≠ ['.']) :
    path.components = parts.filterMap component? := by
  cases parts with
  | nil =>
      have hempty : path = ⟨""⟩ := by
        cases path
        simpa [joinSegments, List.intercalate] using htext
      subst hempty
      rfl
  | cons first rest =>
      have hsegments : segments path.text.toList = first :: rest := by
        rw [htext, segments_joinSegments (List.cons_ne_nil _ _) hparts]
      obtain ⟨hfirst, hdot⟩ := hhead first rfl
      have habsolute : path.isAbsolute = false := by
        rw [Bool.eq_false_iff]
        intro habsolute
        have hempty := head?_segments_of_isAbsolute habsolute
        simp [hsegments, hfirst] at hempty
      have hhere : path.beginsHere = false := by simp [beginsHere, hsegments, hdot]
      simp [components, habsolute, hhere, hsegments]

end Spelling

/-- The beginning of a path has the components of its parts. -/
theorem components_front {path front : Path} (hne : path.text ≠ "") {parts : List (List Char)}
    (hparts : parts <+: segments path.body) (htext : front.text.toList = path.lead ++ joinSegments parts) :
    front.components = path.leading ++ parts.filterMap component? := by
  have hslash : ∀ part ∈ parts, '/' ∉ part :=
    fun part hmem => slash_notMem_of_mem_segments (hparts.subset hmem)
  have hhead : ∀ first ∈ parts.head?, (segments path.body).head? = some first := by
    obtain ⟨rest, hrest⟩ := hparts
    intro first hfirst
    rw [← hrest, List.head?_append, hfirst]
    rfl
  have hbody := lead_append_body path
  unfold lead at hbody htext
  unfold leading
  split_ifs at hbody htext ⊢ with habsolute hhere
  · exact components_of_absolute hslash htext
  · refine components_of_here hslash htext fun first hfirst => ?_
    -- the first part of such a path is the dot alone
    obtain ⟨second, rest, hsegments⟩ := List.exists_cons_of_ne_nil (segments_ne_nil path.body)
    have hdot := hhere
    rw [beginsHere, ← hbody, List.singleton_append, segments_cons (by decide) hsegments] at hdot
    have hsecond := hhead first hfirst
    simp_all
  · refine components_of_plain hslash htext fun first hfirst => ?_
    have hfirst := hhead first hfirst
    rw [← List.nil_append path.body, hbody] at hfirst
    have hempty := head?_segments_ne hne (Bool.not_eq_true _ ▸ habsolute)
    simp [beginsHere] at hhere
    simp_all

theorem components_eq_leading {path : Path} (hne : path.text ≠ "") :
    path.components = path.leading ++ (segments path.body).filterMap component? := by
  refine components_front hne List.prefix_rfl ?_
  rw [joinSegments_segments, lead_append_body]

/-! ### Parents -/

theorem parent?_eq (path : Path) : path.parent? =
    match trimEnd (segments path.body) with
    | [] => if path.beginsHere then some ⟨""⟩ else none
    | parts => some ⟨String.ofList (path.lead ++ joinSegments (trimEnd parts.dropLast))⟩ := rfl

theorem text_ne_of_parent? {path parent : Path} (h : path.parent? = some parent) : path.text ≠ "" := by
  intro hempty
  obtain rfl : path = ⟨""⟩ := congrArg Path.mk hempty
  cases h

/-- What a parent can be: nothing for a path that is only a leading `.`, and for any other path its
beginning, without its last part that counts. -/
theorem parent?_cases {path parent : Path} (h : path.parent? = some parent) :
    (path.components = [.here] ∧ parent = ⟨""⟩) ∨
      ∃ parts last, parts <+: segments path.body ∧ parent.text.toList = path.lead ++ joinSegments parts ∧
        path.components = path.leading ++ parts.filterMap component? ++ [last] ∧ last ≠ .root := by
  have hcomponents := components_eq_leading (text_ne_of_parent? h)
  rw [← filterMap_trimEnd] at hcomponents
  rw [parent?_eq] at h
  split at h
  · next hnil =>
      split_ifs at h with hhere
      have habsolute : path.isAbsolute = false := by
        rw [Bool.eq_false_iff]
        intro habsolute
        have hfirst := head?_segments_of_isAbsolute habsolute
        simp [beginsHere, hfirst] at hhere
      left
      simp_all [leading]
  · next hparts =>
      obtain ⟨front, segment, last, htrim, hlast⟩ := exists_last_of_trimEnd hparts
      have hfront : front <+: trimEnd (segments path.body) := ⟨[segment], htrim.symm⟩
      cases h
      refine .inr ⟨trimEnd front, last, ?_, ?_, ?_, (of_component?_eq_some hlast).1⟩
      · exact ((trimEnd_isPrefix front).trans hfront).trans (trimEnd_isPrefix _)
      · rw [htrim, List.dropLast_concat, String.toList_ofList]
      · rw [hcomponents, htrim, filterMap_trimEnd, List.filterMap_append]
        simp [hlast]

/-- The parent has the components of a path but for the last. -/
theorem components_parent? {path parent : Path} (h : path.parent? = some parent) :
    ∃ last, path.components = parent.components ++ [last] ∧ last ≠ .root := by
  rcases parent?_cases h with ⟨hhere, rfl⟩ | ⟨parts, last, hparts, htext, hcomponents, hlast⟩
  · exact ⟨.here, hhere, by simp⟩
  · exact ⟨last, by rw [hcomponents, components_front (text_ne_of_parent? h) hparts htext], hlast⟩

/-- A path is spelled like its parent as far as that goes. -/
theorem parent?_isPrefix {path parent : Path} (h : path.parent? = some parent) :
    parent.text.toList <+: path.text.toList := by
  rcases parent?_cases h with ⟨_, rfl⟩ | ⟨parts, _, hparts, htext, _⟩
  · exact List.nil_prefix
  · rw [htext, ← lead_append_body, List.prefix_append_right_inj, ← joinSegments_segments path.body]
    exact joinSegments_isPrefix hparts

/-- A path that ends in a name has a parent. -/
theorem exists_parent? {path : Path} {front : List Component} {name : String}
    (h : path.components = front ++ [.name name]) : ∃ parent, path.parent? = some parent := by
  have hne : path.text ≠ "" := by
    intro hempty
    obtain rfl : path = ⟨""⟩ := congrArg Path.mk hempty
    have hnil : (Path.mk "").components = [] := rfl
    simp [hnil] at h
  have hcomponents := components_eq_leading hne
  rw [← filterMap_trimEnd, h] at hcomponents
  rw [parent?_eq]
  split
  · next hnil =>
      exfalso
      rw [hnil, leading] at hcomponents
      split_ifs at hcomponents <;> simp [List.append_eq_cons_iff] at hcomponents
  · exact ⟨_, rfl⟩

end ElmNavigation.Path
