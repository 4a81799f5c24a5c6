import ElmNavigation.Path
import Mathlib.Data.List.Lex

/-! Paths in comparisons and by their parts. A path is compared by the keys of its components, and a key
determines its component, so `le` is a linear order up to `same`: two paths of which neither comes before
the other have the same components. The parts of a path below another are those of both. -/

namespace ElmNavigation

theorem Component.key_injective : Function.Injective Component.key := by
  intro left right h
  cases left with
  | name text =>
      cases right with
      | name text' =>
          have hchars : text.toList = text'.toList :=
            List.map_injective_iff.mpr (fun _ _ => Char.toNat_inj.mp) (List.cons.inj h).2
          rw [String.toList_inj.mp hchars]
      | _ => exact absurd (List.cons.inj h).1 (by decide)
  | root => cases right <;> first | rfl | exact absurd (List.cons.inj h).1 (by decide)
  | here => cases right <;> first | rfl | exact absurd (List.cons.inj h).1 (by decide)
  | up => cases right <;> first | rfl | exact absurd (List.cons.inj h).1 (by decide)

namespace Path

variable {left middle right : Path}

theorem same_iff : left.same right = true ↔ left.components = right.components := by
  rw [same, beq_iff_eq]

theorem key_eq_iff : left.key = right.key ↔ left.same right = true := by
  rw [same_iff, key, key]
  exact (List.map_injective_iff.mpr Component.key_injective).eq_iff

theorem lt_iff : left.lt right = true ↔ left.key < right.key := by
  rw [lt, decide_eq_true_eq]

theorem le_iff : left.le right = true ↔ left.key ≤ right.key := by
  rw [le, Bool.not_eq_true', ← Bool.not_eq_true, lt_iff, not_lt]

theorem same_refl (path : Path) : path.same path = true :=
  same_iff.mpr rfl

theorem same_comm (left right : Path) : left.same right = right.same left := by
  rw [Bool.eq_iff_iff, same_iff, same_iff]
  exact eq_comm

/-- Paths with the same components cannot be told apart by comparing them with a third one. -/
theorem same_congr_left (h : left.same middle = true) (right : Path) :
    left.same right = middle.same right := by
  rw [same, same, same_iff.mp h]

theorem le_trans (h : left.le middle = true) (h' : middle.le right = true) : left.le right = true :=
  le_iff.mpr ((le_iff.mp h).trans (le_iff.mp h'))

theorem le_total (left right : Path) : left.le right = true ∨ right.le left = true := by
  rw [le_iff, le_iff]
  exact LinearOrder.le_total left.key right.key

theorem same_of_le_of_le (h : left.le right = true) (h' : right.le left = true) : left.same right = true :=
  key_eq_iff.mp (le_antisymm (le_iff.mp h) (le_iff.mp h'))

/-! ### Parts -/

theorem segments_ne_nil (text : List Char) : segments text ≠ [] := by
  cases text with
  | nil => exact List.cons_ne_nil _ _
  | cons c text =>
      rw [segments]
      split
      · exact List.cons_ne_nil _ _
      · split <;> exact List.cons_ne_nil _ _

/-- A slash keeps the parts on its two sides apart. -/
theorem segments_append (before after : List Char) :
    segments (before ++ '/' :: after) = segments before ++ segments after := by
  induction before with
  | nil => rfl
  | cons c before ih =>
      rw [List.cons_append, segments, segments, ih]
      split
      · rfl
      · cases hsegments : segments before with
        | nil => exact absurd hsegments (segments_ne_nil before)
        | cons first rest => rfl

theorem segments_of_notMem {text : List Char} (h : '/' ∉ text) : segments text = [text] := by
  induction text with
  | nil => rfl
  | cons c text ih =>
      obtain ⟨hc, htext⟩ := not_or.mp (mt List.mem_cons.mpr h)
      rw [segments, if_neg (Ne.symm hc), ih htext]

theorem segments_names {names : List String} (hnames : ∀ name ∈ names, '/' ∉ name.toList) {front : List Char}
    (hfront : '/' ∉ front) :
    segments (front ++ names.flatMap fun name => '/' :: name.toList) = front :: names.map String.toList := by
  induction names generalizing front with
  | nil => rw [List.flatMap_nil, List.append_nil, segments_of_notMem hfront]; rfl
  | cons name names ih =>
      rw [List.flatMap_cons, List.cons_append, segments_append, segments_of_notMem hfront,
        ih (fun other hmem => hnames other (.tail _ hmem)) (hnames _ (.head _))]
      rfl

/-- A relative path below another is spelled with one slash between the two. -/
theorem exists_toList_join {base : Path} {below : String} (hbase : base.text ≠ "")
    (hbelow : (Path.mk below).isAbsolute = false) :
    ∃ front, (base.text.toList = front ∨ base.text.toList = front ++ ['/']) ∧
      (base.join below).text.toList = front ++ '/' :: below.toList := by
  have hne : base.text.toList ≠ [] := fun hnil => hbase (String.toList_eq_nil_iff.mp hnil)
  obtain ⟨front, last, hfront⟩ : ∃ front last, base.text.toList = front ++ [last] :=
    ⟨_, _, (List.dropLast_append_getLast hne).symm⟩
  rw [join, hbelow, if_neg (by decide)]
  by_cases hlast : last = '/'
  · subst hlast
    refine ⟨front, .inr hfront, ?_⟩
    rw [if_pos (by simp [hfront]), String.toList_append, hfront, List.append_assoc, List.singleton_append]
  · refine ⟨base.text.toList, .inl rfl, ?_⟩
    rw [if_neg (by simpa [hfront] using hlast), String.toList_append, String.toList_append, List.append_assoc]
    rfl

theorem mem_segments_join {base : Path} {below : String} (hbase : base.text ≠ "") {segment : List Char}
    (h : segment ∈ segments (base.join below).text.toList) :
    segment ∈ segments base.text.toList ∨ segment ∈ segments below.toList := by
  cases hbelow : (Path.mk below).isAbsolute with
  | true =>
      rw [join, if_pos hbelow] at h
      exact .inr h
  | false =>
      obtain ⟨front, hfront, hjoin⟩ := exists_toList_join hbase hbelow
      rw [hjoin, segments_append] at h
      rcases List.mem_append.mp h with h | h
      · rcases hfront with hfront | hfront
        · exact .inl (by rwa [hfront])
        · exact .inl (by rw [hfront, segments_append]; exact List.mem_append_left _ h)
      · exact .inr h

theorem mem_segments_join_of_below {base : Path} {below : String} (hbase : base.text ≠ "")
    {segment : List Char} (h : segment ∈ segments below.toList) :
    segment ∈ segments (base.join below).text.toList := by
  cases hbelow : (Path.mk below).isAbsolute with
  | true => rwa [join, if_pos hbelow]
  | false =>
      obtain ⟨front, _, hjoin⟩ := exists_toList_join hbase hbelow
      rw [hjoin, segments_append]
      exact List.mem_append_right _ h

theorem mem_segments_join_of_base {base : Path} {below : String} (hbase : base.text ≠ "")
    (hbelow : (Path.mk below).isAbsolute = false) {segment : List Char} (hne : segment ≠ [])
    (h : segment ∈ segments base.text.toList) : segment ∈ segments (base.join below).text.toList := by
  obtain ⟨front, hfront, hjoin⟩ := exists_toList_join hbase hbelow
  rw [hjoin, segments_append]
  refine List.mem_append_left _ ?_
  rcases hfront with hfront | hfront
  · rwa [hfront] at h
  · rw [hfront, segments_append] at h
    rcases List.mem_append.mp h with h | h
    · exact h
    · exact absurd (List.mem_singleton.mp h) hne

theorem isAbsolute_join {base : Path} (h : base.isAbsolute = true) (below : String) :
    (base.join below).isAbsolute = true := by
  have hhead : base.text.toList.head? = some '/' := by simpa [isAbsolute] using h
  rw [join]
  split
  · assumption
  · split <;> simp [isAbsolute, List.head?_append, hhead]

/-- A part `..` is a component, so a path whose components are names has none. -/
theorem up_notMem_of_components {path : Path} {names : List String}
    (h : path.components = .root :: names.map .name) : ['.', '.'] ∉ segments path.text.toList := by
  intro hmem
  have hbody : Component.up ∈ (segments path.text.toList).filterMap component? :=
    List.mem_filterMap.mpr ⟨_, hmem, rfl⟩
  have hup : Component.up ∈ path.components := by
    rw [components]
    split_ifs
    · exact .tail _ hbody
    · exact .tail _ hbody
    · exact hbody
  rw [h] at hup
  simp at hup

end Path

end ElmNavigation
