import ElmNavigation.Project.Graph
import ElmNavigation.Proofs.Declaration.Constructs
import ElmNavigation.Proofs.Path
import Mathlib.Data.List.Induction

/-! The graph of a project by what it answers. The table of modules is filled record by record, so that
the last record with a name is the one whose path is found; in the same way the last record with a path is
the one whose node is found. A file is always read to its end, so every file has a record, and the records
come in the order of their paths. -/

namespace ElmNavigation

/-! ### Modules -/

namespace ModuleTable

theorem lookup_map_replace (entries : List (String × Path)) (name : String) (path : Path) (other : String) :
    (entries.map fun entry => if entry.1 == name then (name, path) else entry).lookup other =
      if other = name then (entries.lookup name).map fun _ => path else entries.lookup other := by
  induction entries with
  | nil => simp
  | cons entry entries ih =>
      obtain ⟨key, value⟩ := entry
      rw [List.map_cons]
      by_cases hkey : key = name
      · subst hkey
        rw [if_pos (beq_self_eq_true key), List.lookup_cons, List.lookup_cons, List.lookup_cons,
          beq_self_eq_true, ih]
        by_cases hother : other = key
        · rw [hother, beq_self_eq_true]
          simp
        · rw [beq_false_of_ne hother, if_neg hother, if_neg hother]
      · rw [if_neg (by rwa [beq_iff_eq]), List.lookup_cons, List.lookup_cons, List.lookup_cons, ih]
        have hname : (name == key) = false := beq_false_of_ne fun h => hkey h.symm
        by_cases hother : other = name
        · rw [hother, hname, if_pos rfl]
        · rw [if_neg hother, if_neg hother]

theorem owner?_declare (table : ModuleTable) (name : String) (path : Path) (other : String) :
    (table.declare name path).owner? other = if other = name then some path else table.owner? other := by
  rw [declare]
  split
  · next howned =>
      obtain ⟨owner, howner⟩ := Option.isSome_iff_exists.mp howned
      rw [owner?] at howner
      rw [owner?, lookup_map_replace, howner]
      rfl
  · next hfree =>
      rw [Bool.not_eq_true, Option.isSome_eq_false_iff, Option.isNone_iff_eq_none, owner?] at hfree
      rw [owner?, List.lookup_append]
      by_cases hother : other = name
      · subst hother
        simp [hfree]
      · have hne : (other == name) = false := beq_false_of_ne hother
        simp [List.lookup_cons, hne, if_neg hother, owner?]

theorem owner?_addRecord (table : ModuleTable) (record : FileRecord) (name : String) :
    (table.addRecord record).owner? name =
      if record.moduleName = some name then some record.path else table.owner? name := by
  rw [addRecord]
  cases record.moduleName with
  | none => rfl
  | some own =>
      dsimp only
      rw [owner?_declare]
      simp only [Option.some.injEq, eq_comm]

theorem ofRecords_concat (records : List FileRecord) (record : FileRecord) :
    ofRecords (records ++ [record]) = (ofRecords records).addRecord record := by
  rw [ofRecords, List.foldl_append]
  rfl

/-- The last record with a name owns it. -/
theorem owner?_ofRecords (records : List FileRecord) (name : String) :
    (ofRecords records).owner? name =
      (records.reverse.find? (·.moduleName = some name)).map FileRecord.path := by
  induction records using List.reverseRecOn with
  | nil => rfl
  | append_singleton records record ih =>
      rw [ofRecords_concat, owner?_addRecord, ih, List.reverse_append, List.reverse_singleton,
        List.singleton_append, List.find?_cons]
      by_cases hname : record.moduleName = some name
      · rw [if_pos hname, decide_eq_true hname]
        rfl
      · rw [if_neg hname, decide_eq_false hname]

end ModuleTable

/-! ### Nodes -/

namespace Node

/-- An inserted node is found at its path, and hides no other. -/
theorem find?_insert (node : Node) (nodes : List Node) (path : Path) :
    (node.insert nodes).find? (·.record.path.same path) =
      if node.record.path.same path then some node else nodes.find? (·.record.path.same path) := by
  induction nodes with
  | nil =>
      rw [insert, List.find?_cons, List.find?_nil]
      cases node.record.path.same path <;> rfl
  | cons first rest ih =>
      rw [insert]
      split
      · next hsame =>
          rw [List.find?_cons, List.find?_cons, ← Path.same_congr_left hsame path]
          cases node.record.path.same path <;> rfl
      · next hdiffer =>
          split
          · rw [List.find?_cons]
            cases node.record.path.same path <;> rfl
          · rw [List.find?_cons, ih, List.find?_cons]
            cases hfirst : first.record.path.same path with
            | false => rfl
            | true =>
                have hnode : node.record.path.same path = false := by
                  rw [Path.same_comm, ← Path.same_congr_left hfirst, Path.same_comm]
                  exact Bool.eq_false_iff.mpr hdiffer
                rw [hnode]
                rfl

/-- The dependencies of a file answer like the targets of its imports, apart from the file itself: what is
left out has the answer of what stays. -/
theorem findSome?_foldl_addDependency {α : Type} {answer : Path → Option α}
    (hanswer : ∀ left right : Path, left.same right = true → answer left = answer right) (path : Path)
    (targets dependencies : List Path) :
    (targets.foldl (addDependency path) dependencies).findSome? answer =
      (dependencies.findSome? answer).or
        (targets.findSome? fun target => if path.same target then none else answer target) := by
  induction targets generalizing dependencies with
  | nil => rw [List.foldl_nil, List.findSome?_nil, Option.or_none]
  | cons target targets ih =>
      rw [List.foldl_cons, ih, addDependency, List.findSome?_cons]
      cases hself : path.same target with
      | true => rfl
      | false =>
          cases hany : dependencies.any (·.same target) with
          | true =>
              obtain ⟨dependency, hmem, hsame⟩ := List.any_eq_true.mp hany
              rw [← hanswer dependency target hsame]
              simp only [Bool.or_true, Bool.false_eq_true, if_true, if_false]
              cases hfound : dependencies.findSome? answer with
              | some found => rw [Option.some_or, Option.some_or]
              | none => rw [List.findSome?_eq_none_iff.mp hfound dependency hmem]
          | false =>
              simp only [Bool.or_false, Bool.false_eq_true, if_false, List.findSome?_append,
                List.findSome?_cons, List.findSome?_nil]
              cases answer target with
              | some found => cases dependencies.findSome? answer <;> rfl
              | none => rw [Option.or_none]

end Node

namespace DependencyGraph

/-- The last record with a path has the node at that path. -/
theorem node?_build (records : List FileRecord) (path : Path) :
    (build records).node? path =
      ((records.mergeSort FileRecord.le).reverse.find? (·.path.same path)).map
        (Node.ofRecord (build records).modules) := by
  have hfold : ∀ (modules : ModuleTable) (sorted : List FileRecord),
      (sorted.foldl (fun nodes record => (Node.ofRecord modules record).insert nodes) []).find?
        (·.record.path.same path) =
          (sorted.reverse.find? (·.path.same path)).map (Node.ofRecord modules) := by
    intro modules sorted
    induction sorted using List.reverseRecOn with
    | nil => rfl
    | append_singleton sorted record ih =>
        rw [List.foldl_append, List.foldl_cons, List.foldl_nil, Node.find?_insert, ih, List.reverse_append,
          List.reverse_singleton, List.singleton_append, List.find?_cons]
        have hpath : (Node.ofRecord modules record).record.path = record.path := rfl
        rw [hpath]
        cases record.path.same path <;> rfl
  exact hfold _ _

theorem node?_congr (graph : DependencyGraph) {left right : Path} (h : left.same right = true) :
    graph.node? left = graph.node? right := by
  have hpredicate : ∀ node : Node, node.record.path.same left = node.record.path.same right := by
    intro node
    rw [Path.same_comm, Path.same_congr_left h, Path.same_comm]
  rw [node?, node?]
  simp only [hpredicate]

end DependencyGraph

/-! ### Records -/

theorem FileRecord.pairwise_mergeSort (records : List FileRecord) :
    (records.mergeSort FileRecord.le).Pairwise fun left right => left.path.le right.path = true := by
  refine List.pairwise_mergeSort ?_ ?_ records
  · intro a b c hab hbc
    exact Path.le_trans hab hbc
  · intro a b
    rw [Bool.or_eq_true]
    exact Path.le_total a.path b.path

end ElmNavigation
