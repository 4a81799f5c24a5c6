import ElmNavigation.Proofs.Project.Graph
import Mathlib.Data.List.Nodup
import Mathlib.Data.List.Pairwise

/-! What the graph of some records consists of, said on the records alone. They are taken in the order of
their paths, records with one path in their given order; then the last record with a module name owns it,
the names with a second carrier are the ambiguous ones, the last record with a path has the node at that
path, and a node depends on the owners of its imports. The graph is filled record by record, so each part
is an induction on the records from the back. -/

namespace ElmNavigation

/-! ### The order of records -/

namespace FileRecord

/-- The same records in the order of their paths, where records with one path keep their order. -/
structure StablySorted (records sorted : List FileRecord) : Prop where
  perm : sorted.Perm records
  ordered : sorted.Pairwise fun left right => left.path.le right.path = true
  stable (path : Path) : sorted.filter (·.path.same path) = records.filter (·.path.same path)

theorem stablySorted_mergeSort (records : List FileRecord) : StablySorted records (records.mergeSort le) where
  perm := List.mergeSort_perm records le
  ordered := pairwise_mergeSort records
  stable path := by
    -- sorting keeps any part of the list that is in order already, and records with one path are
    have hordered : (records.filter (·.path.same path)).Pairwise fun left right => le left right = true := by
      refine List.pairwise_of_forall_mem_list fun left hleft right hright => ?_
      have hkey := Path.key_eq_iff.mpr (List.mem_filter.mp hleft).2
      have hkey' := Path.key_eq_iff.mpr (List.mem_filter.mp hright).2
      rw [le, Path.le_iff, hkey, hkey']
    have hsublist : (records.filter (·.path.same path)).Sublist (records.mergeSort le) := by
      refine List.sublist_mergeSort ?_ ?_ hordered List.filter_sublist
      · intro a b c hab hbc
        exact Path.le_trans hab hbc
      · intro a b
        rw [Bool.or_eq_true]
        exact Path.le_total a.path b.path
    have hfilter := hsublist.filter (·.path.same path)
    rw [List.filter_filter] at hfilter
    simp only [Bool.and_self] at hfilter
    exact (hfilter.eq_of_length ((List.mergeSort_perm records le).filter _).length_eq.symm).symm

theorem path_le_of_mem_cons {first record : FileRecord} {rest : List FileRecord}
    (hordered : (first :: rest).Pairwise fun left right => left.path.le right.path = true)
    (hmem : record ∈ first :: rest) : first.path.le record.path = true := by
  rcases List.mem_cons.mp hmem with rfl | hmem
  · exact (Path.le_total record.path record.path).elim id id
  · exact (List.pairwise_cons.mp hordered).1 record hmem

theorem mem_of_filter_eq {records records' : List FileRecord}
    (h : ∀ path, records.filter (·.path.same path) = records'.filter (·.path.same path)) {record : FileRecord}
    (hmem : record ∈ records) : record ∈ records' := by
  have hfilter : record ∈ records.filter (·.path.same record.path) :=
    List.mem_filter.mpr ⟨hmem, Path.same_refl record.path⟩
  rw [h] at hfilter
  exact List.mem_of_mem_filter hfilter

/-- Records in order are determined by the records at each path. -/
theorem eq_of_filter_eq {records records' : List FileRecord}
    (hordered : records.Pairwise fun left right => left.path.le right.path = true)
    (hordered' : records'.Pairwise fun left right => left.path.le right.path = true)
    (h : ∀ path, records.filter (·.path.same path) = records'.filter (·.path.same path)) :
    records = records' := by
  induction records generalizing records' with
  | nil =>
      cases records' with
      | nil => rfl
      | cons first' rest' => cases mem_of_filter_eq (fun path => (h path).symm) (.head rest')
  | cons first rest ih =>
      cases records' with
      | nil => cases mem_of_filter_eq h (.head rest)
      | cons first' rest' =>
          -- both are first among all records with the least path
          have hle :=
            path_le_of_mem_cons hordered (mem_of_filter_eq (fun path => (h path).symm) (.head rest'))
          have hle' := path_le_of_mem_cons hordered' (mem_of_filter_eq h (.head rest))
          have hfirst := h first'.path
          rw [List.filter_cons, List.filter_cons, if_pos (Path.same_of_le_of_le hle hle'),
            if_pos (Path.same_refl _)] at hfirst
          obtain ⟨rfl, _⟩ := List.cons.inj hfirst
          congr 1
          refine ih hordered.of_cons hordered'.of_cons fun path => ?_
          have hpath := h path
          rw [List.filter_cons, List.filter_cons] at hpath
          split at hpath
          · exact (List.cons.inj hpath).2
          · exact hpath

/-- There is one stable order. -/
theorem stablySorted_iff {records sorted : List FileRecord} :
    StablySorted records sorted ↔ sorted = records.mergeSort le := by
  have hstable := stablySorted_mergeSort records
  constructor
  · intro h
    exact eq_of_filter_eq h.ordered hstable.ordered fun path =>
      (h.stable path).trans (hstable.stable path).symm
  · rintro rfl
    exact hstable

end FileRecord

/-! ### Ambiguous modules -/

namespace ModuleTable

/-- The number of records that carry a module name. -/
def carriers (records : List FileRecord) (name : String) : Nat :=
  records.countP (·.moduleName = some name)

/-- The second record that carries a module name has the given number. -/
def SecondCarrier (records : List FileRecord) (name : String) (i : Nat) : Prop :=
  (∃ record, records[i]? = some record ∧ record.moduleName = some name) ∧ carriers (records.take i) name = 1

theorem carriers_concat (records : List FileRecord) (record : FileRecord) (name : String) :
    carriers (records ++ [record]) name =
      carriers records name + if record.moduleName = some name then 1 else 0 := by
  rw [carriers, List.countP_append, List.countP_singleton, carriers]
  simp only [decide_eq_true_eq]

theorem owner?_isSome_iff (records : List FileRecord) (name : String) :
    ((ofRecords records).owner? name).isSome = true ↔ 0 < carriers records name := by
  rw [owner?_ofRecords, Option.isSome_map, List.find?_isSome, carriers, List.countP_pos_iff]
  simp only [List.mem_reverse]

theorem ambiguous_declare (table : ModuleTable) (name : String) (path : Path) :
    (table.declare name path).ambiguous =
      if (table.owner? name).isSome = true ∧ name ∉ table.ambiguous then table.ambiguous ++ [name]
      else table.ambiguous := by
  rw [declare]
  by_cases howned : (table.owner? name).isSome = true
  · by_cases hmem : name ∈ table.ambiguous
    · simp [howned, hmem]
    · simp [howned, hmem]
  · simp [howned]

/-- A record makes a name ambiguous if it is the second to carry it. -/
theorem ambiguous_concat (records : List FileRecord) (record : FileRecord)
    (hmem : ∀ name, name ∈ (ofRecords records).ambiguous ↔ 2 ≤ carriers records name) :
    (ofRecords (records ++ [record])).ambiguous = (ofRecords records).ambiguous ++
      record.moduleName.toList.filter fun name => carriers records name = 1 := by
  rw [ofRecords_concat, addRecord]
  cases record.moduleName with
  | none => simp
  | some own =>
      simp only [ambiguous_declare, owner?_isSome_iff, hmem]
      by_cases hone : carriers records own = 1
      · rw [if_pos (by omega)]
        simp [hone]
      · rw [if_neg (by omega)]
        simp [hone]

/-- A name is ambiguous if two records carry it. -/
theorem mem_ambiguous_iff (records : List FileRecord) (name : String) :
    name ∈ (ofRecords records).ambiguous ↔ 2 ≤ carriers records name := by
  induction records using List.reverseRecOn generalizing name with
  | nil => simp [ofRecords, empty, carriers]
  | append_singleton records record ih =>
      rw [ambiguous_concat records record ih, List.mem_append, ih, carriers_concat, List.mem_filter,
        Option.mem_toList, decide_eq_true_eq]
      by_cases hname : record.moduleName = some name
      · rw [if_pos hname]
        simp only [hname, true_and]
        omega
      · rw [if_neg hname]
        simp only [hname, false_and, or_false, Nat.add_zero]

theorem nodup_ambiguous (records : List FileRecord) : (ofRecords records).ambiguous.Nodup := by
  induction records using List.reverseRecOn with
  | nil => exact List.nodup_nil
  | append_singleton records record ih =>
      rw [ambiguous_concat records record (mem_ambiguous_iff records)]
      have hown : record.moduleName.toList.Nodup := by
        cases record.moduleName with
        | none => exact List.nodup_nil
        | some own => exact List.nodup_singleton own
      refine ih.append (hown.filter _) fun name hold hnew => ?_
      have hone := of_decide_eq_true (List.mem_filter.mp hnew).2
      rw [mem_ambiguous_iff] at hold
      omega

theorem SecondCarrier.concat {records : List FileRecord} {name : String} {i : Nat}
    (h : SecondCarrier records name i) (record : FileRecord) :
    SecondCarrier (records ++ [record]) name i := by
  obtain ⟨⟨carrier, hcarrier, hname⟩, hcount⟩ := h
  have hlt : i < records.length := (List.getElem?_eq_some_iff.mp hcarrier).1
  refine ⟨⟨carrier, by rw [List.getElem?_append_left hlt, hcarrier], hname⟩, ?_⟩
  rwa [List.take_append_of_le_length (Nat.le_of_lt hlt)]

theorem secondCarrier_last {records : List FileRecord} {record : FileRecord} {name : String}
    (hname : record.moduleName = some name) (hone : carriers records name = 1) :
    SecondCarrier (records ++ [record]) name records.length := by
  refine ⟨⟨record, List.getElem?_concat_length, hname⟩, ?_⟩
  rwa [List.take_left]

/-- Ambiguous names come in the order of their second carriers. -/
theorem pairwise_ambiguous (records : List FileRecord) :
    ((ofRecords records).ambiguous.Pairwise fun left right =>
        ∃ i j, SecondCarrier records left i ∧ SecondCarrier records right j ∧ i < j) ∧
      ∀ name ∈ (ofRecords records).ambiguous, ∃ i < records.length, SecondCarrier records name i := by
  induction records using List.reverseRecOn with
  | nil => exact ⟨.nil, fun name hmem => absurd hmem List.not_mem_nil⟩
  | append_singleton records record ih =>
      obtain ⟨hpairwise, hsecond⟩ := ih
      rw [ambiguous_concat records record (mem_ambiguous_iff records)]
      have hlast : ∀ name ∈ record.moduleName.toList.filter (fun name => carriers records name = 1),
          SecondCarrier (records ++ [record]) name records.length := by
        intro name hmem
        obtain ⟨hname, hone⟩ := List.mem_filter.mp hmem
        exact secondCarrier_last (Option.mem_toList.mp hname) (of_decide_eq_true hone)
      constructor
      · refine List.pairwise_append.mpr ⟨?_, ?_, ?_⟩
        · refine hpairwise.imp ?_
          rintro left right ⟨i, j, hleft, hright, hlt⟩
          exact ⟨i, j, hleft.concat record, hright.concat record, hlt⟩
        · refine List.Pairwise.filter _ ?_
          cases record.moduleName <;> simp
        · intro left hleft right hright
          obtain ⟨i, hlt, hcarrier⟩ := hsecond left hleft
          exact ⟨i, records.length, hcarrier.concat record, hlast right hright, hlt⟩
      · intro name hmem
        rw [List.length_append, List.length_singleton]
        rcases List.mem_append.mp hmem with hmem | hmem
        · obtain ⟨i, hlt, hcarrier⟩ := hsecond name hmem
          exact ⟨i, by omega, hcarrier.concat record⟩
        · exact ⟨records.length, by omega, hlast name hmem⟩

end ModuleTable

/-! ### Dependencies -/

namespace Node

/-- Collecting dependencies leaves out the file itself and keeps the first of equal ones. -/
theorem foldl_addDependency_eq (path : Path) (targets dependencies : List Path) :
    targets.foldl (addDependency path) dependencies =
      List.eraseDupsBy.loop Path.same (targets.filter fun target => !path.same target)
        dependencies.reverse := by
  induction targets generalizing dependencies with
  | nil => rw [List.foldl_nil, List.filter_nil, List.eraseDupsBy.loop, List.reverse_reverse]
  | cons target targets ih =>
      rw [List.foldl_cons, ih, addDependency]
      cases hself : path.same target with
      | true => rw [List.filter_cons_of_neg (by simp [hself]), Bool.true_or, if_pos rfl]
      | false =>
          have hany : dependencies.reverse.any (Path.same target) = dependencies.any (·.same target) := by
            rw [List.any_reverse]
            exact congrArg dependencies.any (funext fun dependency => Path.same_comm target dependency)
          rw [List.filter_cons_of_pos (by simp [hself]), Bool.false_or, List.eraseDupsBy.loop, hany]
          cases dependencies.any (·.same target) with
          | true => rfl
          | false =>
              rw [if_neg (by decide), List.reverse_append, List.reverse_singleton, List.singleton_append]

theorem mem_targets_of_mem_dependencies {path dependency : Path} {targets dependencies : List Path}
    (h : dependency ∈ targets.foldl (addDependency path) dependencies) :
    dependency ∈ dependencies ∨ dependency ∈ targets := by
  induction targets generalizing dependencies with
  | nil => exact .inl h
  | cons target targets ih =>
      rcases ih h with hmem | hmem
      · rw [addDependency] at hmem
        split at hmem
        · exact .inl hmem
        · rcases List.mem_append.mp hmem with hmem | hmem
          · exact .inl hmem
          · exact .inr (List.mem_cons.mpr (.inl (List.mem_singleton.mp hmem)))
      · exact .inr (.tail _ hmem)

/-! ### The order of nodes -/

theorem mem_insert {node other : Node} {nodes : List Node} (h : other ∈ node.insert nodes) :
    other = node ∨ other ∈ nodes := by
  induction nodes with
  | nil => exact .inl (List.mem_singleton.mp h)
  | cons first rest ih =>
      rw [insert] at h
      split at h
      · exact (List.mem_cons.mp h).imp_right (.tail _)
      · split at h
        · exact List.mem_cons.mp h
        · rcases List.mem_cons.mp h with rfl | hmem
          · exact .inr (.head _)
          · exact (ih hmem).imp_right (.tail _)

/-- An inserted node stands between those with smaller and those with greater paths. -/
theorem pairwise_insert (node : Node) {nodes : List Node}
    (h : nodes.Pairwise fun left right => left.record.path.lt right.record.path = true) :
    (node.insert nodes).Pairwise fun left right => left.record.path.lt right.record.path = true := by
  induction nodes with
  | nil => exact List.pairwise_singleton _ node
  | cons first rest ih =>
      obtain ⟨hfirst, hrest⟩ := List.pairwise_cons.mp h
      rw [insert]
      split
      · next hsame =>
          refine .cons (fun other hmem => ?_) hrest
          rw [Path.lt_iff, Path.key_eq_iff.mpr hsame]
          exact Path.lt_iff.mp (hfirst other hmem)
      · next hdiffer =>
          split
          · next hlt =>
              refine .cons (fun other hmem => ?_) h
              rcases List.mem_cons.mp hmem with rfl | hmem
              · exact hlt
              · exact Path.lt_iff.mpr ((Path.lt_iff.mp hlt).trans (Path.lt_iff.mp (hfirst other hmem)))
          · next hnot =>
              refine .cons (fun other hmem => ?_) (ih hrest)
              rcases mem_insert hmem with rfl | hmem
              · have hne : first.record.path.key ≠ other.record.path.key := fun hkey =>
                  hdiffer (Path.key_eq_iff.mp hkey.symm)
                exact Path.lt_iff.mpr (lt_of_le_of_ne (not_lt.mp fun hlt => hnot (Path.lt_iff.mpr hlt)) hne)
              · exact hfirst other hmem

end Node

namespace DependencyGraph

theorem pairwise_nodes (records : List FileRecord) :
    (build records).nodes.Pairwise fun left right => left.record.path.lt right.record.path = true := by
  rw [build]
  dsimp only
  generalize ModuleTable.ofRecords (records.mergeSort FileRecord.le) = modules
  induction records.mergeSort FileRecord.le using List.reverseRecOn with
  | nil => exact .nil
  | append_singleton sorted record ih =>
      rw [List.foldl_append]
      exact Node.pairwise_insert _ ih

/-- The graph has the nodes that are found in it. -/
theorem mem_nodes_iff (records : List FileRecord) (node : Node) :
    node ∈ (build records).nodes ↔ (build records).node? node.record.path = some node := by
  constructor
  · intro hmem
    cases hfind : (build records).node? node.record.path with
    | none => exact absurd (Path.same_refl _) (List.find?_eq_none.mp hfind node hmem)
    | some found =>
        have hsame : found.record.path.same node.record.path = true :=
          List.find?_some (p := fun other : Node => other.record.path.same node.record.path) hfind
        have hkey := Path.key_eq_iff.mpr hsame
        by_contra hne
        have hdiffer : (build records).nodes.Pairwise fun left right =>
            left.record.path.key ≠ right.record.path.key :=
          (pairwise_nodes records).imp fun hlt => ne_of_lt (Path.lt_iff.mp hlt)
        have hsymm : Std.Symm fun left right : Node => left.record.path.key ≠ right.record.path.key :=
          ⟨fun left right h => h.symm⟩
        exact hdiffer.forall (List.mem_of_find?_eq_some hfind) hmem (fun heq => hne (congrArg some heq)) hkey
  · exact List.mem_of_find?_eq_some

/-- What the graph of records consists of, where `sorted` has the records in the order of their paths. -/
structure IsGraphOf (sorted : List FileRecord) (graph : DependencyGraph) : Prop where
  /-- The last record with a module name owns it, -/
  owner (name : String) : graph.modulePath? name =
    (sorted.filter (·.moduleName = some name)).getLast?.map FileRecord.path
  /-- and only a name that no record carries is without an owner. -/
  unowned (name : String) : graph.modulePath? name = none ↔ ∀ record ∈ sorted, record.moduleName ≠ some name
  /-- The ambiguous names are those with two carriers, -/
  ambiguous (name : String) : name ∈ graph.ambiguousModules ↔ 2 ≤ ModuleTable.carriers sorted name
  /-- each once, -/
  once : graph.ambiguousModules.Nodup
  /-- in the order of their second carriers. -/
  noticed : graph.ambiguousModules.Pairwise fun left right => ∃ i j,
    ModuleTable.SecondCarrier sorted left i ∧ ModuleTable.SecondCarrier sorted right j ∧ i < j
  /-- There is a node for a path if a record has it, -/
  node (path : Path) : (∃ node, graph.node? path = some node) ↔
    ∃ record ∈ sorted, record.path.same path = true
  /-- which is that of the last such record, -/
  record {path : Path} {node : Node} (h : graph.node? path = some node) :
    (sorted.filter (·.path.same path)).getLast? = some node.record
  /-- and depends on the owners of its imports in their order, apart from itself and from repetitions. -/
  dependencies {path : Path} {node : Node} (h : graph.node? path = some node) : node.dependencies =
    ((node.record.imports.filterMap fun decl => graph.modulePath? decl.moduleName).filter fun target =>
      !node.record.path.same target).eraseDupsBy Path.same
  /-- The nodes are listed in the order of their paths, -/
  ordered : graph.nodes.Pairwise fun left right => left.record.path.lt right.record.path = true
  /-- all that can be found and no others, -/
  listed (node : Node) : node ∈ graph.nodes ↔ graph.node? node.record.path = some node
  /-- and what a node depends on is among them. -/
  closed {node : Node} (h : node ∈ graph.nodes) {dependency : Path}
    (hdependency : dependency ∈ node.dependencies) : ∃ target, graph.node? dependency = some target

section

variable (records : List FileRecord)

theorem modulePath?_build (name : String) : (build records).modulePath? name =
    ((records.mergeSort FileRecord.le).filter (·.moduleName = some name)).getLast?.map FileRecord.path := by
  rw [List.getLast?_filter]
  exact ModuleTable.owner?_ofRecords _ name

theorem exists_node?_build_iff (path : Path) : (∃ node, (build records).node? path = some node) ↔
    ∃ record ∈ records.mergeSort FileRecord.le, record.path.same path = true := by
  rw [← Option.isSome_iff_exists, node?_build, Option.isSome_map, List.find?_isSome]
  simp only [List.mem_reverse]

variable {records}

theorem node_eq_of_node?_build {path : Path} {node : Node} (h : (build records).node? path = some node) :
    ((records.mergeSort FileRecord.le).filter (·.path.same path)).getLast? = some node.record ∧
      node = Node.ofRecord (build records).modules node.record := by
  rw [node?_build] at h
  obtain ⟨record, hrecord, rfl⟩ := Option.map_eq_some_iff.mp h
  rw [List.getLast?_filter]
  exact ⟨hrecord, rfl⟩

/-- What a node depends on owns a module, so it is the path of a record and has a node. -/
theorem exists_node?_of_mem_dependencies {node : Node} (h : node ∈ (build records).nodes) {dependency : Path}
    (hdependency : dependency ∈ node.dependencies) :
    ∃ target, (build records).node? dependency = some target := by
  obtain ⟨_, hnode⟩ := node_eq_of_node?_build ((mem_nodes_iff records node).mp h)
  rw [hnode] at hdependency
  rcases Node.mem_targets_of_mem_dependencies hdependency with hmem | hmem
  · cases hmem
  · obtain ⟨decl, _, howner⟩ := List.mem_filterMap.mp hmem
    rw [← modulePath?, modulePath?_build] at howner
    obtain ⟨record, hlast, rfl⟩ := Option.map_eq_some_iff.mp howner
    have hrecord := List.mem_of_mem_filter (List.mem_of_getLast? hlast)
    exact (exists_node?_build_iff records record.path).mpr ⟨record, hrecord, Path.same_refl _⟩

end

/-- **The graph of any records, in any order and with repeated paths, is determined by their stable
order**, of which there is one: its owners, its ambiguous names, its nodes with their dependencies, and
the order of all of these. -/
theorem exists_isGraphOf_build (records : List FileRecord) :
    ∃ sorted, (∀ other, FileRecord.StablySorted records other ↔ other = sorted) ∧
      IsGraphOf sorted (build records) := by
  refine ⟨records.mergeSort FileRecord.le, fun _ => FileRecord.stablySorted_iff, ?_⟩
  constructor
  case owner => exact modulePath?_build records
  case unowned =>
    intro name
    rw [modulePath?_build, Option.map_eq_none_iff, List.getLast?_eq_none_iff, List.filter_eq_nil_iff]
    simp only [decide_eq_true_eq, ne_eq]
  case ambiguous => exact ModuleTable.mem_ambiguous_iff _
  case once => exact ModuleTable.nodup_ambiguous _
  case noticed => exact (ModuleTable.pairwise_ambiguous _).1
  case node => exact exists_node?_build_iff records
  case record => exact fun hnode => (node_eq_of_node?_build hnode).1
  case dependencies =>
    intro path node hnode
    rw [(node_eq_of_node?_build hnode).2]
    exact Node.foldl_addDependency_eq node.record.path _ []
  case ordered => exact pairwise_nodes records
  case listed => exact mem_nodes_iff records
  case closed => exact exists_node?_of_mem_dependencies

/-- Two records of one file, spelled in two ways, and a second carrier of a module name. -/
def repeatedRecords : List FileRecord :=
  [⟨⟨"a/T.elm"⟩, some "T", [], []⟩,
    ⟨⟨"a//T.elm"⟩, some "U", [⟨"U", none, .nothing, ⟨0, 0, 0⟩⟩, ⟨"T", none, .all, ⟨1, 0, 9⟩⟩], []⟩,
    ⟨⟨"b/T.elm"⟩, some "T", [], []⟩]

/-- The later of two records with one path has the node, which depends on the owner of `T` and not on
itself. -/
theorem exists_isGraphOf_build_repeated :
    ∃ sorted, FileRecord.StablySorted repeatedRecords sorted ∧
      (sorted.filter (·.path.same ⟨"a/T.elm"⟩)).getLast? = repeatedRecords[1]? ∧
      (build repeatedRecords).dependenciesOf ⟨"a/T.elm"⟩ = [⟨"b/T.elm"⟩] ∧
      2 ≤ ModuleTable.carriers sorted "T" := by
  obtain ⟨sorted, hsorted, hgraph⟩ := exists_isGraphOf_build repeatedRecords
  have horder : repeatedRecords.mergeSort FileRecord.le = repeatedRecords :=
    List.mergeSort_of_pairwise (by decide +kernel)
  have hnode : (build repeatedRecords).node? ⟨"a/T.elm"⟩ =
      repeatedRecords[1]?.map fun record => ⟨record, [⟨"b/T.elm"⟩]⟩ := by
    rw [build, horder]
    decide +kernel
  refine ⟨sorted, (hsorted sorted).mpr rfl, hgraph.record hnode, ?_, (hgraph.ambiguous "T").mp ?_⟩
  · rw [dependenciesOf, hnode]
    rfl
  · rw [build, horder]
    decide +kernel

end DependencyGraph

end ElmNavigation
