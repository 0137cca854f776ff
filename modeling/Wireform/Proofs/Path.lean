import Wireform.Proofs.Insertion

/-!
Nodes found by dotted paths. A path is the names between its dots, so what is found by two paths
one after the other is found by both joined; and every node of a tree is found by the names that
lead to it.
-/

namespace Wireform.Node

theorem pathNames_eq (path : List Char) :
    pathNames path = ((path.splitOn '.').filter (!·.isEmpty)).map String.ofList := by
  refine congrArg (fun groups : List (List Char) => (groups.filter (!·.isEmpty)).map String.ofList) ?_
  induction path with
  | nil => rfl
  | cons c rest ih =>
    rw [List.foldr_cons, ih, List.splitOn_cons_eq_if_modifyHead]
    by_cases dot : c = '.'
    · rw [if_pos dot, if_pos (beq_iff_eq.2 dot)]
    · rw [if_neg dot, if_neg (mt beq_iff_eq.1 dot)]
      cases groups : rest.splitOn '.' with
      | nil => exact absurd groups (List.splitOn_ne_nil _ _)
      | cons group others => rfl

theorem pathNames_append (path further : List Char) :
    pathNames (path ++ '.' :: further) = pathNames path ++ pathNames further := by
  simp only [pathNames_eq, List.splitOn_append_cons_self, List.filter_append, List.map_append]

theorem pathNames_eq_nil_iff {path : List Char} : pathNames path = [] ↔ ∀ c ∈ path, c = '.' := by
  induction path with
  | nil => exact iff_of_true rfl nofun
  | cons c rest ih =>
    rw [List.forall_mem_cons]
    by_cases dot : c = '.'
    · subst dot
      have skipped : pathNames ('.' :: rest) = pathNames rest := pathNames_append [] rest
      rw [skipped, ih, and_iff_right rfl]
    · refine iff_of_false ?_ fun dots => dot dots.1
      rw [pathNames_eq, List.splitOn_cons_eq_if_modifyHead, if_neg (mt beq_iff_eq.1 dot)]
      cases groups : rest.splitOn '.' with
      | nil => exact absurd groups (List.splitOn_ne_nil _ _)
      | cons group others => exact List.cons_ne_nil _ _

/-- Names without dots are what their path goes through, but for the empty ones. -/
theorem pathNames_intercalate {names : List String} (plain : ∀ name ∈ names, '.' ∉ name.toList) :
    pathNames (".".intercalate names).toList = names.filter (· ≠ "") := by
  have groups : (".".intercalate names).toList = ['.'].intercalate (names.map String.toList) :=
    String.toList_intercalate
  have kept (name : String) : (!name.toList.isEmpty) = decide (name ≠ "") := by
    rw [Bool.eq_iff_iff]
    simp [String.toList_eq_nil_iff]
  cases names with
  | nil => rfl
  | cons name rest =>
    rw [pathNames_eq, groups, List.splitOn_intercalate '.' (List.forall_mem_map.2 plain)
      (List.cons_ne_nil _ _), List.filter_map, List.map_map]
    simp only [Function.comp_def, kept, String.ofList_toList, List.map_id']

theorem at?_append (node : Node) (path further : String) :
    node.at? (path ++ "." ++ further) = (node.at? path).bind (·.at? further) := by
  unfold at?
  rw [String.toList_append, String.toList_append, List.append_assoc]
  change (pathNames (path.toList ++ '.' :: further.toList)).foldlM _ _ = _
  rw [pathNames_append, List.foldlM_append]
  rfl

/-- Trees as they are put together: values, and objects into which nodes were put one after the
other. -/
inductive Built : Node → Prop
  | value (content : Value) : Built (.value content)
  | object (entries : List (String × Node)) (each : ∀ entry ∈ entries, Built entry.2) :
    Built (.object (.ofInserts entries))

/-- Children of these names lead from one node to another. -/
inductive Leads : Node → List String → Node → Prop
  | here (node : Node) : Leads node [] node
  | through {children : Children} {name : String} {child found : Node} {names : List String}
    (listed : (name, child) ∈ children.toList) (further : Leads child names found) :
    Leads (.object children) (name :: names) found

variable {node child found : Node} {name : String} {names : List String}

theorem Built.of_child? (built : node.Built) (given : node.child? name = some child) :
    child.Built := by
  cases built with
  | value content => cases given
  | object entries each =>
    have last : Children.lastNode? entries name = some child :=
      (Children.get?_ofInserts entries name).symm.trans given
    obtain ⟨before, after, split, -⟩ := List.lookup_eq_some_iff.1 last
    have member : (name, child) ∈ entries.reverse := split ▸ List.mem_append_cons_self
    exact each _ (List.mem_reverse.1 member)

theorem Built.child?_of_mem {children : Children} (built : (Node.object children).Built)
    (listed : (name, child) ∈ children.toList) : (Node.object children).child? name = some child := by
  cases built with
  | object entries each => exact Children.get?_of_mem (Children.nodup_ofInserts entries) listed

theorem Leads.foldlM_child? (leads : node.Leads names found) (built : node.Built) :
    names.foldlM child? node = some found := by
  induction leads with
  | here node => rfl
  | through listed further ih =>
    have first := built.child?_of_mem listed
    rw [List.foldlM_cons, first]
    exact ih (built.of_child? first)

theorem leads_of_foldlM (reached : names.foldlM child? node = some found) :
    node.Leads names found := by
  induction names generalizing node with
  | nil =>
    cases reached
    exact .here _
  | cons name names ih =>
    rw [List.foldlM_cons] at reached
    obtain ⟨child, first, further⟩ := Option.bind_eq_some_iff.1 reached
    cases node with
    | value content => cases first
    | object children => exact .through (Children.mem_of_get? first) (ih further)

theorem at?_empty (node : Node) : node.at? "" = some node := by
  unfold at?
  rw [String.toList_empty]
  rfl

theorem at?_dot_append (node : Node) (path : String) : node.at? ("." ++ path) = node.at? path := by
  have first := node.at?_append "" path
  rwa [at?_empty, String.empty_append] at first

theorem at?_append_dot (node : Node) (path : String) : node.at? (path ++ ".") = node.at? path := by
  have last := node.at?_append path ""
  rw [String.append_empty] at last
  rw [last]
  cases node.at? path with
  | none => rfl
  | some found => exact found.at?_empty

theorem at?_value (content : Value) {path : String} (more : ∃ c ∈ path.toList, c ≠ '.') :
    (Node.value content).at? path = none := by
  unfold at?
  cases names : pathNames path.toList with
  | nil =>
    obtain ⟨c, member, other⟩ := more
    exact absurd (pathNames_eq_nil_iff.1 names c member) other
  | cons name rest => rfl

theorem at?_intercalate (plain : ∀ name ∈ names, name ≠ "" ∧ '.' ∉ name.toList) (node : Node) :
    node.at? (".".intercalate names) = names.foldlM child? node := by
  unfold at?
  rw [pathNames_intercalate fun name member => (plain name member).2,
    List.filter_eq_self.2 fun name member => decide_eq_true (plain name member).1]

structure FoundByPath (node : Node) : Prop where
  composed : ∀ path further,
    node.at? (path ++ "." ++ further) = (node.at? path).bind (·.at? further)
  blank : node.at? "" = some node
  leading : ∀ path, node.at? ("." ++ path) = node.at? path
  trailing : ∀ path, node.at? (path ++ ".") = node.at? path
  doubled : ∀ path further, node.at? (path ++ ".." ++ further) = node.at? (path ++ "." ++ further)
  skipped : ∀ segments : List String, (∀ segment ∈ segments, '.' ∉ segment.toList) →
    node.at? (".".intercalate segments) = node.at? (".".intercalate (segments.filter (· ≠ "")))
  reached : node.Built → ∀ names found, (∀ name ∈ names, name ≠ "" ∧ '.' ∉ name.toList) →
    node.Leads names found → node.at? (".".intercalate names) = some found
  chained : ∀ names found, (∀ name ∈ names, name ≠ "" ∧ '.' ∉ name.toList) →
    node.at? (".".intercalate names) = some found → node.Leads names found
  ended : ∀ path content further, node.at? path = some (.value content) →
    (∃ c ∈ further.toList, c ≠ '.') → node.at? (path ++ "." ++ further) = none

/-- Paths compose, whatever empty names they hold, and those of proper names find just the nodes
that these names lead to. -/
theorem paths_find_nodes (node : Node) : node.FoundByPath where
  composed := node.at?_append
  blank := node.at?_empty
  leading := node.at?_dot_append
  trailing := node.at?_append_dot
  doubled path further := by
    have twice : path ++ ".." ++ further = path ++ "." ++ ("." ++ further) := by
      simp only [← String.toList_inj, String.toList_append, List.append_assoc]
      rfl
    simp only [twice, at?_append, at?_dot_append]
  skipped segments plain := by
    unfold at?
    rw [pathNames_intercalate plain, pathNames_intercalate fun segment member =>
      plain segment (List.mem_of_mem_filter member), List.filter_filter]
    simp only [Bool.and_self]
  reached built names found plain leads := by
    rw [at?_intercalate plain, leads.foldlM_child? built]
  chained names found plain reached := by
    rw [at?_intercalate plain] at reached
    exact leads_of_foldlM reached
  ended path content further reached more := by
    rw [at?_append, reached]
    exact at?_value content more

def headed : Node :=
  .object (.ofInserts [("header", .object (.ofInserts [("flags", .value (.uint 1))]))])

/-- The number is found under its two names, with or without more dots, and nothing below it is. -/
theorem paths_find_nodes_headed :
    headed.Built ∧ headed.Leads ["header", "flags"] (.value (.uint 1)) ∧
    headed.at? "header.flags" = some (.value (.uint 1)) ∧
    headed.at? ("header" ++ ".." ++ "flags") = some (.value (.uint 1)) ∧
    headed.at? ("header.flags" ++ "." ++ "..low") = none := by
  have built : headed.Built := by
    refine .object _ (List.forall_mem_singleton.2 (.object _ (List.forall_mem_singleton.2 ?_)))
    exact .value _
  have leads : headed.Leads ["header", "flags"] (.value (.uint 1)) :=
    .through (List.mem_singleton_self _) (.through (List.mem_singleton_self _) (.here _))
  have finds := paths_find_nodes headed
  have joined : ".".intercalate ["header", "flags"] = "header.flags" := by decide +kernel
  have found := finds.reached built _ _ (by decide +kernel) leads
  rw [joined] at found
  refine ⟨built, leads, found, ?_, finds.ended _ _ _ found ⟨'l', by decide +kernel, by decide⟩⟩
  rw [finds.doubled]
  exact found

end Wireform.Node
