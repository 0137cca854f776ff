import Mathlib.Data.Finset.Card
import Wireform.Tree

/-!
Children that are put in one after the other. Names stand in the order in which they first came,
each once, with the node that came last under them; so an object is settled by these two alone.
-/

namespace Wireform.Children

variable {name : String} {node : Node}

theorem names_cons (first : String) (held : Node) (rest : Children) :
    (cons first held rest).names = first :: rest.names :=
  rfl

theorem eq_of_toList : {children others : Children} → children.toList = others.toList →
    children = others
  | .nil, .nil, _ => rfl
  | .cons .., .cons .., same => by
    obtain ⟨first, rest⟩ := List.cons.inj same
    obtain ⟨names, nodes⟩ := Prod.mk.inj first
    rw [names, nodes, eq_of_toList rest]

theorem toList_insert_of_fresh : {children : Children} → name ∉ children.names →
    (children.insert name node).toList = children.toList ++ [(name, node)]
  | .nil, _ => rfl
  | .cons first held rest, fresh => by
    obtain ⟨other, further⟩ := not_or.1 (mt List.mem_cons.2 fresh)
    rw [insert, if_neg fun same => other same.symm, toList, toList, toList_insert_of_fresh further,
      List.cons_append]

/-- Under a name that is there, the node takes its place among the others, which stay. -/
theorem toList_insert_of_mem (node : Node) : {children : Children} → name ∈ children.names →
    ∃ before held after, children.toList = before ++ (name, held) :: after ∧
      name ∉ before.map Prod.fst ∧
      (children.insert name node).toList = before ++ (name, node) :: after
  | .cons first held rest, member => by
    by_cases same : first = name
    · subst same
      exact ⟨[], held, rest.toList, rfl, List.not_mem_nil, congrArg toList (if_pos rfl)⟩
    · rw [names_cons, List.mem_cons] at member
      obtain ⟨before, old, after, split, fresh, placed⟩ :=
        toList_insert_of_mem node (member.resolve_left fun equal => same equal.symm)
      refine ⟨(first, held) :: before, old, after, ?_, ?_, ?_⟩
      · rw [toList, split, List.cons_append]
      · exact List.not_mem_cons_of_ne_of_not_mem (Ne.symm same) fresh
      · rw [insert, if_neg same, toList, placed, List.cons_append]

theorem names_insert (name : String) (node : Node) (children : Children) :
    (children.insert name node).names =
      if name ∈ children.names then children.names else children.names ++ [name] := by
  by_cases member : name ∈ children.names
  · obtain ⟨before, held, after, split, -, placed⟩ := toList_insert_of_mem node member
    rw [if_pos member, names, names, split, placed, List.map_append, List.map_append]
    rfl
  · rw [if_neg member, names, toList_insert_of_fresh member, List.map_append]
    rfl

theorem nodup_insert {children : Children} (distinct : children.names.Nodup) :
    (children.insert name node).names.Nodup := by
  rw [names_insert]
  split
  next => exact distinct
  next fresh => exact List.nodup_append.2 ⟨distinct, List.nodup_singleton name,
      fun a old b new same => fresh (List.mem_singleton.1 new ▸ same ▸ old)⟩

theorem mem_toList_insert {entry : String × Node} : {children : Children} →
    entry ∈ (children.insert name node).toList → entry ∈ children.toList ∨ entry = (name, node)
  | .nil, listed => .inr (List.mem_singleton.1 listed)
  | .cons first held rest, listed => by
    rw [insert] at listed
    split at listed
    next same =>
      rcases List.mem_cons.1 listed with here | later
      · exact .inr (same ▸ here)
      · exact .inl (.tail _ later)
    next =>
      rcases List.mem_cons.1 listed with here | later
      · exact .inl (here ▸ List.mem_cons_self ..)
      · exact (mem_toList_insert later).imp_left (.tail _)

theorem mem_of_get? : {children : Children} → children.get? name = some node →
    (name, node) ∈ children.toList
  | .cons first held rest, found => by
    rw [get?] at found
    split at found
    next same =>
      cases found
      exact same ▸ List.mem_cons_self ..
    next => exact List.mem_cons_of_mem _ (mem_of_get? found)

theorem get?_of_mem : {children : Children} → children.names.Nodup →
    (name, node) ∈ children.toList → children.get? name = some node
  | .cons first held rest, distinct, member => by
    rw [names_cons, List.nodup_cons] at distinct
    rcases List.mem_cons.1 member with here | below
    · cases here
      exact if_pos rfl
    · have apart : first ≠ name := by
        rintro rfl
        exact distinct.1 (List.mem_map.2 ⟨_, below, rfl⟩)
      rw [get?, if_neg apart, get?_of_mem distinct.2 below]

def ofInserts (entries : List (String × Node)) : Children :=
  entries.foldl (fun children (name, node) => children.insert name node) nil

/-- The names under which something was put in, in the order in which they first came. -/
def firstNames (entries : List (String × Node)) : List String :=
  (entries.map Prod.fst).eraseDups

/-- The node that was put in last under a name. -/
def lastNode? (entries : List (String × Node)) (name : String) : Option Node :=
  entries.reverse.lookup name

variable {entries : List (String × Node)}

theorem ofInserts_append (entries : List (String × Node)) (name : String) (node : Node) :
    ofInserts (entries ++ [(name, node)]) = (ofInserts entries).insert name node := by
  unfold ofInserts
  rw [List.foldl_append]
  rfl

theorem firstNames_append (entries : List (String × Node)) (name : String) (node : Node) :
    firstNames (entries ++ [(name, node)]) =
      if name ∈ firstNames entries then firstNames entries else firstNames entries ++ [name] := by
  unfold firstNames
  rw [List.map_append, List.eraseDups_append]
  by_cases known : name ∈ entries.map Prod.fst
  · rw [if_pos (List.mem_eraseDups.2 known)]
    simp [List.removeAll, known]
  · rw [if_neg (mt List.mem_eraseDups.1 known)]
    simp [List.removeAll, known, List.eraseDups_cons]

theorem lastNode?_append (entries : List (String × Node)) (name wanted : String) (node : Node) :
    lastNode? (entries ++ [(name, node)]) wanted =
      if name = wanted then some node else lastNode? entries wanted := by
  unfold lastNode?
  rw [List.reverse_append, List.reverse_singleton, List.singleton_append, List.lookup_cons]
  by_cases same : name = wanted
  · rw [if_pos same, same, beq_self_eq_true]
  · rw [if_neg same, beq_false_of_ne (Ne.symm same)]

theorem names_ofInserts (entries : List (String × Node)) :
    (ofInserts entries).names = firstNames entries := by
  induction entries using List.reverseRecOn with
  | nil => rfl
  | append_singleton front entry ih =>
    obtain ⟨name, node⟩ := entry
    rw [ofInserts_append, names_insert, firstNames_append, ih]

theorem nodup_ofInserts (entries : List (String × Node)) : (ofInserts entries).names.Nodup := by
  induction entries using List.reverseRecOn with
  | nil => exact List.nodup_nil
  | append_singleton front entry ih =>
    obtain ⟨name, node⟩ := entry
    rw [ofInserts_append]
    exact nodup_insert ih

theorem get?_ofInserts (entries : List (String × Node)) (wanted : String) :
    (ofInserts entries).get? wanted = lastNode? entries wanted := by
  induction entries using List.reverseRecOn with
  | nil => rfl
  | append_singleton front entry ih =>
    obtain ⟨name, node⟩ := entry
    rw [ofInserts_append, get?_insert, lastNode?_append, ih]

theorem pairs_of_nodup {children : Children} (distinct : children.names.Nodup) :
    children.toList.map (fun (name, node) => (name, some node)) =
      children.names.map fun name => (name, children.get? name) := by
  rw [names, List.map_map]
  apply List.map_congr_left
  rintro ⟨name, node⟩ member
  exact congrArg (Prod.mk name) (get?_of_mem distinct member).symm

theorem eq_of_names_of_get? {children others : Children} (distinct : children.names.Nodup)
    (names : children.names = others.names)
    (nodes : ∀ name, children.get? name = others.get? name) : children = others := by
  have pairs : children.toList.map (fun (name, node) => (name, some node)) =
      others.toList.map (fun (name, node) => (name, some node)) := by
    rw [pairs_of_nodup distinct, pairs_of_nodup (names ▸ distinct), names]
    exact List.map_congr_left fun name _ => congrArg (Prod.mk name) (nodes name)
  refine eq_of_toList ((List.map_injective_iff.2 ?_) pairs)
  rintro ⟨name, node⟩ ⟨name', node'⟩ same
  cases same
  rfl

/-- What holds of the children that come of a sequence of insertions. -/
structure Ordered (entries : List (String × Node)) : Prop where
  names : (ofInserts entries).names = firstNames entries
  once : (ofInserts entries).names.Nodup ∧
    ∀ name, name ∈ (ofInserts entries).names ↔ name ∈ entries.map Prod.fst
  get : ∀ name, (ofInserts entries).get? name = lastNode? entries name
  size : (ofInserts entries).size = (entries.map Prod.fst).toFinset.card
  pairs : (ofInserts entries).toList.map (fun (name, node) => (name, some node)) =
    (ofInserts entries).names.map fun name => (name, (ofInserts entries).get? name)
  replaced : ∀ name node, name ∈ (ofInserts entries).names → ∃ before held after,
    (ofInserts entries).toList = before ++ (name, held) :: after ∧
      name ∉ before.map Prod.fst ∧ name ∉ after.map Prod.fst ∧
      ((ofInserts entries).insert name node).toList = before ++ (name, node) :: after

theorem ordered (entries : List (String × Node)) : Ordered entries where
  names := names_ofInserts entries
  once := by
    refine ⟨nodup_ofInserts entries, fun name => ?_⟩
    rw [names_ofInserts, firstNames, List.mem_eraseDups]
  get := get?_ofInserts entries
  size := by
    have same : (entries.map Prod.fst).toFinset = (ofInserts entries).names.toFinset := by
      ext name
      rw [List.mem_toFinset, List.mem_toFinset, names_ofInserts, firstNames, List.mem_eraseDups]
    rw [same, List.toFinset_card_of_nodup (nodup_ofInserts entries), Children.names,
      List.length_map, Children.size]
  pairs := pairs_of_nodup (nodup_ofInserts entries)
  replaced name node member := by
    obtain ⟨before, held, after, split, fresh, placed⟩ := toList_insert_of_mem node member
    have distinct := nodup_ofInserts entries
    rw [Children.names, split, List.map_append, List.map_cons] at distinct
    exact ⟨before, held, after, split, fresh,
      (List.nodup_cons.1 (List.nodup_append.1 distinct).2.1).1, placed⟩

/-- Children keep the order in which their names first came and the node that came last under each,
and these two are all that they keep. -/
theorem insertion_ordered (entries others : List (String × Node)) :
    Ordered entries ∧
      (firstNames entries = firstNames others →
        (∀ name, lastNode? entries name = lastNode? others name) →
          Node.object (ofInserts entries) = Node.object (ofInserts others)) := by
  refine ⟨ordered entries, fun names nodes => congrArg Node.object ?_⟩
  apply eq_of_names_of_get? (nodup_ofInserts entries)
  · rw [names_ofInserts, names_ofInserts, names]
  · intro name
    rw [get?_ofInserts, get?_ofInserts, nodes]

/-- A name that comes again keeps its place and shows the later node, so that what it showed in
between leaves no trace. -/
theorem insertion_ordered_replaced :
    (ofInserts [("b", .value (.uint 1)), ("a", .empty), ("b", .value (.uint 2))]).names =
      ["b", "a"] ∧
    Node.object (ofInserts [("b", .value (.uint 1)), ("a", .empty), ("b", .value (.uint 2))]) =
      Node.object (ofInserts [("b", .value (.uint 2)), ("a", .value (.uint 3)), ("a", .empty)]) := by
  obtain ⟨ordered, settled⟩ := insertion_ordered
    [("b", .value (.uint 1)), ("a", .empty), ("b", .value (.uint 2))]
    [("b", .value (.uint 2)), ("a", .value (.uint 3)), ("a", .empty)]
  refine ⟨ordered.names, settled rfl fun name => ?_⟩
  by_cases b : name = "b"
  · subst b
    rfl
  by_cases a : name = "a"
  · subst a
    rfl
  simp only [lastNode?, List.reverse_cons, List.reverse_nil, List.nil_append, List.cons_append,
    List.lookup_cons, List.lookup_nil, beq_false_of_ne a, beq_false_of_ne b]

end Wireform.Children
