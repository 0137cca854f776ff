import Wireform.Proofs.Display
import Wireform.Proofs.Mirror
import Wireform.Proofs.Path

/-!
The dump of a tree, line by line. A tree that was read is dumped with one line for each node below
it, and neither names nor values break a line. So a dump falls into the lines it was made of, and
no bytes on the wire make it show a node that is not there.
-/

namespace Wireform

/-- A node below another one: the names of the nodes between them, its own name, and the node. -/
structure Descendant where
  above : List String
  name : String
  node : Node

mutual

/-- The nodes below, each before those that are below itself. -/
def Node.descendants (above : List String) : Node → List Descendant
  | .object children => children.descendants above
  | .value _ => []

def Children.descendants (above : List String) : Children → List Descendant
  | .nil => []
  | .cons name node rest =>
    ⟨above, name, node⟩ :: (node.descendants (above ++ [name]) ++ rest.descendants above)

end

/-- What a line says of a node behind its name. -/
def Node.caption : Node → String
  | .object _ => ""
  | .value content => " " ++ content.display

namespace Descendant

def path (entry : Descendant) : List String :=
  entry.above ++ [entry.name]

def line (entry : Descendant) : String :=
  String.ofList (List.replicate (2 * entry.above.length) ' ') ++ entry.name ++ ":" ++
    entry.node.caption

def lines (entries : List Descendant) : String :=
  String.join (entries.map fun entry => entry.line ++ "\n")

theorem lines_cons (entry : Descendant) (rest : List Descendant) :
    lines (entry :: rest) = entry.line ++ "\n" ++ lines rest :=
  String.join_cons

theorem lines_append (front rest : List Descendant) :
    lines (front ++ rest) = lines front ++ lines rest := by
  unfold lines
  rw [List.map_append, String.join_append]

/-- Lines that are not broken are found again between the line breaks. -/
theorem splitOn_lines {entries : List Descendant}
    (unbroken : ∀ entry ∈ entries, '\n' ∉ entry.line.toList) :
    (lines entries).toList.splitOn '\n' =
      entries.map (fun entry => entry.line.toList) ++ [[]] := by
  induction entries with
  | nil => rfl
  | cons entry rest ih =>
    obtain ⟨first, others⟩ := List.forall_mem_cons.1 unbroken
    have final : "\n".toList = ['\n'] := rfl
    rw [lines_cons, String.toList_append, String.toList_append, final, List.append_assoc,
      List.singleton_append, List.splitOn_append_cons_self_of_not_mem first, ih others]
    rfl

end Descendant

open Descendant

mutual

theorem Node.dumpUnder_eq (above : List String) (name : String) : (node : Node) →
    node.dumpUnder above.length =
      node.caption ++ "\n" ++ lines (node.descendants (above ++ [name]))
  | .object children => by
    have inner := children.dump_eq (above ++ [name])
    rw [List.length_append, List.length_singleton] at inner
    rw [Node.dumpUnder, inner, Node.caption, Node.descendants, String.empty_append]
  | .value content => by
    rw [Node.dumpUnder, Node.caption, Node.descendants]
    exact (String.append_empty).symm

theorem Children.dump_eq (above : List String) : (children : Children) →
    children.dump above.length = lines (children.descendants above)
  | .nil => rfl
  | .cons name node rest => by
    rw [Children.dump, node.dumpUnder_eq above name, rest.dump_eq above, Children.descendants,
      lines_cons, lines_append, line]
    simp only [String.append_assoc]

end

theorem Node.Leads.behind {rest : Children} {names : List String} {found : Node}
    (leads : (Node.object rest).Leads names found) (some : names ≠ []) (name : String)
    (node : Node) : (Node.object (.cons name node rest)).Leads names found := by
  cases leads with
  | here => exact absurd rfl some
  | through listed further => exact .through (List.mem_cons_of_mem _ listed) further

mutual

theorem Node.leads_of_mem {above : List String} {entry : Descendant} : (node : Node) →
    entry ∈ node.descendants above →
    ∃ names, entry.above = above ++ names ∧ node.Leads (names ++ [entry.name]) entry.node
  | .object children, member => children.leads_of_mem member
  | .value _, member => nomatch member

theorem Children.leads_of_mem {above : List String} {entry : Descendant} : (children : Children) →
    entry ∈ children.descendants above → ∃ names, entry.above = above ++ names ∧
      (Node.object children).Leads (names ++ [entry.name]) entry.node
  | .nil, member => nomatch member
  | .cons name node rest, member => by
    rw [Children.descendants, List.mem_cons, List.mem_append] at member
    rcases member with rfl | below | later
    · exact ⟨[], (List.append_nil above).symm, .through (List.mem_cons_self ..) (.here node)⟩
    · obtain ⟨names, same, leads⟩ := node.leads_of_mem below
      rw [List.append_assoc] at same
      exact ⟨name :: names, same, .through (List.mem_cons_self ..) leads⟩
    · obtain ⟨names, same, leads⟩ := rest.leads_of_mem later
      exact ⟨names, same, leads.behind (List.append_ne_nil_of_right_ne_nil _ nofun) name node⟩

end

theorem Children.mem_descendants {above : List String} {name : String} {node : Node} :
    {children : Children} → (name, node) ∈ children.toList →
    ⟨above, name, node⟩ ∈ children.descendants above ∧
      node.descendants (above ++ [name]) ⊆ children.descendants above
  | .cons first held rest, listed => by
    rw [Children.descendants]
    rcases List.mem_cons.1 listed with here | later
    · cases here
      exact ⟨List.mem_cons_self .., fun _ below => .tail _ (List.mem_append_left _ below)⟩
    · obtain ⟨child, below⟩ := Children.mem_descendants later
      exact ⟨.tail _ (List.mem_append_right _ child),
        fun _ member => .tail _ (List.mem_append_right _ (below member))⟩

theorem Node.mem_of_leads (above : List String) {names : List String} {name : String}
    {root found : Node} (leads : root.Leads (names ++ [name]) found) :
    ⟨above ++ names, name, found⟩ ∈ root.descendants above := by
  -- One name further the place is deeper, so the induction leaves open what is above.
  induction names generalizing root above with
  | nil =>
    cases leads with
    | through listed further =>
      cases further
      rw [List.append_nil]
      exact (Children.mem_descendants listed).1
  | cons first names ih =>
    cases leads with
    | through listed further =>
      have below := ih (above ++ [first]) further
      rw [List.append_assoc] at below
      exact (Children.mem_descendants listed).2 below

/-- The nodes below a node are those that names lead to. -/
theorem Node.mem_descendants_iff {root : Node} {entry : Descendant} :
    entry ∈ root.descendants [] ↔ root.Leads entry.path entry.node := by
  apply Iff.intro
  · intro member
    obtain ⟨names, same, leads⟩ := root.leads_of_mem member
    rw [List.nil_append] at same
    rwa [path, same]
  · exact Node.mem_of_leads []

/-- A tree in which siblings have different names, and no name and no value breaks a line. -/
inductive Node.Lined : Node → Prop
  | value {content : Value} (unbroken : '\n' ∉ content.display.toList) : Lined (.value content)
  | object {children : Children} (distinct : children.names.Nodup)
    (names : ∀ name ∈ children.names, '\n' ∉ name.toList)
    (nodes : ∀ entry ∈ children.toList, Lined entry.2) : Lined (.object children)

namespace Node.Lined

variable {root node found : Node} {children : Children} {name : String} {names : List String}

theorem empty : Node.empty.Lined :=
  .object List.nodup_nil nofun nofun

theorem insert (lined : (Node.object children).Lined) (plain : '\n' ∉ name.toList)
    (given : node.Lined) : (Node.object (children.insert name node)).Lined := by
  cases lined with
  | object distinct names nodes =>
    refine .object (Children.nodup_insert distinct) (fun other member => ?_) fun entry listed => ?_
    · obtain ⟨entry, listed, rfl⟩ := List.mem_map.1 member
      rcases Children.mem_toList_insert listed with old | rfl
      · exact names _ (List.mem_map_of_mem old)
      · exact plain
    · rcases Children.mem_toList_insert listed with old | rfl
      · exact nodes entry old
      · exact given

theorem graft {tree : Option Children} {given : Option Node}
    (lined : ∀ children ∈ tree, (Node.object children).Lined) (plain : '\n' ∉ name.toList)
    (each : ∀ node ∈ given, node.Lined) :
    ∀ children ∈ Children.graft name given tree, (Node.object children).Lined := by
  cases tree with
  | none => nofun
  | some children =>
    cases given with
    | none => exact lined
    | some node =>
      rintro _ ⟨⟩
      exact (lined children rfl).insert plain (each node rfl)

theorem start (capture : Bool) :
    ∀ children ∈ Children.start capture, (Node.object children).Lined := by
  cases capture with
  | false => nofun
  | true =>
    rintro _ ⟨⟩
    exact empty

theorem of_leads (lined : root.Lined) (leads : root.Leads names found) :
    (∀ name ∈ names, '\n' ∉ name.toList) ∧ found.Lined := by
  induction leads with
  | here node => exact ⟨nofun, lined⟩
  | through listed further ih =>
    cases lined with
    | object distinct plain nodes =>
      obtain ⟨others, last⟩ := ih (nodes _ listed)
      exact ⟨List.forall_mem_cons.2 ⟨plain _ (List.mem_map_of_mem listed), others⟩, last⟩

theorem newline_not_mem_caption (lined : node.Lined) : '\n' ∉ node.caption.toList := by
  cases lined with
  | value unbroken =>
    rw [caption, String.toList_append, List.mem_append]
    exact not_or.2 ⟨by decide +kernel, unbroken⟩
  | object => exact List.not_mem_nil

theorem newline_not_mem_line (lined : root.Lined) {entry : Descendant}
    (member : entry ∈ root.descendants []) : '\n' ∉ entry.line.toList := by
  obtain ⟨plain, node⟩ := lined.of_leads (mem_descendants_iff.1 member)
  have name : '\n' ∉ entry.name.toList :=
    plain entry.name (List.mem_append_right _ (List.mem_singleton_self _))
  have blanks : '\n' ∉ List.replicate (2 * entry.above.length) ' ' := fun blank =>
    absurd (List.eq_of_mem_replicate blank) (by decide)
  rw [line, String.toList_append, String.toList_append, String.toList_append, String.toList_ofList]
  simp only [List.mem_append, not_or]
  exact ⟨⟨⟨blanks, name⟩, by decide +kernel⟩, node.newline_not_mem_caption⟩

end Node.Lined

theorem Node.path_of_mem {above : List String} {name : String} {node : Node} {way : List String}
    (member : way ∈ (node.descendants (above ++ [name])).map path) :
    ∃ further, further ≠ [] ∧ way = above ++ name :: further := by
  obtain ⟨entry, below, rfl⟩ := List.mem_map.1 member
  obtain ⟨names, same, -⟩ := node.leads_of_mem below
  refine ⟨names ++ [entry.name], List.append_ne_nil_of_right_ne_nil _ nofun, ?_⟩
  rw [path, same, List.append_assoc, List.append_assoc, List.singleton_append]

theorem Children.path_of_mem {above : List String} {children : Children} {way : List String}
    (member : way ∈ (children.descendants above).map path) :
    ∃ name ∈ children.names, ∃ further, way = above ++ name :: further := by
  obtain ⟨entry, below, rfl⟩ := List.mem_map.1 member
  obtain ⟨names, same, leads⟩ := children.leads_of_mem below
  have whole : entry.path = above ++ (names ++ [entry.name]) := by
    rw [path, same, List.append_assoc]
  generalize trail : names ++ [entry.name] = further at leads whole
  generalize entry.node = found at leads
  cases leads with
  | here => exact absurd trail (List.append_ne_nil_of_right_ne_nil _ nofun)
  | through listed _ => exact ⟨_, List.mem_map_of_mem listed, _, whole⟩

mutual

/-- Each node has a way of its own, so none is listed twice. -/
theorem Node.nodup_paths (above : List String) : (node : Node) → node.Lined →
    ((node.descendants above).map path).Nodup
  | .object children, .object distinct _ nodes => children.nodup_paths above distinct nodes
  | .value _, _ => List.nodup_nil

theorem Children.nodup_paths (above : List String) : (children : Children) →
    children.names.Nodup → (∀ entry ∈ children.toList, entry.2.Lined) →
    ((children.descendants above).map path).Nodup
  | .nil, _, _ => List.nodup_nil
  | .cons name node rest, distinct, nodes => by
    obtain ⟨fresh, distinct⟩ := List.nodup_cons.1 distinct
    obtain ⟨first, others⟩ := List.forall_mem_cons.1 nodes
    rw [Children.descendants, List.map_cons, List.map_append, List.nodup_cons, List.nodup_append]
    -- The way to this child is shorter than those below it, and the others part from it by name.
    refine ⟨fun again => ?_, node.nodup_paths _ first, rest.nodup_paths above distinct others,
      fun way own other later same => ?_⟩
    · rcases List.mem_append.1 again with own | later
      · obtain ⟨further, some, whole⟩ := Node.path_of_mem own
        cases List.append_cancel_left whole
        exact some rfl
      · obtain ⟨sibling, listed, further, whole⟩ := Children.path_of_mem later
        cases List.append_cancel_left whole
        exact fresh listed
    · obtain ⟨further, -, whole⟩ := Node.path_of_mem own
      obtain ⟨sibling, listed, further', whole'⟩ := Children.path_of_mem later
      cases List.append_cancel_left (whole.symm.trans (same.trans whole'))
      exact fresh listed

end

mutual

/-- The names of the fields of a record type, with those of the records that it nests. -/
def Schema.allNames : Schema → List String
  | .fields _ _ declared => Field.allNames declared
  | .packed _ _ _ declared => declared.map BitField.name

def Field.innerNames : Field → List String
  | .scalar .. => []
  | .nested _ schema _ => schema.allNames

def Field.allNames : List Field → List String
  | [] => []
  | field :: rest => field.name :: (field.innerNames ++ Field.allNames rest)

end

theorem Field.name_mem_allNames {declared : List Field} {name : String}
    (member : name ∈ declared.map Field.name) : name ∈ Field.allNames declared := by
  induction declared with
  | nil => exact member
  | cons field rest ih =>
    rw [Field.allNames]
    rcases List.mem_cons.1 member with rfl | later
    · exact List.mem_cons_self ..
    · exact .tail _ (List.mem_append_right _ (ih later))

section

variable {σ : Type}

open Walk

theorem BitField.yields_lined (capture : Bool) (fields : List BitField)
    (contents : Contents fields) {planned : List (Planned BitDescriptor)}
    (plain : ∀ bit ∈ planned, '\n' ∉ bit.name.toList) (words : List UInt64) :
    (Transfer.ofExcept (assign fields contents (Children.start capture) planned words) :
      Transfer σ (Contents fields × Option Children)).Yields
        fun read => ∀ children ∈ read.2, (Node.object children).Lined := by
  rw [assign, Transfer.ofExcept_foldlM]
  refine Transfer.yields_foldlM
    (fun _ (read : Contents fields × Option Children) =>
      ∀ children ∈ read.2, (Node.object children).Lined) ?_ (Node.Lined.start capture)
  intro done entry rest split read before
  obtain ⟨bit, word⟩ := entry
  obtain ⟨mid, tree⟩ := read
  have travels : bit ∈ planned :=
    (List.of_mem_zip (show (bit, word) ∈ planned.zip words by rw [split]; simp)).1
  simp only [Transfer.ofExcept_bind]
  refine (Transfer.yields_any _).bind fun after _ => Transfer.yields_pure ?_
  refine Node.Lined.graft before (plain bit travels) ?_
  rintro _ ⟨⟩
  exact .value (Value.newline_not_mem_display_uint word)

variable [Source σ]

theorem Value.yields_unbroken (setting : Setting) (field : Descriptor) :
    (Value.decode setting field : Transfer σ Value).Yields
      fun value => '\n' ∉ value.display.toList := by
  unfold Value.decode
  refine (Transfer.yields_any _).bind fun codec _ => ?_
  unfold Codec.decode
  exact (Transfer.yields_any _).bind fun span _ =>
    Transfer.yields_ofExcept fun value read => Codec.newline_not_mem_display read

variable (setting : Setting) (capture : Bool)

mutual

theorem Schema.yields_lined : (schema : Schema) → (∀ name ∈ schema.allNames, '\n' ∉ name.toList) →
    (record : schema.Record) → (schema.decode setting capture record :
      Walk σ (schema.Record × Option Children)).Yields
        fun read => ∀ children ∈ read.2, (Node.object children).Lined
  | .fields tag name declared, plain, record => by
    simp only [Schema.decode]
    refine (yields_plan _ _ _).bind fun plan resolved => ?_
    obtain ⟨-, -, lists, -⟩ := Schema.plannedBy_of_resolve resolved
    refine Transfer.yields_foldlM
      (fun _ (read : Field.Contents declared × Option Children) =>
        ∀ children ∈ read.2, (Node.object children).Lined) ?_ (Node.Lined.start capture)
    intro done entry rest split read before
    obtain ⟨mid, tree⟩ := read
    -- What is planned at a position goes by the name that is declared there.
    have named := lists.name_at (split ▸ List.mem_append_cons_self)
    have unbroken := plain _ (Field.name_mem_allNames (List.mem_of_getElem? named))
    exact (Field.yields_linedAt declared plain mid entry.position entry.descriptor).bind
      fun (after, node) given => Transfer.yields_pure (Node.Lined.graft before unbroken given)
  | .packed tag name length declared, plain, record => by
    simp only [Schema.decode]
    refine (yields_plan _ _ _).bind fun plan resolved => yields_onStream ?_
    obtain ⟨-, -, lists, -⟩ := Schema.plannedBy_of_resolve resolved
    refine (Transfer.yields_any _).bind fun words _ =>
      BitField.yields_lined capture declared record (fun bit travels => ?_) words
    exact plain _ (List.mem_of_getElem? (lists.name_at travels))

theorem Field.yields_lined : (field : Field) → (∀ name ∈ field.innerNames, '\n' ∉ name.toList) →
    (content : field.Content) → (descriptor : Descriptor) →
    (field.decode setting capture content descriptor :
      Walk σ (field.Content × Option Node)).Yields fun read => ∀ node ∈ read.2, node.Lined
  | .scalar _ type _, _, content, descriptor => by
    simp only [Field.decode]
    refine yields_onStream ((Value.yields_unbroken setting descriptor).bind
      fun value unbroken => ?_)
    refine (Transfer.yields_any _).bind fun content _ => Transfer.yields_pure ?_
    cases capture with
    | false => nofun
    | true =>
      rintro _ ⟨⟩
      exact .value unbroken
  | .nested _ schema _, plain, content, _ => by
    simp only [Field.decode]
    refine (schema.yields_lined plain content).bind fun (after, tree) lined =>
      Transfer.yields_pure fun node shown => ?_
    obtain ⟨children, grown, rfl⟩ := Option.mem_map.1 shown
    exact lined children grown

theorem Field.yields_linedAt : (fields : List Field) →
    (∀ name ∈ Field.allNames fields, '\n' ∉ name.toList) → (contents : Field.Contents fields) →
    (position : Nat) → (descriptor : Descriptor) →
    (Field.decodeAt setting capture fields contents position descriptor :
      Walk σ (Field.Contents fields × Option Node)).Yields fun read => ∀ node ∈ read.2, node.Lined
  | [], _, _, _, _ => Transfer.yields_pure nofun
  | field :: rest, plain, contents, 0, descriptor => by
    rw [Field.allNames, List.forall_mem_cons, List.forall_mem_append] at plain
    simp only [Field.decodeAt]
    exact (field.yields_lined plain.2.1 contents.1 descriptor).bind
      fun _ lined => Transfer.yields_pure lined
  | field :: rest, plain, contents, position + 1, descriptor => by
    rw [Field.allNames, List.forall_mem_cons, List.forall_mem_append] at plain
    simp only [Field.decodeAt]
    exact (Field.yields_linedAt rest plain.2.2 contents.2 position descriptor).bind
      fun _ lined => Transfer.yields_pure lined

end

end

/-- The dump of a tree has the line of each node below it, in order and once, and can be split into
these lines again. -/
structure Node.Dumped (root : Node) : Prop where
  written : root.display = String.join
    ((root.descendants []).map fun entry => entry.line ++ "\n")
  split : root.display.toList.splitOn '\n' =
    (root.descendants []).map (fun entry => entry.line.toList) ++ [[]]
  unbroken : ∀ entry ∈ root.descendants [], ∀ content, entry.node = .value content →
    '\n' ∉ content.display.toList
  listed : ∀ entry, entry ∈ root.descendants [] ↔ root.Leads entry.path entry.node
  once : ((root.descendants []).map Descendant.path).Nodup

theorem Node.Lined.dumped {children : Children} (lined : (Node.object children).Lined) :
    (Node.object children).Dumped where
  written := children.dump_eq []
  split := by
    have written : (Node.object children).display = lines ((Node.object children).descendants []) :=
      children.dump_eq []
    rw [written]
    exact splitOn_lines fun entry member => lined.newline_not_mem_line member
  unbroken entry member content same := by
    obtain ⟨-, node⟩ := lined.of_leads (mem_descendants_iff.1 member)
    rw [same] at node
    cases node with
    | value unbroken => exact unbroken
  listed _ := mem_descendants_iff
  once := (Node.object children).nodup_paths [] lined

namespace Marshaller

variable {σ : Type} [Source σ] {schema : Schema}

theorem yields_lined (capture : Bool) (plain : ∀ name ∈ schema.allNames, '\n' ∉ name.toList)
    (version : Nat) (initial : schema.Record) :
    (decodeCapturing capture schema version initial :
      Transfer (Marshaller × σ) (Decoded schema)).Yields
        fun decoded => ∀ root ∈ decoded.tree, root.Lined := by
  refine yields_walk fun setting _ => ?_
  refine (schema.yields_lined setting capture plain initial).bind fun (record, tree) lined =>
    Transfer.yields_pure fun root shown => ?_
  obtain ⟨children, grown, rfl⟩ := Option.mem_map.1 shown
  exact lined children grown

theorem yields_dumped (plain : ∀ name ∈ schema.allNames, '\n' ∉ name.toList) (version : Nat)
    (initial : schema.Record) :
    (decodeCapturing true schema version initial :
      Transfer (Marshaller × σ) (Decoded schema)).Yields
        fun decoded => ∃ root, decoded.tree = some root ∧ root.Dumped := by
  intro state decoded left ran
  obtain ⟨children, grown, -⟩ :=
    (yields_decodeCapturing true schema version initial state decoded left ran).mirrored rfl
  exact ⟨_, grown, (yields_lined true plain version initial state decoded left ran _ grown).dumped⟩

theorem yields_dumped_withTree (plain : ∀ name ∈ schema.allNames, '\n' ∉ name.toList)
    (version : Nat) (initial : schema.Record) :
    (decodeWithTree schema version initial :
      Transfer (Marshaller × σ) (schema.Record × Node)).Yields fun read => read.2.Dumped := by
  refine (yields_dumped plain version initial).bind fun decoded ⟨root, grown, dumped⟩ =>
    Transfer.yields_pure ?_
  rw [grown]
  exact dumped

/-- Where no field name breaks a line, the tree of any record that is read, from whatever bytes, is
dumped with one line for each node below it: its name behind two blanks for each level, and behind
the name, for a value, what it shows. No value breaks its line. -/
theorem dumped_line_by_line (plain : ∀ name ∈ schema.allNames, '\n' ∉ name.toList) (version : Nat)
    (initial : schema.Record) (marshaller : Marshaller) (source : σ) :
    (marshaller.settings.captureTree = true → ∀ decoded left,
      decode schema version initial (marshaller, source) = .ok decoded left →
        ∃ root, decoded.tree = some root ∧ root.Dumped) ∧
    ∀ read left, decodeWithTree schema version initial (marshaller, source) = .ok read left →
      read.2.Dumped := by
  refine ⟨fun on decoded left ran => ?_, yields_dumped_withTree plain version initial _⟩
  have captured : decodeCapturing marshaller.settings.captureTree schema version initial
      (marshaller, source) = .ok decoded left := ran
  rw [on] at captured
  exact yields_dumped plain version initial _ decoded left captured

end Marshaller

namespace Sample

/-- Flags, and behind them a note of any length. -/
def noted : Schema :=
  .fields 2 "Noted"
    [.nested "flags" flags [.ofWire .object],
      .scalar "note" .string [((Descriptor.ofWire .string).withMode .remaining).withOrder 1]]

def unnoted : noted.Record :=
  ((1, 2, ()), "none", ())

/-- The note has line breaks in it, and a line that looks like a field. -/
def noteImage : Bytes :=
  [0xa3, 0x61, 0x0a, 0x62, 0x3a, 0x20, 0x31, 0x0a]

def note : Node :=
  .object (.cons "flags"
    (.object (.cons "low" (.value (.uint 3)) (.cons "high" (.value (.uint 10)) .nil)))
    (.cons "note" (.value (.text "a\nb: 1\n")) .nil))

end Sample

namespace Marshaller

theorem dumped_line_by_line_noted :
    (∀ name ∈ Sample.noted.allNames, '\n' ∉ name.toList) ∧
    (decode Sample.noted 1 Sample.unnoted).answer
        (Sample.keeping, Cursor.ofBytes Sample.noteImage) =
      .ok ⟨((3, 10, ()), "a\nb: 1\n", ()), some Sample.note⟩ ∧
    (decodeWithTree Sample.noted 1 Sample.unnoted).answer
        (Sample.keeping, Cursor.ofBytes Sample.noteImage) =
      .ok (((3, 10, ()), "a\nb: 1\n", ()), Sample.note) ∧
    Sample.note.Dumped ∧
    Sample.note.display =
      "flags:\n  low: 3 (0x3)\n  high: 10 (0xA)\nnote: \"a\\nb: 1\\n\"\n" := by
  have plain : ∀ name ∈ Sample.noted.allNames, '\n' ∉ name.toList := by decide +kernel
  have kept : (decode Sample.noted 1 Sample.unnoted).answer
      (Sample.keeping, Cursor.ofBytes Sample.noteImage) =
      .ok ⟨((3, 10, ()), "a\nb: 1\n", ()), some Sample.note⟩ := rfl
  have asked :
      (decodeWithTree Sample.noted 1 Sample.unnoted).answer
          (Sample.keeping, Cursor.ofBytes Sample.noteImage) =
        .ok (((3, 10, ()), "a\nb: 1\n", ()), Sample.note) := rfl
  obtain ⟨captured, -⟩ :=
    dumped_line_by_line plain 1 Sample.unnoted Sample.keeping (Cursor.ofBytes Sample.noteImage)
  obtain ⟨root, same, dumped⟩ := captured rfl _ _ (Transfer.eq_ok_of_answer kept)
  cases same
  exact ⟨plain, kept, asked, dumped, by decide +kernel⟩

end Marshaller

end Wireform
