import Wireform.Proofs.Indifference
import Wireform.Proofs.Insertion

/-!
What is read into a record. Only what travels is changed; where a tree is kept, it shows each field
that travels under its name, in the order of the plan, with the value that the field was given. No
two fields of a record go by one name, so no child of the tree takes the place of another.
-/

namespace Wireform

open Walk

namespace Transfer

variable {σ α β ι : Type} {holds : α → Prop} {further : β → Prop}

/-- Whatever the action answers, from whatever state, this holds of it. -/
def Yields (act : Transfer σ α) (holds : α → Prop) : Prop :=
  ∀ state a after, act state = .ok a after → holds a

theorem yields_pure {a : α} (fits : holds a) : Yields (pure a : Transfer σ α) holds := by
  rintro state _ after ⟨⟩
  exact fits

theorem Yields.mono {other : α → Prop} {act : Transfer σ α} (yields : act.Yields holds)
    (weaker : ∀ a, holds a → other a) : act.Yields other :=
  fun state a after ran => weaker a (yields state a after ran)

theorem Yields.bind {act : Transfer σ α} {next : α → Transfer σ β} (first : act.Yields holds)
    (second : ∀ a, holds a → (next a).Yields further) : (act >>= next).Yields further := by
  intro state b after ran
  obtain ⟨a, mid, ranFirst, ranSecond⟩ := bind_eq_ok.1 ran
  exact second a (first state a mid ranFirst) mid b after ranSecond

theorem yields_any (act : Transfer σ α) : act.Yields fun _ => True :=
  fun _ _ _ _ => trivial

theorem yields_ofExcept {answer : Except Fault α} (fits : ∀ a, answer = .ok a → holds a) :
    Yields (ofExcept answer : Transfer σ α) holds :=
  fun _ a _ ran => fits a (ofExcept_eq_ok.1 ran).1

/-- What each entry keeps up, given the entries before it, holds after all of them. -/
theorem yields_foldlM {step : α → ι → Transfer σ α} (holds : List ι → α → Prop) {entries : List ι}
    (each : ∀ done entry rest, entries = done ++ entry :: rest → ∀ a, holds done a →
      (step a entry).Yields (holds (done ++ [entry])))
    {a : α} (start : holds [] a) : (entries.foldlM step a).Yields (holds entries) := by
  -- The invariant speaks of the entries that are done, so the induction is on those still to come.
  suffices further : ∀ rest done a, entries = done ++ rest → holds done a →
      (rest.foldlM step a).Yields (holds entries) from further entries [] a rfl start
  intro rest
  induction rest with
  | nil =>
    intro done a split before
    rw [List.append_nil] at split
    subst split
    exact yields_pure before
  | cons entry rest ih =>
    intro done a split before
    rw [List.foldlM_cons]
    refine (each done entry rest split a before).bind fun b after => ?_
    exact ih (done ++ [entry]) b (by simp [split]) after

end Transfer

namespace Walk

variable {σ α : Type}

theorem yields_onStream {act : Transfer σ α} {holds : α → Prop} (yields : act.Yields holds) :
    (onStream act : Walk σ α).Yields holds := by
  intro state a after ran
  simp only [onStream, Transfer.focus] at ran
  cases given : act state.stream with
  | ok b rest => rw [given] at ran; cases ran; exact yields _ a rest given
  | error fault rest => rw [given] at ran; cases ran

theorem yields_plan (settings : Settings) (schema : Schema) (version : Nat) :
    (onPlans (settings.plan schema version) : Walk σ Plan).Yields fun plan =>
      schema.resolve version = .ok plan := by
  intro ⟨plans, stream⟩ plan after ran
  obtain ⟨kept, same⟩ := Follows.plan settings schema version plans stream
  obtain ⟨rest, answered, -⟩ := Transfer.within_eq_ok.1 (same.symm.trans ran)
  exact (Transfer.ofExcept_eq_ok.1 answered).1

end Walk

namespace Children

def nodes (children : Children) : List Node :=
  children.toList.map Prod.snd

/-- The tree has grown a child for each entry, in order and under its name, that shows the entry. -/
def Grown {δ : Type} (depicts : Planned δ → Node → Prop) (entries : List (Planned δ))
    (tree : Option Children) : Prop :=
  ∃ children, tree = some children ∧ children.names = entries.map Planned.name ∧
    List.Forall₂ depicts entries children.nodes

theorem Grown.graft {δ : Type} {depicts depicts' : Planned δ → Node → Prop}
    {done : List (Planned δ)} {entry : Planned δ} {tree : Option Children} {given : Option Node}
    (grown : Grown depicts done tree) (fresh : entry.name ∉ done.map Planned.name)
    (kept : ∀ earlier ∈ done, ∀ node, depicts earlier node → depicts' earlier node)
    (shown : ∃ node, given = some node ∧ depicts' entry node) :
    Grown depicts' (done ++ [entry]) (graft entry.name given tree) := by
  obtain ⟨children, rfl, names, each⟩ := grown
  obtain ⟨node, rfl, last⟩ := shown
  have behind :
      (children.insert entry.name node).toList = children.toList ++ [(entry.name, node)] :=
    toList_insert_of_fresh (names ▸ fresh)
  refine ⟨_, rfl, ?_, ?_⟩
  · rw [Children.names, behind, List.map_append, List.map_append, ← names]
    rfl
  · have earlier := (List.forall₂_and_left done children.nodes).2 ⟨kept, each⟩
    rw [nodes, behind, List.map_append]
    exact List.rel_append (earlier.imp fun _ node keeps => keeps.1 node keeps.2) (.cons last .nil)

theorem grown_start {δ : Type} {depicts : Planned δ → Node → Prop} :
    Grown depicts [] (start true) :=
  ⟨.nil, rfl, rfl, .nil⟩

end Children

namespace Plan

/-- The children go by the names of the plan, in the order in which its fields travel, and no two
of them by one name. -/
structure Labels (plan : Plan) (children : Children) : Prop where
  names : children.names = plan.fieldNames
  distinct : children.names.Nodup
  ascending : plan.fields.Pairwise fun a b => a.descriptor.order < b.descriptor.order
  offsets : plan.bits.Pairwise fun a b => a.descriptor.offset ≤ b.descriptor.offset

end Plan

def Field.SameAt :
    (fields : List Field) → Field.Contents fields → Field.Contents fields → Nat → Prop
  | [], _, _, _ => True
  | _ :: _, contents, other, 0 => contents.1 = other.1
  | _ :: rest, contents, other, position + 1 => Field.SameAt rest contents.2 other.2 position

mutual

/-- A record read over another one differs from it at most in what travels. -/
def Schema.Kept (version : Nat) : (schema : Schema) → schema.Record → schema.Record → Prop
  | .fields tag name declared, record, after =>
    ∃ plan, (Schema.fields tag name declared).resolve version = .ok plan ∧
      (∀ position, position ∉ plan.fields.map Planned.position →
        Field.SameAt declared record after position) ∧
      ∀ planned ∈ plan.fields, Field.KeptAt version declared record after planned.position
  | .packed tag name length declared, record, after =>
    ∃ plan, (Schema.packed tag name length declared).resolve version = .ok plan ∧
      ∀ position, position ∉ plan.bits.map Planned.position →
        BitField.heldAt declared record position = BitField.heldAt declared after position

/-- A scalar field that travels may change; of a nested record, what travels may. -/
def Field.Kept (version : Nat) : (field : Field) → field.Content → field.Content → Prop
  | .scalar .., _, _ => True
  | .nested _ schema _, content, after => schema.Kept version content after

def Field.KeptAt (version : Nat) :
    (fields : List Field) → Field.Contents fields → Field.Contents fields → Nat → Prop
  | [], _, _, _ => True
  | field :: _, contents, after, 0 => field.Kept version contents.1 after.1
  | _ :: rest, contents, after, position + 1 =>
    Field.KeptAt version rest contents.2 after.2 position

end

/-- The node shows the integer that was assigned to the bit-field. -/
def BitField.Shown (fields : List BitField) (contents : Contents fields)
    (bit : Planned BitDescriptor) (node : Node) : Prop :=
  ∃ value, node = .value value ∧ Held.ofValue (typeAt fields bit.position) value =
    .ok (heldAt fields contents bit.position)

mutual

/-- The tree of a record shows all that travels and nothing else: each scalar field by the value
that was assigned to it, each nested record by a tree of its own. -/
def Schema.Mirrors (version : Nat) : (schema : Schema) → schema.Record → Children → Prop
  | .fields tag name declared, record, children =>
    ∃ plan, (Schema.fields tag name declared).resolve version = .ok plan ∧ plan.Labels children ∧
      List.Forall₂ (fun planned node =>
        Field.MirrorsAt version declared record planned.position node) plan.fields children.nodes
  | .packed tag name length declared, record, children =>
    ∃ plan, (Schema.packed tag name length declared).resolve version = .ok plan ∧
      plan.Labels children ∧
      List.Forall₂ (BitField.Shown declared record) plan.bits children.nodes

def Field.Mirrors (version : Nat) : (field : Field) → field.Content → Node → Prop
  | .scalar _ type _, content, node =>
    ∃ value, node = .value value ∧ type.ofValue value = .ok content
  | .nested _ schema _, content, node =>
    ∃ children, node = .object children ∧ schema.Mirrors version content children

def Field.MirrorsAt (version : Nat) :
    (fields : List Field) → Field.Contents fields → Nat → Node → Prop
  | [], _, _, _ => False
  | field :: _, contents, 0, node => field.Mirrors version contents.1 node
  | _ :: rest, contents, position + 1, node =>
    Field.MirrorsAt version rest contents.2 position node

end

namespace Field

variable {version : Nat} {fields : List Field} {contents mid after : Contents fields}
  {position : Nat}

theorem SameAt.refl (fields : List Field) (contents : Contents fields) (position : Nat) :
    SameAt fields contents contents position := by
  induction fields generalizing position with
  | nil => trivial
  | cons field rest ih =>
    cases position with
    | zero => rfl
    | succ position => exact ih contents.2 position

theorem SameAt.trans (first : SameAt fields contents mid position)
    (second : SameAt fields mid after position) : SameAt fields contents after position := by
  induction fields generalizing position with
  | nil => trivial
  | cons field rest ih =>
    cases position with
    | zero => exact Eq.trans first second
    | succ position => exact ih first second

theorem KeptAt.of_same_left (same : SameAt fields contents mid position)
    (kept : KeptAt version fields mid after position) :
    KeptAt version fields contents after position := by
  induction fields generalizing position with
  | nil => trivial
  | cons field rest ih =>
    cases position with
    | zero =>
      unfold KeptAt at kept ⊢
      rw [show contents.1 = mid.1 from same]
      exact kept
    | succ position => exact ih same kept

theorem KeptAt.of_same_right (kept : KeptAt version fields contents mid position)
    (same : SameAt fields mid after position) :
    KeptAt version fields contents after position := by
  induction fields generalizing position with
  | nil => trivial
  | cons field rest ih =>
    cases position with
    | zero =>
      unfold KeptAt at kept ⊢
      rw [← show mid.1 = after.1 from same]
      exact kept
    | succ position => exact ih kept same

theorem MirrorsAt.of_same {node : Node} (mirrors : MirrorsAt version fields contents position node)
    (same : SameAt fields contents after position) :
    MirrorsAt version fields after position node := by
  induction fields generalizing position with
  | nil => exact mirrors
  | cons field rest ih =>
    cases position with
    | zero =>
      unfold MirrorsAt at mirrors ⊢
      rw [← show contents.1 = after.1 from same]
      exact mirrors
    | succ position => exact ih mirrors same

end Field

/-- What is known of a record, and of its tree, once some of its fields have been read. -/
structure Field.Partly (version : Nat) (capture : Bool) {declared : List Field}
    (record : Field.Contents declared) (done : List (Planned Descriptor))
    (read : Field.Contents declared × Option Children) : Prop where
  same : ∀ position, position ∉ done.map Planned.position →
    SameAt declared record read.1 position
  kept : ∀ planned ∈ done, KeptAt version declared record read.1 planned.position
  grown : capture = true → Children.Grown (fun planned node =>
    MirrorsAt version declared read.1 planned.position node) done read.2

structure Field.Single (version : Nat) (capture : Bool) {fields : List Field}
    (contents : Field.Contents fields) (position : Nat)
    (read : Field.Contents fields × Option Node) : Prop where
  same : ∀ other, other ≠ position → SameAt fields contents read.1 other
  kept : KeptAt version fields contents read.1 position
  shown : capture = true → position < fields.length →
    ∃ node, read.2 = some node ∧ MirrorsAt version fields read.1 position node

theorem Field.Partly.step {version : Nat} {capture : Bool} {declared : List Field}
    {record mid after : Field.Contents declared} {done : List (Planned Descriptor)}
    {entry : Planned Descriptor} {tree : Option Children} {node : Option Node}
    (before : Partly version capture record done (mid, tree))
    (position : entry.position ∉ done.map Planned.position)
    (name : entry.name ∉ done.map Planned.name) (inside : entry.position < declared.length)
    (single : Single version capture mid entry.position (after, node)) :
    Partly version capture record (done ++ [entry])
      (after, Children.graft entry.name node tree) where
  same other outside := by
    rw [List.map_append, List.mem_append, not_or] at outside
    have elsewhere : other ≠ entry.position := fun same => outside.2 (by simp [same])
    exact (before.same other outside.1).trans (single.same other elsewhere)
  kept planned member := by
    rcases List.mem_append.1 member with earlier | last
    · have elsewhere : planned.position ≠ entry.position := fun same =>
        position (same ▸ List.mem_map_of_mem earlier)
      exact (before.kept planned earlier).of_same_right (single.same _ elsewhere)
    · obtain rfl := List.mem_singleton.1 last
      exact single.kept.of_same_left (before.same _ position)
  grown on := by
    refine (before.grown on).graft name (fun planned earlier node mirrors => ?_)
      (single.shown on inside)
    have elsewhere : planned.position ≠ entry.position := fun same =>
      position (same ▸ List.mem_map_of_mem earlier)
    exact mirrors.of_same (single.same _ elsewhere)

theorem BitField.heldAt_of_assignAt {fields : List BitField} {contents after : Contents fields}
    {position : Nat} {value : Value}
    (assigned : assignAt fields contents position value = .ok after) :
    (position < fields.length →
      Held.ofValue (typeAt fields position) value = .ok (heldAt fields after position)) ∧
    ∀ other, other ≠ position → heldAt fields contents other = heldAt fields after other := by
  cases taken : Held.ofValue (typeAt fields position) value with
  | error fault => cases (assignAt_of_refused taken).symm.trans assigned
  | ok held =>
    obtain ⟨_, assigned', put, kept⟩ := assignAt_of_taken contents taken
    cases assigned'.symm.trans assigned
    exact ⟨fun inside => by rw [put inside], fun other different => (kept other different).symm⟩

structure BitField.Partly (capture : Bool) {fields : List BitField} (contents : Contents fields)
    (done : List (Planned BitDescriptor)) (read : Contents fields × Option Children) : Prop where
  same : ∀ position, position ∉ done.map Planned.position →
    heldAt fields contents position = heldAt fields read.1 position
  grown : capture = true → Children.Grown (Shown fields read.1) done read.2

theorem BitField.Partly.step {capture : Bool} {fields : List BitField}
    {contents mid after : Contents fields} {done : List (Planned BitDescriptor)}
    {bit : Planned BitDescriptor} {tree : Option Children} {word : UInt64}
    (before : Partly capture contents done (mid, tree))
    (position : bit.position ∉ done.map Planned.position)
    (name : bit.name ∉ done.map Planned.name) (inside : bit.position < fields.length)
    (assigned : assignAt fields mid bit.position (.uint word) = .ok after) :
    Partly capture contents (done ++ [bit])
      (after, Children.graft bit.name (some (.value (.uint word))) tree) where
  same other outside := by
    rw [List.map_append, List.mem_append, not_or] at outside
    have elsewhere : other ≠ bit.position := fun same => outside.2 (by simp [same])
    exact (before.same other outside.1).trans ((heldAt_of_assignAt assigned).2 other elsewhere)
  grown on := by
    refine (before.grown on).graft name (fun earlier member node shown => ?_)
      ⟨_, rfl, _, rfl, (heldAt_of_assignAt assigned).1 inside⟩
    have elsewhere : earlier.position ≠ bit.position := fun same =>
      position (same ▸ List.mem_map_of_mem member)
    unfold Shown at shown ⊢
    rw [← (heldAt_of_assignAt assigned).2 _ elsewhere]
    exact shown

theorem List.not_mem_of_nodup_split {α β : Type} {f : α → β} {done rest : List α} {entry : α}
    (distinct : ((done ++ entry :: rest).map f).Nodup) : f entry ∉ done.map f := by
  rw [List.map_append, List.map_cons] at distinct
  intro earlier
  exact (List.nodup_append.1 distinct).2.2 _ earlier _ (List.mem_cons_self ..) rfl

section

variable {σ : Type}

theorem BitField.yields_assign (capture : Bool) (fields : List BitField)
    (contents : Contents fields) {planned : List (Planned BitDescriptor)} {words : List UInt64}
    (count : words.length = planned.length) (positions : (planned.map Planned.position).Nodup)
    (names : (planned.map Planned.name).Nodup)
    (inside : ∀ bit ∈ planned, bit.position < fields.length) :
    (Transfer.ofExcept (assign fields contents (Children.start capture) planned words) :
      Transfer σ (Contents fields × Option Children)).Yields (Partly capture contents planned) := by
  have whole : (planned.zip words).map Prod.fst = planned :=
    List.map_fst_zip (Nat.le_of_eq count.symm)
  rw [assign, Transfer.ofExcept_foldlM]
  have started : Partly capture contents [] (contents, Children.start capture) :=
    ⟨fun _ _ => rfl, fun on => on ▸ Children.grown_start⟩
  refine (Transfer.yields_foldlM
    (fun done => Partly capture contents (done.map Prod.fst)) ?_ started).mono
      fun read partly => whole ▸ partly
  intro done entry rest split read before
  obtain ⟨bit, word⟩ := entry
  obtain ⟨mid, tree⟩ := read
  have parts : planned = done.map Prod.fst ++ bit :: rest.map Prod.fst := by
    rw [← whole, split, List.map_append, List.map_cons]
  simp only [Transfer.ofExcept_bind]
  refine (Transfer.yields_ofExcept fun after assigned => assigned).bind fun after assigned => ?_
  apply Transfer.yields_pure
  rw [List.map_append, List.map_singleton]
  rw [parts] at positions names
  exact before.step (List.not_mem_of_nodup_split positions) (List.not_mem_of_nodup_split names)
    (inside bit (parts ▸ by simp)) assigned

variable [Source σ]

theorem Container.yields_decode (length : Nat) (fields : List BitDescriptor) :
    (decode length fields : Transfer σ (List UInt64)).Yields (·.length = fields.length) :=
  (Transfer.yields_any _).bind fun _ _ =>
    Transfer.yields_ofExcept fun _ unpacked => length_of_unpack unpacked

end

section

variable {σ : Type} [Source σ] (setting : Setting) (capture : Bool)

mutual

/-- A record that is read over another one changes only in what travels, and a tree shows just
that. -/
theorem Schema.yields_decode : (schema : Schema) → (record : schema.Record) →
    (schema.decode setting capture record :
      Walk σ (schema.Record × Option Children)).Yields fun read =>
        schema.Kept setting.version record read.1 ∧ (capture = true → ∃ children,
          read.2 = some children ∧ schema.Mirrors setting.version read.1 children)
  | .fields tag name declared, record => by
    simp only [Schema.decode]
    refine (yields_plan _ _ _).bind fun plan resolved => ?_
    obtain ⟨-, -, lists, none, ascending⟩ := Schema.plannedBy_of_resolve resolved
    have distinct := lists.nodup_names (Schema.nodup_of_resolve resolved)
    have started :
        Field.Partly setting.version capture record [] (record, Children.start capture) :=
      ⟨fun position _ => .refl declared record position, nofun, fun on => on ▸ Children.grown_start⟩
    refine (Transfer.yields_foldlM (Field.Partly setting.version capture record)
      (fun done entry rest split (mid, tree) before => ?_) started).mono fun read partly => ?_
    · -- No field before this one has its place or its name, so what is known of them stays.
      have positions := lists.once
      rw [split] at positions distinct
      obtain ⟨field, declares, -, -⟩ := (lists.mem_iff entry).1 (split ▸ by simp)
      obtain ⟨inside, -⟩ := List.getElem?_eq_some_iff.1 declares
      refine (Field.yields_decodeAt declared mid entry.position entry.descriptor).bind
        fun (after, node) single => Transfer.yields_pure ?_
      exact before.step (List.not_mem_of_nodup_split positions)
        (List.not_mem_of_nodup_split distinct) inside single
    · refine ⟨⟨plan, resolved, partly.same, partly.kept⟩, fun on => ?_⟩
      obtain ⟨children, kept, names, each⟩ := partly.grown on
      have named : children.names = plan.fieldNames := by
        rw [names, Plan.fieldNames, none, List.map_nil, List.append_nil]
      refine ⟨children, kept, plan, resolved, ⟨named, names ▸ distinct, ascending, ?_⟩, each⟩
      rw [none]
      exact .nil
  | .packed tag name length declared, record => by
    simp only [Schema.decode]
    refine (yields_plan _ _ _).bind fun plan resolved => yields_onStream ?_
    obtain ⟨-, -, lists, none, offsets⟩ := Schema.plannedBy_of_resolve resolved
    have distinct := lists.nodup_names (Schema.nodup_of_resolve resolved)
    have inside := (Schema.of_resolve_packed resolved).2.2
    refine (Container.yields_decode length _).bind fun words count => ?_
    rw [List.length_map] at count
    refine (BitField.yields_assign capture declared record count lists.once distinct
      fun bit travels => (inside bit travels).1).mono fun read partly => ?_
    refine ⟨⟨plan, resolved, partly.same⟩, fun on => ?_⟩
    obtain ⟨children, kept, names, each⟩ := partly.grown on
    have named : children.names = plan.fieldNames := by
      rw [names, Plan.fieldNames, none, List.map_nil, List.nil_append]
    refine ⟨children, kept, plan, resolved, ⟨named, names ▸ distinct, ?_, ?_⟩, each⟩
    · rw [none]
      exact .nil
    · exact offsets.imp fun below => below.elim Nat.le_of_lt fun tied => Nat.le_of_eq tied.1

theorem Field.yields_decode : (field : Field) → (content : field.Content) →
    (descriptor : Descriptor) →
    (field.decode setting capture content descriptor :
      Walk σ (field.Content × Option Node)).Yields fun read =>
        field.Kept setting.version content read.1 ∧ (capture = true → ∃ node,
          read.2 = some node ∧ field.Mirrors setting.version read.1 node)
  | .scalar _ type _, content, descriptor => by
    simp only [Field.decode]
    refine yields_onStream ((Transfer.yields_any _).bind fun value _ => ?_)
    refine (Transfer.yields_ofExcept fun content assigned => assigned).bind
      fun content assigned => Transfer.yields_pure ⟨trivial, fun on => ?_⟩
    exact ⟨_, if_pos on, value, rfl, assigned⟩
  | .nested _ schema _, content, _ => by
    simp only [Field.decode]
    refine (schema.yields_decode content).bind fun (after, tree) ⟨kept, mirrors⟩ =>
      Transfer.yields_pure ⟨kept, fun on => ?_⟩
    obtain ⟨children, grown, shown⟩ := mirrors on
    exact ⟨.object children, congrArg (Option.map Node.object) grown, children, rfl, shown⟩

theorem Field.yields_decodeAt : (fields : List Field) → (contents : Field.Contents fields) →
    (position : Nat) → (descriptor : Descriptor) →
    (Field.decodeAt setting capture fields contents position descriptor :
      Walk σ (Field.Contents fields × Option Node)).Yields
        (Field.Single setting.version capture contents position)
  | [], contents, position, _ =>
    Transfer.yields_pure ⟨fun _ _ => trivial, trivial, fun _ inside => absurd inside
      (Nat.not_lt_zero position)⟩
  | field :: rest, contents, 0, descriptor => by
    simp only [Field.decodeAt]
    refine (field.yields_decode contents.1 descriptor).bind fun (content, node) ⟨kept, mirrors⟩ =>
      Transfer.yields_pure ⟨fun other elsewhere => ?_, kept, fun on _ => mirrors on⟩
    obtain ⟨other, rfl⟩ := Nat.exists_eq_succ_of_ne_zero elsewhere
    exact .refl rest contents.2 other
  | _ :: rest, contents, position + 1, descriptor => by
    simp only [Field.decodeAt]
    refine (Field.yields_decodeAt rest contents.2 position descriptor).bind
      fun (after, node) single => Transfer.yields_pure ⟨fun other elsewhere => ?_, single.kept,
        fun on inside => single.shown on (Nat.lt_of_succ_lt_succ inside)⟩
    cases other with
    | zero => rfl
    | succ other => exact single.same other fun same => elsewhere (congrArg _ same)

end

end

namespace Marshaller

theorem yields_walk {σ α : Type} {version : Nat} {act : Setting → Walk σ α} {holds : α → Prop}
    (yields : ∀ setting : Setting, setting.version = version → (act setting).Yields holds) :
    (walk version act : Transfer (Marshaller × σ) α).Yields holds := by
  intro (marshaller, stream) a after ran
  have given := yields (marshaller.setting version) rfl ⟨marshaller.plans, stream⟩ a
  simp only [walk, setting] at ran given
  generalize act _ _ = result at ran given
  cases result with
  | ok b rest => cases ran; exact given rest rfl
  | error fault rest => cases ran

/-- What is known of a record that was decoded: it differs from what it was read into at most in
what travels, and the tree that was captured shows just that. -/
structure Reads (capture : Bool) (schema : Schema) (version : Nat) (initial : schema.Record)
    (decoded : Decoded schema) : Prop where
  kept : schema.Kept version initial decoded.record
  mirrored : capture = true → ∃ children, decoded.tree = some (.object children) ∧
    schema.Mirrors version decoded.record children

theorem yields_decodeCapturing {σ : Type} [Source σ] (capture : Bool) (schema : Schema)
    (version : Nat) (initial : schema.Record) :
    (decodeCapturing capture schema version initial :
      Transfer (Marshaller × σ) (Decoded schema)).Yields
        (Reads capture schema version initial) := by
  refine yields_walk fun setting here => ?_
  subst here
  refine (schema.yields_decode setting capture initial).bind
    fun (record, tree) ⟨kept, mirrors⟩ => Transfer.yields_pure ⟨kept, fun on => ?_⟩
  obtain ⟨children, grown, shown⟩ := mirrors on
  exact ⟨children, congrArg (Option.map Node.object) grown, shown⟩

theorem ends_onFresh {σ τ α β γ : Type} {states : τ → Marshaller × σ → Prop}
    {answers : α → β → Prop} {further : α → γ → Prop} {faults : Fault → Fault → Prop}
    {result : EStateM.Result Fault τ α} {stream : σ} {act : Transfer (Marshaller × σ) β}
    {finish : β → σ → γ} {marshaller : Marshaller}
    (ends : Transfer.Ends states answers faults result (act (marshaller, stream)))
    (finishes : ∀ a b rest, answers a b → further a (finish b rest)) :
    Transfer.Ends (fun _ _ => True) further faults result
      (onFresh stream act finish marshaller) := by
  unfold onFresh
  generalize act (marshaller, stream) = result' at ends
  cases ends with
  | ok given left => exact .ok (finishes _ _ _ given) trivial
  | error failed left => exact .error failed trivial

section

variable {σ : Type} [Source σ] (schema : Schema) (version : Nat) (initial : schema.Record)

theorem pairs_decode_same (capture capture' : Bool) :
    Transfer.Pairs Peers (fun plain kept => plain.record = kept.record) Eq
      (decodeCapturing capture schema version initial : Transfer (Marshaller × σ) (Decoded schema))
      (decodeCapturing capture' schema version initial) :=
  (pairs_decodeCapturing (fun _ => rfl) (fun inner _ => inner.corresponds_refl version) capture
    capture' initial).mono (fun _ _ same => same.1) fun _ _ same => same

theorem pairs_decodeWithTree (capture : Bool) :
    Transfer.Pairs Peers (fun kept plain => kept.1 = plain.record) Eq
      (decodeWithTree schema version initial : Transfer (Marshaller × σ) (schema.Record × Node))
      (decodeCapturing capture schema version initial) :=
  (pairs_decode_same schema version initial true capture).map_left fun _ _ same => same

theorem yields_decodeWithTree :
    (decodeWithTree schema version initial :
      Transfer (Marshaller × σ) (schema.Record × Node)).Yields
        fun read => ∃ children, read.2 = .object children ∧
          schema.Mirrors version read.1 children := by
  refine (yields_decodeCapturing true schema version initial).bind fun decoded reads => ?_
  obtain ⟨children, grown, shown⟩ := reads.mirrored rfl
  exact Transfer.yields_pure ⟨children, by rw [grown]; rfl, shown⟩

end

/-- Whether a tree is captured makes no difference to the record, to the fault or to the stream, so
a marshaller decodes one record in every way of decoding. A tree that is captured has a child for
each field that travels, by its name and in the order of the plan, none of them twice: an object
for each nested record, and for each other field the value that was assigned to it. -/
theorem decode_tree_mirrors (marshaller : Marshaller) (schema : Schema) (version : Nat)
    (initial : schema.Record) :
    (∀ (σ : Type) [Source σ] (stream : σ) (plans : PlanCache),
      let bare := { marshaller with settings := marshaller.settings.withCaptureTree false }
      let keeping : Marshaller :=
        ⟨marshaller.settings.withCaptureTree true, marshaller.registry, plans⟩
      Transfer.Ends (fun state other => state.2 = other.2)
        (fun plain kept => plain.record = kept.record) Eq
        (decode schema version initial (bare, stream))
        (decode schema version initial (keeping, stream)) ∧
      Transfer.Ends (fun state other => state.2 = other.2)
        (fun kept plain => kept.1 = plain.record) Eq
        (decodeWithTree schema version initial ({ marshaller with plans := plans }, stream))
        (decode schema version initial (marshaller, stream)) ∧
      (∀ decoded left, decode schema version initial (keeping, stream) = .ok decoded left →
        ∃ children, decoded.tree = some (.object children) ∧
          schema.Mirrors version decoded.record children) ∧
      ∀ read left, decodeWithTree schema version initial (marshaller, stream) = .ok read left →
        ∃ children, read.2 = .object children ∧ schema.Mirrors version read.1 children) ∧
    ∀ data plans, Transfer.Ends (fun _ _ => True) (fun plain record => plain.record = record) Eq
      (decode schema version initial (marshaller, Cursor.ofBytes data))
      (decodeFromBytes schema version data initial { marshaller with plans := plans }) := by
  refine ⟨fun σ _ stream plans => ?_, fun data plans => ?_⟩
  · intro bare keeping
    refine ⟨?_, ?_, fun decoded left ran => ?_, yields_decodeWithTree schema version initial _⟩
    · have peers : Peers (bare, stream) (keeping, stream) := ⟨rfl, rfl, rfl⟩
      have ends := peers.ends (pairs_decode_same schema version initial false true)
      exact ends
    · have peers : Peers ({ marshaller with plans := plans }, stream) (marshaller, stream) :=
        ⟨rfl, rfl, rfl⟩
      have ends := peers.ends
        (pairs_decodeWithTree schema version initial marshaller.settings.captureTree)
      exact ends
    · exact (yields_decodeCapturing true schema version initial _ decoded left ran).mirrored rfl
  · exact ends_onFresh (pairs_decode_same schema version initial
      marshaller.settings.captureTree false (marshaller, Cursor.ofBytes data)
      ({ marshaller with plans := plans }, Cursor.ofBytes data)
      ⟨rfl, rfl, rfl⟩) fun _ _ _ => id

end Marshaller

namespace Sample

def keeping : Marshaller :=
  .ofSettings (Settings.default.withCaptureTree true) .builtin

/-- Three fields that travel in the reverse of their declaration, one of them a packed record. -/
def tree : Children :=
  .cons "id" (.value (.uint 258)) (.cons "flags"
    (.object (.cons "low" (.value (.uint 3)) (.cons "high" (.value (.uint 10)) .nil)))
    (.cons "digits" (.value (.digits "12")) .nil))

end Sample

namespace Marshaller

theorem decode_tree_mirrors_sample :
    let cursor := Cursor.ofBytes [1, 2, 0xa3, 0x12]
    let record := Sample.record "12" 3 10 258
    (∃ left, decode Sample.schema 1 Sample.initial (Sample.keeping, cursor) =
      .ok ⟨record, some (.object Sample.tree)⟩ left) ∧
    (∃ left, decodeWithTree Sample.schema 1 Sample.initial (default, cursor) =
      .ok (record, .object Sample.tree) left) ∧
    Sample.schema.Mirrors 1 record Sample.tree := by
  intro cursor record
  obtain ⟨aside, -⟩ := decode_tree_mirrors default Sample.schema 1 Sample.initial
  obtain ⟨-, -, captured, -⟩ := aside Cursor cursor .empty
  have kept : (decode Sample.schema 1 Sample.initial).answer
      (Sample.keeping, Cursor.ofBytes [1, 2, 0xa3, 0x12]) =
    .ok ⟨Sample.record "12" 3 10 258, some (.object Sample.tree)⟩ := rfl
  have asked :
      (decodeWithTree Sample.schema 1 Sample.initial).answer
        (default, Cursor.ofBytes [1, 2, 0xa3, 0x12]) =
      .ok (Sample.record "12" 3 10 258, .object Sample.tree) := rfl
  obtain ⟨children, same, mirrors⟩ := captured _ _ (Transfer.eq_ok_of_answer kept)
  cases same
  exact ⟨⟨_, Transfer.eq_ok_of_answer kept⟩, ⟨_, Transfer.eq_ok_of_answer asked⟩, mirrors⟩

end Marshaller

end Wireform
