import Wireform.Proofs.Filling
import Wireform.Proofs.Redeclared

/-!
What a record holds, by the names of its fields. Reading into the field at a position changes what
is held under its name and nothing else. Where a record type is declared again in another order,
each record has its like among those of the other type, which holds the same under the same names.
-/

namespace Wireform

/-- What a field holds: a value of its type, or a record. -/
inductive Holding where
  | scalar (held : Held)
  | nested (schema : Schema) (record : schema.Record)

namespace Holding

def leaves (version : Nat) : Holding → Descriptor → List (Except Fault (Leaf Held))
  | scalar held, descriptor => [.ok (.scalar descriptor held)]
  | nested schema record, _ => schema.leaves version record

/-- What becomes of a field that holds this, and its node, when spans are assigned to its leaves. -/
def build (registry : Registry) (version : Nat) (capture : Bool) :
    Holding → Descriptor → List Bytes → Holding × Option Node
  | scalar held, descriptor, spans =>
    let built := FieldType.build registry capture held.type held.content descriptor (spans.headD [])
    (scalar ⟨held.type, built.1⟩, built.2)
  | nested schema record, _, spans =>
    let built := schema.build registry version capture record spans
    (nested schema built.1, built.2.map Node.object)

end Holding

namespace Field

def holding : (field : Field) → field.Content → Holding
  | scalar _ type _, content => .scalar ⟨type, content⟩
  | nested _ schema _, content => .nested schema content

/-- What the fields of a record hold, each under its name. -/
def entries : (fields : List Field) → Contents fields → List (String × Holding)
  | [], _ => []
  | field :: rest, contents => (field.name, field.holding contents.1) :: entries rest contents.2

def Fits (field : Field) (entry : String × Holding) : Prop :=
  ∃ content, (field.name, field.holding content) = entry

variable {fields : List Field}

theorem map_fst_entries (fields : List Field) (contents : Contents fields) :
    (entries fields contents).map Prod.fst = fields.map name := by
  induction fields with
  | nil => rfl
  | cons field rest ih => simp only [entries, List.map_cons, ih]

theorem forall₂_fits_iff {held : List (String × Holding)} :
    List.Forall₂ Fits fields held ↔ ∃ contents, entries fields contents = held := by
  induction fields generalizing held with
  | nil =>
    rw [List.forall₂_nil_left_iff]
    exact ⟨fun empty => ⟨(), empty.symm⟩, fun ⟨_, same⟩ => same.symm⟩
  | cons field rest ih =>
    rw [List.forall₂_cons_left_iff]
    apply Iff.intro
    · rintro ⟨_, others, ⟨content, rfl⟩, fit, rfl⟩
      obtain ⟨contents, rfl⟩ := ih.1 fit
      exact ⟨(content, contents), rfl⟩
    · rintro ⟨⟨content, contents⟩, rfl⟩
      exact ⟨_, _, ⟨content, rfl⟩, ih.2 ⟨contents, rfl⟩, rfl⟩

theorem Redeclares.fits {a b : Field} (redeclares : a.Redeclares b) {entry : String × Holding}
    (fits : a.Fits entry) : b.Fits entry := by
  cases redeclares <;> exact fits

/-- Whatever fields hold, they can hold it declared in another order. -/
theorem exists_perm_entries {declared declared' : List Field}
    (reordered : Reordered Redeclares declared declared') (contents : Contents declared) :
    ∃ contents' : Contents declared',
      (entries declared contents).Perm (entries declared' contents') := by
  have fit := forall₂_fits_iff.2 ⟨contents, rfl⟩
  obtain ⟨_, fit', order⟩ := reordered.exists_perm fit fun _ _ again _ => again.fits
  obtain ⟨contents', rfl⟩ := forall₂_fits_iff.1 fit'
  exact ⟨contents', order⟩

theorem leavesAt_of_entry {version position : Nat} {contents : Contents fields} {name : String}
    {holding : Holding} (here : (entries fields contents)[position]? = some (name, holding))
    (descriptor : Descriptor) :
    leavesAt version fields contents position descriptor = holding.leaves version descriptor := by
  induction fields generalizing position with
  | nil => cases here
  | cons field rest ih =>
    cases position with
    | zero =>
      cases here
      cases field <;> rfl
    | succ position => exact ih here

/-- Reading into the field at a position changes what is held there, and nothing else. -/
theorem entries_buildAt {registry : Registry} {version position : Nat} {capture : Bool}
    {contents : Contents fields} {name : String} {holding : Holding}
    (here : (entries fields contents)[position]? = some (name, holding))
    (descriptor : Descriptor) (spans : List Bytes) :
    let built := buildAt registry version capture fields contents position descriptor spans
    let held := holding.build registry version capture descriptor spans
    entries fields built.1 = (entries fields contents).set position (name, held.1) ∧
      built.2 = held.2 := by
  induction fields generalizing position with
  | nil => cases here
  | cons field rest ih =>
    cases position with
    | zero =>
      cases here
      cases field <;> exact ⟨rfl, rfl⟩
    | succ position =>
      obtain ⟨others, node⟩ := ih here
      exact ⟨congrArg (List.cons _) others, node⟩

end Field

namespace BitField

def entries : (fields : List BitField) → Contents fields → List (String × Holding)
  | [], _ => []
  | field :: rest, contents =>
    (field.name, .scalar ⟨field.type, contents.1⟩) :: entries rest contents.2

def Fits (field : BitField) (entry : String × Holding) : Prop :=
  ∃ content, (field.name, .scalar ⟨field.type, content⟩) = entry

variable {fields : List BitField}

theorem map_fst_entries (fields : List BitField) (contents : Contents fields) :
    (entries fields contents).map Prod.fst = fields.map name := by
  induction fields with
  | nil => rfl
  | cons field rest ih => simp only [entries, List.map_cons, ih]

theorem forall₂_fits_iff {held : List (String × Holding)} :
    List.Forall₂ Fits fields held ↔ ∃ contents, entries fields contents = held := by
  induction fields generalizing held with
  | nil =>
    rw [List.forall₂_nil_left_iff]
    exact ⟨fun empty => ⟨(), empty.symm⟩, fun ⟨_, same⟩ => same.symm⟩
  | cons field rest ih =>
    rw [List.forall₂_cons_left_iff]
    apply Iff.intro
    · rintro ⟨_, others, ⟨content, rfl⟩, fit, rfl⟩
      obtain ⟨contents, rfl⟩ := ih.1 fit
      exact ⟨(content, contents), rfl⟩
    · rintro ⟨⟨content, contents⟩, rfl⟩
      exact ⟨_, _, ⟨content, rfl⟩, ih.2 ⟨contents, rfl⟩, rfl⟩

theorem Redeclares.fits {a b : BitField} (redeclares : a.Redeclares b) {entry : String × Holding}
    (fits : a.Fits entry) : b.Fits entry := by
  cases redeclares; exact fits

theorem getElem?_entries (contents : Contents fields) (position : Nat) :
    (entries fields contents)[position]? = fields[position]?.map fun field =>
      (field.name, .scalar (heldAt fields contents position)) := by
  induction fields generalizing position with
  | nil => rfl
  | cons field rest ih =>
    cases position with
    | zero => rfl
    | succ position => exact ih contents.2 position

theorem exists_perm_entries {declared declared' : List BitField}
    (reordered : Reordered Redeclares declared declared') (contents : Contents declared) :
    ∃ contents' : Contents declared',
      (entries declared contents).Perm (entries declared' contents') := by
  have fit := forall₂_fits_iff.2 ⟨contents, rfl⟩
  obtain ⟨_, fit', order⟩ := reordered.exists_perm fit fun _ _ again _ => again.fits
  obtain ⟨contents', rfl⟩ := forall₂_fits_iff.1 fit'
  exact ⟨contents', order⟩

theorem forall₂_entries {P : BitField → String × Holding → Prop} {contents : Contents fields}
    (each : ∀ position field, fields[position]? = some field →
      P field (field.name, .scalar (heldAt fields contents position))) :
    List.Forall₂ P fields (entries fields contents) := by
  induction fields with
  | nil => exact .nil
  | cons field rest ih => exact .cons (each 0 field rfl) (ih fun position => each (position + 1))

end BitField

namespace Schema

/-- What a record holds, each under its name. -/
def entries : (schema : Schema) → schema.Record → List (String × Holding)
  | fields _ _ declared, record => Field.entries declared record
  | packed _ _ _ declared, record => BitField.entries declared record

/-- The records hold the same under the same names. -/
def SameEntries {schema other : Schema} (record : schema.Record) (record' : other.Record) : Prop :=
  (schema.entries record).Perm (other.entries record')

/-- Each record has its like among those of a type that declares the same fields in another
order. -/
theorem Reorders.exists_sameEntries {schema other : Schema} (reorders : schema.Reorders other)
    (record : schema.Record) : ∃ record' : other.Record, SameEntries record record' := by
  cases reorders with
  | fields _ _ _ reordered => exact Field.exists_perm_entries reordered record
  | packed _ _ _ _ reordered => exact BitField.exists_perm_entries reordered record

end Schema

end Wireform
