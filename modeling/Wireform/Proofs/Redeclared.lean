import Mathlib.Data.List.Nodup
import Mathlib.Data.List.Perm.Basic
import Wireform.Proofs.Resolution

/-!
Record types that declare the same fields in another order. A plan goes by the orders and offsets of
the descriptors that cover its version, so the two resolve at the same versions, and their plans
name the same fields with the same descriptors. Fields that travel in an order of their own are even
planned in the same sequence; bit-fields that start alike keep the order of their declaration.
-/

namespace Wireform

theorem forall₂_with_mem {φ ψ : Type} {pairs : φ → ψ → Prop} {as : List φ} {bs : List ψ}
    (paired : List.Forall₂ pairs as bs) :
    List.Forall₂ (fun a b => a ∈ as ∧ b ∈ bs ∧ pairs a b) as bs := by
  have right := (List.forall₂_and_left bs as).2 ⟨fun _ => id, paired.flip⟩
  exact (List.forall₂_and_left as bs).2 ⟨fun _ => id, right.flip⟩

/-- The entries of the two lists go together in pairs, in whatever order each list has them. -/
def Reordered {φ ψ : Type} (pairs : φ → ψ → Prop) (as : List φ) (bs : List ψ) : Prop :=
  ∃ mid, List.Forall₂ pairs as mid ∧ mid.Perm bs

namespace Reordered

variable {φ ψ β : Type} {pairs : φ → ψ → Prop} {as : List φ} {bs : List ψ}

theorem mono {further : φ → ψ → Prop} (reordered : Reordered pairs as bs)
    (each : ∀ a ∈ as, ∀ b ∈ bs, pairs a b → further a b) : Reordered further as bs := by
  obtain ⟨mid, paired, order⟩ := reordered
  refine ⟨mid, (forall₂_with_mem paired).imp fun a b ⟨here, there, met⟩ => ?_, order⟩
  exact each a here b (order.mem_iff.1 there) met

theorem symm (reordered : Reordered pairs as bs) : Reordered (fun b a => pairs a b) bs as := by
  obtain ⟨mid, paired, order⟩ := reordered
  obtain ⟨others, paired', order'⟩ := List.perm_comp_forall₂ order.symm paired.flip
  exact ⟨others, paired', order'⟩

theorem perm_map {f : φ → β} {g : ψ → β} (reordered : Reordered pairs as bs)
    (same : ∀ a b, pairs a b → f a = g b) : (as.map f).Perm (bs.map g) := by
  obtain ⟨mid, paired, order⟩ := reordered
  have equal : as.map f = mid.map g := by
    rw [← List.forall₂_eq_eq_eq, List.forall₂_map_left_iff, List.forall₂_map_right_iff]
    exact paired.imp same
  exact equal ▸ order.map g

theorem perm_flatMap {f : φ → List β} {g : ψ → List β} (reordered : Reordered pairs as bs)
    (same : ∀ a b, pairs a b → (f a).Perm (g b)) : (as.flatMap f).Perm (bs.flatMap g) := by
  obtain ⟨mid, paired, order⟩ := reordered
  have entries : (as.flatMap f).Perm (mid.flatMap g) := by
    apply List.Perm.flatten_congr
    rw [List.forall₂_map_left_iff, List.forall₂_map_right_iff]
    exact paired.imp same
  exact entries.trans (order.flatMap_right g)

theorem exists_mem_iff {P : φ → Prop} {Q : ψ → Prop} (reordered : Reordered pairs as bs)
    (same : ∀ a b, pairs a b → (P a ↔ Q b)) : (∃ a ∈ as, P a) ↔ ∃ b ∈ bs, Q b := by
  have spread := (reordered.perm_map fun a b met => propext (same a b met)).mem_iff (a := True)
  simpa using spread

theorem forall_mem_iff {P : φ → Prop} {Q : ψ → Prop} (reordered : Reordered pairs as bs)
    (same : ∀ a b, pairs a b → (P a ↔ Q b)) : (∀ a ∈ as, P a) ↔ ∀ b ∈ bs, Q b := by
  have spread := (reordered.perm_map fun a b met => propext (same a b met)).mem_iff (a := False)
  simpa using not_congr spread

/-- What has the same keys, in whatever order, goes together by them. -/
theorem of_perm_map {f : φ → β} {g : ψ → β} (order : (as.map f).Perm (bs.map g)) :
    Reordered (fun a b => f a = g b) as bs := by
  have keyed : List.Forall₂ (fun key b => key = g b) (bs.map g) bs :=
    List.forall₂_map_left_iff.2 (List.forall₂_same.2 fun _ _ => rfl)
  obtain ⟨mid, paired, same⟩ := List.perm_comp_forall₂ order keyed
  exact ⟨mid, List.forall₂_map_left_iff.1 paired, same⟩

/-- What fits the entries of one list fits, in some order, those of the other. -/
theorem exists_perm {fits : φ → β → Prop} {fits' : ψ → β → Prop}
    (reordered : Reordered pairs as bs) {cs : List β} (fit : List.Forall₂ fits as cs)
    (same : ∀ a b, pairs a b → ∀ c, fits a c → fits' b c) :
    ∃ others, List.Forall₂ fits' bs others ∧ cs.Perm others := by
  obtain ⟨mid, paired, order⟩ := reordered
  have fitted : List.Forall₂ fits' mid cs := by
    clear order
    induction paired generalizing cs with
    | nil => cases fit; exact .nil
    | cons met _ ih =>
      cases fit with
      | cons first rest => exact .cons (same _ _ met _ first) (ih rest)
  obtain ⟨others, fit', moved⟩ := List.perm_comp_forall₂ order.symm fitted
  exact ⟨others, fit', moved.symm⟩

end Reordered

/-- A field that is declared again: it holds the same under the same name, and its descriptors come
in any order. -/
inductive Field.Redeclares : Field → Field → Prop where
  | scalar {name : String} {type : FieldType} {declared other : List Descriptor}
    (order : declared.Perm other) :
    Redeclares (.scalar name type declared) (.scalar name type other)
  | nested {name : String} {schema : Schema} {declared other : List Descriptor}
    (order : declared.Perm other) :
    Redeclares (.nested name schema declared) (.nested name schema other)

inductive BitField.Redeclares : BitField → BitField → Prop where
  | intro {name : String} {type : FieldType} {declared other : List BitDescriptor}
    (order : declared.Perm other) : Redeclares ⟨name, type, declared⟩ ⟨name, type, other⟩

/-- The same record type, but for the order of its fields, or bit-fields, and of the descriptors of
each of them. -/
inductive Schema.Reorders : Schema → Schema → Prop where
  | fields (tag other : Nat) (name : String) {declared declared' : List Field}
    (reordered : Reordered Field.Redeclares declared declared') :
    Reorders (.fields tag name declared) (.fields other name declared')
  | packed (tag other : Nat) (name : String) (length : Nat) {declared declared' : List BitField}
    (reordered : Reordered BitField.Redeclares declared declared') :
    Reorders (.packed tag name length declared) (.packed other name length declared')

namespace Field.Redeclares

variable {a b : Field}

theorem name_eq (redeclares : a.Redeclares b) : a.name = b.name := by
  cases redeclares <;> rfl

theorem inner?_eq (redeclares : a.Redeclares b) : a.inner? = b.inner? := by
  cases redeclares <;> rfl

theorem perm_descriptors (redeclares : a.Redeclares b) : a.descriptors.Perm b.descriptors := by
  cases redeclares with
  | scalar order => exact order.map _
  | nested order => exact order.map _

theorem suits_iff (redeclares : a.Redeclares b) (descriptor : Descriptor) :
    a.Suits descriptor ↔ b.Suits descriptor := by
  have same := redeclares.inner?_eq
  apply Iff.intro
  · intro ⟨shape, container, sized, counted⟩
    exact ⟨same ▸ shape, same ▸ container, sized, counted⟩
  · intro ⟨shape, container, sized, counted⟩
    exact ⟨same ▸ shape, same ▸ container, sized, counted⟩

end Field.Redeclares

namespace BitField.Redeclares

variable {a b : BitField}

theorem name_eq (redeclares : a.Redeclares b) : a.name = b.name := by
  cases redeclares; rfl

theorem symm (redeclares : a.Redeclares b) : b.Redeclares a := by
  cases redeclares with
  | intro order => exact .intro order.symm

theorem perm_descriptors (redeclares : a.Redeclares b) : a.descriptors.Perm b.descriptors := by
  cases redeclares with
  | intro order => exact order.map _

end BitField.Redeclares

def Planned.rule {δ : Type} (planned : Planned δ) : String × δ :=
  (planned.name, planned.descriptor)

/-- Entries of two plans that name the same field, each at its place in its own declaration. -/
structure Planned.Twin {δ : Type} (names names' : List String) (planned planned' : Planned δ) :
    Prop where
  rule : planned.rule = planned'.rule
  here : names[planned.position]? = some planned.name
  there : names'[planned'.position]? = some planned'.name

namespace Planned.Twin

variable {δ η : Type} {names names' : List String} {planned planned' : Planned δ}

theorem symm (twin : Twin names names' planned planned') : Twin names' names planned' planned :=
  ⟨twin.rule.symm, twin.there, twin.here⟩

theorem name_eq (twin : Twin names names' planned planned') : planned.name = planned'.name :=
  congrArg Prod.fst twin.rule

theorem descriptor_eq (twin : Twin names names' planned planned') :
    planned.descriptor = planned'.descriptor :=
  congrArg Prod.snd twin.rule

theorem exists_entry {entries entries' : List (String × η)} (order : entries.Perm entries')
    (distinct : (entries.map Prod.fst).Nodup)
    (twin : Twin (entries.map Prod.fst) (entries'.map Prod.fst) planned planned') :
    ∃ held, entries[planned.position]? = some (planned.name, held) ∧
      entries'[planned'.position]? = some (planned'.name, held) := by
  have here := twin.here
  have there := twin.there
  rw [List.getElem?_map, Option.map_eq_some_iff] at here there
  obtain ⟨entry, found, named⟩ := here
  obtain ⟨entry', found', named'⟩ := there
  have same : entry = entry' := by
    apply List.inj_on_of_nodup_map distinct
    · exact List.mem_of_getElem? found
    · exact order.mem_iff.2 (List.mem_of_getElem? found')
    · rw [named, named', twin.name_eq]
  subst same
  exact ⟨entry.2, named ▸ found, named' ▸ found'⟩

end Planned.Twin

namespace Plan

section

variable {φ δ : Type} [Versioned δ] {version : Nat} {name : φ → String} {descriptors : φ → List δ}
  {redeclares : φ → φ → Prop} {declared declared' : List φ} {planned planned' : List (Planned δ)}

theorem perm_covering {as bs : List δ} (order : as.Perm bs) :
    (covering version as).Perm (covering version bs) :=
  order.filter _

theorem decides_iff_of_reordered {fits : φ → δ → Prop}
    (reordered : Reordered redeclares declared declared')
    (perm : ∀ a b, redeclares a b → (descriptors a).Perm (descriptors b))
    (suits : ∀ a b, redeclares a b → ∀ descriptor, fits a descriptor ↔ fits b descriptor) :
    Decides version descriptors fits declared ↔ Decides version descriptors fits declared' := by
  refine reordered.forall_mem_iff fun a b again => ?_
  have covers : (covering version (descriptors a)).Perm _ := perm_covering (perm a b again)
  simp only [covers.length_eq, covers.mem_iff, suits a b again]

theorem Lists.nodup_rules (lists : Lists version name descriptors declared planned)
    (distinct : (declared.map name).Nodup) : (planned.map Planned.rule).Nodup := by
  apply List.Nodup.of_map Prod.fst
  rw [List.map_map]
  exact lists.nodup_names distinct

theorem Lists.mem_rules (lists : Lists version name descriptors declared planned)
    {rule : String × δ} : rule ∈ planned.map Planned.rule ↔ ∃ field ∈ declared,
      rule.1 = name field ∧ covering version (descriptors field) = [rule.2] := by
  rw [List.mem_map]
  apply Iff.intro
  · rintro ⟨entry, member, rfl⟩
    obtain ⟨field, here, named, covers⟩ := (lists.mem_iff entry).1 member
    exact ⟨field, List.mem_of_getElem? here, named, covers⟩
  · rintro ⟨field, member, named, covers⟩
    obtain ⟨position, here⟩ := List.mem_iff_getElem?.1 member
    exact ⟨⟨position, rule.1, rule.2⟩, (lists.mem_iff _).2 ⟨field, here, named, covers⟩, rfl⟩

theorem Lists.forall₂_twin (lists : Lists version name descriptors declared planned)
    (lists' : Lists version name descriptors declared' planned')
    (same : planned.map Planned.rule = planned'.map Planned.rule) :
    List.Forall₂ (Planned.Twin (declared.map name) (declared'.map name)) planned planned' := by
  rw [← List.forall₂_eq_eq_eq, List.forall₂_map_left_iff, List.forall₂_map_right_iff] at same
  exact (forall₂_with_mem same).imp fun a b ⟨here, there, rule⟩ =>
    ⟨rule, lists.name_at here, lists'.name_at there⟩

theorem Lists.reordered_twin (lists : Lists version name descriptors declared planned)
    (lists' : Lists version name descriptors declared' planned')
    (order : (planned.map Planned.rule).Perm (planned'.map Planned.rule)) :
    Reordered (Planned.Twin (declared.map name) (declared'.map name)) planned planned' :=
  (Reordered.of_perm_map order).mono fun _ here _ there rule =>
    ⟨rule, lists.name_at here, lists'.name_at there⟩

theorem Lists.perm_rules (lists : Lists version name descriptors declared planned)
    (lists' : Lists version name descriptors declared' planned')
    (distinct : (declared.map name).Nodup) (distinct' : (declared'.map name).Nodup)
    (reordered : Reordered redeclares declared declared')
    (named : ∀ a b, redeclares a b → name a = name b)
    (perm : ∀ a b, redeclares a b → (descriptors a).Perm (descriptors b)) :
    (planned.map Planned.rule).Perm (planned'.map Planned.rule) := by
  rw [List.perm_ext_iff_of_nodup (lists.nodup_rules distinct) (lists'.nodup_rules distinct')]
  intro rule
  rw [lists.mem_rules, lists'.mem_rules]
  refine reordered.exists_mem_iff fun a b again => ?_
  have covers : (covering version (descriptors a)).Perm _ := perm_covering (perm a b again)
  rw [named a b again, ← List.perm_singleton, ← List.perm_singleton, covers.congr_left]

end

/-- Plans of the same record by the same rules. Fields come in the same sequence. -/
structure SameRules (plan other : Plan) : Prop where
  record : plan.record = other.record
  version : plan.version = other.version
  fields : plan.fields.map Planned.rule = other.fields.map Planned.rule
  bits : (plan.bits.map Planned.rule).Perm (other.bits.map Planned.rule)

/-- Where no two fields share an order, there is but one sequence that they can come in. -/
theorem rules_eq_of_perm {planned planned' : List (Planned Descriptor)}
    (order : (planned.map Planned.rule).Perm (planned'.map Planned.rule))
    (ascending : planned.Pairwise fun a b => a.descriptor.order < b.descriptor.order)
    (ascending' : planned'.Pairwise fun a b => a.descriptor.order < b.descriptor.order) :
    planned.map Planned.rule = planned'.map Planned.rule := by
  have first : (planned.map Planned.rule).Pairwise fun a b => a.2.order < b.2.order :=
    List.pairwise_map.2 ascending
  have second : (planned'.map Planned.rule).Pairwise fun a b => a.2.order < b.2.order :=
    List.pairwise_map.2 ascending'
  exact order.eq_of_pairwise (fun _ _ _ _ below above => absurd above (Int.lt_asymm below)) first
    second

end Plan

namespace Schema

open Plan

variable {schema other : Schema} {version : Nat} {plan plan' : Plan}

theorem Reorders.perm_fieldNames (reorders : schema.Reorders other) :
    schema.fieldNames.Perm other.fieldNames := by
  cases reorders with
  | fields _ _ _ reordered => exact reordered.perm_map fun _ _ => Field.Redeclares.name_eq
  | packed _ _ _ _ reordered => exact reordered.perm_map fun _ _ => BitField.Redeclares.name_eq

theorem Reorders.sound_iff (reorders : schema.Reorders other) :
    schema.Sound version ↔ other.Sound version := by
  unfold Sound
  refine and_congr reorders.perm_fieldNames.nodup_iff ?_
  cases reorders with
  | fields _ _ _ reordered =>
    have orders := reordered.perm_flatMap fun a b again =>
      (perm_covering again.perm_descriptors : (covering version a.descriptors).Perm _)
    exact and_congr
      (decides_iff_of_reordered reordered (fun _ _ => Field.Redeclares.perm_descriptors)
        fun _ _ => Field.Redeclares.suits_iff)
      (orders.map Descriptor.order).nodup_iff
  | packed _ _ _ _ reordered =>
    exact and_congr_right fun _ =>
      decides_iff_of_reordered reordered (fun _ _ => BitField.Redeclares.perm_descriptors)
        fun _ _ _ _ => .rfl

theorem Reorders.resolve_iff (reorders : schema.Reorders other) (version : Nat) :
    (∃ plan, schema.resolve version = .ok plan) ↔ ∃ plan, other.resolve version = .ok plan := by
  rw [resolve_isOk_iff, resolve_isOk_iff, reorders.sound_iff]

theorem Reorders.sameRules (reorders : schema.Reorders other)
    (resolved : schema.resolve version = .ok plan) (resolved' : other.resolve version = .ok plan') :
    plan.SameRules plan' := by
  have distinct := nodup_of_resolve resolved
  have distinct' := nodup_of_resolve resolved'
  obtain ⟨record, at_version, planned⟩ := plannedBy_of_resolve resolved
  obtain ⟨record', at_version', planned'⟩ := plannedBy_of_resolve resolved'
  cases reorders with
  | fields _ _ _ reordered =>
    obtain ⟨lists, empty, ascending⟩ := planned
    obtain ⟨lists', empty', ascending'⟩ := planned'
    have order := lists.perm_rules lists' distinct distinct' reordered
      (fun _ _ => Field.Redeclares.name_eq) fun _ _ => Field.Redeclares.perm_descriptors
    exact ⟨record.trans record'.symm, at_version.trans at_version'.symm,
      rules_eq_of_perm order ascending ascending', by rw [empty, empty']⟩
  | packed _ _ _ _ reordered =>
    obtain ⟨lists, empty, -⟩ := planned
    obtain ⟨lists', empty', -⟩ := planned'
    have order := lists.perm_rules lists' distinct distinct' reordered
      (fun _ _ => BitField.Redeclares.name_eq) fun _ _ => BitField.Redeclares.perm_descriptors
    exact ⟨record.trans record'.symm, at_version.trans at_version'.symm,
      by rw [empty, empty'], order⟩

end Schema

end Wireform
