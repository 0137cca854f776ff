import Mathlib.Data.Int.Order.Basic
import Mathlib.Order.Lattice
import Wireform.Plan
import Wireform.Proofs.Transfer

/-!
What a plan holds. Each entry stands for another field of the declaration and has passed its check;
fields go in strictly ascending order, bit-fields by where they start.
-/

namespace Wireform

namespace Ordered

variable {α : Type} {precedes : α → α → Bool}

/-- An entry goes in front of those that it may precede, and so in front of those it ties with. -/
theorem pairwise_insert {R : α → α → Prop}
    (total : ∀ a b, precedes a b = false → precedes b a = true)
    (chains : ∀ a b c, precedes a b = true → precedes b c = true → precedes a c = true)
    {a : α} {entries : List α} (earlier : ∀ b ∈ entries, R a b)
    (sorted : entries.Pairwise fun b c => precedes b c = true ∧ (precedes c b = true → R b c)) :
    (insert precedes a entries).Pairwise fun b c =>
      precedes b c = true ∧ (precedes c b = true → R b c) := by
  induction entries with
  | nil => exact List.pairwise_singleton _ _
  | cons b rest ih =>
    obtain ⟨below, others⟩ := List.pairwise_cons.1 sorted
    unfold insert
    split
    next first =>
      refine List.pairwise_cons.2 ⟨fun c member => ⟨?_, fun _ => earlier c member⟩, sorted⟩
      rcases List.mem_cons.1 member with rfl | member
      · exact first
      · exact chains a b c first (below c member).1
    next notFirst =>
      have further := ih (fun c member => earlier c (List.mem_cons_of_mem b member)) others
      refine List.pairwise_cons.2 ⟨fun c member => ?_, further⟩
      rcases List.mem_cons.1 ((perm_insert precedes a rest).mem_iff.1 member) with rfl | member
      · exact ⟨total _ b (Bool.eq_false_iff.2 notFirst), fun tied => absurd tied notFirst⟩
      · exact below c member

theorem pairwise_sort_stable {R : α → α → Prop}
    (total : ∀ a b, precedes a b = false → precedes b a = true)
    (chains : ∀ a b c, precedes a b = true → precedes b c = true → precedes a c = true)
    {entries : List α} (earlier : entries.Pairwise R) :
    (sort precedes entries).Pairwise fun b c =>
      precedes b c = true ∧ (precedes c b = true → R b c) := by
  induction entries with
  | nil => exact .nil
  | cons a rest ih =>
    obtain ⟨first, others⟩ := List.pairwise_cons.1 earlier
    refine pairwise_insert total chains (fun b member => first b ?_) (ih others)
    exact (perm_sort precedes rest).mem_iff.1 member

theorem pairwise_sort_key {κ : Type} [LinearOrder κ] [DecidableLE κ] (key : α → κ)
    {R : α → α → Prop} {entries : List α} (earlier : entries.Pairwise R) :
    (sort (fun a b => decide (key a ≤ key b)) entries).Pairwise fun a b =>
      key a < key b ∨ key a = key b ∧ R a b := by
  refine (pairwise_sort_stable ?_ ?_ earlier).imp fun {a b} ⟨below, stable⟩ => ?_
  · intro a b above
    exact decide_eq_true (le_of_not_ge (of_decide_eq_false above))
  · intro a b c first second
    exact decide_eq_true (le_trans (of_decide_eq_true first) (of_decide_eq_true second))
  · rcases lt_or_eq_of_le (of_decide_eq_true below) with less | same
    · exact .inl less
    · exact .inr ⟨same, stable (decide_eq_true (ge_of_eq same))⟩

end Ordered

namespace Plan

variable {φ δ : Type} [Versioned δ] {record : String} {version : Nat} {name : φ → String}
  {descriptors : φ → List δ} {check : φ → δ → Except Fault Unit}

theorem of_collect {position : Nat} {fields : List φ} {found : List (Planned δ)}
    (collected : collect record version name descriptors check position fields = .ok found) :
    found.Pairwise (·.position < ·.position) ∧ ∀ planned ∈ found,
      position ≤ planned.position ∧ planned.position < position + fields.length ∧
        ∃ field ∈ fields, check field planned.descriptor = .ok () := by
  induction fields generalizing position found with
  | nil => cases collected; exact ⟨.nil, nofun⟩
  | cons field rest ih =>
    unfold collect at collected
    obtain ⟨selected, -, collected⟩ := Except.bind_eq_ok.1 collected
    cases selected with
    | none =>
      obtain ⟨ascending, each⟩ := ih collected
      refine ⟨ascending, fun planned member => ?_⟩
      obtain ⟨above, below, other, declared, passed⟩ := each planned member
      rw [List.length_cons]
      exact ⟨by omega, by omega, other, List.mem_cons_of_mem _ declared, passed⟩
    | some descriptor =>
      obtain ⟨_, passed, following⟩ := Except.bind_eq_ok.1 collected
      obtain ⟨others, further, same⟩ := Except.bind_eq_ok.1 following
      cases same
      obtain ⟨ascending, each⟩ := ih further
      refine ⟨List.pairwise_cons.2 ⟨fun planned member => ?_, ascending⟩, fun planned member => ?_⟩
      · exact (each planned member).1
      · rw [List.length_cons]
        rcases List.mem_cons.1 member with rfl | member
        · exact ⟨Nat.le_refl _, by simp only; omega, field, List.mem_cons_self .., passed⟩
        · obtain ⟨above, below, other, declared, passed⟩ := each planned member
          exact ⟨by omega, by omega, other, List.mem_cons_of_mem _ declared, passed⟩

theorem nodup_of_collect {position : Nat} {fields : List φ} {found : List (Planned δ)}
    (collected : collect record version name descriptors check position fields = .ok found) :
    (found.map Planned.position).Nodup := by
  rw [List.nodup_iff_pairwise_ne, List.pairwise_map]
  exact (of_collect collected).1.imp fun below => Nat.ne_of_lt below

theorem ascending_of_untied {planned : List (Planned Descriptor)}
    (sorted : planned.Pairwise fun a b => a.descriptor.order ≤ b.descriptor.order)
    (untied : firstTie? planned = none) :
    planned.Pairwise fun a b => a.descriptor.order < b.descriptor.order := by
  induction planned with
  | nil => exact .nil
  | cons first rest ih =>
    obtain ⟨below, others⟩ := List.pairwise_cons.1 sorted
    cases rest with
    | nil => exact List.pairwise_singleton _ _
    | cons second rest =>
      unfold firstTie? at untied
      split at untied
      next => cases untied
      next different =>
        have strict := ih others untied
        refine List.pairwise_cons.2 ⟨fun other member => ?_, strict⟩
        have step : first.descriptor.order < second.descriptor.order :=
          Int.lt_iff_le_and_ne.2 ⟨below second (List.mem_cons_self ..), different⟩
        rcases List.mem_cons.1 member with rfl | member
        · exact step
        · exact Int.lt_trans step ((List.pairwise_cons.1 strict).1 other member)

theorem of_ofFields {record : String} {declared : List Field} {planned : List (Planned Descriptor)}
    (resolved : ofFields record version declared = .ok planned) :
    (planned.map Planned.position).Nodup ∧
      planned.Pairwise fun a b => a.descriptor.order < b.descriptor.order := by
  obtain ⟨found, collected, resolved⟩ := Except.bind_eq_ok.1 resolved
  obtain ⟨_, checked, same⟩ := Except.bind_eq_ok.1 resolved
  cases same
  refine ⟨((Ordered.perm_sort _ found).map _).nodup_iff.2 (nodup_of_collect collected), ?_⟩
  apply ascending_of_untied
  · refine (Ordered.pairwise_sort_key (fun planned => planned.descriptor.order)
      (of_collect collected).1).imp fun below => ?_
    exact below.elim Int.le_of_lt fun tied => Int.le_of_eq tied.1
  · unfold checkOrder at checked
    split at checked
    · cases checked
    · assumption

theorem of_ofBits {record : String} {length : Nat} {declared : List BitField}
    {planned : List (Planned BitDescriptor)}
    (resolved : ofBits record version length declared = .ok planned) :
    (planned.map Planned.position).Nodup ∧ Container.check length = .ok () ∧
      ∀ bit ∈ planned, bit.position < declared.length ∧
        Container.checkSpan length bit.descriptor = .ok () := by
  obtain ⟨_, checked, resolved⟩ := Except.bind_eq_ok.1 resolved
  obtain ⟨found, collected, same⟩ := Except.bind_eq_ok.1 resolved
  cases same
  refine ⟨((Ordered.perm_sort _ found).map _).nodup_iff.2 (nodup_of_collect collected), checked, ?_⟩
  intro bit member
  obtain ⟨-, below, -, -, passed⟩ :=
    (of_collect collected).2 bit ((Ordered.perm_sort _ found).mem_iff.1 member)
  exact ⟨by omega, passed⟩

end Plan

namespace Schema

variable {tag version : Nat} {name : String}

theorem of_resolve_fields {declared : List Field} {plan : Plan}
    (resolved : (Schema.fields tag name declared).resolve version = .ok plan) :
    (plan.fields.map Planned.position).Nodup ∧
      plan.fields.Pairwise fun a b => a.descriptor.order < b.descriptor.order := by
  obtain ⟨_, -, planned⟩ := Except.bind_eq_ok.1 resolved
  obtain ⟨fields, found, rfl⟩ := Except.map_eq_ok.1 planned
  exact Plan.of_ofFields found

theorem of_resolve_packed {length : Nat} {declared : List BitField} {plan : Plan}
    (resolved : (Schema.packed tag name length declared).resolve version = .ok plan) :
    (plan.bits.map Planned.position).Nodup ∧ Container.check length = .ok () ∧
      ∀ bit ∈ plan.bits, bit.position < declared.length ∧
        Container.checkSpan length bit.descriptor = .ok () := by
  obtain ⟨_, -, planned⟩ := Except.bind_eq_ok.1 resolved
  obtain ⟨bits, found, rfl⟩ := Except.map_eq_ok.1 planned
  exact Plan.of_ofBits found

theorem ascending_of_resolve {schema : Schema} {plan : Plan}
    (resolved : schema.resolve version = .ok plan) :
    plan.fields.Pairwise fun a b => a.descriptor.order < b.descriptor.order := by
  cases schema with
  | fields tag name declared => exact (of_resolve_fields resolved).2
  | packed tag name length declared =>
    obtain ⟨_, -, planned⟩ := Except.bind_eq_ok.1 resolved
    obtain ⟨bits, -, rfl⟩ := Except.map_eq_ok.1 planned
    exact .nil

end Schema

end Wireform
