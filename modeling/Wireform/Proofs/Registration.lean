import Mathlib.Data.Finset.Card
import Wireform.Marshaller

/-!
What registering does to a registry, whatever its codecs are. A codec is only ever added, for a
wire type that had none and is no record, so what can be looked up once is found for good, and the
registry is as large as the number of wire types that it carries.
-/

namespace Wireform.Registry

variable {κ : Type} {registry grown : Registry κ} {wire other : WireType} {codec : κ}
  {fault : Fault}

/-- The registry after a codec is offered for a wire type: one that is refused changes nothing. -/
def offer (registry : Registry κ) (wire : WireType) (codec : κ) : Registry κ :=
  match registry.register wire codec with
  | .ok grown => grown
  | .error _ => registry

def afterOffers (registry : Registry κ) (offers : List (WireType × κ)) : Registry κ :=
  offers.foldl (fun registry (wire, codec) => registry.offer wire codec) registry

theorem contains_iff_mem :
    registry.contains wire = true ↔ wire ∈ registry.entries.map Prod.fst := by
  unfold contains find?
  rw [List.lookup_isSome_iff, List.mem_map]
  simp only [beq_iff_eq, @eq_comm _ wire]

theorem contains_iff_lookup :
    registry.contains wire = true ↔ ∃ codec, registry.lookup wire = .ok codec := by
  simp only [contains, lookup_eq_ok, Option.isSome_iff_exists]

theorem register_eq_ok_iff : registry.register wire codec = .ok grown ↔
    wire ≠ .object ∧ registry.contains wire = false ∧
      grown = ⟨(wire, codec) :: registry.entries⟩ := by
  unfold register
  by_cases record : wire = .object
  · rw [if_pos record]
    exact ⟨nofun, fun accepted => absurd record accepted.1⟩
  rw [if_neg record, and_iff_right record]
  by_cases present : registry.contains wire = true
  · rw [if_pos present, present]
    exact ⟨nofun, fun accepted => nomatch accepted.1⟩
  · rw [if_neg present, and_iff_right (Bool.eq_false_iff.2 present), Except.ok.injEq, eq_comm]

/-- That a record type can have no codec is found before it is looked whether there is one. -/
theorem register_eq_error_iff : registry.register wire codec = .error fault ↔
    wire = .object ∧ fault = .unsupported .object ∨
      wire ≠ .object ∧ registry.contains wire = true ∧ fault = .unsupported (.registered wire) := by
  unfold register
  by_cases record : wire = .object
  · simp only [record, if_true, Except.error.injEq, true_and, ne_eq, not_true, false_and, or_false]
    exact eq_comm
  rw [if_neg record]
  by_cases present : registry.contains wire = true
  · simp only [record, present, if_true, Except.error.injEq, false_and, false_or, ne_eq,
      not_false_eq_true, true_and]
    exact eq_comm
  · rw [if_neg present]
    exact ⟨nofun, fun refused => refused.elim (fun left => absurd left.1 record)
      fun right => absurd right.2.1 present⟩

theorem offer_of_register (accepted : registry.register wire codec = .ok grown) :
    registry.offer wire codec = grown := by
  unfold offer
  rw [accepted]

theorem offer_of_refused (refused : registry.register wire codec = .error fault) :
    registry.offer wire codec = registry := by
  unfold offer
  rw [refused]

theorem lookup_register (accepted : registry.register wire codec = .ok grown) :
    grown.lookup wire = .ok codec ∧
      ∀ other, other ≠ wire → grown.lookup other = registry.lookup other := by
  refine ⟨lookup_eq_ok.2 ((find?_register accepted wire).trans (if_pos rfl)), fun other apart => ?_⟩
  unfold lookup
  rw [find?_register accepted, if_neg apart]

theorem lookup_offer (found : registry.lookup other = .ok codec) {offered : κ} :
    (registry.offer wire offered).lookup other = .ok codec := by
  cases answer : registry.register wire offered with
  | error fault => rw [offer_of_refused answer, found]
  | ok grown =>
    have apart : other ≠ wire := by
      rintro rfl
      have absent := (register_eq_ok_iff.1 answer).2.1
      rw [contains_iff_lookup.2 ⟨codec, found⟩] at absent
      cases absent
    rw [offer_of_register answer, (lookup_register answer).2 other apart, found]

/-- What can be looked up is found for good. -/
theorem lookup_afterOffers (found : registry.lookup other = .ok codec)
    (offers : List (WireType × κ)) : (registry.afterOffers offers).lookup other = .ok codec := by
  induction offers generalizing registry with
  | nil => exact found
  | cons offer rest ih => exact ih (lookup_offer found)

/-- No wire type has two codecs, and records have none. -/
structure Sound (registry : Registry κ) : Prop where
  object : .object ∉ registry.entries.map Prod.fst
  distinct : (registry.entries.map Prod.fst).Nodup

namespace Sound

theorem offer (sound : registry.Sound) (wire : WireType) (codec : κ) :
    (registry.offer wire codec).Sound := by
  cases answer : registry.register wire codec with
  | error fault => rwa [offer_of_refused answer]
  | ok grown =>
    rw [offer_of_register answer]
    obtain ⟨scalar, absent, rfl⟩ := register_eq_ok_iff.1 answer
    have fresh : wire ∉ registry.entries.map Prod.fst := fun member =>
      absurd (contains_iff_mem.2 member) (Bool.eq_false_iff.1 absent)
    exact ⟨List.not_mem_cons_of_ne_of_not_mem scalar.symm sound.object,
      List.nodup_cons.2 ⟨fresh, sound.distinct⟩⟩

theorem afterOffers (sound : registry.Sound) (offers : List (WireType × κ)) :
    (registry.afterOffers offers).Sound := by
  induction offers generalizing registry with
  | nil => exact sound
  | cons offer rest ih => exact ih (sound.offer ..)

theorem size_eq (sound : registry.Sound) : ∃ carried : Finset WireType,
    (∀ wire, wire ∈ carried ↔ ∃ codec, registry.lookup wire = .ok codec) ∧
      registry.size = carried.card := by
  refine ⟨(registry.entries.map Prod.fst).toFinset, fun wire => ?_, ?_⟩
  · rw [List.mem_toFinset, ← contains_iff_mem, contains_iff_lookup]
  · rw [List.toFinset_card_of_nodup sound.distinct, List.length_map, size]

end Sound

/-- The same wire types, with what stands for their codecs among others. -/
def map {ι : Type} (carry : κ → ι) (registry : Registry κ) : Registry ι :=
  ⟨registry.entries.map fun (wire, codec) => (wire, carry codec)⟩

theorem Sound.map {ι : Type} (sound : registry.Sound) (carry : κ → ι) :
    (registry.map carry).Sound := by
  have same : (registry.map carry).entries.map Prod.fst = registry.entries.map Prod.fst :=
    List.map_map
  exact ⟨same ▸ sound.object, same ▸ sound.distinct⟩

/-- The registries that offers are made to: one without codecs, the built-in codecs, and those of
the marshaller that all share. -/
def starts : List Registry :=
  [empty, builtin, Marshaller.default.registry]

theorem sound_of_starts {start : Registry} (member : start ∈ starts) : start.Sound := by
  have each : ∀ start ∈ starts, start.entries.map Prod.fst = [] ∨
      start.entries.map Prod.fst = [.byte, .word, .dword, .bytes, .bcd, .string] := by decide
  rcases each start member with none | six
  · exact ⟨none ▸ List.not_mem_nil, none ▸ List.nodup_nil⟩
  · exact ⟨six ▸ by decide, six ▸ by decide⟩

structure OnlyGrows (registry : Registry κ) : Prop where
  recordless : registry.contains .object = false ∧
    registry.lookup .object = .error (.unsupported (.unregistered .object))
  lasting : ∀ wire codec, registry.lookup wire = .ok codec →
    ∀ offers, (registry.afterOffers offers).lookup wire = .ok codec
  refused : ∀ wire codec fault, registry.register wire codec = .error fault ↔
    wire = .object ∧ fault = .unsupported .object ∨
      wire ≠ .object ∧ registry.contains wire = true ∧ fault = .unsupported (.registered wire)
  unchanged : ∀ wire codec fault, registry.register wire codec = .error fault →
    registry.offer wire codec = registry
  accepted : ∀ wire codec grown, registry.register wire codec = .ok grown →
    registry.offer wire codec = grown ∧ grown.lookup wire = .ok codec ∧
      ∀ other, other ≠ wire → grown.lookup other = registry.lookup other
  found : ∀ wire, (∃ codec, registry.lookup wire = .ok codec) ↔ registry.contains wire = true
  counted : ∃ carried : Finset WireType,
    (∀ wire, wire ∈ carried ↔ ∃ codec, registry.lookup wire = .ok codec) ∧
      registry.size = carried.card

theorem Sound.onlyGrows (sound : registry.Sound) : registry.OnlyGrows where
  recordless := by
    have absent : registry.contains .object = false :=
      Bool.eq_false_iff.2 fun present => sound.object (contains_iff_mem.1 present)
    have none : registry.find? .object = none :=
      Option.isNone_iff_eq_none.1 (Option.isSome_eq_false_iff.1 absent)
    refine ⟨absent, ?_⟩
    unfold lookup
    rw [none]
  lasting _ _ found := lookup_afterOffers found
  refused _ _ _ := register_eq_error_iff
  unchanged _ _ _ := offer_of_refused
  accepted _ _ _ taken := ⟨offer_of_register taken, lookup_register taken⟩
  found _ := contains_iff_lookup.symm
  counted := sound.size_eq

/-- Whatever is offered to a registry, it only grows: nothing in it is ever replaced. The codecs may
be of any kind that has the built-in ones in it. -/
theorem offers_only_add {κ : Type} (carry : Codec → κ) (start : Registry) (given : start ∈ starts)
    (offers : List (WireType × κ)) : ((start.map carry).afterOffers offers).OnlyGrows :=
  (((sound_of_starts given).map carry).afterOffers offers).onlyGrows

/-- The built-in codecs with one of an application's own, given by its name, after a second one for
the wire type of single bytes was offered. -/
def extended : Registry (Codec ⊕ String) :=
  (builtin.map .inl).afterOffers [(.custom 48, .inr "MILLIS48"), (.byte, .inl .word)]

/-- The application's codec stays whatever is offered later, and so do the built-in ones; another one
for its wire type, and one for records, are refused. -/
theorem offers_only_add_extended :
    builtin ∈ starts ∧
    (∀ offers, (extended.afterOffers offers).lookup (.custom 48) = .ok (.inr "MILLIS48")) ∧
    (∀ offers, (extended.afterOffers offers).lookup .byte = .ok (.inl .byte)) ∧
    extended.register (.custom 48) (.inl .string) =
      .error (.unsupported (.registered (.custom 48))) ∧
    extended.offer .object (.inl .string) = extended := by
  have given : builtin ∈ starts := by decide
  have grows : extended.OnlyGrows := offers_only_add Sum.inl builtin given
    [(.custom 48, .inr "MILLIS48"), (.byte, .inl .word)]
  refine ⟨given, grows.lasting _ _ rfl, grows.lasting _ _ rfl, ?_, ?_⟩
  · exact (grows.refused _ _ _).2 (.inr ⟨nofun, rfl, rfl⟩)
  · exact grows.unchanged _ _ _ ((grows.refused _ _ _).2 (.inl ⟨rfl, rfl⟩))

end Wireform.Registry
