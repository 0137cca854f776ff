import Mathlib.Data.List.Dedup
import Wireform.Proofs.Decoding
import Wireform.Proofs.Indifference

/-!
What walks add to the plans that are kept. A walk is followed by a visit to the same record, which
keeps no plans but notes each record type whose plan it finds: the record's own, and those nested in
it as far as the walk gets. The plans kept are those of the ledger of such notes.
-/

namespace Wireform

open Walk

/-- Record types, at a version each, whose plans were found, in the order in which they were. -/
abbrev Ledger := List (Schema × Nat)

namespace Ledger

def plan (schema : Schema) (version : Nat) : Transfer Ledger Plan := fun ledger =>
  match schema.resolve version with
  | .ok plan => .ok plan (ledger ++ [(schema, version)])
  | .error fault => .error fault ledger

def onLedger {σ α : Type} (act : Transfer Ledger α) : Transfer (Ledger × σ) α :=
  act.focus Prod.fst fun ledger noted => (ledger, noted.2)

def onStream {σ α : Type} (act : Transfer σ α) : Transfer (Ledger × σ) Unit :=
  fun (ledger, stream) =>
    match act stream with
    | .ok _ rest => .ok () (ledger, rest)
    | .error fault rest => .error fault (ledger, rest)

end Ledger

section

variable {σ α : Type} (version : Nat) (move : Leaf Held → Transfer σ α)

mutual

/-- Goes through a record in the order of its plan, moves each leaf, and notes down the plans that
are found on the way. -/
def Schema.visit : (schema : Schema) → schema.Record → Transfer (Ledger × σ) Unit
  | .fields tag name declared, record => do
    let plan ← Ledger.onLedger (Ledger.plan (.fields tag name declared) version)
    plan.fields.forM fun planned =>
      Field.visitAt declared record planned.position planned.descriptor
  | .packed tag name length declared, record => do
    let plan ← Ledger.onLedger (Ledger.plan (.packed tag name length declared) version)
    Ledger.onStream (move (.packed name length
      (plan.bits.map fun bit => (bit, BitField.heldAt declared record bit.position))))

def Field.visit : (field : Field) → field.Content → Descriptor → Transfer (Ledger × σ) Unit
  | .scalar _ type _, content, descriptor =>
    Ledger.onStream (move (.scalar descriptor ⟨type, content⟩))
  | .nested _ schema _, content, _ => schema.visit content

def Field.visitAt : (fields : List Field) → Field.Contents fields → Nat → Descriptor →
    Transfer (Ledger × σ) Unit
  | [], _, _, _ => return ()
  | field :: _, contents, 0, descriptor => field.visit contents.1 descriptor
  | _ :: rest, contents, position + 1, descriptor =>
    Field.visitAt rest contents.2 position descriptor

end

end

mutual

/-- The record types whose plans are needed on the way through a record, in the order in which they
are. -/
def Schema.reached (version : Nat) : Schema → List Schema
  | .fields tag name declared =>
    .fields tag name declared ::
      match (Schema.fields tag name declared).resolve version with
      | .ok plan => plan.fields.flatMap fun planned =>
          Field.reachedAt version declared planned.position
      | .error _ => []
  | .packed tag name length declared => [.packed tag name length declared]

def Field.reached (version : Nat) : Field → List Schema
  | .scalar .. => []
  | .nested _ schema _ => schema.reached version

def Field.reachedAt (version : Nat) : List Field → Nat → List Schema
  | [], _ => []
  | field :: _, 0 => field.reached version
  | _ :: rest, position + 1 => Field.reachedAt version rest position

end

namespace Ledger

variable {σ α ι : Type} {version : Nat}

/-- These record types have been noted, all of them or, in case of a fault, the first of them. -/
inductive Noted (version : Nat) (ledger : Ledger) (reached : List Schema) :
    EStateM.Result Fault (Ledger × σ) Unit → Prop where
  | ok {stream : σ} :
    Noted version ledger reached (.ok () (ledger ++ reached.map (·, version), stream))
  | error {first : List Schema} {fault : Fault} {stream : σ} (front : first <+: reached) :
    Noted version ledger reached (.error fault (ledger ++ first.map (·, version), stream))

/-- What the action notes, if nothing fails. -/
def Notes (version : Nat) (act : Transfer (Ledger × σ) Unit) (reached : List Schema) : Prop :=
  ∀ ledger stream, Noted version ledger reached (act (ledger, stream))

theorem noted_nothing {version : Nat} {ledger : Ledger} {stream : σ} :
    Noted version ledger [] (.ok () (ledger, stream)) := by
  have noted : Noted version ledger [] (.ok () (ledger ++ [], stream)) := .ok
  rwa [List.append_nil] at noted

theorem Noted.fail {version : Nat} {ledger : Ledger} {reached : List Schema} {fault : Fault}
    {stream : σ} : Noted version ledger reached (.error fault (ledger, stream)) := by
  have noted : Noted version ledger reached (.error fault (ledger ++ [], stream)) :=
    .error List.nil_prefix
  rwa [List.append_nil] at noted

theorem notes_onStream (act : Transfer σ α) : Notes version (onStream act) [] := by
  intro ledger stream
  simp only [onStream]
  cases act stream with
  | ok a rest => exact noted_nothing
  | error fault rest => exact .fail

theorem Noted.before {ledger : Ledger} {reached further : List Schema}
    {result : EStateM.Result Fault (Ledger × σ) Unit}
    (noted : Noted version (ledger ++ reached.map (·, version)) further result) :
    Noted version ledger (reached ++ further) result := by
  cases noted with
  | ok =>
    rw [List.append_assoc, ← List.map_append]
    exact .ok
  | error front =>
    rw [List.append_assoc, ← List.map_append]
    exact .error ((List.prefix_append_right_inj reached).2 front)

theorem Notes.bind {act next : Transfer (Ledger × σ) Unit} {reached further : List Schema}
    (first : Notes version act reached) (second : Notes version next further) :
    Notes version (act >>= fun _ => next) (reached ++ further) := by
  intro ledger stream
  have before := first ledger stream
  simp only [Bind.bind, EStateM.bind]
  generalize act (ledger, stream) = result at before
  cases before with
  | ok => exact (second _ _).before
  | error front => exact .error (front.trans (List.prefix_append ..))

theorem notes_forM {act : ι → Transfer (Ledger × σ) Unit} {reached : ι → List Schema}
    {entries : List ι} (each : ∀ entry ∈ entries, Notes version (act entry) (reached entry)) :
    Notes version (entries.forM act) (entries.flatMap reached) := by
  induction entries with
  | nil => exact fun _ _ => noted_nothing
  | cons entry rest ih =>
    exact (each entry (List.mem_cons_self ..)).bind
      (ih fun other member => each other (List.mem_cons_of_mem _ member))

theorem notes_plan {schema : Schema} {next : Plan → Transfer (Ledger × σ) Unit}
    {further : List Schema}
    (second : ∀ plan, schema.resolve version = .ok plan → Notes version (next plan) further) :
    Notes version (onLedger (plan schema version) >>= next) (schema :: further) := by
  intro ledger stream
  simp only [Bind.bind, EStateM.bind, onLedger, Transfer.focus, Ledger.plan]
  cases resolved : schema.resolve version with
  | error fault => exact .fail
  | ok plan =>
    have after := second plan resolved (ledger ++ [schema].map (·, version)) stream
    exact after.before

end Ledger

section

variable {σ α : Type} (version : Nat) (move : Leaf Held → Transfer σ α)

mutual

theorem Schema.visit_notes : (schema : Schema) → (record : schema.Record) →
    Ledger.Notes version (schema.visit version move record) (schema.reached version)
  | .fields tag name declared, record => by
    simp only [Schema.visit, Schema.reached]
    refine Ledger.notes_plan fun plan resolved => ?_
    rw [resolved]
    exact Ledger.notes_forM fun planned _ =>
      Field.visitAt_notes declared record planned.position planned.descriptor
  | .packed tag name length declared, record => by
    simp only [Schema.visit, Schema.reached]
    exact Ledger.notes_plan fun plan _ => Ledger.notes_onStream _

theorem Field.visit_notes : (field : Field) → (content : field.Content) →
    (descriptor : Descriptor) →
    Ledger.Notes version (field.visit version move content descriptor) (field.reached version)
  | .scalar .., _, _ => Ledger.notes_onStream _
  | .nested _ schema _, content, _ => schema.visit_notes content

theorem Field.visitAt_notes : (fields : List Field) → (contents : Field.Contents fields) →
    (position : Nat) → (descriptor : Descriptor) →
    Ledger.Notes version (Field.visitAt version move fields contents position descriptor)
      (Field.reachedAt version fields position)
  | [], _, _, _ => fun _ _ => Ledger.noted_nothing
  | field :: _, contents, 0, descriptor => field.visit_notes contents.1 descriptor
  | _ :: rest, contents, position + 1, descriptor =>
    Field.visitAt_notes rest contents.2 position descriptor

end

end

/-- The plans kept are those that the ledger has, one of each. -/
structure PlanCache.Holds (cache : PlanCache) (ledger : Ledger) : Prop where
  mem_iff : ∀ schema version, cache.contains schema version = true ↔ (schema, version) ∈ ledger
  once : (cache.entries.map Prod.fst).Nodup

namespace PlanCache

variable {cache : PlanCache} {ledger : Ledger} {schema : Schema} {version : Nat}

theorem contains_iff_mem : cache.contains schema version = true ↔
    (schema, version) ∈ cache.entries.map Prod.fst := by
  unfold contains find?
  rw [List.lookup_isSome_iff]
  simp

theorem holds_empty : PlanCache.empty.Holds [] where
  mem_iff _ _ := by simp [contains, find?, empty]
  once := .nil

theorem Holds.again (holds : cache.Holds ledger) (found : cache.contains schema version = true) :
    cache.Holds (ledger ++ [(schema, version)]) where
  mem_iff other others := by
    rw [holds.mem_iff, List.mem_append, List.mem_singleton]
    refine ⟨.inl, fun either => either.elim id fun same => ?_⟩
    cases same
    exact (holds.mem_iff _ _).1 found
  once := holds.once

theorem Holds.insert {plan : Plan} (holds : cache.Holds ledger)
    (fresh : ¬ cache.contains schema version = true)
    (resolved : schema.resolve version = .ok plan) :
    (cache.insert schema version plan resolved).Holds (ledger ++ [(schema, version)]) where
  mem_iff other others := by
    rw [contains_iff_mem, PlanCache.insert, List.map_cons, List.mem_cons, ← contains_iff_mem,
      holds.mem_iff, List.mem_append, List.mem_singleton, or_comm]
  once := by
    rw [contains_iff_mem] at fresh
    exact List.nodup_cons.2 ⟨fresh, holds.once⟩

theorem Holds.find?_eq_some_iff (holds : cache.Holds ledger) {plan : Plan} :
    cache.find? schema version = some plan ↔
      (schema, version) ∈ ledger ∧ schema.resolve version = .ok plan := by
  rw [← holds.mem_iff, contains]
  refine ⟨fun found => ⟨by rw [found]; rfl, resolve_of_find? found⟩, fun ⟨kept, resolved⟩ => ?_⟩
  obtain ⟨other, found⟩ := Option.isSome_iff_exists.1 kept
  cases (resolve_of_find? found).symm.trans resolved
  exact found

theorem Holds.size_eq (holds : cache.Holds ledger) : cache.size = ledger.dedup.length := by
  have same : (cache.entries.map Prod.fst).Perm ledger.dedup := by
    refine (List.perm_ext_iff_of_nodup holds.once ledger.nodup_dedup).2 fun (schema, version) => ?_
    rw [← contains_iff_mem, holds.mem_iff, List.mem_dedup]
  rw [size, ← same.length_eq, List.length_map]

end PlanCache

/-- Where plans are kept they are those of the ledger, and otherwise there are none. -/
def Settings.Keeps (settings : Settings) (plans : PlanCache) (ledger : Ledger) : Prop :=
  if settings.cachePlans then plans.Holds ledger else plans = .empty

theorem Settings.keeps_empty (settings : Settings) : settings.Keeps .empty [] := by
  unfold Keeps
  split
  · exact PlanCache.holds_empty
  · rfl

/-- What is obtained from the plans kept is noted down, and what fails is not. -/
theorem PlanCache.Holds.ends_obtain {cache : PlanCache} {ledger : Ledger}
    (holds : cache.Holds ledger) (schema : Schema) (version : Nat) :
    Transfer.Ends Holds Eq Eq (obtain schema version cache)
      (Ledger.plan schema version ledger) := by
  unfold PlanCache.obtain Ledger.plan
  cases found : cache.find? schema version with
  | some plan =>
    -- Noted once more though kept already: the ledger does not depend on what is kept.
    have again : cache.contains schema version = true := by rw [contains, found]; rfl
    simp only [resolve_of_find? found]
    exact .ok rfl (holds.again again)
  | none =>
    have fresh : ¬ cache.contains schema version = true := by simp [contains, found]
    simp only
    split
    next plan resolved =>
      simp only [resolved]
      exact .ok rfl (holds.insert fresh resolved)
    next fault failed =>
      simp only [failed]
      exact .error rfl holds

theorem Settings.Keeps.ends_plan {settings : Settings} {plans : PlanCache} {ledger : Ledger}
    (keeps : settings.Keeps plans ledger) (schema : Schema) (version : Nat) :
    Transfer.Ends settings.Keeps Eq Eq (settings.plan schema version plans)
      (Ledger.plan schema version ledger) := by
  unfold Keeps Settings.plan at *
  split
  · simp only [*, if_true] at keeps ⊢
    exact keeps.ends_obtain schema version
  · simp only [*, Bool.false_eq_true, if_false] at keeps ⊢
    unfold Ledger.plan
    cases schema.resolve version with
    | ok plan => exact .ok rfl keeps
    | error fault => exact .error rfl keeps

namespace Walk

variable {σ α β : Type}

/-- The walk stands where the visit stands, with the plans that the visit has noted. -/
structure Tracks (settings : Settings) (state : State σ) (noted : Ledger × σ) : Prop where
  plans : settings.Keeps state.plans noted.1
  stream : state.stream = noted.2

theorem pairs_forM {ι τ : Type} {states : σ → τ → Prop} {faults : Fault → Fault → Prop}
    {step : α → ι → Transfer σ α} {act : ι → Transfer τ Unit} {entries : List ι}
    (each : ∀ entry ∈ entries, ∀ a,
      Transfer.Pairs states (fun _ _ => True) faults (step a entry) (act entry)) {a : α} :
    Transfer.Pairs states (fun _ _ => True) faults (entries.foldlM step a) (entries.forM act) := by
  induction entries generalizing a with
  | nil => exact Transfer.pairs_pure trivial
  | cons entry rest ih =>
    rw [List.foldlM_cons]
    refine (each entry (List.mem_cons_self ..) a).bind fun after _ _ => ?_
    exact ih fun other member => each other (List.mem_cons_of_mem _ member)

theorem tracks_onStream {settings : Settings} {act : Transfer σ α} {act' : Transfer σ β}
    (pairs : Transfer.Pairs Eq (fun _ _ => True) Eq act act') :
    Transfer.Pairs (Tracks settings) (fun _ _ => True) Eq (onStream act)
      (Ledger.onStream act') := by
  intro ⟨plans, stream⟩ ⟨ledger, stream'⟩ tracks
  obtain rfl : stream = stream' := tracks.stream
  have ends := pairs stream stream rfl
  simp only [onStream, Ledger.onStream, Transfer.focus]
  generalize act stream = result, act' stream = result' at ends
  cases ends with
  | ok _ left => exact .ok trivial ⟨tracks.plans, left⟩
  | error failed left => exact .error failed ⟨tracks.plans, left⟩

theorem tracks_onStream_same {settings : Settings} (act : Transfer σ α) :
    Transfer.Pairs (Tracks settings) (fun _ _ => True) Eq (onStream act) (Ledger.onStream act) :=
  tracks_onStream ((Transfer.pairs_refl (fun _ => rfl) act).mono (fun _ _ _ => trivial)
    fun _ _ => id)

theorem tracks_plan (settings : Settings) (schema : Schema) (version : Nat) :
    Transfer.Pairs (Tracks settings) Eq Eq (onPlans (settings.plan schema version) : Walk σ Plan)
      (Ledger.onLedger (Ledger.plan schema version)) := by
  intro ⟨plans, stream⟩ ⟨ledger, stream'⟩ ⟨keeps, same⟩
  obtain rfl : stream = stream' := same
  have ends := keeps.ends_plan schema version
  simp only [onPlans, Ledger.onLedger, Transfer.focus]
  generalize settings.plan schema version plans = result,
    Ledger.plan schema version ledger = result' at ends
  cases ends with
  | ok given left => exact .ok given ⟨left, rfl⟩
  | error failed left => exact .error failed ⟨left, rfl⟩

end Walk

section

variable {κ : Type} [Sink κ] (setting : Setting)

mutual

theorem Schema.tracks_encode : (schema : Schema) → (record : schema.Record) →
    Transfer.Pairs (Tracks setting.settings) (fun _ _ => True) Eq
      (schema.encode setting record : Walk κ Nat)
      (schema.visit setting.version (Leaf.encode setting) record)
  | .fields tag name declared, record => by
    simp only [Schema.encode, Schema.visit]
    refine (tracks_plan _ _ _).bind fun plan _ same => ?_
    subst same
    refine pairs_forM fun planned _ written => ?_
    exact (Field.tracks_encodeAt declared record planned.position planned.descriptor).map_left
      fun _ _ _ => trivial
  | .packed tag name length declared, record => by
    simp only [Schema.encode, Schema.visit]
    refine (tracks_plan _ _ _).bind fun plan _ same => ?_
    subst same
    rw [BitField.words_heldAt name declared record plan.bits]
    exact tracks_onStream_same _

theorem Field.tracks_encode : (field : Field) → (content : field.Content) →
    (descriptor : Descriptor) →
    Transfer.Pairs (Tracks setting.settings) (fun _ _ => True) Eq
      (field.encode setting content descriptor : Walk κ Nat)
      (field.visit setting.version (Leaf.encode setting) content descriptor)
  | .scalar _ type _, content, descriptor => by
    simp only [Field.encode, Field.visit]
    exact tracks_onStream_same _
  | .nested _ schema _, content, _ => by
    simp only [Field.encode, Field.visit]
    exact schema.tracks_encode content

theorem Field.tracks_encodeAt : (fields : List Field) → (contents : Field.Contents fields) →
    (position : Nat) → (descriptor : Descriptor) →
    Transfer.Pairs (Tracks setting.settings) (fun _ _ => True) Eq
      (Field.encodeAt setting fields contents position descriptor : Walk κ Nat)
      (Field.visitAt setting.version (Leaf.encode setting) fields contents position descriptor)
  | [], _, _, _ => Transfer.pairs_pure trivial
  | field :: _, contents, 0, descriptor => field.tracks_encode contents.1 descriptor
  | _ :: rest, contents, position + 1, descriptor =>
    Field.tracks_encodeAt rest contents.2 position descriptor

end

end

section

variable {σ : Type} [Source σ] (setting : Setting)

/-- Reads a leaf and makes sure that its fields take it; what it held before does not matter. -/
def Leaf.reread (leaf : Leaf Held) : Transfer σ Bytes :=
  (leaf.map Held.type).read setting

theorem Leaf.pairs_reread {α : Type} {leaf : Leaf Held} {types : Leaf FieldType}
    (same : leaf.map Held.type = types) {act : Transfer σ α} {build : Bytes → α}
    (reads : act = do
      let span ← types.readSpan setting
      let _ ← Transfer.ofExcept (types.fill setting.registry span)
      return build span) :
    Transfer.Pairs Eq (fun _ _ => True) Eq act (leaf.reread setting) := by
  rw [reads, reread, same, read]
  refine (Transfer.pairs_refl (fun _ => rfl) _).bind fun span _ equal => ?_
  subst equal
  exact (Transfer.pairs_refl (fun _ => rfl) _).bind fun _ _ _ => Transfer.pairs_pure trivial

variable (capture : Bool)

mutual

/-- Reading a record asks for the plans that a visit notes, and stops where the visit stops. The
visit may be to any record of the type. -/
theorem Schema.tracks_decode : (schema : Schema) → (record sample : schema.Record) →
    Transfer.Pairs (Tracks setting.settings) (fun _ _ => True) Eq
      (schema.decode setting capture record : Walk σ (schema.Record × Option Children))
      (schema.visit setting.version (Leaf.reread setting) sample)
  | .fields tag name declared, record, sample => by
    simp only [Schema.decode, Schema.visit]
    refine (tracks_plan _ _ _).bind fun plan _ same => ?_
    subst same
    refine pairs_forM fun planned _ (contents, tree) => ?_
    exact (Field.tracks_decodeAt declared contents sample planned.position
      planned.descriptor).map_left fun _ _ _ => trivial
  | .packed tag name length declared, record, sample => by
    simp only [Schema.decode, Schema.visit]
    refine (tracks_plan _ _ _).bind fun plan _ same => ?_
    subst same
    refine tracks_onStream (Leaf.pairs_reread setting ?_
      (BitField.decode_eq setting capture declared record name length plan.bits))
    have types (position : Nat) := BitField.type_heldAt declared sample position
    simp only [Leaf.map, List.map_map, Function.comp_def, BitField.typed, types]

theorem Field.tracks_decode : (field : Field) → (content sample : field.Content) →
    (descriptor : Descriptor) →
    Transfer.Pairs (Tracks setting.settings) (fun _ _ => True) Eq
      (field.decode setting capture content descriptor : Walk σ (field.Content × Option Node))
      (field.visit setting.version (Leaf.reread setting) sample descriptor)
  | .scalar _ type _, content, sample, descriptor => by
    simp only [Field.decode, Field.visit]
    exact tracks_onStream (Leaf.pairs_reread setting rfl
      (FieldType.decode_eq setting capture type content descriptor))
  | .nested _ schema _, content, sample, _ => by
    simp only [Field.decode, Field.visit]
    exact (schema.tracks_decode content sample).map_left fun _ _ _ => trivial

theorem Field.tracks_decodeAt : (fields : List Field) →
    (contents sample : Field.Contents fields) → (position : Nat) → (descriptor : Descriptor) →
    Transfer.Pairs (Tracks setting.settings) (fun _ _ => True) Eq
      (Field.decodeAt setting capture fields contents position descriptor :
        Walk σ (Field.Contents fields × Option Node))
      (Field.visitAt setting.version (Leaf.reread setting) fields sample position descriptor)
  | [], _, _, _, _ => Transfer.pairs_pure trivial
  | field :: _, contents, sample, 0, descriptor => by
    simp only [Field.decodeAt, Field.visitAt]
    exact (field.tracks_decode contents.1 sample.1 descriptor).map_left fun _ _ _ => trivial
  | _ :: rest, contents, sample, position + 1, descriptor => by
    simp only [Field.decodeAt, Field.visitAt]
    exact (Field.tracks_decodeAt rest contents.2 sample.2 position descriptor).map_left
      fun _ _ _ => trivial

end

end

end Wireform
