import Wireform.Proofs.Ledger

/-!
Many calls on one marshaller. Between two calls a marshaller remembers nothing but plans; the ledger
of the calls says which, and no call gives back anything that depends on them.
-/

namespace Wireform

open Walk

/-- A call on a marshaller, with the stream that it is made on. To go on with a stream, a later call
has it as the earlier one left it. -/
inductive Call : Type 1 where
  | plan (schema : Schema) (version : Nat)
  | forgetPlans
  | encode {κ : Type} [Sink κ] (sink : κ) (schema : Schema) (version : Nat)
    (record : schema.Record)
  | encodeToBytes (schema : Schema) (version : Nat) (record : schema.Record)
  | decode {σ : Type} [Source σ] (source : σ) (schema : Schema) (version : Nat)
    (initial : schema.Record)
  | decodeWithTree {σ : Type} [Source σ] (source : σ) (schema : Schema) (version : Nat)
    (initial : schema.Record)
  | decodeFromBytes (schema : Schema) (version : Nat) (data : Bytes) (initial : schema.Record)

namespace Call

def Stream : Call → Type
  | @encode κ .. => κ
  | @decode σ .. => σ
  | @decodeWithTree σ .. => σ
  | plan .. | forgetPlans | encodeToBytes .. | decodeFromBytes .. => Unit

def stream : (call : Call) → call.Stream
  | encode sink .. => sink
  | decode source .. => source
  | decodeWithTree source .. => source
  | plan .. | forgetPlans | encodeToBytes .. | decodeFromBytes .. => ()

def Answer : Call → Type
  | plan .. => Plan
  | forgetPlans => Unit
  | encode .. => Nat
  | encodeToBytes .. => Bytes
  | decode _ schema .. => Decoded schema
  | decodeWithTree _ schema .. => schema.Record × Node
  | decodeFromBytes schema .. => schema.Record

def onMarshaller {α : Type} (act : Transfer Marshaller α) : Transfer (Marshaller × Unit) α :=
  act.focus Prod.fst fun marshaller state => (marshaller, state.2)

def run : (call : Call) → Transfer (Marshaller × call.Stream) call.Answer
  | plan schema version => onMarshaller (Marshaller.plan schema version)
  | forgetPlans => onMarshaller (modify Marshaller.forgetPlans)
  | @encode κ _ _ schema version record =>
    (Marshaller.encode schema version record : Transfer (Marshaller × κ) Nat)
  | encodeToBytes schema version record =>
    onMarshaller (Marshaller.encodeToBytes schema version record)
  | @decode σ _ _ schema version initial =>
    (Marshaller.decode schema version initial : Transfer (Marshaller × σ) (Decoded schema))
  | @decodeWithTree σ _ _ schema version initial =>
    (Marshaller.decodeWithTree schema version initial :
      Transfer (Marshaller × σ) (schema.Record × Node))
  | decodeFromBytes schema version data initial =>
    onMarshaller (Marshaller.decodeFromBytes schema version data initial)

/-- All that comes back of a call: its answer or fault, and the stream. -/
abbrev Outcome (call : Call) := Except Fault call.Answer × call.Stream

def outcome (call : Call) (marshaller : Marshaller) : call.Outcome :=
  (call.run.answer (marshaller, call.stream), (call.run.left (marshaller, call.stream)).2)

def after (call : Call) (marshaller : Marshaller) : Marshaller :=
  (call.run.left (marshaller, call.stream)).1

/-- The ledger after a call. A walk notes the plans it finds up to where it ends or fails. -/
def note (settings : Settings) (registry : Registry) : Call → Ledger → Ledger
  | plan schema version, ledger => (Ledger.plan schema version).left ledger
  | forgetPlans, _ => []
  | encode sink schema version record, ledger =>
    ((schema.visit version (Leaf.encode ⟨settings, registry, version⟩) record).left
      (ledger, sink)).1
  | encodeToBytes schema version record, ledger =>
    ((schema.visit version (Leaf.encode ⟨settings, registry, version⟩) record).left
      (ledger, ([] : Bytes))).1
  | decode source schema version initial, ledger
  | decodeWithTree source schema version initial, ledger =>
    ((schema.visit version (Leaf.reread ⟨settings, registry, version⟩) initial).left
      (ledger, source)).1
  | decodeFromBytes schema version data initial, ledger =>
    ((schema.visit version (Leaf.reread ⟨settings, registry, version⟩) initial).left
      (ledger, Cursor.ofBytes data)).1

end Call

namespace Marshaller

/-- What comes back of one call after the other. -/
def transcript : Marshaller → List Call → List ((call : Call) × call.Outcome)
  | _, [] => []
  | marshaller, call :: rest =>
    ⟨call, call.outcome marshaller⟩ :: transcript (call.after marshaller) rest

def ledger (marshaller : Marshaller) (calls : List Call) : Ledger :=
  calls.foldl (fun ledger call => call.note marshaller.settings marshaller.registry ledger) []

def afterAll (marshaller : Marshaller) (calls : List Call) : Marshaller :=
  calls.foldl (fun marshaller call => call.after marshaller) marshaller

section

variable {σ α β : Type}

theorem answer_onMarshaller (act : Transfer Marshaller α) (marshaller : Marshaller) :
    (Call.onMarshaller act).answer (marshaller, ()) = act.answer marshaller := by
  simp only [Call.onMarshaller, Transfer.answer, Transfer.focus]
  cases act marshaller <;> rfl

theorem onMarshaller_congr {act : Transfer Marshaller α} {marshaller other : Marshaller}
    (same : act.answer marshaller = act.answer other) :
    (Call.onMarshaller act).answer (marshaller, ()) =
      (Call.onMarshaller act).answer (other, ()) := by
  rw [answer_onMarshaller, answer_onMarshaller, same]

theorem left_onMarshaller (act : Transfer Marshaller α) (marshaller : Marshaller) :
    (Call.onMarshaller act).left (marshaller, ()) = (act.left marshaller, ()) := by
  simp only [Call.onMarshaller, Transfer.left, Transfer.focus]
  cases act marshaller <;> rfl

theorem left_onFresh (stream : σ) (act : Transfer (Marshaller × σ) α) (finish : α → σ → β)
    (marshaller : Marshaller) :
    (onFresh stream act finish).left marshaller = (act.left (marshaller, stream)).1 := by
  simp only [onFresh, Transfer.left]
  cases act (marshaller, stream) <;> rfl

theorem answer_onFresh {stream : σ} {act : Transfer (Marshaller × σ) α} {finish : α → σ → β}
    {marshaller other : Marshaller}
    (ends : Transfer.Ends Peers Eq Eq (act (marshaller, stream)) (act (other, stream))) :
    (onFresh stream act finish).answer marshaller = (onFresh stream act finish).answer other := by
  simp only [onFresh, Transfer.answer]
  generalize act (marshaller, stream) = result, act (other, stream) = result' at ends
  cases ends with
  | ok given left => exact congrArg Except.ok (congrArg₂ finish given left.stream)
  | error failed left => exact congrArg Except.error failed

theorem answer_plan (schema : Schema) (version : Nat) (marshaller : Marshaller) :
    (Marshaller.plan schema version).answer marshaller = schema.resolve version := by
  rw [← marshaller.settings.answer_plan schema version marshaller.plans]
  simp only [Marshaller.plan, Marshaller.onPlans, Transfer.answer, Transfer.focus]
  cases marshaller.settings.plan schema version marshaller.plans <;> rfl

theorem pairs_encode_same {κ : Type} [Sink κ] (schema : Schema) (version : Nat)
    (record : schema.Record) :
    Transfer.Pairs Peers Eq Eq (encode schema version record : Transfer (Marshaller × κ) Nat)
      (encode schema version record) :=
  pairs_encode (fun _ => rfl) (fun inner _ => inner.corresponds_refl version)
    (.refl version schema record)

theorem pairs_decodeCapturing_same [Source σ] (capture : Bool) (schema : Schema) (version : Nat)
    (initial : schema.Record) :
    Transfer.Pairs Peers Eq Eq
      (decodeCapturing capture schema version initial : Transfer (Marshaller × σ) (Decoded schema))
      (decodeCapturing capture schema version initial) :=
  (pairs_decodeCapturing (fun _ => rfl) (fun inner _ => inner.corresponds_refl version) capture
    capture initial).mono (fun _ _ same => same.eq rfl) fun _ _ => id

theorem pairs_decodeWithTree_same [Source σ] (schema : Schema) (version : Nat)
    (initial : schema.Record) :
    Transfer.Pairs Peers Eq Eq
      (decodeWithTree schema version initial : Transfer (Marshaller × σ) (schema.Record × Node))
      (decodeWithTree schema version initial) :=
  (pairs_decodeCapturing_same true schema version initial).bind fun decoded _ same => by
    subst same
    exact Transfer.pairs_pure rfl

theorem left_walk (version : Nat) (act : Setting → Walk σ α) (marshaller : Marshaller)
    (stream : σ) : ∃ plans,
    ((walk version act).left (marshaller, stream)).1 = { marshaller with plans := plans } := by
  simp only [walk, Transfer.left]
  cases act _ _ with
  | ok a rest => exact ⟨rest.plans, rfl⟩
  | error fault rest => exact ⟨rest.plans, rfl⟩

theorem left_decodeWithTree [Source σ] (schema : Schema) (version : Nat)
    (initial : schema.Record) (state : Marshaller × σ) :
    (decodeWithTree schema version initial).left state =
      (decodeCapturing true schema version initial :
        Transfer (Marshaller × σ) (Decoded schema)).left state := by
  simp only [decodeWithTree, Transfer.left, Bind.bind, EStateM.bind]
  cases decodeCapturing true schema version initial state <;> rfl

end

end Marshaller

namespace Call

open Marshaller

section

variable {σ κ : Type} [Source σ] [Sink κ] (schema : Schema) (version : Nat)
  (record initial : schema.Record) (marshaller : Marshaller)

theorem after_plan : (plan schema version).after marshaller = { marshaller with
    plans := (marshaller.settings.plan schema version).left marshaller.plans } := by
  simp only [after, run, stream, onMarshaller, Marshaller.plan, Marshaller.onPlans, Transfer.left,
    Transfer.focus]
  cases marshaller.settings.plan schema version marshaller.plans <;> rfl

theorem after_forgetPlans : forgetPlans.after marshaller = marshaller.forgetPlans :=
  rfl

theorem after_encode (sink : κ) : (encode sink schema version record).after marshaller =
    ((Marshaller.encode schema version record).left (marshaller, sink)).1 :=
  rfl

theorem after_encodeToBytes : (encodeToBytes schema version record).after marshaller =
    ((Marshaller.encode schema version record).left (marshaller, ([] : Bytes))).1 :=
  (congrArg Prod.fst (left_onMarshaller _ marshaller)).trans (left_onFresh ..)

theorem after_decode (source : σ) : (decode source schema version initial).after marshaller =
    ((decodeCapturing marshaller.settings.captureTree schema version initial).left
      (marshaller, source)).1 :=
  rfl

theorem after_decodeWithTree (source : σ) :
    (decodeWithTree source schema version initial).after marshaller =
      ((decodeCapturing true schema version initial).left (marshaller, source)).1 :=
  congrArg Prod.fst (left_decodeWithTree schema version initial (marshaller, source))

theorem after_decodeFromBytes (data : Bytes) :
    (decodeFromBytes schema version data initial).after marshaller =
      ((decodeCapturing false schema version initial).left (marshaller, Cursor.ofBytes data)).1 :=
  (congrArg Prod.fst (left_onMarshaller _ marshaller)).trans (left_onFresh ..)

end

theorem after_eq (call : Call) (marshaller : Marshaller) :
    ∃ plans, call.after marshaller = { marshaller with plans := plans } := by
  cases call with
  | plan schema version => exact ⟨_, after_plan schema version marshaller⟩
  | forgetPlans => exact ⟨_, after_forgetPlans marshaller⟩
  | encode sink schema version record => rw [after_encode]; exact left_walk ..
  | encodeToBytes schema version record => rw [after_encodeToBytes]; exact left_walk ..
  | decode source schema version initial => rw [after_decode]; exact left_walk ..
  | decodeWithTree source schema version initial => rw [after_decodeWithTree]; exact left_walk ..
  | decodeFromBytes schema version data initial => rw [after_decodeFromBytes]; exact left_walk ..

/-- What comes back of a call is the same whatever plans are kept. -/
theorem outcome_congr (call : Call) {marshaller other : Marshaller}
    (registry : marshaller.registry = other.registry)
    (limit : marshaller.settings.maxVariableLength = other.settings.maxVariableLength)
    (capture : marshaller.settings.captureTree = other.settings.captureTree) :
    call.outcome marshaller = call.outcome other := by
  have peers {σ : Type} (stream : σ) : Peers (marshaller, stream) (other, stream) :=
    ⟨registry, limit, rfl⟩
  -- Where the stream is made for the call, only the answer comes back.
  cases call with
  | plan schema version =>
    have same :=
      (answer_plan schema version marshaller).trans (answer_plan schema version other).symm
    exact Prod.ext (onMarshaller_congr same) rfl
  | forgetPlans => rfl
  | encode sink schema version record =>
    have ends := pairs_encode_same schema version record _ _ (peers sink)
    exact Prod.ext ends.answer_eq ends.left_matches.stream
  | encodeToBytes schema version record =>
    have ends := pairs_encode_same schema version record _ _ (peers ([] : Bytes))
    exact Prod.ext (onMarshaller_congr (answer_onFresh ends)) rfl
  | decode source schema version initial =>
    have ends := (ends_decode (fun _ => rfl)
      (fun inner (_ : schema.Nests inner) => inner.corresponds_refl version) initial
        (peers source)).mono (fun _ _ => id) (fun _ _ same => same.eq capture) fun _ _ => id
    exact Prod.ext ends.answer_eq ends.left_matches.stream
  | decodeWithTree source schema version initial =>
    have ends := pairs_decodeWithTree_same schema version initial _ _ (peers source)
    exact Prod.ext ends.answer_eq ends.left_matches.stream
  | decodeFromBytes schema version data initial =>
    have ends :=
      pairs_decodeCapturing_same false schema version initial _ _ (peers (Cursor.ofBytes data))
    exact Prod.ext (onMarshaller_congr (answer_onFresh ends)) rfl

end Call

namespace Marshaller

def Keeps (marshaller : Marshaller) (ledger : Ledger) : Prop :=
  marshaller.settings.Keeps marshaller.plans ledger

theorem keeps_walk {σ α : Type} {version : Nat} {act : Setting → Walk σ α}
    {visit : Transfer (Ledger × σ) Unit} {marshaller : Marshaller} {ledger : Ledger}
    (tracks : Transfer.Pairs (Tracks marshaller.settings) (fun _ _ => True) Eq
      (act (marshaller.setting version)) visit) (keeps : marshaller.Keeps ledger) (stream : σ) :
    ((walk version act).left (marshaller, stream)).1.Keeps (visit.left (ledger, stream)).1 := by
  have after := (tracks ⟨marshaller.plans, stream⟩ (ledger, stream) ⟨keeps, rfl⟩).left_matches
  simp only [walk, Transfer.left, setting] at after ⊢
  generalize act _ _ = result at after ⊢
  cases result <;> exact after.plans

theorem keeps_encode {κ : Type} [Sink κ] {marshaller : Marshaller} {ledger : Ledger}
    (keeps : marshaller.Keeps ledger) (schema : Schema) (version : Nat) (record : schema.Record)
    (sink : κ) : ((encode schema version record).left (marshaller, sink)).1.Keeps
      ((schema.visit version (Leaf.encode (marshaller.setting version)) record).left
        (ledger, sink)).1 :=
  keeps_walk (schema.tracks_encode (marshaller.setting version) record) keeps sink

theorem keeps_decodeCapturing {σ : Type} [Source σ] {marshaller : Marshaller} {ledger : Ledger}
    (keeps : marshaller.Keeps ledger) (capture : Bool) (schema : Schema) (version : Nat)
    (initial : schema.Record) (source : σ) :
    ((decodeCapturing capture schema version initial).left (marshaller, source)).1.Keeps
      ((schema.visit version (Leaf.reread (marshaller.setting version)) initial).left
        (ledger, source)).1 := by
  have tracks : Transfer.Pairs (Tracks marshaller.settings) (fun _ _ => True) Eq
      (schema.decode (marshaller.setting version) capture initial >>= fun read =>
        return ⟨read.1, read.2.map Node.object⟩ : Walk σ (Decoded schema)) _ :=
    (schema.tracks_decode (marshaller.setting version) capture initial initial).map_left
      fun _ _ _ => trivial
  exact keeps_walk tracks keeps source

end Marshaller

namespace Call

open Marshaller

theorem keeps_note (call : Call) {marshaller : Marshaller} {ledger : Ledger}
    (keeps : marshaller.Keeps ledger) :
    (call.after marshaller).Keeps (call.note marshaller.settings marshaller.registry ledger) := by
  cases call with
  | plan schema version =>
    rw [after_plan]
    exact (Settings.Keeps.ends_plan keeps schema version).left_matches
  | forgetPlans => exact marshaller.settings.keeps_empty
  | encode sink schema version record => rw [after_encode]; exact keeps_encode keeps ..
  | encodeToBytes schema version record => rw [after_encodeToBytes]; exact keeps_encode keeps ..
  | decode source schema version initial => rw [after_decode]; exact keeps_decodeCapturing keeps ..
  | decodeWithTree source schema version initial =>
    rw [after_decodeWithTree]
    exact keeps_decodeCapturing keeps ..
  | decodeFromBytes schema version data initial =>
    rw [after_decodeFromBytes]
    exact keeps_decodeCapturing keeps ..

end Call

namespace Marshaller

theorem transcript_congr {marshaller other : Marshaller}
    (registry : marshaller.registry = other.registry)
    (limit : marshaller.settings.maxVariableLength = other.settings.maxVariableLength)
    (capture : marshaller.settings.captureTree = other.settings.captureTree) (calls : List Call) :
    marshaller.transcript calls = other.transcript calls := by
  induction calls generalizing marshaller other with
  | nil => rfl
  | cons call rest ih =>
    obtain ⟨plans, left⟩ := call.after_eq marshaller
    obtain ⟨plans', left'⟩ := call.after_eq other
    rw [transcript, transcript, call.outcome_congr registry limit capture, left, left']
    -- All that the call may have changed is the plans, and nothing is asked of those.
    congr 1
    exact ih registry limit capture

theorem keeps_afterAll {settings : Settings} {registry : Registry} (calls : List Call)
    {plans : PlanCache} {ledger : Ledger} (keeps : settings.Keeps plans ledger) :
    settings.Keeps (afterAll ⟨settings, registry, plans⟩ calls).plans
      (calls.foldl (fun ledger call => call.note settings registry ledger) ledger) := by
  induction calls generalizing plans ledger with
  | nil => exact keeps
  | cons call rest ih =>
    have here : Marshaller.Keeps ⟨settings, registry, plans⟩ ledger := keeps
    have next := call.keeps_note here
    obtain ⟨plans', left⟩ := call.after_eq ⟨settings, registry, plans⟩
    rw [afterAll, List.foldl_cons, List.foldl_cons, left]
    rw [left] at next
    exact ih next

/-- Nobody sees whether plans are kept: either way any calls come to the same answers, faults, trees
and streams. Where they are kept, they are at any time those that were found since plans were last
forgotten, those of nested records that a walk came to and of calls that failed later included; each
is the plan that resolving gives. Otherwise there are none. -/
theorem kept_plans_unseen (settings : Settings) (registry : Registry) (calls : List Call) :
    let keeping := ofSettings (settings.withCachePlans true) registry
    let plain := ofSettings (settings.withCachePlans false) registry
    let kept := (keeping.afterAll calls).plans
    keeping.transcript calls = plain.transcript calls ∧
    (∀ schema version plan, kept.find? schema version = some plan ↔
      (schema, version) ∈ keeping.ledger calls ∧ schema.resolve version = .ok plan) ∧
    (∀ schema version, kept.contains schema version = true ↔
      (schema, version) ∈ keeping.ledger calls) ∧
    kept.size = (keeping.ledger calls).dedup.length ∧
    (plain.afterAll calls).plans = .empty := by
  intro keeping plain kept
  have holds : kept.Holds (keeping.ledger calls) :=
    keeps_afterAll calls (settings.withCachePlans true).keeps_empty
  have none : (plain.afterAll calls).plans = .empty :=
    keeps_afterAll calls (settings.withCachePlans false).keeps_empty
  have same : keeping.transcript calls = plain.transcript calls := by
    apply transcript_congr <;> rfl
  exact ⟨same, fun _ _ _ => holds.find?_eq_some_iff, holds.mem_iff, holds.size_eq, none⟩

/-- A field too long for its span fails the call, and leaves the plans that were found before. -/
example : ((default.afterAll [.encodeToBytes Sample.schema 1
    (Sample.record "12345" 3 10 258)]).plans.entries.map Prod.fst) =
      [(Sample.flags, 1), (Sample.schema, 1)] := by
  decide +kernel

end Marshaller

end Wireform
