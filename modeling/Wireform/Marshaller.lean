import Wireform.Stream.Cursor
import Wireform.Stream.Writer
import Wireform.Walk.Decode
import Wireform.Walk.Encode

/-!
Encoding records into sinks and decoding them from sources, for a version. All that a marshaller
remembers from one call to the next is the plans it has resolved.
-/

namespace Wireform

structure Marshaller where
  settings : Settings
  registry : Registry
  plans : PlanCache

/-- A record read, with its tree where one was kept. -/
structure Decoded (schema : Schema) where
  record : schema.Record
  tree : Option Node

namespace Marshaller

def ofSettings (settings : Settings) (registry : Registry) : Marshaller :=
  ⟨settings, registry, .empty⟩

def default : Marshaller :=
  ofSettings .default .builtin

def onPlans {α : Type} (act : Transfer PlanCache α) : Transfer Marshaller α :=
  act.focus plans fun plans marshaller => { marshaller with plans := plans }

def plan (schema : Schema) (version : Nat) : Transfer Marshaller Plan := fun marshaller =>
  onPlans (marshaller.settings.plan schema version) marshaller

def forgetPlans (marshaller : Marshaller) : Marshaller :=
  { marshaller with plans := .empty }

/-- Takes a walk on a stream. -/
def walk {σ α : Type} (version : Nat) (act : Walk.Setting → Walk σ α) :
    Transfer (Marshaller × σ) α := fun (marshaller, stream) =>
  let resume (state : Walk.State σ) := ({ marshaller with plans := state.plans }, state.stream)
  match act ⟨marshaller.settings, marshaller.registry, version⟩ ⟨marshaller.plans, stream⟩ with
  | .ok answer state => .ok answer (resume state)
  | .error fault state => .error fault (resume state)

/-- Takes a walk on a stream that is made for it and then dropped, but for what `finish` keeps. -/
def onFresh {σ α β : Type} (stream : σ) (act : Transfer (Marshaller × σ) α)
    (finish : α → σ → β) : Transfer Marshaller β := fun marshaller =>
  match act (marshaller, stream) with
  | .ok answer (marshaller, stream) => .ok (finish answer stream) marshaller
  | .error fault (marshaller, _) => .error fault marshaller

/-- Encodes a record into the sink, and says how many bytes it took. -/
def encode {κ : Type} [Sink κ] (schema : Schema) (version : Nat) (record : schema.Record) :
    Transfer (Marshaller × κ) Nat :=
  walk version fun setting => schema.encode setting record

def encodeToBytes (schema : Schema) (version : Nat) (record : schema.Record) :
    Transfer Marshaller Bytes :=
  onFresh ([] : Bytes) (encode schema version record) fun _ bytes => bytes

/-- Decodes a record from the source. It is read into `initial`, which is what its type starts from
and may hold anything; fields that do not travel keep that. -/
def decodeCapturing {σ : Type} [Source σ] (capture : Bool) (schema : Schema) (version : Nat)
    (initial : schema.Record := schema.blank) : Transfer (Marshaller × σ) (Decoded schema) :=
  walk version fun setting => do
    let (record, tree) ← schema.decode setting capture initial
    return ⟨record, tree.map Node.object⟩

/-- Decodes a record from the source, with its tree if the settings ask for one. -/
def decode {σ : Type} [Source σ] (schema : Schema) (version : Nat)
    (initial : schema.Record := schema.blank) : Transfer (Marshaller × σ) (Decoded schema) :=
  fun (marshaller, stream) =>
    decodeCapturing marshaller.settings.captureTree schema version initial (marshaller, stream)

def decodeWithTree {σ : Type} [Source σ] (schema : Schema) (version : Nat)
    (initial : schema.Record := schema.blank) :
    Transfer (Marshaller × σ) (schema.Record × Node) := do
  let decoded ← decodeCapturing true schema version initial
  return (decoded.record, decoded.tree.getD .empty)

/-- Decodes a record from the front of `data`; what follows it is not looked at. -/
def decodeFromBytes (schema : Schema) (version : Nat) (data : Bytes)
    (initial : schema.Record := schema.blank) : Transfer Marshaller schema.Record :=
  onFresh (Cursor.ofBytes data) (decodeCapturing false schema version initial) fun decoded _ =>
    decoded.record

end Marshaller

end Wireform
