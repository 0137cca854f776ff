import Wireform.Proofs.Filling

/-!
What decoding a record does to its source. The walk reads the spans of the leaves one after the
other; each span is read, and its fields take it, before the next one is touched. What becomes of
the record and its tree follows from the spans alone, whatever kind of source they came from.
-/

namespace Wireform

open Walk

namespace Leaf

def readSpan {σ : Type} [Source σ] (setting : Setting) : Leaf FieldType → Transfer σ Bytes
  | scalar descriptor _ => do
    let codec ← Transfer.ofExcept (setting.registry.lookup descriptor.wire)
    codec.readSpan setting.settings.maxVariableLength descriptor
  | packed _ length _ => Span.readFixed length

/-- Reads the span of a leaf, and makes sure that its fields take it. -/
def read {σ : Type} [Source σ] (setting : Setting) (leaf : Leaf FieldType) : Transfer σ Bytes := do
  let span ← leaf.readSpan setting
  let _ ← Transfer.ofExcept (leaf.fill setting.registry span)
  return span

def readAll {σ : Type} [Source σ] (setting : Setting) :
    List (Except Fault (Leaf FieldType)) → Transfer σ (List Bytes)
  | [] => return []
  | step :: rest => do
    let span ← (← Transfer.ofExcept step).read setting
    return span :: (← readAll setting rest)

section

variable {σ α : Type} [Source σ] (setting : Setting)

theorem readAll_append (steps others : List (Except Fault (Leaf FieldType))) :
    (readAll setting (steps ++ others) : Transfer σ (List Bytes)) = do
      let spans ← readAll setting steps
      return spans ++ (← readAll setting others) := by
  induction steps with
  | nil => simp only [List.nil_append, readAll, pure_bind, bind_pure]
  | cons step rest ih =>
    simp only [List.cons_append, readAll, ih, bind_assoc, pure_bind]

theorem readAll_ofPlan (answer : Except Fault Plan)
    (leaves : Plan → List (Except Fault (Leaf FieldType))) :
    (readAll setting (ofPlan answer leaves) : Transfer σ (List Bytes)) =
      Transfer.ofExcept answer >>= fun plan => readAll setting (leaves plan) := by
  cases answer <;> rfl

theorem map_readAll_singleton (f : List Bytes → α) (leaf : Leaf FieldType) :
    (f <$> readAll setting [.ok leaf] : Transfer σ α) = do
      let span ← leaf.readSpan setting
      let _ ← Transfer.ofExcept (leaf.fill setting.registry span)
      return f [span] := by
  simp only [readAll, read, Transfer.ofExcept_ok, pure_bind, map_eq_pure_bind, bind_assoc]

theorem readAll_bind_congr {steps : List (Except Fault (Leaf FieldType))}
    {next other : List Bytes → Transfer σ α}
    (same : ∀ spans, spans.length = steps.length → next spans = other spans) :
    readAll setting steps >>= next = readAll setting steps >>= other := by
  induction steps generalizing next other with
  | nil =>
    simp only [readAll, pure_bind]
    exact same [] rfl
  | cons step rest ih =>
    simp only [readAll, bind_assoc, pure_bind]
    congr 1
    funext leaf
    congr 1
    funext span
    exact ih fun spans count => same (span :: spans) (by rw [List.length_cons, count,
      List.length_cons])

end

/-- Reading can be done with before anything is made of the spans. -/
theorem foldlM_readAll {σ ι τ : Type} [Source σ] (setting : Setting)
    (leaves : ι → List (Except Fault (Leaf FieldType))) (build : ι → τ → List Bytes → τ)
    (entries : List ι) (state : τ) :
    (entries.foldlM
      (fun state entry => build entry state <$> readAll setting (leaves entry)) state :
      Transfer σ τ) =
      buildAll (fun entry => (leaves entry).length) build entries state <$>
        readAll setting (entries.flatMap leaves) := by
  induction entries generalizing state with
  | nil => rfl
  | cons entry rest ih =>
    simp only [List.foldlM_cons, List.flatMap_cons, readAll_append, ih]
    simp only [map_eq_pure_bind, bind_assoc, pure_bind]
    apply readAll_bind_congr
    intro spans count
    simp only [buildAll, ← count, List.take_left, List.drop_left]

theorem accepts_of_readAll {σ : Type} [Source σ] {setting : Setting} {state after : σ}
    {steps : List (Except Fault (Leaf FieldType))} {spans : List Bytes}
    (ran : readAll setting steps state = .ok spans after) :
    Accepts setting.registry steps spans := by
  induction steps generalizing spans state with
  | nil => cases ran; exact .nil
  | cons step rest ih =>
    rw [readAll] at ran
    obtain ⟨leaf, mid, first, ran⟩ := Transfer.bind_eq_ok.1 ran
    obtain ⟨rfl, rfl⟩ := Transfer.ofExcept_eq_ok.1 first
    obtain ⟨span, later, read, ran⟩ := Transfer.bind_eq_ok.1 ran
    obtain ⟨others, last, following, same⟩ := Transfer.bind_eq_ok.1 ran
    cases same
    refine .cons ?_ (ih following)
    obtain ⟨found, here, -, taken⟩ := Transfer.bind_eq_ok.1 read
    obtain ⟨filled, there, accepted, same⟩ := Transfer.bind_eq_ok.1 taken
    cases same
    exact ⟨filled, (Transfer.ofExcept_eq_ok.1 accepted).1⟩

end Leaf

theorem BitField.ofExcept_build {σ : Type} (registry : Registry) (capture : Bool)
    (fields : List BitField) (contents : Contents fields) (record : String) (length : Nat)
    (planned : List (Planned BitDescriptor)) (span : Bytes) :
    (Transfer.ofExcept (Container.unpack span (planned.map Planned.descriptor)) >>= fun words =>
      Transfer.ofExcept (assign fields contents (Children.start capture) planned words) :
      Transfer σ (Contents fields × Option Children)) =
    Transfer.ofExcept (Leaf.fill registry span (.packed record length (typed fields planned))) >>=
      fun _ => return build capture fields contents planned span := by
  rw [Leaf.fill_packed, build]
  cases Container.unpack span (planned.map Planned.descriptor) with
  | error fault => rfl
  | ok words =>
    change Transfer.ofExcept (assign fields contents (Children.start capture) planned words) =
      Transfer.ofExcept ((Leaf.fillBits (typed fields planned) words).map _) >>= _
    cases filled : Leaf.fillBits (typed fields planned) words with
    | error fault => rw [assign_of_refused filled]; rfl
    | ok helds =>
      obtain ⟨after, grown, assigned, -, -⟩ :=
        assign_of_taken contents (Children.start capture) filled
      simp only [assigned]
      rfl

theorem FieldType.ofExcept_build {σ : Type} (registry : Registry) (capture : Bool)
    (type : FieldType) (content : type.Carrier) (descriptor : Descriptor) (codec : Codec)
    (known : registry.lookup descriptor.wire = .ok codec) (span : Bytes) :
    (Transfer.ofExcept (codec.interpret descriptor span) >>= fun v =>
      Transfer.ofExcept (type.ofValue v) >>= fun content =>
        return (content, if capture then some (.value v) else none) :
      Transfer σ (type.Carrier × Option Node)) =
    Transfer.ofExcept (Leaf.fill registry span (.scalar descriptor type)) >>=
      fun _ => return build registry capture type content descriptor span := by
  have interpreted : (registry.lookup descriptor.wire >>= fun codec =>
      codec.interpret descriptor span) = codec.interpret descriptor span := by
    rw [known]
    rfl
  rw [Leaf.fill_scalar registry known, build, interpreted]
  cases codec.interpret descriptor span with
  | error fault => rfl
  | ok v =>
    change _ = Transfer.ofExcept ((Held.ofValue type v).map (Leaf.scalar descriptor)) >>= _
    rw [Held.ofValue, Transfer.ofExcept_ok, pure_bind]
    simp only
    cases type.ofValue v <;> rfl

section

variable {σ : Type} [Source σ] (setting : Setting) (capture : Bool)

theorem BitField.decode_eq (fields : List BitField) (contents : Contents fields) (record : String)
    (length : Nat) (planned : List (Planned BitDescriptor)) :
    (do
      let words ← Container.decode length (planned.map Planned.descriptor)
      Transfer.ofExcept (assign fields contents (Children.start capture) planned words) :
      Transfer σ (Contents fields × Option Children)) = do
    let span ← Leaf.readSpan setting (.packed record length (typed fields planned))
    let _ ← Transfer.ofExcept
      (Leaf.fill setting.registry span (.packed record length (typed fields planned)))
    return build capture fields contents planned span := by
  unfold Container.decode
  rw [bind_assoc]
  congr 1
  funext span
  exact ofExcept_build setting.registry capture fields contents record length planned span

theorem FieldType.decode_eq (type : FieldType) (content : type.Carrier)
    (descriptor : Descriptor) :
    (do
      let v ← Value.decode setting descriptor
      let content ← Transfer.ofExcept (type.ofValue v)
      return (content, if capture then some (.value v) else none) :
      Transfer σ (type.Carrier × Option Node)) = do
    let span ← Leaf.readSpan setting (.scalar descriptor type)
    let _ ← Transfer.ofExcept (Leaf.fill setting.registry span (.scalar descriptor type))
    return build setting.registry capture type content descriptor span := by
  rw [Value.decode, Leaf.readSpan]
  cases known : setting.registry.lookup descriptor.wire with
  | error fault => rfl
  | ok codec =>
    simp only [Transfer.ofExcept_ok, pure_bind, Codec.decode, bind_assoc]
    congr 1
    funext span
    exact ofExcept_build setting.registry capture type content descriptor codec known span

theorem Field.decodeAll_follows (declared : List Field)
    (each : ∀ contents position descriptor,
      Follows (Field.decodeAt setting capture declared contents position descriptor :
          Walk σ (Field.Contents declared × Option Node))
        (Field.buildAt setting.registry setting.version capture declared contents position
          descriptor <$>
            Leaf.readAll setting (Field.layoutAt setting.version declared position descriptor)))
    (entries : List (Planned Descriptor)) (state : Field.Contents declared × Option Children) :
    Follows
      (entries.foldlM
        (fun (contents, tree) planned => do
          let (contents, node) ← Field.decodeAt setting capture declared contents planned.position
            planned.descriptor
          return (contents, Children.graft planned.name node tree))
        state : Walk σ (Field.Contents declared × Option Children))
      (Field.buildAll setting.registry setting.version capture declared entries state <$>
        Leaf.readAll setting (entries.flatMap fun planned =>
          Field.layoutAt setting.version declared planned.position planned.descriptor)) := by
  unfold Field.buildAll
  rw [← Leaf.foldlM_readAll]
  refine Follows.foldlM (fun (contents, tree) planned => ?_) entries state
  have one := (each contents planned.position planned.descriptor).map fun built =>
    (built.1, Children.graft planned.name built.2 tree)
  rw [← comp_map] at one
  exact one

mutual

/-- Decoding a record is reading the spans of its leaves and assigning them. -/
theorem Schema.decode_follows : (schema : Schema) → (record : schema.Record) →
    Follows (schema.decode setting capture record : Walk σ (schema.Record × Option Children))
      (schema.build setting.registry setting.version capture record <$>
        Leaf.readAll setting (schema.layout setting.version))
  | .fields tag name declared, record => by
    rw [Schema.layout, Leaf.readAll_ofPlan, map_bind]
    refine Follows.ofPlan fun plan resolved => ?_
    rw [Schema.build_fields resolved record]
    exact Field.decodeAll_follows setting capture declared
      (Field.decodeAt_follows declared) plan.fields (record, Children.start capture)
  | .packed tag name length declared, record => by
    rw [Schema.layout, Leaf.readAll_ofPlan, map_bind]
    refine Follows.ofPlan fun plan resolved => ?_
    rw [Leaf.map_readAll_singleton]
    simp only [Schema.build_packed resolved record, List.headD_cons]
    exact Follows.of_eq
      (BitField.decode_eq setting capture declared record name length plan.bits)

theorem Field.decode_follows : (field : Field) → (content : field.Content) →
    (descriptor : Descriptor) →
    Follows (field.decode setting capture content descriptor : Walk σ (field.Content × Option Node))
      (field.build setting.registry setting.version capture content descriptor <$>
        Leaf.readAll setting (field.layout setting.version descriptor))
  | .scalar _ type _, content, descriptor => by
    rw [Field.layout, Leaf.map_readAll_singleton]
    exact Follows.of_eq (FieldType.decode_eq setting capture type content descriptor)
  | .nested _ schema _, content, descriptor => by
    have inner := (schema.decode_follows content).map fun built =>
      (built.1, built.2.map Node.object)
    rw [← comp_map] at inner
    exact inner

theorem Field.decodeAt_follows : (fields : List Field) → (contents : Field.Contents fields) →
    (position : Nat) → (descriptor : Descriptor) →
    Follows (Field.decodeAt setting capture fields contents position descriptor :
        Walk σ (Field.Contents fields × Option Node))
      (Field.buildAt setting.registry setting.version capture fields contents position
        descriptor <$>
          Leaf.readAll setting (Field.layoutAt setting.version fields position descriptor))
  | [], contents, _, _ => Follows.pure (contents, none)
  | field :: _, contents, 0, descriptor => by
    have first := (field.decode_follows contents.1 descriptor).map fun built =>
      ((built.1, contents.2), built.2)
    rw [← comp_map] at first
    exact first
  | _ :: rest, contents, position + 1, descriptor => by
    have later := (Field.decodeAt_follows rest contents.2 position descriptor).map fun built =>
      ((contents.1, built.1), built.2)
    rw [← comp_map] at later
    exact later

end

end

namespace Marshaller

def assemble (marshaller : Marshaller) (capture : Bool) (schema : Schema) (version : Nat)
    (initial : schema.Record) (spans : List Bytes) : Decoded schema :=
  let built := schema.build marshaller.registry version capture initial spans
  ⟨built.1, built.2.map Node.object⟩

theorem decodeCapturing_eq {σ : Type} [Source σ] (marshaller : Marshaller) (capture : Bool)
    (schema : Schema) (version : Nat) (initial : schema.Record) (stream : σ) : ∃ after,
    decodeCapturing capture schema version initial (marshaller, stream) =
      (marshaller.assemble capture schema version initial <$>
        Leaf.readAll (marshaller.setting version) (schema.layout version)).within
          (fun rest => ({ marshaller with plans := after }, rest)) stream := by
  have follows : Follows (schema.decode (marshaller.setting version) capture initial :
      Walk σ (schema.Record × Option Children)) _ :=
    schema.decode_follows (marshaller.setting version) capture initial
  have decoded := follows.map fun built =>
    (⟨built.1, built.2.map Node.object⟩ : Decoded schema)
  rw [← comp_map] at decoded
  unfold decodeCapturing
  exact walk_eq _ decoded stream

section

variable {σ : Type} [Source σ] {marshaller : Marshaller} {schema : Schema} {version : Nat}
  {stream stopped : σ}

theorem decode_of_readAll {spans : List Bytes}
    (read : Leaf.readAll (marshaller.setting version) (schema.layout version) stream =
      .ok spans stopped) (initial : schema.Record) (plans : PlanCache) : ∃ after,
    decode schema version initial ({ marshaller with plans := plans }, stream) =
      .ok (marshaller.assemble marshaller.settings.captureTree schema version initial spans)
        ({ marshaller with plans := after }, stopped) := by
  obtain ⟨after, ran⟩ := decodeCapturing_eq { marshaller with plans := plans }
    marshaller.settings.captureTree schema version initial stream
  exact ⟨after, ran.trans (Transfer.within_eq_ok.2 ⟨_, Transfer.map_of_ok read, rfl⟩)⟩

theorem readAll_of_decode {initial : schema.Record} {decoded : Decoded schema} {left : Marshaller}
    (ran : decode schema version initial (marshaller, stream) = .ok decoded (left, stopped)) :
    ∃ spans, Leaf.readAll (marshaller.setting version) (schema.layout version) stream =
        .ok spans stopped ∧
      decoded =
        marshaller.assemble marshaller.settings.captureTree schema version initial spans := by
  obtain ⟨after, same⟩ :=
    decodeCapturing_eq marshaller marshaller.settings.captureTree schema version initial stream
  obtain ⟨rest, read, answer⟩ := Transfer.within_eq_ok.1 (same.symm.trans ran)
  cases answer
  obtain ⟨spans, readAll, rfl⟩ := Transfer.map_eq_ok.1 read
  exact ⟨spans, readAll, rfl⟩

theorem decode_error_of_readAll {fault : Fault}
    (read : Leaf.readAll (marshaller.setting version) (schema.layout version) stream =
      .error fault stopped) (initial : schema.Record) (plans : PlanCache) : ∃ after,
    decode schema version initial ({ marshaller with plans := plans }, stream) =
      .error fault ({ marshaller with plans := after }, stopped) := by
  obtain ⟨after, ran⟩ := decodeCapturing_eq { marshaller with plans := plans }
    marshaller.settings.captureTree schema version initial stream
  exact ⟨after, ran.trans (Transfer.within_eq_error.2 ⟨_, Transfer.map_of_error read, rfl⟩)⟩

theorem readAll_error_of_decode {initial : schema.Record} {fault : Fault} {left : Marshaller}
    (ran : decode schema version initial (marshaller, stream) = .error fault (left, stopped)) :
    Leaf.readAll (marshaller.setting version) (schema.layout version) stream =
      .error fault stopped := by
  obtain ⟨after, same⟩ :=
    decodeCapturing_eq marshaller marshaller.settings.captureTree schema version initial stream
  obtain ⟨rest, read, answer⟩ := Transfer.within_eq_error.1 (same.symm.trans ran)
  cases answer
  exact Transfer.map_eq_error.1 read

end

end Marshaller

end Wireform
