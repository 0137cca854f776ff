import Wireform.Proofs.Encoding
import Wireform.Proofs.Entries

/-!
Fields and bit-fields of two record types that are declared alike but for order. What is held under
one name comes to the same leaf of either record, and takes the same from its span. A container is
the same, in whatever order its bit-fields are gathered, and each of them draws the same from it.
-/

namespace Wireform

open Walk

section

variable {declared declared' : List Field} {planned planned' : List (Planned Descriptor)}
  {version : Nat}

abbrev Field.Twin (declared declared' : List Field) :
    Planned Descriptor → Planned Descriptor → Prop :=
  Planned.Twin (declared.map Field.name) (declared'.map Field.name)

section

variable {contents : Field.Contents declared} {contents' : Field.Contents declared'}
  (same : (Field.entries declared contents).Perm (Field.entries declared' contents'))
  (distinct : (declared.map Field.name).Nodup)

include same distinct

theorem Field.exists_entry {entry entry' : Planned Descriptor}
    (twin : Twin declared declared' entry entry') :
    ∃ holding, (entries declared contents)[entry.position]? = some (entry.name, holding) ∧
      (entries declared' contents')[entry'.position]? = some (entry'.name, holding) := by
  apply Planned.Twin.exists_entry same
  · rwa [map_fst_entries]
  · rwa [map_fst_entries, map_fst_entries]

theorem Field.leavesAt_of_twin {entry entry' : Planned Descriptor}
    (twin : Twin declared declared' entry entry') :
    leavesAt version declared contents entry.position entry.descriptor =
      leavesAt version declared' contents' entry'.position entry'.descriptor := by
  obtain ⟨holding, here, there⟩ := exists_entry same distinct twin
  rw [leavesAt_of_entry here, leavesAt_of_entry there, twin.descriptor_eq]

theorem Field.flatMap_leavesAt_eq
    (twins : List.Forall₂ (Twin declared declared') planned planned') :
    (planned.flatMap fun entry =>
        leavesAt version declared contents entry.position entry.descriptor) =
      planned'.flatMap fun entry =>
        leavesAt version declared' contents' entry.position entry.descriptor := by
  induction twins with
  | nil => rfl
  | cons twin _ ih =>
    rw [List.flatMap_cons, List.flatMap_cons, leavesAt_of_twin same distinct twin, ih]

theorem Field.buildAt_of_twin (registry : Registry) (capture : Bool)
    {entry entry' : Planned Descriptor}
    (twin : Twin declared declared' entry entry') (spans : List Bytes) :
    let built := buildAt registry version capture declared contents entry.position
      entry.descriptor spans
    let built' := buildAt registry version capture declared' contents' entry'.position
      entry'.descriptor spans
    (entries declared built.1).Perm (entries declared' built'.1) ∧ built.2 = built'.2 := by
  obtain ⟨holding, here, there⟩ := exists_entry same distinct twin
  intro built built'
  obtain ⟨after, node⟩ : entries declared built.1 = _ ∧ built.2 = _ :=
    entries_buildAt here entry.descriptor spans
  obtain ⟨after', node'⟩ : entries declared' built'.1 = _ ∧ built'.2 = _ :=
    entries_buildAt there entry'.descriptor spans
  obtain ⟨inside, -⟩ := List.getElem?_eq_some_iff.1 here
  obtain ⟨inside', -⟩ := List.getElem?_eq_some_iff.1 there
  -- Both lists lose the same entry and get the same one for it.
  have found := here.trans (twin.name_eq ▸ there.symm)
  have others := (List.perm_eraseIdx_of_getElem?_eq found).2 same
  rw [after, after', node, node', twin.name_eq, twin.descriptor_eq]
  refine ⟨?_, rfl⟩
  exact (List.set_perm_cons_eraseIdx inside _).trans
    ((others.cons _).trans (List.set_perm_cons_eraseIdx inside' _).symm)

end

theorem Field.layoutAt_of_twin (reordered : Reordered Redeclares declared declared')
    (distinct : (declared.map name).Nodup) {entry entry' : Planned Descriptor}
    (twin : Twin declared declared' entry entry') :
    layoutAt version declared entry.position entry.descriptor =
      layoutAt version declared' entry'.position entry'.descriptor := by
  obtain ⟨contents', same⟩ := exists_perm_entries reordered (blanks declared)
  rw [← types_leavesAt version declared (blanks declared),
    ← types_leavesAt version declared' contents', leavesAt_of_twin same distinct twin]

theorem Field.buildAll_cons (registry : Registry) (capture : Bool) (contents : Contents declared)
    (tree : Option Children) (spans : List Bytes) {entry : Planned Descriptor}
    (rest : List (Planned Descriptor)) {extent : Nat}
    (count : extent = (layoutAt version declared entry.position entry.descriptor).length) :
    let built := buildAt registry version capture declared contents entry.position
      entry.descriptor (spans.take extent)
    buildAll registry version capture declared (entry :: rest) (contents, tree) spans =
      buildAll registry version capture declared rest
        (built.1, Children.graft entry.name built.2 tree) (spans.drop extent) := by
  subst count
  rfl

/-- Reading the same spans keeps records alike, and grows the same tree. -/
theorem Field.buildAll_of_twins (registry : Registry) (capture : Bool)
    (reordered : Reordered Redeclares declared declared') (distinct : (declared.map name).Nodup)
    (twins : List.Forall₂ (Twin declared declared') planned planned')
    {contents : Contents declared} {contents' : Contents declared'}
    (same : (entries declared contents).Perm (entries declared' contents'))
    (tree : Option Children) (spans : List Bytes) :
    let built := buildAll registry version capture declared planned (contents, tree) spans
    let built' := buildAll registry version capture declared' planned' (contents', tree) spans
    (entries declared built.1).Perm (entries declared' built'.1) ∧ built.2 = built'.2 := by
  induction twins generalizing contents contents' tree spans with
  | nil => exact ⟨same, rfl⟩
  | @cons entry entry' rest rest' twin _ ih =>
    have extent : layoutAt version declared entry.position entry.descriptor = _ :=
      layoutAt_of_twin reordered distinct twin
    rw [buildAll_cons registry capture contents tree spans rest rfl,
      buildAll_cons registry capture contents' tree spans rest' (congrArg List.length extent)]
    obtain ⟨kept, node⟩ := buildAt_of_twin same distinct registry capture twin (spans.take _)
    rw [node, twin.name_eq]
    exact ih kept _ _

end

namespace BitField

/-- What a bit-field of a type reads from a container. -/
def draw (container : Bytes) (type : FieldType) (descriptor : BitDescriptor) :
    Except Fault Held := do
  let word ← Container.extract container.length (BigEndian.ofBytes container) descriptor
  Held.ofValue type (.uint word)

theorem forall₂_zip_right {φ β : Type} {pairs : φ → β → Prop} {as : List φ} {bs : List β}
    (paired : List.Forall₂ pairs as bs) :
    List.Forall₂ (fun a entry => entry.1 = a ∧ pairs a entry.2) as (as.zip bs) := by
  induction paired with
  | nil => exact .nil
  | cons met _ ih => exact .cons ⟨rfl, met⟩ ih

theorem fill_eq_ok {fields : List BitField} {planned : List (Planned BitDescriptor)}
    {container : Bytes} {helds : List (Planned BitDescriptor × Held)} :
    (Container.unpack container (planned.map Planned.descriptor) >>= fun words =>
        Leaf.fillBits (typed fields planned) words) = .ok helds ↔
      Container.check container.length = .ok () ∧
      List.Forall₂ (fun bit entry => entry.1 = bit ∧
          draw container (typeAt fields bit.position) bit.descriptor = .ok entry.2)
        planned helds := by
  simp only [Except.bind_eq_ok, Container.unpack_eq_ok, and_assoc, exists_and_left]
  refine and_congr_right fun _ => ?_
  induction planned generalizing helds with
  | nil =>
    simp only [List.map_nil, List.forall₂_nil_left_iff, exists_eq_left]
    exact ⟨fun none => by cases none; rfl, fun none => none ▸ rfl⟩
  | cons bit planned ih =>
    apply Iff.intro
    · rintro ⟨_, extracted, filled⟩
      cases extracted with
      | cons first rest =>
        rw [typed, List.map_cons, fillBits_cons] at filled
        obtain ⟨held, taken, filled⟩ := Except.bind_eq_ok.1 filled
        obtain ⟨others, following, rfl⟩ := Except.map_eq_ok.1 filled
        exact .cons ⟨rfl, Except.bind_eq_ok.2 ⟨_, first, taken⟩⟩ (ih.1 ⟨_, rest, following⟩)
    · intro paired
      cases paired with
      | @cons _ entry _ others first rest =>
        obtain ⟨_, held⟩ := entry
        obtain ⟨rfl, drawn⟩ := first
        obtain ⟨word, extracted, taken⟩ := Except.bind_eq_ok.1 drawn
        obtain ⟨words, more, following⟩ := ih.2 rest
        refine ⟨word :: words, .cons extracted more, ?_⟩
        rw [typed, List.map_cons, fillBits_cons]
        exact Except.bind_eq_ok.2 ⟨held, taken, Except.map_eq_ok.2 ⟨others, following, rfl⟩⟩

/-- Once a container is taken, bit-fields that travel hold what they draw, all others what they held
before. -/
theorem heldAt_build {registry : Registry} {version : Nat} {fields : List BitField}
    {record : String} {length : Nat} {planned : List (Planned BitDescriptor)} {container : Bytes}
    {leaf : Leaf Held} (capture : Bool) (contents : Contents fields)
    (lists : Plan.Lists version name descriptors fields planned)
    (filled : Leaf.fill registry container (.packed record length (typed fields planned)) =
      .ok leaf) :
    let after := (build capture fields contents planned container).1
    (∀ bit ∈ planned, draw container (typeAt fields bit.position) bit.descriptor =
        .ok (heldAt fields after bit.position)) ∧
      ∀ position, position ∉ planned.map Planned.position →
        heldAt fields after position = heldAt fields contents position := by
  obtain ⟨helds, taken, -, kept, put⟩ := build_of_fill capture contents filled
  have inside (bit : Planned BitDescriptor) (travels : bit ∈ planned) :
      bit.position < fields.length := by
    obtain ⟨field, here, -⟩ := (lists.mem_iff bit).1 travels
    exact (List.getElem?_eq_some_iff.1 here).1
  have drawn := (fill_eq_ok.1 taken).2
  rw [← put lists.once inside, List.forall₂_map_right_iff, List.forall₂_same] at drawn
  exact ⟨fun bit travels => (drawn bit travels).2, kept⟩

section

variable {declared declared' : List BitField} {planned planned' : List (Planned BitDescriptor)}
  {record : String} {length : Nat}

abbrev Twin (declared declared' : List BitField) :
    Planned BitDescriptor → Planned BitDescriptor → Prop :=
  Planned.Twin (declared.map name) (declared'.map name)

theorem heldAt_of_twin {contents : Contents declared} {contents' : Contents declared'}
    (same : (entries declared contents).Perm (entries declared' contents'))
    (distinct : (declared.map name).Nodup) {bit bit' : Planned BitDescriptor}
    (twin : Twin declared declared' bit bit') :
    heldAt declared contents bit.position = heldAt declared' contents' bit'.position := by
  rw [← map_fst_entries declared contents] at distinct
  rw [Twin, ← map_fst_entries declared contents, ← map_fst_entries declared' contents'] at twin
  obtain ⟨holding, here, there⟩ := twin.exists_entry same distinct
  rw [getElem?_entries, Option.map_eq_some_iff] at here there
  obtain ⟨_, -, here⟩ := here
  obtain ⟨_, -, there⟩ := there
  have equal := (congrArg Prod.snd here).trans (congrArg Prod.snd there).symm
  exact Holding.scalar.inj equal

theorem typeAt_of_twin (reordered : Reordered Redeclares declared declared')
    (distinct : (declared.map name).Nodup) {bit bit' : Planned BitDescriptor}
    (twin : Twin declared declared' bit bit') :
    typeAt declared bit.position = typeAt declared' bit'.position := by
  obtain ⟨contents', same⟩ := exists_perm_entries reordered (blanks declared)
  rw [← type_heldAt declared (blanks declared), ← type_heldAt declared' contents',
    heldAt_of_twin same distinct twin]

theorem perm_words {contents : Contents declared} {contents' : Contents declared'}
    (same : (entries declared contents).Perm (entries declared' contents'))
    (distinct : (declared.map name).Nodup)
    (twins : Reordered (Twin declared declared') planned planned')
    {words : List (BitDescriptor × UInt64)}
    (ran : Leaf.words record (planned.map fun bit =>
      (bit, heldAt declared contents bit.position)) = .ok words) :
    ∃ words', Leaf.words record (planned'.map fun bit =>
        (bit, heldAt declared' contents' bit.position)) = .ok words' ∧ words.Perm words' := by
  unfold Leaf.words at ran ⊢
  simp only [Except.mapM_eq_ok, List.forall₂_map_left_iff] at ran ⊢
  refine twins.exists_perm ran fun bit bit' twin word spelled => ?_
  obtain ⟨descriptor, value⟩ := Leaf.of_word spelled
  rw [← heldAt_of_twin same distinct twin, value]
  exact congrArg Except.ok (Prod.ext (twin.descriptor_eq.symm.trans descriptor) rfl)

theorem frame_of_reordered (setting : Setting) {contents : Contents declared}
    {contents' : Contents declared'}
    (same : (entries declared contents).Perm (entries declared' contents'))
    (distinct : (declared.map name).Nodup)
    (twins : Reordered (Twin declared declared') planned planned') {pieces : List Bytes}
    (framed : Leaf.frame setting (.packed record length (planned.map fun bit =>
      (bit, heldAt declared contents bit.position))) = .ok pieces) :
    Leaf.frame setting (.packed record length (planned'.map fun bit =>
      (bit, heldAt declared' contents' bit.position))) = .ok pieces := by
  obtain ⟨words, spelled, framed⟩ := Except.bind_eq_ok.1 framed
  obtain ⟨container, packed, given⟩ := Except.bind_eq_ok.1 framed
  obtain ⟨words', spelled', order⟩ := perm_words same distinct twins spelled
  have again := Container.pack_of_perm order packed
  exact Except.bind_eq_ok.2 ⟨words', spelled', Except.bind_eq_ok.2 ⟨container, again, given⟩⟩

theorem fill_of_reordered (registry : Registry) {container : Bytes}
    (reordered : Reordered Redeclares declared declared') (distinct : (declared.map name).Nodup)
    (twins : Reordered (Twin declared declared') planned planned') {leaf : Leaf Held}
    (filled : Leaf.fill registry container (.packed record length (typed declared planned)) =
      .ok leaf) : ∃ leaf',
    Leaf.fill registry container (.packed record length (typed declared' planned')) =
      .ok leaf' := by
  obtain ⟨helds, taken, -⟩ := Leaf.fill_packed_eq_ok.1 filled
  obtain ⟨checked, drawn⟩ := fill_eq_ok.1 taken
  have draws : List.Forall₂ (fun bit held =>
      draw container (typeAt declared bit.position) bit.descriptor = .ok held) planned
      (helds.map Prod.snd) :=
    List.forall₂_map_right_iff.2 (drawn.imp fun _ _ => And.right)
  obtain ⟨helds', draws', -⟩ := twins.exists_perm draws fun bit bit' twin held drew => by
    rwa [typeAt_of_twin reordered distinct twin, twin.descriptor_eq] at drew
  have again := fill_eq_ok.2 ⟨checked, forall₂_zip_right draws'⟩
  exact ⟨_, Leaf.fill_packed_eq_ok.2 ⟨_, again, rfl⟩⟩

end

/-- What a bit-field holds when a container is read by these rules into a record that held that. -/
def Reads (container : Bytes) (rules : List (String × BitDescriptor))
    (before : List (String × Holding)) (field : BitField) (entry : String × Holding) : Prop :=
  ∃ held, (field.name, .scalar held) = entry ∧
    (∀ rule ∈ rules, rule.1 = field.name → draw container field.type rule.2 = .ok held) ∧
    ((∀ rule ∈ rules, rule.1 ≠ field.name) → entry ∈ before)

section

variable {container : Bytes} {rules rules' : List (String × BitDescriptor)}
  {before before' : List (String × Holding)}

theorem Reads.unique {field : BitField} {entry other : String × Holding}
    (distinct : (before.map Prod.fst).Nodup) (reads : Reads container rules before field entry)
    (reads' : Reads container rules before field other) : entry = other := by
  obtain ⟨held, rfl, drawn, kept⟩ := reads
  obtain ⟨held', rfl, drawn', kept'⟩ := reads'
  by_cases travels : ∃ rule ∈ rules, rule.1 = field.name
  · obtain ⟨rule, member, named⟩ := travels
    cases (drawn rule member named).symm.trans (drawn' rule member named)
    rfl
  · have absent (rule : String × BitDescriptor) (member : rule ∈ rules) : rule.1 ≠ field.name :=
      fun named => travels ⟨rule, member, named⟩
    exact List.inj_on_of_nodup_map distinct (kept absent) (kept' absent) rfl

theorem Redeclares.reads {a b : BitField} {entry : String × Holding} (redeclares : a.Redeclares b)
    (order : rules.Perm rules') (same : before.Perm before')
    (reads : Reads container rules before a entry) : Reads container rules' before' b entry := by
  cases redeclares
  simpa only [Reads, order.mem_iff, same.mem_iff] using reads

end

section

variable {registry : Registry} {version : Nat} {record : String} {length : Nat} {container : Bytes}

theorem forall₂_reads {fields : List BitField} {planned : List (Planned BitDescriptor)}
    {leaf : Leaf Held} (capture : Bool)
    (contents : Contents fields) (lists : Plan.Lists version name descriptors fields planned)
    (distinct : (fields.map name).Nodup)
    (filled : Leaf.fill registry container (.packed record length (typed fields planned)) =
      .ok leaf) :
    List.Forall₂ (Reads container (planned.map Planned.rule) (entries fields contents)) fields
      (entries fields (build capture fields contents planned container).1) := by
  obtain ⟨drawn, kept⟩ := heldAt_build capture contents lists filled
  refine forall₂_entries fun position field here => ⟨_, rfl, ?_, fun absent => ?_⟩
  · -- Names are distinct, so the entry of the plan that has this name is for this place.
    intro rule member named
    obtain ⟨bit, travels, rfl⟩ := List.mem_map.1 member
    have own : (fields.map name)[position]? = some bit.name := by
      rw [List.getElem?_map, here]
      exact congrArg some (Eq.symm named)
    obtain ⟨inside, -⟩ := List.getElem?_eq_some_iff.1 own
    obtain rfl := (List.getElem?_inj inside distinct).1 (own.trans (lists.name_at travels).symm)
    have type : typeAt fields bit.position = field.type := by rw [typeAt, here]; rfl
    exact type ▸ drawn bit travels
  · rw [kept position fun member => ?_]
    · apply List.mem_of_getElem?
      rw [getElem?_entries, here, Option.map_some]
    · obtain ⟨bit, travels, rfl⟩ := List.mem_map.1 member
      have named := lists.name_at travels
      rw [List.getElem?_map, here] at named
      exact absent bit.rule (List.mem_map_of_mem travels) (Option.some.inj named).symm

theorem perm_entries_build {declared declared' : List BitField}
    {planned planned' : List (Planned BitDescriptor)} {leaf leaf' : Leaf Held} (capture : Bool)
    (reordered : Reordered Redeclares declared declared')
    (lists : Plan.Lists version name descriptors declared planned)
    (lists' : Plan.Lists version name descriptors declared' planned')
    (rules : (planned.map Planned.rule).Perm (planned'.map Planned.rule))
    (distinct : (declared.map name).Nodup) (distinct' : (declared'.map name).Nodup)
    {contents : Contents declared} {contents' : Contents declared'}
    (same : (entries declared contents).Perm (entries declared' contents'))
    (filled : Leaf.fill registry container (.packed record length (typed declared planned)) =
      .ok leaf)
    (filled' : Leaf.fill registry container (.packed record length (typed declared' planned')) =
      .ok leaf') :
    (entries declared (build capture declared contents planned container).1).Perm
      (entries declared' (build capture declared' contents' planned' container).1) := by
  -- What a bit-field reads goes by its name and type, which are the same in both declarations.
  have reads := forall₂_reads capture contents lists distinct filled
  obtain ⟨others, reads', order⟩ :=
    reordered.exists_perm reads fun _ _ again _ => again.reads rules same
  have own := forall₂_reads capture contents' lists' distinct' filled'
  have once : ((entries declared' contents').map Prod.fst).Nodup := by
    rwa [map_fst_entries]
  have equal := List.right_unique_forall₂'
    (fun _ _ _ first second => first.unique once second) reads' own
  exact equal ▸ order

end

end BitField

end Wireform
