import Wireform.Proofs.Gathering

/-!
Reading up to a separator. By what a source still holds there are three ways for it to end: the
separator comes within the limit, or more than the limit comes before it or before the end, or the
end comes first. A reader tells the three apart as it goes. Bytes in memory look for the separator
before they look at the limit, so where there is none they never find too much.
-/

namespace Wireform

/-- What comes before the first separator, or before the end. -/
def Bytes.before (content : Bytes) (separator : UInt8) : Bytes :=
  content.takeWhile (· != separator)

namespace Bytes

variable {content data rest : Bytes} {separator : UInt8} {limit : Nat}

theorem not_mem_before : separator ∉ content.before separator := by
  intro present
  have passed := List.mem_takeWhile_imp present
  simp at passed

theorem before_of_absent (absent : separator ∉ content) : content.before separator = content := by
  unfold before
  rw [List.takeWhile_eq_self_iff]
  intro byte member
  exact bne_iff_ne.2 fun same => absent (same ▸ member)

theorem before_append (absent : separator ∉ data) :
    before (data ++ separator :: rest) separator = data := by
  have passes : ∀ byte ∈ data, (byte != separator) = true :=
    fun byte member => bne_iff_ne.2 fun same => absent (same ▸ member)
  unfold before
  rw [List.takeWhile_append_of_pos passes]
  simp

theorem before_append_dropWhile (content : Bytes) (separator : UInt8) :
    content.before separator ++ content.dropWhile (· != separator) = content :=
  List.takeWhile_append_dropWhile

theorem exists_rest (present : separator ∈ content) :
    ∃ rest, content = content.before separator ++ separator :: rest := by
  obtain ⟨data, rest, rfl, absent⟩ := List.eq_append_cons_of_mem present
  use rest
  rw [before_append absent]

end Bytes

section

variable {σ : Type} [Source σ] [Supply σ]

/-- Reading up to a separator ends by what the source holds, as promised: the data and the separator
are taken if that comes within the limit, too much is found if more than the limit comes before it
or before the end, and too little if the end comes first. -/
structure Promised (separator : UInt8) (limit : Nat) (source : σ) (taken : Nat) (content : Bytes) :
    Prop where
  found : ∀ data, (∃ after, Source.readUntil separator limit source = .ok data after) ↔
    ∃ rest, content = data ++ separator :: rest ∧ separator ∉ data ∧ data.length ≤ limit
  consumed : ∀ data after, Source.readUntil separator limit source = .ok data after →
    ∃ rest, content = data ++ separator :: rest ∧
      Supply.Holds after (taken + (data.length + 1)) rest
  tooMuch : (∃ cause after, Source.readUntil separator limit source = .error (.length cause) after) ↔
    limit < (content.before separator).length
  tooLittle : (Source.readUntil separator limit).Starves source ↔
    separator ∉ content ∧ content.length ≤ limit

variable {separator : UInt8} {limit : Nat} {source : σ} {taken : Nat} {content : Bytes}

/-- One of three things is so of any content. -/
theorem Bytes.cases_before (content : Bytes) (separator : UInt8) (limit : Nat) :
    (∃ data rest, content = data ++ separator :: rest ∧ separator ∉ data ∧ data.length ≤ limit) ∨
      limit < (content.before separator).length ∨
      (separator ∉ content ∧ content.length ≤ limit) := by
  by_cases far : limit < (content.before separator).length
  · exact .inr (.inl far)
  · have within : (content.before separator).length ≤ limit := Nat.le_of_not_lt far
    by_cases present : separator ∈ content
    · obtain ⟨rest, split⟩ := exists_rest present
      exact .inl ⟨_, rest, split, not_mem_before, within⟩
    · rw [before_of_absent present] at within
      exact .inr (.inr ⟨present, within⟩)

theorem Promised.of_found {data rest : Bytes} (absent : separator ∉ data)
    (within : data.length ≤ limit) (holds : Supply.Holds source taken (data ++ separator :: rest)) :
    Promised separator limit source taken (data ++ separator :: rest) := by
  obtain ⟨after, ran, left⟩ := Supply.readUntil_found holds absent within
  refine ⟨fun other => ?_, fun other state found => ?_, ?_, ?_⟩
  · apply Iff.intro
    · intro ⟨state, found⟩
      cases ran.symm.trans found
      exact ⟨rest, rfl, absent, within⟩
    · intro ⟨_, split, missing, _⟩
      have same := congrArg (Bytes.before · separator) split
      simp only [Bytes.before_append absent, Bytes.before_append missing] at same
      exact ⟨after, same ▸ ran⟩
  · cases ran.symm.trans found
    exact ⟨rest, rfl, left⟩
  · simp [ran, Bytes.before_append absent, within]
  · simp [Transfer.Starves, ran]

theorem Promised.of_far {cause : LengthFault} {after : σ}
    (far : limit < (content.before separator).length)
    (ran : Source.readUntil separator limit source = .error (.length cause) after) :
    Promised separator limit source taken content := by
  refine ⟨fun data => ?_, fun data state found => ?_, ?_, ?_⟩
  · have late : ¬ ∃ rest, content = data ++ separator :: rest ∧ separator ∉ data ∧
        data.length ≤ limit := by
      rintro ⟨rest, rfl, absent, within⟩
      rw [Bytes.before_append absent] at far
      omega
    simp [ran, late]
  · cases ran.symm.trans found
  · simp [ran, far]
  · have long : separator ∉ content → limit < content.length := by
      intro absent
      rwa [Bytes.before_of_absent absent] at far
    simpa [Transfer.Starves, ran] using long

theorem Promised.of_short (absent : separator ∉ content) (within : content.length ≤ limit)
    (short : (Source.readUntil separator limit).Starves source) :
    Promised separator limit source taken content := by
  obtain ⟨needed, available, after, ran⟩ := short
  refine ⟨fun data => ?_, fun data state found => ?_, ?_, ?_⟩
  · have nowhere : ¬ ∃ rest, content = data ++ separator :: rest ∧ separator ∉ data ∧
        data.length ≤ limit := by
      rintro ⟨rest, rfl, -, -⟩
      simp at absent
    simp [ran, nowhere]
  · cases ran.symm.trans found
  · simp [ran, Bytes.before_of_absent absent, within]
  · simp [Transfer.Starves, ran, absent, within]

theorem Promised.of_holds (holds : Supply.Holds source taken content)
    (far : limit < (content.before separator).length →
      ∃ cause after, Source.readUntil separator limit source = .error (.length cause) after) :
    Promised separator limit source taken content := by
  rcases content.cases_before separator limit with
    ⟨data, rest, rfl, absent, within⟩ | beyond | ⟨absent, within⟩
  · exact .of_found absent within holds
  · obtain ⟨cause, after, ran⟩ := far beyond
    exact .of_far beyond ran
  · exact .of_short absent within (Supply.readUntil_short holds absent within)

end

theorem Reader.readUntilFrom_of_far {reader : Reader} {separator : UInt8} {limit room : Nat}
    {seen data rest : Bytes} (delivers : reader.Delivers (data ++ rest)) (absent : separator ∉ data)
    (far : room < data.length) : ∃ after,
      readUntilFrom separator limit room seen reader =
        .error (.length (.noSeparator limit)) after := by
  induction data generalizing reader room seen with
  | nil => cases far
  | cons byte data ih =>
    obtain ⟨different, absent⟩ := List.ne_and_not_mem_of_not_mem_cons absent
    obtain ⟨mid, first, left, -⟩ := byte_of_delivers delivers
    rw [readUntilFrom_of_byte first, if_neg (Ne.symm different)]
    cases room with
    | zero => exact ⟨mid, rfl⟩
    | succ room => exact ih left absent (Nat.lt_of_succ_lt_succ far)

theorem Unread.upTo_of_far {separator : UInt8} {limit : Nat} {content : Bytes}
    (present : separator ∈ content) (far : limit < (content.before separator).length) :
    upTo content separator limit = .error (.length (.noSeparator limit)) := by
  obtain ⟨rest, split⟩ := Bytes.exists_rest present
  have stops : content.dropWhile (· != separator) = separator :: rest :=
    List.append_cancel_left ((content.before_append_dropWhile separator).trans split)
  unfold upTo
  rw [List.span_eq_takeWhile_dropWhile, stops]
  exact if_pos far

namespace Source

variable {separator : UInt8} {limit : Nat} {content : Bytes}

theorem promised_reader {reader : Reader} (delivers : reader.Delivers content) :
    Promised separator limit reader reader.consumed content := by
  apply Promised.of_holds delivers.holds
  intro far
  rw [← content.before_append_dropWhile separator] at delivers
  obtain ⟨after, ran⟩ := Reader.readUntilFrom_of_far delivers Bytes.not_mem_before far
  exact ⟨_, after, ran⟩

/-- A source that looks for the separator before it looks at the limit keeps what is promised just
where the separator comes or the limit allows for all there is. -/
theorem promised_iff {σ : Type} [Source σ] [Supply σ] {source : σ} {taken : Nat}
    (holds : Supply.Holds source taken content)
    (far : separator ∈ content → limit < (content.before separator).length →
      ∃ cause after, Source.readUntil separator limit source = .error (.length cause) after)
    (short : separator ∉ content → (Source.readUntil separator limit).Starves source) :
    Promised separator limit source taken content ↔
      separator ∈ content ∨ content.length ≤ limit := by
  apply Iff.intro
  · intro promised
    by_cases present : separator ∈ content
    · exact .inl present
    · exact .inr (promised.tooLittle.1 (short present)).2
  · intro either
    by_cases present : separator ∈ content
    · exact .of_holds holds (far present)
    · have within : content.length ≤ limit := either.resolve_left present
      exact .of_short present within (short present)

theorem readUntil_cursor_of_absent (absent : separator ∉ content) (done : Bytes) :
    Source.readUntil separator limit (Cursor.between done content) =
      .error (.insufficient (content.length + 1) content.length) (Cursor.between done content) :=
  Cursor.advance_eq_error (Unread.upTo_of_absent absent limit)

theorem readUntil_bytes_of_absent (absent : separator ∉ content) :
    Source.readUntil separator limit content =
      .error (.insufficient (content.length + 1) content.length) content :=
  Bytes.readFront_eq_error (Unread.upTo_of_absent absent limit)

theorem promised_cursor_iff {done : Bytes} :
    Promised separator limit (Cursor.between done content) done.length content ↔
      separator ∈ content ∨ content.length ≤ limit := by
  have holds : Supply.Holds (Cursor.between done content) done.length content := ⟨done, rfl, rfl⟩
  apply promised_iff holds
  · intro present far
    exact ⟨_, _, Cursor.advance_eq_error (Unread.upTo_of_far present far)⟩
  · intro absent
    exact ⟨_, _, _, readUntil_cursor_of_absent absent done⟩

theorem promised_bytes_iff :
    Promised separator limit content 0 content ↔ separator ∈ content ∨ content.length ≤ limit := by
  apply promised_iff (Bytes.holds_self content)
  · intro present far
    exact ⟨_, _, Bytes.readFront_eq_error (Unread.upTo_of_far present far)⟩
  · intro absent
    exact ⟨_, _, _, readUntil_bytes_of_absent absent⟩

/-- A reader, in whatever chunks and however often interrupted, reads up to a separator as promised.
Bytes in memory do, at a cursor or by themselves, but for one case: where there is no separator and
more than the limit, they find too little, not too much, and stay where they are. -/
theorem readUntil_promised (separator : UInt8) (limit : Nat) (content : Bytes) :
    (∀ reader : Reader, reader.Delivers content →
      Promised separator limit reader reader.consumed content) ∧
    (∀ done, Promised separator limit (Cursor.between done content) done.length content ↔
      separator ∈ content ∨ content.length ≤ limit) ∧
    (Promised separator limit content 0 content ↔
      separator ∈ content ∨ content.length ≤ limit) ∧
    (separator ∉ content →
      (∀ done, Source.readUntil separator limit (Cursor.between done content) =
        .error (.insufficient (content.length + 1) content.length)
          (Cursor.between done content)) ∧
      Source.readUntil separator limit content =
        .error (.insufficient (content.length + 1) content.length) content) :=
  ⟨fun _ => promised_reader, fun _ => promised_cursor_iff, promised_bytes_iff,
    fun absent => ⟨readUntil_cursor_of_absent absent, readUntil_bytes_of_absent absent⟩⟩

end Source

namespace Sample

def broken : Reader :=
  .ofScript [.chunk [1], .interrupt, .chunk [2, 3], .endOfData]

end Sample

namespace Source

/-- Three bytes without the separator are too many for a reader that may take two, and just too few
where it may take three. -/
theorem readUntil_promised_broken :
    (∃ cause after, Source.readUntil 0 2 Sample.broken = .error (.length cause) after) ∧
    (Source.readUntil 0 3).Starves Sample.broken ∧
    (Source.readUntil 0 3).Starves (Cursor.ofBytes [1, 2, 3]) := by
  have delivers : Sample.broken.Delivers [1, 2, 3] :=
    ⟨_, .chunk _ (.interrupt (.chunk _ (.endOfData .finished))), rfl⟩
  have strict := (readUntil_promised 0 2 [1, 2, 3]).1 Sample.broken delivers
  have loose := (readUntil_promised 0 3 [1, 2, 3]).1 Sample.broken delivers
  have cursor := ((readUntil_promised 0 3 [1, 2, 3]).2.1 []).2 (.inr (by decide))
  exact ⟨strict.tooMuch.2 (by decide), loose.tooLittle.2 (by decide), cursor.tooLittle.2 (by decide)⟩

/-- A cursor over three bytes that may take one of them, and finds no separator, says that there are
too few. -/
theorem limit_overlooked :
    Source.readUntil 0 1 (Cursor.ofBytes [1, 2, 3]) =
      .error (.insufficient 4 3) (Cursor.ofBytes [1, 2, 3]) ∧
    ¬ Promised 0 1 (Cursor.ofBytes [1, 2, 3]) 0 [1, 2, 3] := by
  have ran : Source.readUntil 0 1 (Cursor.ofBytes [1, 2, 3]) =
      .error (.insufficient 4 3) (Cursor.ofBytes [1, 2, 3]) := rfl
  refine ⟨ran, fun promised => ?_⟩
  obtain ⟨cause, after, other⟩ := promised.tooMuch.2 (by decide)
  cases ran.symm.trans other

end Source

end Wireform
