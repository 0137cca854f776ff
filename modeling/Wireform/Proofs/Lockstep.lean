import Wireform.Proofs.Requests
import Wireform.Proofs.Supply

/-!
A cursor and bytes by themselves, asked for the same things. Their answers are the same, failing
ones too, and what the cursor has not read is what is left of the bytes. A log of what their reads
have taken shows that no byte is lost and none is read twice: the log and what is unread are the
data.
-/

namespace Wireform

/-- What some reads have taken: what each answered, and what it took behind that. -/
def Primitive.taken (reads : List (Primitive × Bytes)) : Bytes :=
  reads.flatMap fun (read, data) => data ++ read.behind

/-- A source that remembers what its reads have answered. -/
structure Logged (σ : Type) where
  source : σ
  reads : List (Primitive × Bytes)

namespace Logged

section

variable {σ : Type}

def ofSource (source : σ) : Logged σ :=
  ⟨source, []⟩

variable [Source σ]

def run (read : Primitive) : Transfer (Logged σ) Bytes := fun logged =>
  match (read.run : Transfer σ Bytes) logged.source with
  | .ok data rest => .ok data ⟨rest, logged.reads ++ [(read, data)]⟩
  | .error fault rest => .error fault ⟨rest, logged.reads⟩

instance : Source (Logged σ) where
  available? logged := Source.available? logged.source
  readExactly n := run (.exactly n)
  readUntil separator limit := run (.upTo separator limit)
  readRemaining limit := run (.remaining limit)

theorem run_eq (read : Primitive) : (read.run : Transfer (Logged σ) Bytes) = run read := by
  cases read <;> rfl

theorem kept_source : Kept fun (logged : Logged σ) source => logged.source = source where
  available := by
    rintro logged _ rfl
    rfl
  read read := by
    rintro logged _ rfl
    rw [run_eq]
    unfold run
    cases (read.run : Transfer σ Bytes) logged.source with
    | ok data rest => exact .ok rfl rfl
    | error fault rest => exact .error rfl rfl

end

end Logged

namespace Primitive

def split : Primitive → Bytes → Except Fault (Bytes × Bytes)
  | exactly n, unread => Unread.exactly unread n
  | upTo separator limit, unread => Unread.upTo unread separator limit
  | remaining limit, unread => Unread.everything unread limit

theorem run_cursor (read : Primitive) : read.run = Cursor.advance read.split := by
  cases read <;> rfl

theorem run_bytes (read : Primitive) : read.run = Bytes.readFront read.split := by
  cases read <;> rfl

theorem append_of_split {read : Primitive} {unread front rest : Bytes}
    (found : read.split unread = .ok (front, rest)) : unread = front ++ read.behind ++ rest := by
  cases read with
  | exactly n =>
    obtain ⟨rfl, -⟩ := Unread.exactly_eq_ok.1 found
    simp [behind]
  | upTo separator limit =>
    obtain ⟨rfl, -, -⟩ := Unread.upTo_eq_ok.1 found
    simp [behind]
  | remaining limit =>
    obtain ⟨rfl, rfl, -⟩ := Unread.everything_eq_ok.1 found
    simp [behind]

theorem taken_concat (reads : List (Primitive × Bytes)) (read : Primitive) (data : Bytes) :
    taken (reads ++ [(read, data)]) = taken reads ++ (data ++ read.behind) := by
  simp [taken]

end Primitive

/-- A read that fails leaves a cursor where it was. -/
theorem Cursor.unmoved {split : Bytes → Except Fault (Bytes × Bytes)} {cursor after : Cursor}
    {fault : Fault} (failed : advance split cursor = .error fault after) : after = cursor := by
  unfold advance at failed
  split at failed
  next => cases failed
  next => cases failed; rfl

theorem Bytes.unmoved {split : Bytes → Except Fault (Bytes × Bytes)} {unread after : Bytes}
    {fault : Fault} (failed : readFront split unread = .error fault after) : after = unread := by
  unfold readFront at failed
  split at failed
  next => cases failed
  next => cases failed; rfl

namespace Logged

/-- Of the same data, a cursor is past what its log has taken, and the bytes that are left are what it
has not read. -/
inductive Alongside (data : Bytes) : Logged Cursor → Logged Bytes → Prop where
  | intro (reads : List (Primitive × Bytes)) (unread : Bytes)
    (whole : data = Primitive.taken reads ++ unread) :
    Alongside data ⟨Cursor.between (Primitive.taken reads) unread, reads⟩ ⟨unread, reads⟩

theorem kept_alongside (data : Bytes) : Kept (Alongside data) where
  available := by
    rintro _ _ ⟨reads, unread, -⟩
    simp [Source.available?, Cursor.between]
  read read := by
    rintro _ _ ⟨reads, unread, whole⟩
    rw [run_eq, run_eq]
    unfold run
    rw [Primitive.run_cursor, Primitive.run_bytes]
    cases found : read.split unread with
    | error fault =>
      simp only [Cursor.advance_eq_error found, Bytes.readFront_eq_error found]
      exact .error rfl (.intro reads unread whole)
    | ok both =>
      obtain ⟨front, rest⟩ := both
      obtain rfl := Primitive.append_of_split found
      have advanced : Cursor.advance read.split
          (Cursor.between (Primitive.taken reads) (front ++ read.behind ++ rest)) =
            .ok front (Cursor.between (Primitive.taken (reads ++ [(read, front)])) rest) := by
        rw [Cursor.advance_eq_ok]
        refine ⟨rest, found, ?_⟩
        rw [Primitive.taken_concat, Cursor.stop_eq]
      have still : data = Primitive.taken (reads ++ [(read, front)]) ++ rest := by
        rw [whole, Primitive.taken_concat]
        simp only [List.append_assoc]
      simp only [advanced, Bytes.readFront_eq_ok found]
      exact .ok rfl (.intro _ rest still)

end Logged

namespace Request

/-- A request that is no more than one read. -/
def Single : Request → Prop
  | primitive _ | fixed _ => True
  | span _ _ => False

theorem run_cursor {request : Request} (single : request.Single) :
    ∃ split, request.run = Cursor.advance split := by
  cases request with
  | primitive read => exact ⟨_, read.run_cursor⟩
  | fixed n => exact ⟨_, Cursor.readFixed_eq n⟩
  | span _ _ => exact single.elim

theorem run_bytes {request : Request} (single : request.Single) :
    ∃ split, request.run = Bytes.readFront split := by
  cases request with
  | primitive read => exact ⟨_, read.run_bytes⟩
  | fixed n => exact ⟨_, Bytes.readFixed_eq n⟩
  | span _ _ => exact single.elim

/-- A cursor over some data, and what is left of the same data by itself, at the same point. -/
structure SamePoint (data : Bytes) (cursor : Cursor) (left : Bytes) : Prop where
  whole : cursor.data = data
  inside : cursor.position ≤ data.length
  unread : cursor.unread = data.drop cursor.position
  same : cursor.unread = left
  available : Source.available? cursor = some cursor.unread.length
  availableLeft : Source.available? left = some left.length

theorem samePoint_between (done left : Bytes) :
    SamePoint (done ++ left) (Cursor.between done left) left where
  whole := rfl
  inside := by simp [Cursor.between]
  unread := rfl
  same := Cursor.unread_between done left
  available := by simp [Source.available?, Cursor.between, Cursor.unread]
  availableLeft := rfl

/-- The requests may as well be logged, and their reads have taken just what is no longer unread. -/
structure Conserved {σ : Type} [Source σ] (unread : σ → Bytes) (data : Bytes) (start : σ)
    (requests : List Request) : Prop where
  answers : answers requests (Logged.ofSource start) = answers requests start
  source : (after requests (Logged.ofSource start)).source = after requests start
  whole : Primitive.taken (after requests (Logged.ofSource start)).reads ++
    unread (after requests start) = data

/-- A cursor over some data, and the same data by itself, after the same requests. -/
structure Lockstep (data : Bytes) (requests : List Request) : Prop where
  answers : answers requests (Cursor.ofBytes data) = answers requests data
  point : SamePoint data (after requests (Cursor.ofBytes data)) (after requests data)
  unmoved : ∀ request : Request, request.Single → ∀ fault cursor,
    request.run (after requests (Cursor.ofBytes data)) = .error fault cursor →
      cursor = after requests (Cursor.ofBytes data)
  unmovedLeft : ∀ request : Request, request.Single → ∀ fault left,
    request.run (after requests data) = .error fault left → left = after requests data
  cursor : Conserved Cursor.unread data (Cursor.ofBytes data) requests
  bytes : Conserved id data data requests

theorem logged_answers {σ : Type} [Source σ] (start : σ) (requests : List Request) :
    answers requests (Logged.ofSource start) = answers requests start ∧
      (after requests (Logged.ofSource start)).source = after requests start := by
  have same : (Logged.ofSource start).source = start := rfl
  exact Logged.kept_source.answers_eq requests same

theorem exists_reads (data : Bytes) (requests : List Request) :
    answers requests (Logged.ofSource (Cursor.ofBytes data)) =
        answers requests (Logged.ofSource data) ∧
      ∃ reads left, data = Primitive.taken reads ++ left ∧
        after requests (Logged.ofSource (Cursor.ofBytes data)) =
          ⟨Cursor.between (Primitive.taken reads) left, reads⟩ ∧
        after requests (Logged.ofSource data) = ⟨left, reads⟩ := by
  have start : Logged.Alongside data (Logged.ofSource (Cursor.ofBytes data))
    (Logged.ofSource data) := .intro [] data rfl
  obtain ⟨same, along⟩ := (Logged.kept_alongside data).answers_eq requests start
  refine ⟨same, ?_⟩
  generalize after requests (Logged.ofSource (Cursor.ofBytes data)) = logged,
    after requests (Logged.ofSource data) = other at along
  obtain ⟨reads, left, whole⟩ := along
  exact ⟨reads, left, whole, rfl, rfl⟩

/-- A cursor and bytes by themselves stay in step, whatever is asked of them and however it fails.
The answers are the same, and so are the bytes that are left to each. A single read that fails moves
neither. What the reads have taken, in order, and the bytes that are left are the data. -/
theorem lockstep (data : Bytes) (requests : List Request) : Lockstep data requests := by
  obtain ⟨same, reads, left, whole, loggedCursor, loggedBytes⟩ := exists_reads data requests
  obtain ⟨sameCursor, cursor⟩ := logged_answers (Cursor.ofBytes data) requests
  obtain ⟨sameBytes, bytes⟩ := logged_answers data requests
  have atCursor : after requests (Cursor.ofBytes data) =
      Cursor.between (Primitive.taken reads) left := by rw [← cursor, loggedCursor]
  have atBytes : after requests data = left := by rw [← bytes, loggedBytes]
  refine ⟨sameCursor.symm.trans (same.trans sameBytes), ?_, ?_, ?_, ⟨sameCursor, cursor, ?_⟩,
    ⟨sameBytes, bytes, ?_⟩⟩
  · rw [atCursor, atBytes, whole]
    exact samePoint_between _ left
  · intro request single fault stopped failed
    obtain ⟨split, run⟩ := run_cursor single
    rw [run] at failed
    exact Cursor.unmoved failed
  · intro request single fault stopped failed
    obtain ⟨split, run⟩ := run_bytes single
    rw [run] at failed
    exact Bytes.unmoved failed
  · rw [loggedCursor, atCursor, Cursor.unread_between, whole]
  · rw [loggedBytes, atBytes, whole]
    rfl

end Request

namespace Sample

def counted : Descriptor :=
  (Descriptor.ofWire .bytes).withMode (.counted 1)

def requests : List Request :=
  [.span 16 counted, .primitive (.upTo 59 4), .fixed 5, .span 16 counted]

def spans : Bytes :=
  [2, 7, 8, 9, 59, 1]

end Sample

namespace Request

/-- What was read of the second span is not given back. -/
theorem lockstep_cut :
    answers Sample.requests Sample.spans =
      [.ok [7, 8], .ok [9], .error (.insufficient 5 1), .error (.insufficient 1 0)] ∧
    Primitive.taken (after Sample.requests (Logged.ofSource Sample.spans)).reads =
      Sample.spans := by
  have step := lockstep Sample.spans Sample.requests
  have ran : answers Sample.requests (Cursor.ofBytes Sample.spans) =
    [.ok [7, 8], .ok [9], .error (.insufficient 5 1), .error (.insufficient 1 0)] := by decide
  have finished : after Sample.requests Sample.spans = [] := by decide
  have all := step.bytes.whole
  rw [finished, id_eq, List.append_nil] at all
  exact ⟨step.answers.symm.trans ran, all⟩

end Request

end Wireform
