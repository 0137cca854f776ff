import Wireform.Proofs.Polling

/-!
How a reader accounts for its bytes. What was handed out is what the reads have pulled, one after
the other. A read that is broken off by a failure loses what it has pulled, unless it takes its
bytes one at a time; any other read counts every byte, also when it fails. So the bytes handed out
are those that are counted and those that are lost.
-/

namespace Wireform.Reader

theorem length_of_failed {wanted : Nat} {held : Bytes} {script : List Event} {message : String}
    (failed : (gather wanted held script).outcome = .failed message) :
    (gather wanted held script).bytes.length < wanted := by
  by_cases enough : wanted ≤ held.length
  · rw [gather_of_enough enough] at failed
    cases failed
  · have short := Nat.lt_of_not_le enough
    rw [gather_of_short short] at failed ⊢
    cases script with
    | nil => cases failed
    | cons event rest =>
      cases event with
      | chunk data | interrupt =>
        have later := length_of_failed failed
        simp only [Gathered.before, List.length_append]
        omega
      | endOfData => cases failed
      | failure message => exact short

variable {reader after : Reader} {fault : Fault}

/-- What a reader handed out on the way from one state to another, and did not count. -/
structure Dropped (reader after : Reader) (front : Bytes) : Prop where
  unread : reader.unread = front ++ after.unread
  consumed : after.consumed = reader.consumed
  final : Final reader.script → Final after.script

theorem Dropped.took_nil (dropped : Dropped reader after []) : Took reader after [] :=
  ⟨dropped.unread, dropped.consumed, dropped.final⟩

theorem of_take_error {wanted : Nat} (ran : take wanted reader = .error fault after) :
    ∃ message front, fault = .io message ∧ Dropped reader after front ∧ front.length < wanted := by
  have accounts := accounts_gather wanted reader.held reader.script
  unfold take at ran
  dsimp only at ran
  split at ran
  next message failed =>
    cases ran
    refine ⟨message, _, rfl, ⟨?_, rfl, fun final => final.of_suffix accounts.suffix⟩,
      length_of_failed failed⟩
    simp only [unread_eq]
    exact accounts.splits
  next => cases ran

end Wireform.Reader

namespace Wireform

/-- A read that takes its bytes all at once loses them to a failure. -/
def Primitive.loses : Primitive → Fault → Bool
  | exactly _, .io _ | remaining _, .io _ => true
  | _, _ => false

namespace Reader

/-- What may become of a read. -/
inductive Exit (read : Primitive) (reader : Reader) : EStateM.Result Fault Reader Bytes → Prop where
  | answers {data : Bytes} {after : Reader} (took : Took reader after (data ++ read.behind)) :
    Exit read reader (.ok data after)
  | refuses {fault : Fault} {after : Reader} (front : Bytes) (keeps : read.loses fault = false)
    (took : Took reader after front) : Exit read reader (.error fault after)
  | breaks {fault : Fault} {after : Reader} (front : Bytes) (loses : read.loses fault = true)
    (dropped : Dropped reader after front) : Exit read reader (.error fault after)

section

variable {reader after : Reader} {fault : Fault}

theorem of_readExactly_error {n : Nat} (ran : readExactly n reader = .error fault after) :
    ∃ front, front.length < n ∧
      ((∃ message, fault = .io message ∧ Dropped reader after front) ∨
        fault = .insufficient n front.length ∧ Took reader after front) := by
  rcases Transfer.bind_eq_error.1 ran with ran | ⟨bytes, mid, took, ran⟩
  · obtain ⟨message, front, rfl, dropped, short⟩ := of_take_error ran
    exact ⟨front, short, .inl ⟨message, rfl, dropped⟩⟩
  · split at ran
    next few =>
      cases ran
      exact ⟨bytes, few, .inr ⟨rfl, took_of_take took⟩⟩
    next => cases ran

theorem of_readRemaining_error {limit : Nat}
    (ran : readRemaining limit reader = .error fault after) :
    ∃ front, (∃ message, fault = .io message ∧ Dropped reader after front) ∨
      fault = .length (.remaining front.length limit) ∧ Took reader after front := by
  rcases Transfer.bind_eq_error.1 ran with ran | ⟨bytes, mid, took, ran⟩
  · obtain ⟨message, front, rfl, dropped, -⟩ := of_take_error ran
    exact ⟨front, .inl ⟨message, rfl, dropped⟩⟩
  · split at ran
    next many =>
      cases ran
      exact ⟨bytes, .inr ⟨rfl, took_of_take took⟩⟩
    next => cases ran

theorem of_byte_error (ran : readExactly 1 reader = .error fault after) : Took reader after [] := by
  obtain ⟨front, short, ends⟩ := of_readExactly_error ran
  obtain rfl := List.eq_nil_of_length_eq_zero (Nat.lt_one_iff.1 short)
  rcases ends with ⟨message, -, dropped⟩ | ⟨-, took⟩
  · exact dropped.took_nil
  · exact took

theorem of_readUntilFrom_error {separator : UInt8} {limit room : Nat} {seen : Bytes}
    {reader : Reader} (ran : readUntilFrom separator limit room seen reader = .error fault after) :
    ∃ front, Took reader after front := by
  cases first : readExactly 1 reader with
  | error cause mid =>
    unfold readUntilFrom at ran
    rw [Transfer.bind_of_error first] at ran
    cases ran
    exact ⟨[], of_byte_error first⟩
  | ok bytes mid =>
    obtain ⟨took, single⟩ := of_readExactly first
    obtain ⟨byte, rfl⟩ := List.length_eq_one_iff.1 single
    rw [readUntilFrom_of_byte first] at ran
    by_cases same : byte = separator
    · rw [if_pos same] at ran
      cases ran
    · rw [if_neg same] at ran
      cases room with
      | zero =>
        cases ran
        exact ⟨[byte], took⟩
      | succ room =>
        have later : readUntilFrom separator limit room (byte :: seen) mid = .error fault after :=
          ran
        obtain ⟨front, following⟩ := of_readUntilFrom_error later
        exact ⟨[byte] ++ front, took.trans following⟩

end

theorem exit_run (read : Primitive) (reader : Reader) : Exit read reader (read.run reader) := by
  cases ran : read.run reader with
  | ok data after =>
    apply Exit.answers
    cases read with
    | exactly n =>
      rw [Primitive.behind, List.append_nil]
      exact (of_readExactly ran).1
    | upTo separator limit =>
      obtain ⟨own, rfl, -, -, took⟩ := of_readUntilFrom ran
      exact took
    | remaining limit =>
      rw [Primitive.behind, List.append_nil]
      exact (of_readRemaining ran).1
  | error fault after =>
    cases read with
    | exactly n =>
      obtain ⟨front, -, ⟨message, rfl, dropped⟩ | ⟨rfl, took⟩⟩ := of_readExactly_error ran
      · exact .breaks front rfl dropped
      · exact .refuses front rfl took
    | upTo separator limit =>
      obtain ⟨front, took⟩ := of_readUntilFrom_error ran
      exact .refuses front rfl took
    | remaining limit =>
      obtain ⟨front, ⟨message, rfl, dropped⟩ | ⟨rfl, took⟩⟩ := of_readRemaining_error ran
      · exact .breaks front rfl dropped
      · exact .refuses front rfl took

structure Step where
  read : Primitive
  before : Reader

namespace Step

def answer (step : Step) : Except Fault Bytes :=
  step.read.run.answer step.before

def after (step : Step) : Reader :=
  step.read.run.left step.before

def pulled (step : Step) : Bytes :=
  step.before.unread.take (step.before.unread.length - step.after.unread.length)

def returned (step : Step) : Bytes :=
  match step.answer with
  | .ok data => data ++ step.read.behind
  | .error _ => []

def lost (step : Step) : Bytes :=
  match step.answer with
  | .ok _ => []
  | .error fault => if step.read.loses fault then step.pulled else []

/-- What is handed out is gone from the reader, and it is counted, returned or lost. -/
structure Accounted (step : Step) : Prop where
  unread : step.before.unread = step.pulled ++ step.after.unread
  counted : step.after.consumed + step.lost.length = step.before.consumed + step.pulled.length
  returned : ∀ data, step.answer = .ok data → step.pulled = data ++ step.read.behind

theorem pulled_of_unread {step : Step} {front : Bytes}
    (unread : step.before.unread = front ++ step.after.unread) : step.pulled = front := by
  unfold pulled
  rw [unread, List.length_append, Nat.add_sub_cancel, List.take_left]

theorem accounted (step : Step) : step.Accounted := by
  have exit := exit_run step.read step.before
  cases ran : step.read.run step.before with
  | ok data rest =>
    have answer : step.answer = .ok data := by rw [Step.answer, Transfer.answer, ran]
    have after : step.after = rest := by rw [Step.after, Transfer.left, ran]
    rw [ran, ← after] at exit
    cases exit with
    | answers took =>
      have pulled := pulled_of_unread took.unread
      refine ⟨pulled ▸ took.unread, ?_, ?_⟩
      · rw [pulled, lost, answer]
        exact took.consumed
      · intro other same
        rw [answer] at same
        cases same
        exact pulled
  | error fault rest =>
    have answer : step.answer = .error fault := by rw [Step.answer, Transfer.answer, ran]
    have after : step.after = rest := by rw [Step.after, Transfer.left, ran]
    have silent : ∀ data, step.answer = .ok data → step.pulled = data ++ step.read.behind := by
      intro data same
      rw [answer] at same
      cases same
    rw [ran, ← after] at exit
    cases exit with
    | refuses front keeps took =>
      have pulled := pulled_of_unread took.unread
      refine ⟨pulled ▸ took.unread, ?_, silent⟩
      simp only [lost, answer, keeps, pulled]
      exact took.consumed
    | breaks front loses dropped =>
      have pulled := pulled_of_unread dropped.unread
      refine ⟨pulled ▸ dropped.unread, ?_, silent⟩
      simp only [lost, answer, loses, pulled, dropped.consumed]
      rfl

end Step

/-- Reads, one after the other, each asked of the reader as the one before it left it. -/
def trace : List Primitive → Reader → List Step
  | [], _ => []
  | read :: rest, reader => ⟨read, reader⟩ :: trace rest (read.run.left reader)

def leave (reads : List Primitive) (reader : Reader) : Reader :=
  reads.foldl (fun reader read => read.run.left reader) reader

theorem unread_trace (reads : List Primitive) (reader : Reader) :
    reader.unread = (trace reads reader).flatMap Step.pulled ++ (leave reads reader).unread := by
  induction reads generalizing reader with
  | nil => rfl
  | cons read rest ih =>
    have first := (Step.accounted ⟨read, reader⟩).unread
    calc reader.unread = Step.pulled ⟨read, reader⟩ ++ (read.run.left reader).unread := first
      _ = Step.pulled ⟨read, reader⟩ ++ ((trace rest (read.run.left reader)).flatMap Step.pulled ++
          (leave rest (read.run.left reader)).unread) := congrArg _ (ih _)
      _ = _ := (List.append_assoc _ _ _).symm

theorem consumed_trace (reads : List Primitive) (reader : Reader) :
    (leave reads reader).consumed + ((trace reads reader).flatMap Step.lost).length =
      reader.consumed + ((trace reads reader).flatMap Step.pulled).length := by
  induction reads generalizing reader with
  | nil => rfl
  | cons read rest ih =>
    have first := (Step.accounted ⟨read, reader⟩).counted
    have later := ih (read.run.left reader)
    simp only [trace, leave, List.foldl_cons, List.flatMap_cons, List.length_append] at later ⊢
    simp only [Step.after] at first
    omega

theorem returned_trace (reads : List Primitive) (reader : Reader) :
    ((trace reads reader).flatMap Step.returned).Sublist
      ((trace reads reader).flatMap Step.pulled) := by
  induction reads generalizing reader with
  | nil => exact List.nil_sublist []
  | cons read rest ih =>
    have first : (Step.returned ⟨read, reader⟩).Sublist (Step.pulled ⟨read, reader⟩) := by
      unfold Step.returned
      split
      next data answered =>
        rw [(Step.accounted ⟨read, reader⟩).returned data answered]
      next => exact List.nil_sublist _
    exact first.append (ih _)

/-- All that becomes of the bytes of a script, over some reads. What was handed out, one read after
the other, and what is still to come is what the script brings. As many bytes were handed out as are
counted and lost, and what the reads returned stands in there in order. Each read accounts for the
bytes it pulled, and as a loop it ends, given more turns than there are bytes and events to come. -/
theorem handed_out_accounted (script : List Event) (reads : List Primitive) :
    let steps := trace reads (ofScript script)
    let last := leave reads (ofScript script)
    let handed := steps.flatMap Step.pulled
    pending script = handed ++ last.unread ∧
      handed.length = last.consumed + (steps.flatMap Step.lost).length ∧
      (steps.flatMap Step.returned).Sublist handed ∧
      ∀ step ∈ steps, step.Accounted ∧ ∀ offers turns, step.before.weight < turns →
        (Loop.read offers turns step.read).run step.before = some (step.answer, step.after) := by
  intro steps last handed
  have unread := unread_trace reads (ofScript script)
  have counted := consumed_trace reads (ofScript script)
  rw [unread_eq] at unread
  refine ⟨unread, ?_, returned_trace reads _, fun step _ => ⟨step.accounted, ?_⟩⟩
  · exact (counted.trans (Nat.zero_add _)).symm
  · intro offers turns enough
    exact Loop.read_runs offers step.read step.before enough

end Reader

namespace Sample

/-- Data that comes in pieces, with an interrupt, a failure and an end in between. -/
def hesitant : List Reader.Event :=
  [.chunk [1, 2, 3], .interrupt, .chunk [4], .failure "lost", .chunk [5, 0, 6], .endOfData,
    .chunk [7]]

def attempts : List Primitive :=
  [.exactly 2, .exactly 4, .upTo 0 4, .exactly 3, .remaining 8]

end Sample

namespace Reader

/-- Of eight bytes two are lost, to the read that fails in the middle; the one that comes to an end
counts what it had. -/
theorem handed_out_accounted_hesitant :
    let steps := trace Sample.attempts (ofScript Sample.hesitant)
    let last := leave Sample.attempts (ofScript Sample.hesitant)
    steps.map Step.answer =
        [.ok [1, 2], .error (.io "lost"), .ok [5], .error (.insufficient 3 1), .ok [7]] ∧
      steps.map Step.pulled = [[1, 2], [3, 4], [5, 0], [6], [7]] ∧
      last.consumed = 6 ∧ (steps.flatMap Step.pulled).length = last.consumed + 2 := by
  intro steps last
  have lost : (steps.flatMap Step.lost).length = 2 := by decide
  have counted := (handed_out_accounted Sample.hesitant Sample.attempts).2.1
  exact ⟨by decide, by decide, by decide, counted.trans (congrArg _ lost)⟩

end Reader

end Wireform
