import Wireform.Proofs.Gathering
import Wireform.Proofs.Requests

/-!
The reads of a reader as loops that ask it for bytes again and again: until there are enough, or a
separator has come, or it has ended or failed. How many bytes a turn asks for is left open. A loop
is given so many turns, and one for each byte and each event to come is enough.
-/

namespace Wireform.Reader

/-- What comes of asking once. -/
inductive Arrival where
  | piece (bytes : Bytes)
  | ended
  | interrupted
  | failed (message : String)
  deriving DecidableEq, Repr

/-- Asks for up to `room` bytes. A chunk without bytes is passed over. -/
def poll (room : Nat) : Bytes → List Event → Arrival × Bytes × List Event
  | byte :: held, script => (.piece ((byte :: held).take room), (byte :: held).drop room, script)
  | [], [] => (.ended, [], [])
  | [], .chunk data :: rest => poll room data rest
  | [], .endOfData :: rest => (.ended, [], rest)
  | [], .interrupt :: rest => (.interrupted, [], rest)
  | [], .failure message :: rest => (.failed message, [], rest)

/-- An action that may also run out of turns. -/
abbrev Loop (α : Type) := ExceptT Fault (StateT Reader Option) α

namespace Loop

def outOfTurns {α : Type} : Loop α :=
  ExceptT.mk fun _ => none

def ask (room : Nat) : Loop Arrival :=
  ExceptT.mk fun reader =>
    let (arrival, held, script) := poll room reader.held reader.script
    some (.ok arrival, { reader with held := held, script := script })

def fill (offers : Nat → Nat) : Nat → Nat → Loop Bytes
  | 0, _ => outOfTurns
  | turns + 1, wanted => do
    if wanted = 0 then return []
    match ← ask (min wanted (offers turns + 1)) with
    | .piece bytes => return bytes ++ (← fill offers turns (wanted - bytes.length))
    | .ended => return []
    | .interrupted => fill offers turns wanted
    | .failed message => throw (.io message)

section

variable (offers : Nat → Nat) (turns : Nat)

def take (wanted : Nat) : Loop Bytes := do
  let bytes ← fill offers turns wanted
  modify fun reader => { reader with consumed := reader.consumed + bytes.length }
  return bytes

def readExactly (n : Nat) : Loop Bytes := do
  let bytes ← take offers turns n
  if bytes.length < n then throw (.insufficient n bytes.length) else return bytes

def readUntil (separator : UInt8) (limit : Nat) : Nat → Bytes → Loop Bytes
  | 0, _ => outOfTurns
  | rounds + 1, seen => do
    let byte := (← readExactly offers turns 1).headD separator
    if byte = separator then return seen
    if seen.length = limit then throw (.length (.noSeparator limit))
    readUntil separator limit rounds (seen ++ [byte])

def readRemaining (limit : Nat) : Loop Bytes := do
  let bytes ← take offers turns (limit + 1)
  if limit < bytes.length then throw (.length (.remaining bytes.length limit)) else return bytes

/-- A read, each loop of which is given so many turns. -/
def read : Primitive → Loop Bytes
  | .exactly n => readExactly offers turns n
  | .upTo separator limit => readUntil offers turns separator limit turns []
  | .remaining limit => readRemaining offers turns limit

end

/-- The loop ends, with the answer of the action and where that leaves the reader. -/
def Runs {α : Type} (loop : Loop α) (act : Transfer Reader α) (reader : Reader) : Prop :=
  loop.run reader = some (act.answer reader, act.left reader)

theorem runs_pure {α : Type} (a : α) (reader : Reader) :
    Runs (Pure.pure a) (Pure.pure a) reader :=
  rfl

theorem runs_throw {α : Type} (fault : Fault) (reader : Reader) :
    Runs (throw fault : Loop α) (throw fault) reader :=
  rfl

theorem Runs.ite {α : Type} {cond : Prop} [Decidable cond] {loop other : Loop α}
    {act otherwise : Transfer Reader α} {reader : Reader} (holds : cond → Runs loop act reader)
    (fails : ¬ cond → Runs other otherwise reader) :
    Runs (if cond then loop else other) (if cond then act else otherwise) reader := by
  by_cases given : cond
  · rw [if_pos given, if_pos given]
    exact holds given
  · rw [if_neg given, if_neg given]
    exact fails given

theorem bind_run {α β : Type} (loop : Loop α) (next : α → Loop β) (reader : Reader) :
    (loop >>= next).run reader =
      match loop.run reader with
      | some (.ok a, mid) => (next a).run mid
      | some (.error fault, mid) => some (.error fault, mid)
      | none => none := by
  change (loop.run reader).bind _ = _
  rcases loop.run reader with _ | ⟨_ | _, _⟩ <;> rfl

theorem Runs.bind {α β : Type} {loop : Loop α} {act : Transfer Reader α} {next : α → Loop β}
    {following : α → Transfer Reader β} {reader : Reader} (first : Runs loop act reader)
    (second : ∀ a mid, act reader = .ok a mid → Runs (next a) (following a) mid) :
    Runs (loop >>= next) (act >>= following) reader := by
  unfold Runs Transfer.answer Transfer.left at first second ⊢
  rw [bind_run, first]
  cases ran : act reader with
  | ok a mid =>
    rw [Transfer.bind_of_ok ran]
    exact second a mid ran
  | error fault mid => rw [Transfer.bind_of_error ran]

end Loop

theorem gather_append {wanted : Nat} {front : Bytes} (within : front.length ≤ wanted)
    (held : Bytes) (script : List Event) :
    gather wanted (front ++ held) script =
      (gather (wanted - front.length) held script).before front := by
  by_cases enough : wanted - front.length ≤ held.length
  · have whole : wanted ≤ (front ++ held).length := by
      rw [List.length_append]
      omega
    rw [gather_of_enough enough, gather_of_enough whole, List.take_append, List.drop_append,
      List.take_of_length_le within, List.drop_of_length_le within]
    rfl
  · have few : (front ++ held).length < wanted := by
      rw [List.length_append]
      omega
    rw [gather_of_short (Nat.lt_of_not_le enough), gather_of_short few]
    cases script with
    | nil => rfl
    | cons event rest =>
      cases event with
      | chunk data | interrupt =>
        simp only [List.length_append, Nat.sub_add_eq, Gathered.before, List.append_assoc]
      | endOfData | failure message => rfl

def asking (room : Nat) : Transfer Reader Arrival := fun reader =>
  let (arrival, held, script) := poll room reader.held reader.script
  .ok arrival { reader with held := held, script := script }

/-- Bytes and events that are still to come. -/
def weight (reader : Reader) : Nat :=
  reader.unread.length + reader.script.length

theorem weight_event (event : Event) (script : List Event) (consumed : Nat) :
    weight ⟨[], event :: script, consumed⟩ = weight ⟨event.data, script, consumed⟩ + 1 := by
  simp only [weight, unread_eq, pending, List.flatMap_cons, List.length_cons, List.nil_append]
  rfl

theorem weight_asking {room : Nat} (positive : 0 < room) {held : Bytes} {script : List Event}
    {consumed : Nat} {arrival : Arrival} {mid : Reader}
    (asked : asking room ⟨held, script, consumed⟩ = .ok arrival mid) (going : arrival ≠ .ended) :
    mid.weight < weight ⟨held, script, consumed⟩ := by
  cases held with
  | cons byte held =>
    rw [asking, poll] at asked
    cases asked
    simp only [weight, unread_eq, List.length_append, List.length_drop, List.length_cons]
    omega
  | nil =>
    cases script with
    | nil =>
      cases asked
      exact absurd rfl going
    | cons event script =>
      rw [weight_event]
      cases event with
      | chunk data =>
        have held : asking room ⟨data, script, consumed⟩ = .ok arrival mid := asked
        exact Nat.lt_succ_of_lt (weight_asking positive held going)
      | endOfData | interrupt | failure message =>
        cases asked
        exact Nat.lt_succ_self _

def gathering (wanted : Nat) : Transfer Reader Bytes := fun reader =>
  let gathered := gather wanted reader.held reader.script
  let after := { reader with held := gathered.held, script := gathered.script }
  match gathered.outcome with
  | .failed message => .error (.io message) after
  | _ => .ok gathered.bytes after

theorem gathering_zero : gathering 0 = pure [] := by
  funext reader
  unfold gathering
  rw [gather_of_enough (Nat.zero_le _)]
  rfl

theorem gathering_append {wanted : Nat} {front : Bytes} (within : front.length ≤ wanted)
    (held : Bytes) (script : List Event) (consumed : Nat) :
    gathering wanted ⟨front ++ held, script, consumed⟩ =
      (do return front ++ (← gathering (wanted - front.length))) ⟨held, script, consumed⟩ := by
  simp only [gathering, gather_append within, Gathered.before, bind, EStateM.bind]
  cases (gather (wanted - front.length) held script).outcome with
  | complete | ended | failed message => rfl

def goOn (wanted : Nat) : Arrival → Transfer Reader Bytes
  | .piece bytes => return bytes ++ (← gathering (wanted - bytes.length))
  | .ended => return []
  | .interrupted => gathering wanted
  | .failed message => throw (.io message)

theorem gathering_apply {room wanted : Nat} (positive : 0 < room) (within : room ≤ wanted)
    (held : Bytes) (script : List Event) (consumed : Nat) :
    gathering wanted ⟨held, script, consumed⟩ =
      (asking room >>= goOn wanted) ⟨held, script, consumed⟩ := by
  cases held with
  | cons byte held =>
    have piece : asking room ⟨byte :: held, script, consumed⟩ =
        .ok (.piece ((byte :: held).take room)) ⟨(byte :: held).drop room, script, consumed⟩ := by
      rw [asking, poll]
    have front : ((byte :: held).take room).length ≤ wanted :=
      Nat.le_trans (List.length_take_le _ _) within
    rw [Transfer.bind_of_ok piece]
    conv_lhs => rw [← List.take_append_drop room (byte :: held)]
    exact gathering_append front _ script consumed
  | nil =>
    have short : ([] : Bytes).length < wanted := Nat.lt_of_lt_of_le positive within
    cases script with
    | nil =>
      simp only [gathering, gather_of_short short]
      rfl
    | cons event rest =>
      have gathered := @gather_of_short wanted [] (event :: rest) short
      cases event with
      | chunk data =>
        -- The chunk is at hand now, and the same is asked of it.
        have later := gathering_apply positive within data rest consumed
        simp only [gathering, gathered]
        exact later
      | endOfData | interrupt | failure message =>
        simp only [gathering, gathered]
        rfl

/-- Gathering asks once, for part of what is wanted, and goes on from there. -/
theorem gathering_eq {room wanted : Nat} (positive : 0 < room) (within : room ≤ wanted) :
    gathering wanted = asking room >>= goOn wanted :=
  funext fun ⟨held, script, consumed⟩ => gathering_apply positive within held script consumed

theorem take_eq (wanted : Nat) :
    take wanted = do
      let bytes ← gathering wanted
      modify fun reader => { reader with consumed := reader.consumed + bytes.length }
      return bytes := by
  funext reader
  unfold take gathering
  cases outcome : (gather wanted reader.held reader.script).outcome with
  | complete | ended =>
    simp only [bind, EStateM.bind, outcome]
    rfl
  | failed message => simp only [bind, EStateM.bind, outcome]

theorem suffix_of_take {wanted : Nat} {reader mid : Reader} {bytes : Bytes}
    (ran : take wanted reader = .ok bytes mid) : mid.script <:+ reader.script := by
  obtain ⟨-, -, rfl⟩ := gathered_of_take ran
  exact (accounts_gather wanted reader.held reader.script).suffix

theorem weight_readExactly {n : Nat} {reader mid : Reader} {bytes : Bytes}
    (ran : readExactly n reader = .ok bytes mid) : mid.weight + n ≤ reader.weight := by
  obtain ⟨took, length⟩ := of_readExactly ran
  have events : mid.script <:+ reader.script := by
    obtain ⟨found, later, taken, following⟩ := Transfer.bind_eq_ok.1 ran
    split at following
    next => cases following
    next =>
      cases following
      exact suffix_of_take taken
  have fewer := events.length_le
  unfold weight
  rw [took.unread, List.length_append, length]
  omega

namespace Loop

variable (offers : Nat → Nat)

theorem ask_runs (room : Nat) (reader : Reader) : Runs (ask room) (asking room) reader :=
  rfl

theorem fill_runs {turns : Nat} (wanted : Nat) (reader : Reader)
    (enough : reader.weight < turns) : Runs (fill offers turns wanted) (gathering wanted) reader := by
  induction turns generalizing wanted reader with
  | zero => cases enough
  | succ turns ih =>
    rw [fill]
    by_cases none : wanted = 0
    · rw [if_pos none, none, gathering_zero]
      exact runs_pure [] reader
    · have positive : 0 < min wanted (offers turns + 1) := by omega
      rw [if_neg none, gathering_eq positive (Nat.min_le_left _ _)]
      apply (ask_runs _ reader).bind
      intro arrival mid asked
      have within : arrival ≠ .ended → mid.weight < turns := by
        intro going
        have fewer : mid.weight < reader.weight := weight_asking positive asked going
        omega
      cases arrival with
      | piece bytes =>
        have later := ih (wanted - bytes.length) mid (within nofun)
        exact later.bind fun more after _ => runs_pure (bytes ++ more) after
      | ended => exact runs_pure [] mid
      | interrupted => exact ih wanted mid (within nofun)
      | failed message => exact runs_throw (.io message) mid

variable {turns : Nat}

theorem take_runs (wanted : Nat) (reader : Reader) (enough : reader.weight < turns) :
    Runs (take offers turns wanted) (Reader.take wanted) reader := by
  rw [take_eq]
  exact (fill_runs offers wanted reader enough).bind fun bytes mid _ => rfl

theorem readExactly_runs (n : Nat) (reader : Reader) (enough : reader.weight < turns) :
    Runs (readExactly offers turns n) (Reader.readExactly n) reader := by
  apply (take_runs offers n reader enough).bind
  intro bytes mid _
  exact .ite (fun _ => runs_throw _ mid) fun _ => runs_pure bytes mid

theorem readRemaining_runs (limit : Nat) (reader : Reader) (enough : reader.weight < turns) :
    Runs (readRemaining offers turns limit) (Reader.readRemaining limit) reader := by
  apply (take_runs offers (limit + 1) reader enough).bind
  intro bytes mid _
  exact .ite (fun _ => runs_throw _ mid) fun _ => runs_pure bytes mid

theorem readUntil_runs {rounds : Nat} {separator : UInt8} {limit room : Nat} {seen : Bytes}
    {reader : Reader} (balance : seen.length + room = limit) (enough : reader.weight < turns)
    (long : reader.weight < rounds) :
    Runs (readUntil offers turns separator limit rounds seen)
      (readUntilFrom separator limit room seen.reverse) reader := by
  induction rounds generalizing room seen reader with
  | zero => cases long
  | succ rounds ih =>
    unfold readUntil readUntilFrom
    apply (readExactly_runs offers 1 reader enough).bind
    intro found mid first
    have fewer := weight_readExactly first
    apply Runs.ite
    · intro _
      rw [List.reverse_reverse]
      exact runs_pure seen mid
    · intro _
      cases room with
      | zero =>
        rw [if_pos (by omega)]
        exact runs_throw _ mid
      | succ room =>
        rw [if_neg (by omega)]
        have later := @ih room (seen ++ [found.headD separator]) mid
        rw [List.reverse_concat] at later
        apply later
        · rw [List.length_append, List.length_singleton]
          omega
        · omega
        · omega

/-- A read ends where it is given more turns than there are bytes and events to come, however many
bytes it asks for in each, and what it answers and leaves is no matter of turns. -/
theorem read_runs (read : Primitive) (reader : Reader) (enough : reader.weight < turns) :
    Runs (Loop.read offers turns read) read.run reader := by
  cases read with
  | exactly n => exact readExactly_runs offers n reader enough
  | upTo separator limit => exact readUntil_runs offers (Nat.zero_add limit) enough enough
  | remaining limit => exact readRemaining_runs offers limit reader enough

end Loop

end Wireform.Reader
