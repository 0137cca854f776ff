import Wireform.Proofs.Supply
import Wireform.Stream.Reader

/-!
What a reader makes of its script. It hands out the data of the script in order, as much as it is
asked for and no more, and counts it; chunks may break anywhere, and interrupts change nothing. Once
the end was reported, it stays the end only if no data comes behind it.
-/

namespace Wireform.Reader

def Event.data : Event → Bytes
  | chunk data => data
  | endOfData | interrupt | failure _ => []

def pending (script : List Event) : Bytes :=
  script.flatMap Event.data

theorem unread_eq (reader : Reader) : reader.unread = reader.held ++ pending reader.script := by
  unfold unread pending
  congr 2
  funext event
  cases event <;> rfl

/-- The script brings just this data, in chunks and with interrupts anywhere, and then has ended. -/
inductive Brings : List Event → Bytes → Prop where
  | finished : Brings [] []
  | endOfData {script : List Event} (later : Brings script []) : Brings (.endOfData :: script) []
  | chunk (data : Bytes) {script : List Event} {more : Bytes} (later : Brings script more) :
    Brings (.chunk data :: script) (data ++ more)
  | interrupt {script : List Event} {data : Bytes} (later : Brings script data) :
    Brings (.interrupt :: script) data

theorem Brings.pending_eq {script : List Event} {data : Bytes} (brings : Brings script data) :
    pending script = data := by
  induction brings with
  | finished => rfl
  | endOfData later ih => exact ih
  | chunk data later ih => exact congrArg (data ++ ·) ih
  | interrupt later ih => exact ih

/-- The reader hands out just this data, in chunks and with interrupts anywhere, and then has
ended. -/
def Delivers (reader : Reader) (data : Bytes) : Prop :=
  ∃ more, Brings reader.script more ∧ data = reader.held ++ more

theorem Delivers.unread_eq {reader : Reader} {data : Bytes} (delivers : reader.Delivers data) :
    reader.unread = data := by
  obtain ⟨more, brings, rfl⟩ := delivers
  rw [Reader.unread_eq, brings.pending_eq]

/-- No data comes behind an end. -/
def Final (script : List Event) : Prop :=
  ∀ before after, script = before ++ .endOfData :: after → pending after = []

theorem final_nil : Final [] := by
  intro before after split
  cases before <;> cases split

theorem final_cons_iff {event : Event} {script : List Event} :
    Final (event :: script) ↔ (event = .endOfData → pending script = []) ∧ Final script := by
  apply Iff.intro
  · intro final
    refine ⟨?_, fun before after split => final (event :: before) after (congrArg _ split)⟩
    rintro rfl
    exact final [] script rfl
  · intro ⟨first, others⟩ before after split
    cases before with
    | nil =>
      obtain ⟨same, rfl⟩ := List.cons.inj split
      exact first same
    | cons other before => exact others before after (List.cons.inj split).2

instance decidableFinal : (script : List Event) → Decidable (Final script)
  | [] => isTrue final_nil
  | _ :: script =>
    have := decidableFinal script
    decidable_of_iff' _ final_cons_iff

theorem Final.of_suffix {script rest : List Event} (final : Final script)
    (suffix : rest <:+ script) :
    Final rest := by
  obtain ⟨front, rfl⟩ := suffix
  intro before after split
  exact final (front ++ before) after (by rw [split, List.append_assoc])

section

variable {wanted : Nat} {held : Bytes} {script : List Event}

theorem gather_of_enough (enough : wanted ≤ held.length) :
    gather wanted held script = ⟨held.take wanted, .complete, held.drop wanted, script⟩ := by
  unfold gather
  exact if_pos (List.length_take_of_le enough)

theorem gather_of_short (short : held.length < wanted) :
    gather wanted held script =
      match script with
      | [] => ⟨held, .ended, [], []⟩
      | .chunk data :: rest => (gather (wanted - held.length) data rest).before held
      | .endOfData :: rest => ⟨held, .ended, [], rest⟩
      | .interrupt :: rest => (gather (wanted - held.length) [] rest).before held
      | .failure message :: rest => ⟨held, .failed message, [], rest⟩ := by
  conv_lhs => unfold gather
  rw [List.take_of_length_le (Nat.le_of_lt short)]
  exact if_neg (Nat.ne_of_lt short)

/-- Whatever came of gathering, it took what it has off the front of what was to come, and nothing
is lost in between. It falls short only at an end. -/
structure Gathered.Accounts (wanted : Nat) (held : Bytes) (script : List Event)
    (gathered : Gathered) : Prop where
  splits : held ++ pending script = gathered.bytes ++ (gathered.held ++ pending gathered.script)
  within : gathered.bytes.length ≤ wanted
  suffix : gathered.script <:+ script
  full : gathered.outcome = .complete → gathered.bytes.length = wanted
  ended : gathered.outcome = .ended → gathered.bytes.length < wanted ∧ gathered.held = [] ∧
    (gathered.script = [] ∨ .endOfData :: gathered.script <:+ script)

theorem Gathered.Accounts.before (event : Event) {gathered : Gathered}
    (short : held.length < wanted)
    (accounts : gathered.Accounts (wanted - held.length) event.data script) :
    (gathered.before held).Accounts wanted held (event :: script) where
  splits := by
    have split := accounts.splits
    simp only [Gathered.before, List.append_assoc, ← split]
    rfl
  within := by
    have within := accounts.within
    simp only [Gathered.before, List.length_append]
    omega
  suffix := accounts.suffix.trans (List.suffix_cons event script)
  full complete := by
    have full := accounts.full complete
    simp only [Gathered.before, List.length_append]
    omega
  ended done := by
    obtain ⟨few, empty, finished⟩ := accounts.ended done
    have later := List.suffix_cons event script
    refine ⟨?_, empty, finished.imp_right fun finished => finished.trans later⟩
    simp only [Gathered.before, List.length_append]
    omega

theorem accounts_of_enough (enough : wanted ≤ held.length) :
    (gather wanted held script).Accounts wanted held script := by
  rw [gather_of_enough enough]
  refine ⟨?_, List.length_take_le _ _, List.suffix_refl _, fun _ => List.length_take_of_le enough,
    nofun⟩
  rw [← List.append_assoc, List.take_append_drop]

theorem accounts_gather (wanted : Nat) (held : Bytes) (script : List Event) :
    (gather wanted held script).Accounts wanted held script := by
  induction script generalizing wanted held with
  | nil =>
    by_cases enough : wanted ≤ held.length
    · exact accounts_of_enough enough
    · have short : held.length < wanted := Nat.lt_of_not_le enough
      rw [gather_of_short short]
      exact ⟨rfl, Nat.le_of_lt short, List.suffix_refl _, nofun, fun _ => ⟨short, rfl, .inl rfl⟩⟩
  | cons event rest ih =>
    by_cases enough : wanted ≤ held.length
    · exact accounts_of_enough enough
    · have short : held.length < wanted := Nat.lt_of_not_le enough
      rw [gather_of_short short]
      cases event with
      | chunk data => exact (ih _ _).before (.chunk data) short
      | interrupt => exact (ih _ _).before .interrupt short
      | endOfData =>
        exact ⟨rfl, Nat.le_of_lt short, List.suffix_cons _ _, nofun,
          fun _ => ⟨short, rfl, .inr (List.suffix_refl _)⟩⟩
      | failure message =>
        exact ⟨rfl, Nat.le_of_lt short, List.suffix_cons _ _, nofun, nofun⟩

theorem brings_gather {script : List Event} {more : Bytes} (brings : Brings script more)
    (wanted : Nat) (held : Bytes) :
    let gathered := gather wanted held script
    ∃ later, Brings gathered.script later ∧
      (gathered.outcome = .complete ∨ gathered.outcome = .ended ∧ later = []) := by
  by_cases enough : wanted ≤ held.length
  · rw [gather_of_enough enough]
    exact ⟨more, brings, .inl rfl⟩
  · rw [gather_of_short (Nat.lt_of_not_le enough)]
    cases brings with
    | finished => exact ⟨[], .finished, .inr ⟨rfl, rfl⟩⟩
    | endOfData later => exact ⟨[], later, .inr ⟨rfl, rfl⟩⟩
    | chunk data later => exact brings_gather later _ data
    | interrupt later => exact brings_gather later _ []

end

variable {reader after : Reader} {wanted : Nat} {data bytes : Bytes}

theorem gathered_of_take (ran : take wanted reader = .ok bytes after) :
    let gathered := gather wanted reader.held reader.script
    (∀ message, gathered.outcome ≠ .failed message) ∧ gathered.bytes = bytes ∧
      ⟨gathered.held, gathered.script, reader.consumed + gathered.bytes.length⟩ = after := by
  unfold take at ran
  dsimp only at ran
  split at ran
  next => cases ran
  next answers =>
    cases ran
    exact ⟨answers, rfl, rfl⟩

/-- What a reader answers, it took off the front of what it had to give. If that is less than was
wanted, and an end stays the end, then nothing is left. -/
theorem of_take (ran : take wanted reader = .ok bytes after) :
    reader.unread = bytes ++ after.unread ∧ after.consumed = reader.consumed + bytes.length ∧
      bytes.length ≤ wanted ∧ (Final reader.script → Final after.script ∧
        (bytes.length < wanted → after.unread = [])) := by
  have accounts := accounts_gather wanted reader.held reader.script
  obtain ⟨answers, rfl, rfl⟩ := gathered_of_take ran
  simp only [unread_eq]
  refine ⟨accounts.splits, trivial, accounts.within, fun final =>
    ⟨final.of_suffix accounts.suffix, fun few => ?_⟩⟩
  cases outcome : (gather wanted reader.held reader.script).outcome with
  | complete => exact absurd (accounts.full outcome) (Nat.ne_of_lt few)
  | failed message => exact absurd outcome (answers message)
  | ended =>
    obtain ⟨-, empty, finished | ⟨before, finished⟩⟩ := accounts.ended outcome
    · rw [empty, finished]
      rfl
    · rw [empty, final before _ finished.symm]
      rfl

theorem take_of_delivers (delivers : reader.Delivers data) (wanted : Nat) : ∃ bytes rest after,
    take wanted reader = .ok bytes after ∧ data = bytes ++ rest ∧ after.Delivers rest ∧
      after.consumed = reader.consumed + bytes.length ∧
      (bytes.length = wanted ∨ bytes.length < wanted ∧ rest = []) := by
  obtain ⟨more, brings, rfl⟩ := delivers
  have accounts := accounts_gather wanted reader.held reader.script
  obtain ⟨later, left, ends⟩ := brings_gather brings wanted reader.held
  have splits := accounts.splits
  rw [brings.pending_eq, left.pending_eq] at splits
  let gathered := gather wanted reader.held reader.script
  let after : Reader :=
    ⟨gathered.held, gathered.script, reader.consumed + gathered.bytes.length⟩
  refine ⟨gathered.bytes, _, after, ?_, splits, ⟨later, left, rfl⟩, rfl, ?_⟩
  · unfold take
    rcases ends with complete | ⟨ended, -⟩
    · simp only [complete, gathered, after]
    · simp only [ended, gathered, after]
  · rcases ends with complete | ⟨ended, finished⟩
    · exact .inl (accounts.full complete)
    · obtain ⟨few, empty, -⟩ := accounts.ended ended
      exact .inr ⟨few, by rw [empty, finished]; rfl⟩

/-- What a reader took on the way from one state to another: just these bytes, which it counted. An
end stays the end. -/
structure Took (reader after : Reader) (front : Bytes) : Prop where
  unread : reader.unread = front ++ after.unread
  consumed : after.consumed = reader.consumed + front.length
  final : Final reader.script → Final after.script

namespace Took

theorem refl (reader : Reader) : Took reader reader [] :=
  ⟨rfl, rfl, id⟩

theorem trans {mid : Reader} {first second : Bytes} (former : Took reader mid first)
    (latter : Took mid after second) : Took reader after (first ++ second) where
  unread := by rw [former.unread, latter.unread, List.append_assoc]
  consumed := by rw [latter.consumed, former.consumed, List.length_append, Nat.add_assoc]
  final := latter.final ∘ former.final

end Took

theorem took_of_take (ran : take wanted reader = .ok bytes after) : Took reader after bytes := by
  obtain ⟨unread, consumed, -, ends⟩ := of_take ran
  exact ⟨unread, consumed, fun final => (ends final).1⟩

theorem of_readExactly {n : Nat} (ran : readExactly n reader = .ok bytes after) :
    Took reader after bytes ∧ bytes.length = n := by
  obtain ⟨found, mid, took, ran⟩ := Transfer.bind_eq_ok.1 ran
  split at ran
  next => cases ran
  next enough =>
    cases ran
    obtain ⟨-, -, within, -⟩ := of_take took
    exact ⟨took_of_take took, by omega⟩

/-- The next byte settles what becomes of reading on to a separator. -/
theorem readUntilFrom_of_byte {separator byte : UInt8} {mid : Reader}
    (first : readExactly 1 reader = .ok [byte] mid) (limit room : Nat) (seen : Bytes) :
    readUntilFrom separator limit room seen reader =
      if byte = separator then .ok seen.reverse mid
      else
        match room with
        | 0 => .error (.length (.noSeparator limit)) mid
        | room + 1 => readUntilFrom separator limit room (byte :: seen) mid := by
  conv_lhs => unfold readUntilFrom
  rw [Transfer.bind_of_ok first, List.headD_cons]
  by_cases same : byte = separator
  · rw [if_pos same, if_pos same]
    rfl
  · rw [if_neg same, if_neg same]
    cases room <;> rfl

theorem byte_of_readUntilFrom {separator : UInt8} {limit room : Nat} {seen : Bytes}
    (ran : readUntilFrom separator limit room seen reader = .ok bytes after) :
    ∃ byte mid, readExactly 1 reader = .ok [byte] mid ∧ Took reader mid [byte] := by
  unfold readUntilFrom at ran
  obtain ⟨found, mid, first, -⟩ := Transfer.bind_eq_ok.1 ran
  obtain ⟨took, single⟩ := of_readExactly first
  obtain ⟨byte, rfl⟩ := List.length_eq_one_iff.1 single
  exact ⟨byte, mid, first, took⟩

theorem of_readUntilFrom {separator : UInt8} {limit room : Nat} {seen : Bytes}
    (ran : readUntilFrom separator limit room seen reader = .ok bytes after) : ∃ own,
    bytes = seen.reverse ++ own ∧ separator ∉ own ∧ own.length ≤ room ∧
      Took reader after (own ++ [separator]) := by
  induction room generalizing seen reader with
  | zero =>
    obtain ⟨byte, mid, first, took⟩ := byte_of_readUntilFrom ran
    rw [readUntilFrom_of_byte first] at ran
    split at ran
    next same =>
      cases ran
      exact ⟨[], (List.append_nil _).symm, List.not_mem_nil, Nat.le_refl 0, same ▸ took⟩
    next => cases ran
  | succ room ih =>
    obtain ⟨byte, mid, first, took⟩ := byte_of_readUntilFrom ran
    rw [readUntilFrom_of_byte first] at ran
    split at ran
    next same =>
      cases ran
      exact ⟨[], (List.append_nil _).symm, List.not_mem_nil, Nat.zero_le _, same ▸ took⟩
    next different =>
      obtain ⟨own, rfl, absent, within, following⟩ := ih ran
      refine ⟨byte :: own, by simp, ?_, Nat.succ_le_succ within, took.trans following⟩
      exact List.not_mem_cons_of_ne_of_not_mem (Ne.symm different) absent

theorem of_readRemaining {limit : Nat} (ran : readRemaining limit reader = .ok bytes after) :
    Took reader after bytes ∧ bytes.length ≤ limit ∧
      (Final reader.script → after.unread = []) := by
  obtain ⟨found, mid, took, ran⟩ := Transfer.bind_eq_ok.1 ran
  split at ran
  next => cases ran
  next within =>
    cases ran
    obtain ⟨-, -, -, ends⟩ := of_take took
    exact ⟨took_of_take took, by omega, fun final => (ends final).2 (by omega)⟩

theorem readExactly_of_delivers {front rest : Bytes} (delivers : reader.Delivers (front ++ rest)) :
    ∃ after, readExactly front.length reader = .ok front after ∧ after.Delivers rest ∧
      after.consumed = reader.consumed + front.length := by
  obtain ⟨bytes, others, after, took, split, left, counted, full | ⟨few, finished⟩⟩ :=
    take_of_delivers delivers front.length
  · obtain ⟨rfl, rfl⟩ := List.append_inj split full.symm
    refine ⟨after, ?_, left, counted⟩
    unfold readExactly
    rw [Transfer.bind_of_ok took, if_neg (Nat.lt_irrefl _)]
    rfl
  · have lengths := congrArg List.length split
    rw [finished, List.append_nil, List.length_append] at lengths
    omega

theorem byte_of_delivers {byte : UInt8} {rest : Bytes} (delivers : reader.Delivers (byte :: rest)) :
    ∃ after, readExactly 1 reader = .ok [byte] after ∧ after.Delivers rest ∧
      after.consumed = reader.consumed + 1 :=
  @readExactly_of_delivers reader [byte] rest delivers

theorem starves_of_delivers {n : Nat} (delivers : reader.Delivers data) (short : data.length < n) :
    (readExactly n).Starves reader := by
  obtain ⟨bytes, rest, after, took, rfl, -, -, -⟩ := take_of_delivers delivers n
  rw [List.length_append] at short
  refine ⟨n, bytes.length, after, ?_⟩
  unfold readExactly
  rw [Transfer.bind_of_ok took, if_pos (by omega)]
  rfl

theorem readUntilFrom_of_delivers {separator : UInt8} {limit room : Nat} {seen rest : Bytes}
    (delivers : reader.Delivers (data ++ separator :: rest)) (absent : separator ∉ data)
    (within : data.length ≤ room) : ∃ after,
    readUntilFrom separator limit room seen reader = .ok (seen.reverse ++ data) after ∧
      after.Delivers rest ∧ after.consumed = reader.consumed + (data.length + 1) := by
  induction data generalizing reader room seen with
  | nil =>
    obtain ⟨after, first, left, counted⟩ := byte_of_delivers delivers
    refine ⟨after, ?_, left, counted⟩
    rw [readUntilFrom_of_byte first, if_pos rfl, List.append_nil]
  | cons byte data ih =>
    obtain ⟨different, absent⟩ := List.ne_and_not_mem_of_not_mem_cons absent
    obtain ⟨mid, first, left, counted⟩ := byte_of_delivers delivers
    cases room with
    | zero => cases within
    | succ room =>
      obtain ⟨after, ran, left, counted'⟩ :=
        @ih mid room (byte :: seen) left absent (Nat.le_of_succ_le_succ within)
      refine ⟨after, ?_, left, ?_⟩
      · rw [readUntilFrom_of_byte first, if_neg (Ne.symm different)]
        simpa using ran
      · simp only [counted', counted, List.length_cons]
        omega

theorem readUntilFrom_starves {separator : UInt8} {limit room : Nat} {seen : Bytes}
    (delivers : reader.Delivers data) (absent : separator ∉ data) (within : data.length ≤ room) :
    (readUntilFrom separator limit room seen).Starves reader := by
  induction data generalizing reader room seen with
  | nil =>
    have short := starves_of_delivers (n := 1) delivers Nat.one_pos
    unfold readUntilFrom
    exact short.bind
  | cons byte data ih =>
    obtain ⟨different, absent⟩ := List.ne_and_not_mem_of_not_mem_cons absent
    obtain ⟨mid, first, left, -⟩ := byte_of_delivers delivers
    cases room with
    | zero => cases within
    | succ room =>
      have later := @ih mid room (byte :: seen) left absent (Nat.le_of_succ_le_succ within)
      unfold Transfer.Starves
      rw [readUntilFrom_of_byte first, if_neg (Ne.symm different)]
      exact later

theorem readRemaining_of_delivers {limit : Nat} (delivers : reader.Delivers data)
    (within : data.length ≤ limit) : ∃ after,
    readRemaining limit reader = .ok data after ∧ after.Delivers [] ∧
      after.consumed = reader.consumed + data.length := by
  obtain ⟨bytes, rest, after, took, rfl, left, counted, full | ⟨few, rfl⟩⟩ :=
    take_of_delivers delivers (limit + 1)
  · rw [List.length_append] at within
    omega
  · rw [List.append_nil] at within ⊢
    refine ⟨after, ?_, left, counted⟩
    unfold readRemaining
    rw [Transfer.bind_of_ok took, if_neg (by omega)]
    rfl

instance : Supply Reader where
  Holds reader taken data := reader.Delivers data ∧ reader.consumed = taken
  readFixed_enough := fun ⟨delivers, counted⟩ => by
    subst counted
    exact readExactly_of_delivers delivers
  readFixed_short := fun ⟨delivers, _⟩ short => starves_of_delivers delivers short
  readUntil_found := fun ⟨delivers, counted⟩ absent within => by
    subst counted
    exact readUntilFrom_of_delivers delivers absent within
  readUntil_short := fun ⟨delivers, _⟩ absent within =>
    readUntilFrom_starves delivers absent within
  readRemaining_within := fun ⟨delivers, counted⟩ within => by
    subst counted
    exact readRemaining_of_delivers delivers within

theorem Delivers.holds (delivers : reader.Delivers data) :
    Supply.Holds reader reader.consumed data :=
  ⟨delivers, rfl⟩

end Wireform.Reader
