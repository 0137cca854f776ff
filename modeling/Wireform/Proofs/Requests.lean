import Wireform.Proofs.Alike
import Wireform.Proofs.Pairing

/-!
Reads asked of a source, one after the other, failing ones included. Two sources that give the same
answers to single reads, and stay related by them, give the same answers to any requests.
-/

namespace Wireform

inductive Primitive where
  | exactly (n : Nat)
  | upTo (separator : UInt8) (limit : Nat)
  | remaining (limit : Nat)
  deriving DecidableEq, Repr

namespace Primitive

def run {σ : Type} [Source σ] : Primitive → Transfer σ Bytes
  | exactly n => Source.readExactly n
  | upTo separator limit => Source.readUntil separator limit
  | remaining limit => Source.readRemaining limit

/-- What a read that answers has taken behind its answer. -/
def behind : Primitive → Bytes
  | upTo separator _ => [separator]
  | exactly _ | remaining _ => []

end Primitive

/-- A single read, or one that is made of some. -/
inductive Request where
  | primitive (read : Primitive)
  | fixed (n : Nat)
  | span (limit : Nat) (field : Descriptor)

namespace Request

def run {σ : Type} [Source σ] : Request → Transfer σ Bytes
  | primitive read => read.run
  | fixed n => Span.readFixed n
  | span limit field => Span.read limit field

section

variable {σ : Type} [Source σ]

def answers : List Request → σ → List (Except Fault Bytes)
  | [], _ => []
  | request :: rest, source => request.run.answer source :: answers rest (request.run.left source)

def after (requests : List Request) (source : σ) : σ :=
  requests.foldl (fun source request => request.run.left source) source

end

end Request

theorem Span.readFixed_apply {σ : Type} [Source σ] (n : Nat) (source : σ) :
    readFixed n source =
      if (Source.available? source).any (· < n) then
        .error (.insufficient n ((Source.available? source).getD 0)) source
      else Source.readExactly n source := by
  have known : (get : Transfer σ σ) source = .ok source source := rfl
  unfold readFixed
  rw [Transfer.bind_of_ok known]
  cases Source.available? source with
  | none => rfl
  | some available =>
    have few : (some available).any (· < n) = true ↔ available < n := decide_eq_true_iff
    by_cases short : available < n
    · rw [if_pos (few.2 short)]
      simp only [if_pos short]
      rfl
    · rw [if_neg (mt few.1 short)]
      simp only [if_neg short]

/-- A relation between sources that no read can tell apart, and that holds on after each. -/
structure Kept {σ τ : Type} [Source σ] [Source τ] (states : σ → τ → Prop) : Prop where
  available : ∀ source other, states source other →
    Source.available? source = Source.available? other
  read : ∀ read : Primitive,
    Transfer.Pairs states Eq Eq (read.run : Transfer σ Bytes) (read.run : Transfer τ Bytes)

namespace Kept

variable {σ τ : Type} [Source σ] [Source τ] {states : σ → τ → Prop}

theorem readFixed (kept : Kept states) (n : Nat) :
    Transfer.Pairs states Eq Eq (Span.readFixed n : Transfer σ Bytes)
      (Span.readFixed n : Transfer τ Bytes) := by
  intro source other same
  have reads := kept.read (.exactly n) source other same
  rw [Span.readFixed_apply, Span.readFixed_apply, kept.available source other same]
  split
  · exact .error rfl same
  · exact reads

/-- Whatever is made of reads goes along. -/
theorem pairs (kept : Kept states) {openEnded : Prop} {α : Type} {act : Transfer σ α}
    {act' : Transfer τ α} (alike : Alike openEnded act act') :
    Transfer.Pairs states Eq Eq act act' := by
  induction alike with
  | pure a => exact Transfer.pairs_pure rfl
  | throw fault => exact fun _ _ same => .error rfl same
  | readFixed n => exact kept.readFixed n
  | readUntil separator limit => exact kept.read (.upTo separator limit)
  | readRemaining allowed limit => exact kept.read (.remaining limit)
  | bind first second before after =>
    apply before.bind
    rintro a _ rfl
    exact after a

theorem run (kept : Kept states) (request : Request) :
    Transfer.Pairs states Eq Eq (request.run : Transfer σ Bytes)
      (request.run : Transfer τ Bytes) := by
  cases request with
  | primitive read => exact kept.read read
  | fixed n => exact kept.readFixed n
  | span limit field => exact kept.pairs (Span.alike_read limit fun _ => trivial)

theorem answers_eq (kept : Kept states) (requests : List Request) {source : σ} {other : τ}
    (same : states source other) :
    Request.answers requests source = Request.answers requests other ∧
      states (Request.after requests source) (Request.after requests other) := by
  induction requests generalizing source other with
  | nil => exact ⟨rfl, same⟩
  | cons request rest ih =>
    have ends := kept.run request source other same
    obtain ⟨answers, left⟩ := ih ends.left_matches
    exact ⟨congrArg₂ List.cons ends.answer_eq answers, left⟩

end Kept

end Wireform
