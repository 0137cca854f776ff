import Wireform.Proofs.Locality

/-!
One way of reading on two kinds of source. Whatever a record needs is read by three kinds of read,
one after the other, and which one comes next depends on what was read before and on nothing else
about the source. So what is known of the three on two kinds of source is known of whole records.
-/

namespace Wireform

open Cursor

/-- The same reads on two kinds of source, one after the other. Whether a read may take all that is
left is up to `openEnded`. -/
inductive Alike {σ τ : Type} [Source σ] [Source τ] (openEnded : Prop) :
    {α : Type} → Transfer σ α → Transfer τ α → Prop where
  | pure {α : Type} (a : α) : Alike openEnded (Pure.pure a) (Pure.pure a)
  | throw {α : Type} (fault : Fault) :
    Alike openEnded (MonadExcept.throw fault : Transfer σ α) (MonadExcept.throw fault)
  | readFixed (n : Nat) : Alike openEnded (Span.readFixed n) (Span.readFixed n)
  | readUntil (separator : UInt8) (limit : Nat) :
    Alike openEnded (Source.readUntil separator limit) (Source.readUntil separator limit)
  | readRemaining (allowed : openEnded) (limit : Nat) :
    Alike openEnded (Source.readRemaining limit) (Source.readRemaining limit)
  | bind {α β : Type} {act : Transfer σ α} {act' : Transfer τ α} {next : α → Transfer σ β}
    {next' : α → Transfer τ β} (first : Alike openEnded act act')
    (second : ∀ a, Alike openEnded (next a) (next' a)) :
    Alike openEnded (act >>= next) (act' >>= next')

section

variable {σ τ : Type} [Source σ] [Source τ] {openEnded : Prop}

namespace Alike

theorem ofExcept {α : Type} (answer : Except Fault α) :
    Alike openEnded (Transfer.ofExcept answer : Transfer σ α)
      (Transfer.ofExcept answer : Transfer τ α) := by
  cases answer with
  | ok a => exact .pure a
  | error fault => exact .throw fault

theorem forward {α : Type} {act : Transfer Cursor α} {act' : Transfer τ α}
    (alike : Alike openEnded act act') : Forward act := by
  induction alike with
  | pure a => exact forward_pure a
  | throw fault => exact forward_throw fault
  | readFixed n => exact forward_readFixed n
  | readUntil separator limit => exact forward_readUntil separator limit
  | readRemaining allowed limit => exact forward_readRemaining limit
  | bind first second before after => exact forward_bind before after

end Alike

theorem Span.alike_read (limit : Nat) {field : Descriptor}
    (opens : field.mode = .remaining → openEnded) :
    Alike openEnded (read limit field : Transfer σ Bytes)
      (read limit field : Transfer τ Bytes) := by
  unfold read
  cases mode : field.mode with
  | fixed => exact .bind (.ofExcept _) .readFixed
  | counted width =>
    refine .bind (.ofExcept _) fun _ => .bind (.readFixed width) fun count => ?_
    dsimp only
    split
    · exact .throw _
    · exact .readFixed _
  | terminated separator => exact .readUntil separator limit
  | remaining => exact .readRemaining (opens mode) limit

theorem Codec.alike_readSpan (codec : Codec) (limit : Nat) {field : Descriptor}
    (opens : field.mode = .remaining → openEnded) :
    Alike openEnded (codec.readSpan limit field : Transfer σ Bytes)
      (codec.readSpan limit field : Transfer τ Bytes) := by
  cases codec with
  | byte | word | dword => exact .bind (.ofExcept _) fun _ => .readFixed _
  | bytes | bcd | string => exact Span.alike_read limit opens

namespace Leaf

variable (setting : Walk.Setting)

theorem alike_readSpan {leaf : Leaf FieldType} (opens : Open (.ok leaf) → openEnded) :
    Alike openEnded (leaf.readSpan setting : Transfer σ Bytes)
      (leaf.readSpan setting : Transfer τ Bytes) := by
  cases leaf with
  | scalar descriptor type =>
    exact .bind (.ofExcept _) fun codec => codec.alike_readSpan _ opens
  | packed record length bits => exact .readFixed length

theorem alike_readAll {steps : List (Except Fault (Leaf FieldType))}
    (opens : ∀ step ∈ steps, Open step → openEnded) :
    Alike openEnded (readAll setting steps : Transfer σ (List Bytes))
      (readAll setting steps : Transfer τ (List Bytes)) := by
  induction steps with
  | nil => exact .pure []
  | cons step rest ih =>
    have others := ih fun other member => opens other (List.mem_cons_of_mem _ member)
    cases step with
    | error fault => exact .throw fault
    | ok leaf =>
      simp only [readAll, Transfer.ofExcept_ok, pure_bind]
      refine .bind (.bind ?_ fun span => ?_) fun span => .bind others fun spans => .pure _
      · exact alike_readSpan setting (opens _ (List.mem_cons_self ..))
      · exact .bind (.ofExcept _) fun _ => .pure span

end Leaf

end

end Wireform
