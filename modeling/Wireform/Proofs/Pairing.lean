import Wireform.Proofs.Transfer

/-!
Two actions side by side. From states that match, both answer or both fail, and what they answer,
what they fail with and where they leave off match again. What it means to match is up to three
relations, so one set of rules serves runs that differ in their settings, in what they keep besides
the stream, or in what they are given to work on.
-/

namespace Wireform

namespace Except

variable {α β γ δ : Type} {answers : α → β → Prop} {further : γ → δ → Prop}
  {faults : Fault → Fault → Prop}

/-- Both computations answer or both fail, with what matches. -/
inductive Pairs (answers : α → β → Prop) (faults : Fault → Fault → Prop) :
    Except Fault α → Except Fault β → Prop where
  | ok {a : α} {b : β} (given : answers a b) : Pairs answers faults (.ok a) (.ok b)
  | error {fault other : Fault} (failed : faults fault other) :
    Pairs answers faults (.error fault) (.error other)

theorem Pairs.bind {answer : Except Fault α} {answer' : Except Fault β}
    {next : α → Except Fault γ} {next' : β → Except Fault δ}
    (first : Pairs answers faults answer answer')
    (second : ∀ a b, answers a b → Pairs further faults (next a) (next' b)) :
    Pairs further faults (answer >>= next) (answer' >>= next') := by
  cases first with
  | ok given => exact second _ _ given
  | error failed => exact .error failed

theorem Pairs.mono {answers' : α → β → Prop} {answer : Except Fault α} {answer' : Except Fault β}
    (pairs : Pairs answers faults answer answer') (given : ∀ a b, answers a b → answers' a b) :
    Pairs answers' faults answer answer' := by
  cases pairs with
  | ok same => exact .ok (given _ _ same)
  | error failed => exact .error failed

theorem Pairs.map {answer : Except Fault α} {answer' : Except Fault β} {f : α → γ} {g : β → δ}
    (first : Pairs answers faults answer answer')
    (maps : ∀ a b, answers a b → further (f a) (g b)) :
    Pairs further faults (answer.map f) (answer'.map g) := by
  cases first with
  | ok given => exact .ok (maps _ _ given)
  | error failed => exact .error failed

theorem pairs_refl (reflexive : ∀ fault, faults fault fault) (answer : Except Fault α) :
    Pairs Eq faults answer answer := by
  cases answer with
  | ok a => exact .ok rfl
  | error fault => exact .error (reflexive fault)

section

variable {answer : Except Fault α} {answer' : Except Fault β}

theorem cases_of_isOk_iff (both : (∃ a, answer = .ok a) ↔ ∃ b, answer' = .ok b) :
    (∃ a b, answer = .ok a ∧ answer' = .ok b) ∨
      ∃ fault fault', answer = .error fault ∧ answer' = .error fault' := by
  cases answer with
  | ok a =>
    obtain ⟨b, given⟩ := both.1 ⟨a, rfl⟩
    exact .inl ⟨a, b, rfl, given⟩
  | error fault =>
    cases answer' with
    | ok b =>
      obtain ⟨_, given⟩ := both.2 ⟨b, rfl⟩
      cases given
    | error fault' => exact .inr ⟨fault, fault', rfl, rfl⟩

theorem pairs_of_isOk_iff (both : (∃ a, answer = .ok a) ↔ ∃ b, answer' = .ok b)
    (failed : ∀ fault fault', faults fault fault') :
    Pairs (fun a b => answer = .ok a ∧ answer' = .ok b) faults answer answer' := by
  rcases cases_of_isOk_iff both with ⟨a, b, rfl, rfl⟩ | ⟨fault, fault', rfl, rfl⟩
  · exact .ok ⟨rfl, rfl⟩
  · exact .error (failed fault fault')

end

theorem pairs_of_eq_ok_iff {answer answer' : Except Fault α}
    (both : ∀ a, answer = .ok a ↔ answer' = .ok a) (failed : ∀ fault fault', faults fault fault') :
    Pairs Eq faults answer answer' := by
  refine (pairs_of_isOk_iff (exists_congr both) failed).mono fun a b ⟨given, given'⟩ => ?_
  exact Except.ok.inj (((both a).1 given).symm.trans given')

end Except

namespace Transfer

variable {σ τ α β γ δ ι : Type} {states : σ → τ → Prop} {answers : α → β → Prop}
  {further : γ → δ → Prop} {faults : Fault → Fault → Prop}

/-- Both runs have answered or both have failed, with what matches. -/
inductive Ends (states : σ → τ → Prop) (answers : α → β → Prop) (faults : Fault → Fault → Prop) :
    EStateM.Result Fault σ α → EStateM.Result Fault τ β → Prop where
  | ok {a : α} {b : β} {after : σ} {after' : τ} (given : answers a b)
    (left : states after after') : Ends states answers faults (.ok a after) (.ok b after')
  | error {fault other : Fault} {after : σ} {after' : τ} (failed : faults fault other)
    (left : states after after') : Ends states answers faults (.error fault after)
      (.error other after')

/-- From states that match, both actions end with what matches. -/
def Pairs (states : σ → τ → Prop) (answers : α → β → Prop) (faults : Fault → Fault → Prop)
    (act : Transfer σ α) (act' : Transfer τ β) : Prop :=
  ∀ state state', states state state' → Ends states answers faults (act state) (act' state')

theorem Ends.mono {states' : σ → τ → Prop} {answers' : α → β → Prop}
    {faults' : Fault → Fault → Prop} {result : EStateM.Result Fault σ α}
    {result' : EStateM.Result Fault τ β} (ends : Ends states answers faults result result')
    (left : ∀ s t, states s t → states' s t) (given : ∀ a b, answers a b → answers' a b)
    (failed : ∀ fault other, faults fault other → faults' fault other) :
    Ends states' answers' faults' result result' := by
  cases ends with
  | ok same after => exact .ok (given _ _ same) (left _ _ after)
  | error same after => exact .error (failed _ _ same) (left _ _ after)

theorem Ends.within {υ ω : Type} {states' : υ → ω → Prop} {act : Transfer σ α} {act' : Transfer τ β}
    {state : σ} {state' : τ} {wrap : σ → υ} {wrap' : τ → ω}
    (ends : Ends states answers faults (act state) (act' state'))
    (wraps : ∀ left left', states left left' → states' (wrap left) (wrap' left')) :
    Ends states' answers faults (act.within wrap state) (act'.within wrap' state') := by
  simp only [Transfer.within]
  generalize act state = result, act' state' = result' at ends
  cases ends with
  | ok given left => exact .ok given (wraps _ _ left)
  | error failed left => exact .error failed (wraps _ _ left)

theorem Ends.answer_eq {act : Transfer σ α} {act' : Transfer τ α} {state : σ} {state' : τ}
    (ends : Ends states Eq Eq (act state) (act' state')) :
    act.answer state = act'.answer state' := by
  unfold answer
  generalize act state = result, act' state' = result' at ends
  cases ends with
  | ok same => rw [same]
  | error same => rw [same]

theorem Ends.left_matches {act : Transfer σ α} {act' : Transfer τ β} {state : σ} {state' : τ}
    (ends : Ends states answers faults (act state) (act' state')) :
    states (act.left state) (act'.left state') := by
  unfold Transfer.left
  generalize act state = result, act' state' = result' at ends
  cases ends with
  | ok _ after => exact after
  | error _ after => exact after

theorem Pairs.mono {answers' : α → β → Prop} {faults' : Fault → Fault → Prop}
    {act : Transfer σ α} {act' : Transfer τ β} (pairs : Pairs states answers faults act act')
    (given : ∀ a b, answers a b → answers' a b)
    (failed : ∀ fault other, faults fault other → faults' fault other) :
    Pairs states answers' faults' act act' :=
  fun state state' same => (pairs state state' same).mono (fun _ _ => id) given failed

theorem pairs_refl (reflexive : ∀ fault, faults fault fault) (act : Transfer σ α) :
    Pairs Eq Eq faults act act := by
  rintro state _ rfl
  cases act state with
  | ok a after => exact .ok rfl rfl
  | error fault after => exact .error (reflexive fault) rfl

theorem pairs_pure {a : α} {b : β} (given : answers a b) :
    Pairs states answers faults (pure a) (pure b) :=
  fun _ _ same => .ok given same

theorem Pairs.bind {act : Transfer σ α} {act' : Transfer τ β} {next : α → Transfer σ γ}
    {next' : β → Transfer τ δ} (first : Pairs states answers faults act act')
    (second : ∀ a b, answers a b → Pairs states further faults (next a) (next' b)) :
    Pairs states further faults (act >>= next) (act' >>= next') := by
  intro state state' same
  have ends := first state state' same
  simp only [Bind.bind, EStateM.bind]
  generalize act state = result, act' state' = result' at ends
  cases ends with
  | ok given left => exact second _ _ given _ _ left
  | error failed left => exact .error failed left

theorem Pairs.map_left {act : Transfer σ α} {act' : Transfer τ δ} {f : α → γ}
    {given : α → δ → Prop} (first : Pairs states given faults act act')
    (maps : ∀ a b, given a b → further (f a) b) :
    Pairs states further faults (act >>= fun a => pure (f a)) act' := by
  rw [← bind_pure act']
  exact first.bind fun a b same => pairs_pure (maps a b same)

theorem pairs_ofExcept {answer : Except Fault α} {answer' : Except Fault β}
    (same : Except.Pairs answers faults answer answer') :
    Pairs states answers faults (ofExcept answer) (ofExcept answer') := by
  intro state state' met
  cases same with
  | ok given => exact .ok given met
  | error failed => exact .error failed met

theorem ofExcept_foldlM (step : α → ι → Except Fault α) (entries : List ι) (a : α) :
    (ofExcept (entries.foldlM step a) : Transfer σ α) =
      entries.foldlM (fun a entry => ofExcept (step a entry)) a := by
  induction entries generalizing a with
  | nil => rfl
  | cons entry rest ih =>
    rw [List.foldlM_cons, List.foldlM_cons, ofExcept_bind]
    congr 1
    funext b
    exact ih b

theorem pairs_foldlM {step : α → ι → Transfer σ α} {step' : β → ι → Transfer τ β}
    {entries : List ι}
    (each : ∀ entry ∈ entries, ∀ a b, answers a b →
      Pairs states answers faults (step a entry) (step' b entry))
    {a : α} {b : β} (given : answers a b) :
    Pairs states answers faults (entries.foldlM step a) (entries.foldlM step' b) := by
  induction entries generalizing a b with
  | nil => exact pairs_pure given
  | cons entry rest ih =>
    simp only [List.foldlM_cons]
    refine (each entry (List.mem_cons_self ..) a b given).bind fun a' b' given' => ?_
    exact ih (fun other member => each other (List.mem_cons_of_mem _ member)) given'

end Transfer

end Wireform
