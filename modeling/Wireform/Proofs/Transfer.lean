import Mathlib.Data.List.Forall2
import Wireform.Marshaller

/-!
How actions on a stream compose, and what a walk does to its stream. A walk may also change the
plans that are kept; since those only ever repeat what resolving gives, each walk here does to the
stream what some action on the stream alone does, whatever plans were kept before.
-/

namespace Wireform

theorem Except.bind_eq_ok {α β : Type} {answer : Except Fault α} {next : α → Except Fault β}
    {b : β} :
    (answer >>= next) = .ok b ↔ ∃ a, answer = .ok a ∧ next a = .ok b := by
  cases answer <;> simp [bind, Except.bind]

theorem Except.check_bind_eq_ok {β : Type} {check : Except Fault Unit}
    {next : Unit → Except Fault β} {b : β} :
    (check >>= next) = .ok b ↔ check = .ok () ∧ next () = .ok b := by
  cases check <;> simp [bind, Except.bind]

theorem Except.map_eq_ok {ε α β : Type} {answer : Except ε α} {f : α → β} {b : β} :
    answer.map f = .ok b ↔ ∃ a, answer = .ok a ∧ f a = b := by
  cases answer <;> simp [Except.map]

theorem Except.mapM_eq_ok {α β : Type} {f : α → Except Fault β} {entries : List α}
    {answers : List β} :
    entries.mapM f = .ok answers ↔ List.Forall₂ (fun a b => f a = .ok b) entries answers := by
  induction entries generalizing answers with
  | nil => simp [pure, Except.pure, eq_comm]
  | cons a rest ih =>
    rw [List.mapM_cons, bind_eq_ok]
    apply Iff.intro
    · intro ⟨b, first, following⟩
      obtain ⟨others, later, same⟩ := bind_eq_ok.1 following
      cases same
      exact .cons first (ih.1 later)
    · rintro (_ | ⟨first, later⟩)
      exact ⟨_, first, bind_eq_ok.2 ⟨_, ih.2 later, rfl⟩⟩

theorem Except.exists_of_mapM {α β : Type} {f : α → Except Fault β} {entries : List α}
    {answers : List β} (ran : entries.mapM f = .ok answers) {a : α} (member : a ∈ entries) :
    ∃ b, f a = .ok b := by
  have each := mapM_eq_ok.1 ran
  clear ran
  induction each with
  | nil => cases member
  | cons first _ ih =>
    cases member with
    | head => exact ⟨_, first⟩
    | tail _ later => exact ih later

namespace Transfer

variable {σ τ α β γ : Type}

@[simp] theorem ofExcept_ok (a : α) : (ofExcept (.ok a) : Transfer σ α) = pure a := rfl

theorem ofExcept_bind (answer : Except Fault α) (next : α → Except Fault β) :
    (ofExcept (answer >>= next) : Transfer σ β) =
      ofExcept answer >>= fun a => ofExcept (next a) := by
  cases answer <;> rfl

theorem bind_of_ok {act : Transfer σ α} {next : α → Transfer σ β} {state mid : σ} {a : α}
    (first : act state = .ok a mid) : (act >>= next) state = next a mid := by
  simp only [bind, EStateM.bind, first]

theorem bind_of_error {act : Transfer σ α} {next : α → Transfer σ β} {state mid : σ}
    {fault : Fault} (first : act state = .error fault mid) :
    (act >>= next) state = .error fault mid := by
  simp only [bind, EStateM.bind, first]

theorem bind_eq_ok {act : Transfer σ α} {next : α → Transfer σ β} {state after : σ} {b : β} :
    (act >>= next) state = .ok b after ↔
      ∃ a mid, act state = .ok a mid ∧ next a mid = .ok b after := by
  apply Iff.intro
  · intro ran
    cases first : act state with
    | ok a mid => exact ⟨a, mid, rfl, by rw [← ran, bind_of_ok first]⟩
    | error fault mid => rw [bind_of_error first] at ran; cases ran
  · intro ⟨a, mid, first, second⟩
    rw [bind_of_ok first, second]

theorem bind_eq_error {act : Transfer σ α} {next : α → Transfer σ β} {state after : σ}
    {fault : Fault} : (act >>= next) state = .error fault after ↔
      act state = .error fault after ∨
        ∃ a mid, act state = .ok a mid ∧ next a mid = .error fault after := by
  cases first : act state with
  | ok a mid => simp [bind_of_ok first]
  | error cause mid => simp [bind_of_error first]

theorem map_of_ok {act : Transfer σ α} {f : α → β} {state after : σ} {a : α}
    (first : act state = .ok a after) : (f <$> act) state = .ok (f a) after := by
  simp only [Functor.map, EStateM.map, first]

theorem map_of_error {act : Transfer σ α} {f : α → β} {state after : σ} {fault : Fault}
    (first : act state = .error fault after) : (f <$> act) state = .error fault after := by
  simp only [Functor.map, EStateM.map, first]

theorem map_eq_ok {act : Transfer σ α} {f : α → β} {state after : σ} {b : β} :
    (f <$> act) state = .ok b after ↔ ∃ a, act state = .ok a after ∧ f a = b := by
  apply Iff.intro
  · intro ran
    cases first : act state with
    | ok a mid => rw [map_of_ok first] at ran; cases ran; exact ⟨a, rfl, rfl⟩
    | error fault mid => rw [map_of_error first] at ran; cases ran
  · intro ⟨a, first, same⟩
    subst same
    exact map_of_ok first

theorem map_eq_error {act : Transfer σ α} {f : α → β} {state after : σ} {fault : Fault} :
    (f <$> act) state = .error fault after ↔ act state = .error fault after := by
  refine ⟨fun ran => ?_, map_of_error⟩
  cases first : act state with
  | ok a mid => rw [map_of_ok first] at ran; cases ran
  | error fault mid => rw [map_of_error first] at ran; cases ran; rfl

theorem ofExcept_eq_ok {answer : Except Fault α} {state after : σ} {a : α} :
    (ofExcept answer : Transfer σ α) state = .ok a after ↔ answer = .ok a ∧ state = after := by
  cases answer with
  | ok b => simp [pure, EStateM.pure]
  | error fault =>
    refine ⟨fun ran => ?_, fun ⟨given, _⟩ => ?_⟩
    · cases ran
    · cases given

theorem ofExcept_eq_error {answer : Except Fault α} {state after : σ} {fault : Fault} :
    (ofExcept answer : Transfer σ α) state = .error fault after ↔
      answer = .error fault ∧ state = after := by
  cases answer with
  | ok a => simp [pure, EStateM.pure]
  | error cause =>
    refine ⟨fun ran => ?_, fun ⟨given, same⟩ => ?_⟩
    · cases ran
      exact ⟨rfl, rfl⟩
    · cases given
      cases same
      rfl

theorem eq_ok_of_answer {act : Transfer σ α} {state : σ} {a : α}
    (answered : act.answer state = .ok a) : act state = .ok a (act.left state) := by
  unfold answer at answered
  unfold left
  cases ran : act state with
  | ok b after => rw [ran] at answered; cases answered; rfl
  | error fault after => rw [ran] at answered; cases answered

theorem within_eq_ok {act : Transfer σ α} {wrap : σ → τ} {state : σ} {a : α} {after : τ} :
    act.within wrap state = .ok a after ↔ ∃ rest, act state = .ok a rest ∧ wrap rest = after := by
  unfold within
  cases act state <;> simp

theorem within_eq_error {act : Transfer σ α} {wrap : σ → τ} {state : σ} {fault : Fault}
    {after : τ} : act.within wrap state = .error fault after ↔
      ∃ rest, act state = .error fault rest ∧ wrap rest = after := by
  unfold within
  cases act state <;> simp

end Transfer

theorem Settings.answer_plan (settings : Settings) (schema : Schema) (version : Nat)
    (plans : PlanCache) : (settings.plan schema version).answer plans = schema.resolve version := by
  unfold Settings.plan
  split
  · exact PlanCache.obtain_answer schema version plans
  · cases schema.resolve version <;> rfl

namespace Walk

variable {σ α β ι : Type}

/-- The walk does to the stream what the action does, whatever plans are kept. -/
def Follows (walk : Walk σ α) (act : Transfer σ α) : Prop :=
  ∀ plans stream, ∃ after, walk ⟨plans, stream⟩ = act.within (State.mk after) stream

namespace Follows

theorem pure (a : α) : Follows (Pure.pure a : Walk σ α) (Pure.pure a) :=
  fun plans _ => ⟨plans, rfl⟩

theorem bind {walk : Walk σ α} {act : Transfer σ α} {next : α → Walk σ β}
    {then_ : α → Transfer σ β} (first : Follows walk act)
    (second : ∀ a, Follows (next a) (then_ a)) : Follows (walk >>= next) (act >>= then_) := by
  intro plans stream
  obtain ⟨mid, same⟩ := first plans stream
  cases ran : act stream with
  | error fault rest =>
    simp only [Transfer.within, ran] at same
    exact ⟨mid, by rw [Transfer.bind_of_error same, Transfer.within, Transfer.bind_of_error ran]⟩
  | ok a rest =>
    simp only [Transfer.within, ran] at same
    obtain ⟨after, same'⟩ := second a mid rest
    refine ⟨after, ?_⟩
    rw [Transfer.bind_of_ok same, same', Transfer.within, Transfer.within,
      Transfer.bind_of_ok ran]

theorem map {walk : Walk σ α} {act : Transfer σ α} (f : α → β) (follows : Follows walk act) :
    Follows (f <$> walk) (f <$> act) := by
  simp only [map_eq_pure_bind]
  exact follows.bind fun a => pure (f a)

theorem of_error {walk : Walk σ α} {act : Transfer σ α} (follows : Follows walk act)
    {state after : State σ} {fault : Fault} (failed : walk state = .error fault after) :
    act state.stream = .error fault after.stream := by
  obtain ⟨kept, same⟩ := follows state.plans state.stream
  obtain ⟨rest, cause, rfl⟩ := Transfer.within_eq_error.1 (same.symm.trans failed)
  exact cause

theorem onStream (act : Transfer σ α) : Follows (onStream act) act := by
  intro plans stream
  refine ⟨plans, ?_⟩
  simp only [Walk.onStream, Transfer.focus, Transfer.within]

theorem of_eq {act other : Transfer σ α} (same : act = other) : Follows (Walk.onStream act) other :=
  same ▸ onStream act

theorem plan (settings : Settings) (schema : Schema) (version : Nat) :
    Follows (onPlans (settings.plan schema version) : Walk σ Plan)
      (Transfer.ofExcept (schema.resolve version)) := by
  intro plans stream
  have same := settings.answer_plan schema version plans
  unfold Transfer.answer at same
  refine ⟨(settings.plan schema version).left plans, ?_⟩
  unfold onPlans Transfer.focus Transfer.within Transfer.left
  cases ran : settings.plan schema version plans with
  | ok plan after => rw [ran] at same; rw [← same]; rfl
  | error fault after => rw [ran] at same; rw [← same]; rfl

theorem ofPlan {settings : Settings} {schema : Schema} {version : Nat} {next : Plan → Walk σ α}
    {act : Plan → Transfer σ α}
    (each : ∀ plan, schema.resolve version = .ok plan → Follows (next plan) (act plan)) :
    Follows (onPlans (settings.plan schema version) >>= next)
      (Transfer.ofExcept (schema.resolve version) >>= act) := by
  have asked : Follows (onPlans (settings.plan schema version) : Walk σ Plan) _ :=
    plan settings schema version
  cases resolved : schema.resolve version with
  | error fault =>
    rw [resolved] at asked
    intro plans stream
    obtain ⟨after, same⟩ := asked plans stream
    exact ⟨after, Transfer.bind_of_error same⟩
  | ok found =>
    rw [resolved] at asked
    intro plans stream
    obtain ⟨mid, same⟩ := asked plans stream
    obtain ⟨after, same'⟩ := each found resolved mid stream
    exact ⟨after, by rw [Transfer.bind_of_ok same]; exact same'⟩

theorem foldlM {step : α → ι → Walk σ α} {act : α → ι → Transfer σ α}
    (each : ∀ a i, Follows (step a i) (act a i)) (entries : List ι) (a : α) :
    Follows (entries.foldlM step a) (entries.foldlM act a) := by
  induction entries generalizing a with
  | nil => exact pure a
  | cons entry rest ih =>
    simp only [List.foldlM_cons]
    exact (each a entry).bind ih

end Follows

end Walk

namespace Marshaller

open Walk

def setting (marshaller : Marshaller) (version : Nat) : Setting :=
  ⟨marshaller.settings, marshaller.registry, version⟩

theorem walk_eq {σ α : Type} {marshaller : Marshaller} {version : Nat} {plain : Transfer σ α}
    (act : Setting → Walk σ α) (follows : Follows (act (marshaller.setting version)) plain)
    (stream : σ) : ∃ after, walk version act (marshaller, stream) =
      plain.within (fun rest => ({ marshaller with plans := after }, rest)) stream := by
  obtain ⟨after, same⟩ := follows marshaller.plans stream
  refine ⟨after, ?_⟩
  unfold walk
  simp only [setting] at same
  simp only [same, Transfer.within]
  cases plain stream <;> rfl

end Marshaller

end Wireform
