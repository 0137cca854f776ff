import Wireform.Plan
import Wireform.Settings
import Wireform.Stream.Transfer

/-!
Plans kept once they are resolved, by record type and version. What fails to resolve is not kept,
and what is kept is what resolving would give again, so a cache changes no answer.
-/

namespace Wireform

structure PlanCache where
  /-- Latest plan first. -/
  entries : List ((Schema × Nat) × Plan)
  resolved : ∀ entry ∈ entries, entry.1.1.resolve entry.1.2 = .ok entry.2
  deriving DecidableEq

namespace PlanCache

def empty : PlanCache :=
  ⟨[], nofun⟩

def find? (cache : PlanCache) (schema : Schema) (version : Nat) : Option Plan :=
  cache.entries.lookup (schema, version)

def contains (cache : PlanCache) (schema : Schema) (version : Nat) : Bool :=
  (cache.find? schema version).isSome

def size (cache : PlanCache) : Nat :=
  cache.entries.length

def isEmpty (cache : PlanCache) : Bool :=
  cache.entries.isEmpty

def insert (cache : PlanCache) (schema : Schema) (version : Nat) (plan : Plan)
    (same : schema.resolve version = .ok plan) : PlanCache :=
  ⟨((schema, version), plan) :: cache.entries, by
    intro entry member
    rcases List.mem_cons.1 member with rfl | member
    · exact same
    · exact cache.resolved entry member⟩

/-- The plan kept, or else the one resolved now, which is kept from then on. -/
def obtain (schema : Schema) (version : Nat) : Transfer PlanCache Plan := fun cache =>
  match cache.find? schema version with
  | some plan => .ok plan cache
  | none =>
    match same : schema.resolve version with
    | .ok plan => .ok plan (cache.insert schema version plan same)
    | .error fault => .error fault cache

theorem resolve_of_find? {cache : PlanCache} {schema : Schema} {version : Nat} {plan : Plan}
    (found : cache.find? schema version = some plan) : schema.resolve version = .ok plan := by
  obtain ⟨before, after, split, _⟩ := List.lookup_eq_some_iff.1 found
  exact cache.resolved ((schema, version), plan) (by simp [split])

theorem obtain_answer (schema : Schema) (version : Nat) (cache : PlanCache) :
    (obtain schema version).answer cache = schema.resolve version := by
  unfold Transfer.answer obtain
  cases found : cache.find? schema version with
  | some plan => exact (resolve_of_find? found).symm
  | none =>
    simp only
    split
    next plan state kept => split at kept <;> cases kept; exact .symm ‹_›
    next fault state kept => split at kept <;> cases kept; exact .symm ‹_›

def describe (cache : PlanCache) : String :=
  "PlanCache \x7b plans: " ++ toString cache.size ++ " \x7d"

end PlanCache

def Settings.plan (settings : Settings) (schema : Schema) (version : Nat) :
    Transfer PlanCache Plan :=
  if settings.cachePlans then PlanCache.obtain schema version
  else Transfer.ofExcept (schema.resolve version)

end Wireform
