import Wireform.PlanCache
import Wireform.Registry

/-!
Walking through a record in the order of its plan, against one stream. The first fault ends the
walk and leaves the stream where it stands.
-/

namespace Wireform

namespace Walk

structure Setting where
  settings : Settings
  registry : Registry
  version : Nat

structure State (σ : Type) where
  plans : PlanCache
  stream : σ

end Walk

abbrev Walk (σ α : Type) := Transfer (Walk.State σ) α

namespace Walk

def onStream {σ α : Type} (act : Transfer σ α) : Walk σ α :=
  act.focus State.stream fun stream state => { state with stream := stream }

def onPlans {σ α : Type} (act : Transfer PlanCache α) : Walk σ α :=
  act.focus State.plans fun plans state => { state with plans := plans }

end Walk

end Wireform
