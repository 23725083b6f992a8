import ProcMachines.Transition

/-! Simulations between labelled systems: what a run of the one shows, a run of the other
shows too, though it may take more or fewer steps. -/
namespace ProcMachines
namespace Transition

variable {S T E F V : Type}

/-- Every step of the first system is matched by a run of the second that shows the same. -/
structure Simulation (step : S → E → S → Prop) (step' : T → F → T → Prop) (view : E → List V)
    (view' : F → List V) (rel : S → T → Prop) : Prop where
  matched : ∀ s e s' t, rel s t → step s e s' →
    ∃ fs t', Run step' t fs t' ∧ fs.flatMap view' = view e ∧ rel s' t'

variable {step : S → E → S → Prop} {step' : T → F → T → Prop} {view : E → List V}
  {view' : F → List V} {rel : S → T → Prop} {s s' : S} {t : T} {es : List E}

/-- A whole run is matched by one that shows the same. -/
theorem Simulation.run (h : Simulation step step' view view' rel) (hrel : rel s t)
    (hs : Run step s es s') :
    ∃ fs t', Run step' t fs t' ∧ fs.flatMap view' = es.flatMap view ∧ rel s' t' := by
  induction hs with
  | refl => exact ⟨[],t,Run.refl t,rfl,hrel⟩
  | snoc _ hstep ih =>
    obtain ⟨fs,t₁,hrun,hshown,hrel₁⟩ := ih
    obtain ⟨gs,t₂,hrun₂,hshown₂,hrel₂⟩ := h.matched _ _ _ _ hrel₁ hstep
    refine ⟨fs ++ gs,t₂,hrun.trans hrun₂,?_,hrel₂⟩
    rw [List.flatMap_append,List.flatMap_append,hshown,hshown₂,List.flatMap_singleton]

end Transition
end ProcMachines
