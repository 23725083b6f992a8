import Mathlib.Tactic

/-! Labelled transition systems: finite runs and the rules that carry a property
from one step to a whole run. -/
namespace ProcMachines
namespace Transition

variable {S E : Type}

/-- A finite run of a labelled step relation, with its labels in order. -/
inductive Run (step : S → E → S → Prop) : S → List E → S → Prop
  | refl (s) : Run step s [] s
  | snoc {s t u es e} : Run step s es t → step t e u → Run step s (es ++ [e]) u

/-- The steps of a system that start in a state and take a label the guard allows. -/
def guarded (guard : S → E → Prop) (step : S → E → S → Prop) (s : S) (e : E) (t : S) : Prop :=
  guard s e ∧ step s e t

namespace Run

variable {step : S → E → S → Prop}

theorem single {s t : S} {e : E} (h : step s e t) : Run step s [e] t :=
  Run.snoc (Run.refl s) h

theorem trans {s t u : S} {es fs : List E} (h : Run step s es t) (k : Run step t fs u) :
    Run step s (es ++ fs) u := by
  induction k with
  | refl => simpa using h
  | snoc _ hstep ih => simpa [List.append_assoc] using Run.snoc ih hstep

theorem snoc_inv {s u : S} {es : List E} {e : E} (h : Run step s (es ++ [e]) u) :
    ∃ t, Run step s es t ∧ step t e u := by
  generalize hl : es ++ [e] = l at h
  cases h with
  | refl => simp at hl
  | snoc h hstep =>
    obtain ⟨rfl,he⟩ := List.append_inj' hl rfl
    cases he
    exact ⟨_,h,hstep⟩

/-- What every step preserves holds at the end of every run from a state where it holds. -/
theorem invariant {I : S → Prop} (hstep : ∀ s e t, I s → step s e t → I t)
    {s t : S} {es : List E} (h : Run step s es t) (hs : I s) : I t := by
  induction h with
  | refl => exact hs
  | snoc _ hk ih => exact hstep _ _ _ ih hk

/-- The same rule for a property that also speaks about the labels taken so far. -/
theorem history {I : List E → S → Prop} {s : S} (hs : I [] s)
    (hstep : ∀ es t e u, I es t → step t e u → I (es ++ [e]) u)
    {t : S} {es : List E} (h : Run step s es t) : I es t := by
  induction h with
  | refl => exact hs
  | snoc _ hk ih => exact hstep _ _ _ _ ih hk

theorem guard_of_labels {guard : S → E → Prop} {s t : S} {es : List E} (h : Run step s es t)
    (hall : ∀ e ∈ es, ∀ s, guard s e) : Run (guarded guard step) s es t := by
  induction h with
  | refl => exact Run.refl _
  | snoc _ hk ih =>
    refine Run.snoc (ih fun e he => hall e (List.mem_append_left _ he)) ⟨?_,hk⟩
    exact hall _ (List.mem_append_right _ (List.mem_singleton_self _)) _

end Run

theorem split_snoc {es pre post : List E} {e f : E} (h : es ++ [e] = pre ++ f :: post) :
    (pre = es ∧ f = e ∧ post = []) ∨ ∃ post', post = post' ++ [e] ∧ es = pre ++ f :: post' := by
  rcases List.eq_nil_or_concat post with rfl | ⟨post',g,rfl⟩
  · obtain ⟨rfl,hfe⟩ := List.append_inj' h rfl
    cases hfe
    exact Or.inl ⟨rfl,rfl,rfl⟩
  · have hsplit : es ++ [e] = (pre ++ f :: post') ++ [g] := by simpa using h
    obtain ⟨rfl,hge⟩ := List.append_inj' hsplit rfl
    cases hge
    exact Or.inr ⟨post',by simp,rfl⟩

/-- Some entry of a history satisfies `p` and no later one satisfies `q`. -/
def Unanswered (p q : E → Prop) (es : List E) : Prop :=
  ∃ pre e post, es = pre ++ e :: post ∧ p e ∧ ∀ f ∈ post, ¬ q f

@[simp] theorem not_unanswered_nil (p q : E → Prop) : ¬ Unanswered p q [] := by
  rintro ⟨pre,e,post,h,-⟩
  simp at h

theorem unanswered_snoc {p q : E → Prop} {es : List E} {e : E} :
    Unanswered p q (es ++ [e]) ↔ p e ∨ (Unanswered p q es ∧ ¬ q e) := by
  constructor
  · rintro ⟨pre,a,post,h,ha,hpost⟩
    rcases split_snoc h with ⟨rfl,rfl,rfl⟩ | ⟨post',rfl,rfl⟩
    · exact Or.inl ha
    · exact Or.inr ⟨⟨pre,a,post',rfl,ha,fun f hf => hpost f (by simp [hf])⟩,hpost e (by simp)⟩
  · rintro (he | ⟨⟨pre,a,post,rfl,ha,hpost⟩,he⟩)
    · exact ⟨es,e,[],rfl,he,by simp⟩
    · refine ⟨pre,a,post ++ [e],by simp,ha,fun f hf => ?_⟩
      rcases List.mem_append.mp hf with hf | hf
      · exact hpost f hf
      · cases List.mem_singleton.mp hf
        exact he

end Transition
end ProcMachines
