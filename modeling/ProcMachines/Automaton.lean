import Mathlib.Tactic

/-! Deterministic machines that run until they end: what a run shows and what it ends with,
and a simulation under which two machines' runs show and end alike, though one may take
silent moves where the other takes none. -/
namespace ProcMachines
namespace Automaton

/-- What a machine does next: nothing, as it is stuck; it ends; or it goes on and shows
something. -/
inductive Move (S E R : Type)
  | stuck
  | ends (result : R)
  | goes (shown : List E) (s : S)

variable {S T E R : Type}

/-- The run from a state ends, with all that it has shown and with its result. -/
inductive Ends (next : S → Move S E R) : S → List E → R → Prop
  | ends {s : S} {r : R} (h : next s = .ends r) : Ends next s [] r
  | goes {s t : S} {shown es : List E} {r : R} (h : next s = .goes shown t)
      (ht : Ends next t es r) : Ends next s (shown ++ es) r

/-- The run from a state comes to another one and shows this on the way. -/
inductive Reaches (next : S → Move S E R) : S → List E → S → Prop
  | refl (s : S) : Reaches next s [] s
  | goes {s t u : S} {shown es : List E} (h : next s = .goes shown t)
      (ht : Reaches next t es u) : Reaches next s (shown ++ es) u

def outcome (next : S → Move S E R) : ℕ → S → Option (List E × R)
  | 0, _ => none
  | fuel+1, s =>
    match next s with
    | .stuck => none
    | .ends r => some ([],r)
    | .goes shown t => (outcome next fuel t).map fun o => (shown ++ o.1,o.2)

variable {next : S → Move S E R} {next' : T → Move T E R} {s t u : S} {es fs : List E} {r q : R}

theorem ends_of_outcome {fuel : ℕ} (h : outcome next fuel s = some (es,r)) : Ends next s es r := by
  induction fuel generalizing s es with
  | zero => cases h
  | succ fuel ih =>
    rw [outcome] at h
    split at h
    · cases h
    · rename_i hends
      cases h
      exact .ends hends
    · rename_i shown t hgoes
      obtain ⟨⟨es',r'⟩,ho,heq⟩ := Option.map_eq_some_iff.mp h
      cases heq
      exact .goes hgoes (ih ho)

theorem Ends.of_goes {shown : List E} (h : Ends next s es r) (hgoes : next s = .goes shown t) :
    ∃ fs, es = shown ++ fs ∧ Ends next t fs r := by
  cases h with
  | ends h =>
    rw [hgoes] at h
    cases h
  | goes h ht =>
    rw [hgoes] at h
    cases h
    exact ⟨_,rfl,ht⟩

theorem Ends.unique (h : Ends next s es r) (k : Ends next s fs q) : es = fs ∧ r = q := by
  induction h generalizing fs with
  | ends h =>
    cases k with
    | ends k =>
      rw [h] at k
      cases k
      exact ⟨rfl,rfl⟩
    | goes k _ =>
      rw [h] at k
      cases k
  | goes h _ ih =>
    obtain ⟨gs,rfl,hgs⟩ := k.of_goes h
    obtain ⟨rfl,rfl⟩ := ih hgs
    exact ⟨rfl,rfl⟩

theorem Reaches.single {shown : List E} (h : next s = .goes shown t) : Reaches next s shown t := by
  simpa using Reaches.goes h (Reaches.refl t)

theorem Reaches.trans (h : Reaches next s es t) (k : Reaches next t fs u) :
    Reaches next s (es ++ fs) u := by
  induction h with
  | refl => exact k
  | goes h _ ih =>
    rw [List.append_assoc]
    exact .goes h (ih k)

theorem Reaches.ends (h : Reaches next s es t) (k : Ends next t fs r) : Ends next s (es ++ fs) r := by
  induction h with
  | refl => exact k
  | goes h _ ih =>
    rw [List.append_assoc]
    exact .goes h (ih k)

theorem Reaches.ends_inv (h : Reaches next s es t) (k : Ends next s fs r) :
    ∃ gs, fs = es ++ gs ∧ Ends next t gs r := by
  induction h generalizing fs with
  | refl => exact ⟨fs,rfl,k⟩
  | goes h _ ih =>
    obtain ⟨gs,rfl,hgs⟩ := k.of_goes h
    obtain ⟨hs,rfl,hhs⟩ := ih hgs
    exact ⟨hs,(List.append_assoc _ _ _).symm,hhs⟩

/-- What was not shown on the way makes no difference. -/
theorem Reaches.silent_iff (h : Reaches next s [] t) : Ends next s es r ↔ Ends next t es r := by
  constructor
  · intro k
    obtain ⟨gs,rfl,hgs⟩ := h.ends_inv k
    exact hgs
  · exact fun k => h.ends k

/-- Related states end alike, up to a relation of the results, or one's move is matched by
any number of moves of the other. -/
structure Simulates (next : S → Move S E R) (next' : T → Move T E R) (rel : S → T → Prop)
    (agree : R → R → Prop) : Prop where
  ends : ∀ s t r, rel s t → next s = .ends r → ∃ r', Ends next' t [] r' ∧ agree r r'
  goes : ∀ s t shown s', rel s t → next s = .goes shown s' →
    ∃ t', Reaches next' t shown t' ∧ rel s' t'

/-- A run that ends is matched by one that shows the same and ends alike. -/
theorem Simulates.run {rel : S → T → Prop} {agree : R → R → Prop}
    (h : Simulates next next' rel agree) {t : T} (hrel : rel s t) (hs : Ends next s es r) :
    ∃ r', Ends next' t es r' ∧ agree r r' := by
  induction hs generalizing t with
  | ends hends => exact h.ends _ _ _ hrel hends
  | goes hgoes _ ih =>
    obtain ⟨t',hreach,hrel'⟩ := h.goes _ _ _ _ hrel hgoes
    obtain ⟨r',hends,hagree⟩ := ih hrel'
    exact ⟨r',hreach.ends hends,hagree⟩

end Automaton
end ProcMachines
