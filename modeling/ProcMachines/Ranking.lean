import Mathlib.Tactic

/-! Lists of ranks: a step that lowers one rank may raise those behind it, and no chain of such
steps goes on for ever. -/
namespace ProcMachines
namespace Ranking

/-- One of the ranks is lowered and none before it is raised. -/
inductive Lowers : List ℕ → List ℕ → Prop
  | head {a a' : ℕ} {as as' : List ℕ} (h : a' < a) (hl : as'.length = as.length) :
    Lowers (a' :: as') (a :: as)
  | tail {a a' : ℕ} {as as' : List ℕ} (h : a' ≤ a) (ht : Lowers as' as) :
    Lowers (a' :: as') (a :: as)

theorem Lowers.length {as as' : List ℕ} (h : Lowers as' as) : as'.length = as.length := by
  induction h with
  | head h hl => simp [hl]
  | tail h ht ih => simp [ih]

theorem acc_lowers (n : ℕ) : ∀ as : List ℕ, as.length = n → Acc Lowers as := by
  induction n with
  | zero =>
    intro as has
    rw [List.length_eq_zero_iff.mp has]
    exact ⟨_,fun bs hbs => by cases hbs⟩
  | succ n ih =>
    have hcons : ∀ a as, as.length = n → Acc Lowers (a :: as) := by
      intro a
      induction a using Nat.strong_induction_on with
      | _ a iha =>
        intro as has
        induction ih as has with
        | intro as hacc ihas =>
          refine ⟨_,fun bs hbs => ?_⟩
          cases hbs with
          | head h hl => exact iha _ h _ (hl.trans has)
          | tail h ht =>
            rcases Nat.lt_or_eq_of_le h with hlt | rfl
            · exact iha _ hlt _ (ht.length.trans has)
            · exact ihas _ ht (ht.length.trans has)
    intro as has
    cases as with
    | nil => cases has
    | cons a as => exact hcons a as (Nat.succ_inj.mp has)

/-- What lowers the ranks, wherever it starts from, comes to an end. -/
theorem acc_of_lowers {S : Type} {step : S → S → Prop} {I : S → Prop} (rank : S → List ℕ)
    (h : ∀ s s', I s → step s s' → I s' ∧ Lowers (rank s') (rank s)) {s : S} (hs : I s) :
    Acc (fun s' s => step s s') s := by
  have hacc := acc_lowers _ (rank s) rfl
  generalize hrank : rank s = as at hacc
  induction hacc generalizing s with
  | intro as _ ih =>
    subst hrank
    refine ⟨_,fun s' hstep => ?_⟩
    obtain ⟨hs',hlow⟩ := h s s' hs hstep
    exact ih _ hlow hs' rfl

theorem sum_update {ι α : Type} [Fintype ι] [DecidableEq ι] {a : ι → α} {n : ι} {x : α} {f g : α → ℕ}
    (h : ∀ k, k ≠ n → g (a k) = f (a k)) :
    ∑ k, g (Function.update a n x k) + f (a n) = ∑ k, f (a k) + g x := by
  have hrest : ∑ k ∈ Finset.univ.erase n, g (Function.update a n x k) =
      ∑ k ∈ Finset.univ.erase n, f (a k) := by
    apply Finset.sum_congr rfl
    intro k hk
    have hne := Finset.ne_of_mem_erase hk
    rw [Function.update_of_ne hne,h k hne]
  rw [← Finset.add_sum_erase _ _ (Finset.mem_univ n),← Finset.add_sum_erase Finset.univ
    (fun k => f (a k)) (Finset.mem_univ n),Function.update_self,hrest]
  omega

end Ranking
end ProcMachines
