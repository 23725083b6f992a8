import Mathlib.Tactic

/-! Partial comparison: values that may be incomparable, even with themselves, and the
four comparison operators it defaults to. -/
namespace ProcMachines

class PartialOrd (T : Type) where
  partialCmp : T → T → Option Ordering

namespace PartialOrd

variable {T : Type} [PartialOrd T]

def lt (a b : T) : Bool := partialCmp a b == some .lt
def gt (a b : T) : Bool := partialCmp a b == some .gt
def le (a b : T) : Bool := partialCmp a b == some .lt || partialCmp a b == some .eq
def ge (a b : T) : Bool := partialCmp a b == some .gt || partialCmp a b == some .eq

end PartialOrd

open PartialOrd

/-- The documented laws of a partial order on values: duality and transitivity. `congr`, that equal
values compare alike, is what the transitivity of `<=` adds to them. -/
class LawfulPartialOrd (T : Type) [PartialOrd T] : Prop where
  dual : ∀ a b : T, partialCmp b a = (partialCmp a b).map Ordering.swap
  trans : ∀ a b c : T, partialCmp a b = some .lt → partialCmp b c = some .lt →
    partialCmp a c = some .lt
  congr : ∀ a b c : T, partialCmp a b = some .eq → partialCmp a c = partialCmp b c

instance : PartialOrd ℕ := ⟨fun a b => some (compare a b)⟩

instance : LawfulPartialOrd ℕ where
  dual a b := by simp [partialCmp,Nat.compare_swap]
  trans a b c hab hbc := by
    simp only [partialCmp,Option.some.injEq,Nat.compare_eq_lt] at *
    omega
  congr a b c hab := by
    simp only [partialCmp,Option.some.injEq,Nat.compare_eq_eq] at hab
    rw [hab]

namespace PartialOrd

variable {T : Type} [PartialOrd T] [LawfulPartialOrd T] {a b c m : T}

theorem gt_eq_lt (a b : T) : gt a b = lt b a := by
  rw [gt,lt,LawfulPartialOrd.dual a b]
  cases partialCmp a b with
  | none => rfl
  | some o => cases o <;> rfl

theorem ge_eq_le (a b : T) : ge a b = le b a := by
  rw [ge,le,LawfulPartialOrd.dual a b]
  cases partialCmp a b with
  | none => rfl
  | some o => cases o <;> rfl

theorem lt_irrefl (a : T) : lt a a = false := by
  have h := LawfulPartialOrd.dual a a
  rw [lt]
  cases hc : partialCmp a a with
  | none => rfl
  | some o =>
    rw [hc] at h
    cases o with
    | lt => simp at h
    | eq => rfl
    | gt => rfl

theorem lt_trans (hab : lt a b = true) (hbc : lt b c = true) : lt a c = true := by
  simp only [lt,beq_iff_eq] at *
  exact LawfulPartialOrd.trans a b c hab hbc

theorem gt_trans (hab : gt a b = true) (hbc : gt b c = true) : gt a c = true := by
  rw [gt_eq_lt] at *
  exact lt_trans hbc hab

theorem ge_of_gt (hab : gt a b = true) (hbc : ge b c = true) : ge a c = true := by
  rw [ge,Bool.or_eq_true,beq_iff_eq,beq_iff_eq] at hbc
  rcases hbc with hbc | hbc
  · have hac : gt a c = true := gt_trans hab (by simpa [gt] using hbc)
    have hac' : partialCmp a c = some .gt := by simpa [gt] using hac
    simp [ge,hac']
  · have hcb : lt b a = lt c a := by rw [lt,lt,LawfulPartialOrd.congr b c a hbc]
    have hac : gt a c = true := by rw [gt_eq_lt,← hcb,← gt_eq_lt]; exact hab
    have hac' : partialCmp a c = some .gt := by simpa [gt] using hac
    simp [ge,hac']

theorem not_lt_of_lt (ham : lt a m = true) (hcm : lt c m = false) : lt c a = false := by
  by_contra hca
  have hlt : lt c m = true := lt_trans (by simpa using hca) ham
  rw [hcm] at hlt
  exact Bool.noConfusion hlt

end PartialOrd
end ProcMachines
