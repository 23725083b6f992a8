import ProcMachines.AlarmClock

/-! What the closure of `advance` does along the list of waiting alarms: which it takes
out, whose wakers it fires, and the minimum it is left with. -/
namespace ProcMachines

open IntrusiveList PartialOrd

namespace AlarmClock

variable {N T W : Type} [DecidableEq N]

section Sweep

variable [PartialOrd T] {time : T} {val : N → Option T} {l : List N} {a n : N} {w : W}

/-- What `advance` takes out of the list. -/
def due (time : T) (val : N → Option T) (n : N) : Bool :=
  match val n with
  | some alarmTime => ge time alarmTime
  | none => true

theorem sweep_due (h : due time val n = true) (s : Sweep N T W) :
    sweep time val n s = (false,⟨(wake s.waker n).1,s.woken ++ (wake s.waker n).2,s.minAlarm⟩) := by
  unfold due at h
  unfold sweep
  cases hv : val n with
  | none => rfl
  | some d => simp_all

theorem sweep_kept (h : due time val n = false) (s : Sweep N T W) :
    ∃ d, val n = some d ∧
      sweep time val n s = (true,{ s with minAlarm := Sweep.min s.minAlarm d }) := by
  unfold due at h
  unfold sweep
  cases hv : val n with
  | none => simp [hv] at h
  | some d => simp_all

theorem sift_kept (l : List N) (s : Sweep N T W) :
    (sift (sweep time val) l s).1 = l.filter fun n => !due time val n := by
  induction l generalizing s with
  | nil => rfl
  | cons n l ih =>
    cases hd : due time val n with
    | true => simp [sift,sweep_due hd,hd,ih]
    | false =>
      obtain ⟨d,_,hs⟩ := sweep_kept hd s
      simp [sift,hs,hd,ih]

theorem sift_waker (l : List N) (s : Sweep N T W) (a : N) :
    (sift (sweep time val) l s).2.waker a =
      if a ∈ l ∧ due time val a = true then none else s.waker a := by
  induction l generalizing s with
  | nil => simp [sift]
  | cons n l ih =>
    cases hd : due time val n with
    | true =>
      simp only [sift,sweep_due hd,ih,wake]
      by_cases han : a = n
      · subst han
        simp [hd]
      · simp [han]
    | false =>
      obtain ⟨d,_,hs⟩ := sweep_kept hd s
      simp only [sift,hs,ih]
      by_cases han : a = n
      · subst han
        simp [hd]
      · simp [han]

theorem sift_min_mem {m : T} {s : Sweep N T W}
    (h : (sift (sweep time val) l s).2.minAlarm = some m) :
    s.minAlarm = some m ∨ ∃ a ∈ l, due time val a = false ∧ val a = some m := by
  induction l generalizing s with
  | nil => exact Or.inl h
  | cons n l ih =>
    cases hd : due time val n with
    | true =>
      simp only [sift,sweep_due hd] at h
      rcases ih h with hmin | ⟨a,ha,hkept⟩
      · exact Or.inl hmin
      · exact Or.inr ⟨a,List.mem_cons_of_mem _ ha,hkept⟩
    | false =>
      obtain ⟨d,hv,hk⟩ := sweep_kept hd s
      simp only [sift,hk] at h
      rcases ih h with hmin | ⟨a,ha,hkept⟩
      · unfold Sweep.min at hmin
        split at hmin
        · rename_i m₀ hm₀
          split at hmin
          · exact Or.inr ⟨n,by simp,hd,hv.trans hmin⟩
          · exact Or.inl (hm₀.trans hmin)
        · exact Or.inr ⟨n,by simp,hd,hv.trans hmin⟩
      · exact Or.inr ⟨a,List.mem_cons_of_mem _ ha,hkept⟩

section Min

variable [LawfulPartialOrd T] {m m₀ d : T}

theorem min_not_lt (mo : Option T) (d : T) : ∃ m, Sweep.min mo d = some m ∧ lt d m = false ∧
    (∀ m₀, mo = some m₀ → m = m₀ ∨ lt m m₀ = true) ∧ (mo = some m ∨ m = d) := by
  cases mo with
  | none => exact ⟨d,rfl,lt_irrefl d,by simp,Or.inr rfl⟩
  | some m₀ =>
    cases h : lt d m₀ with
    | true => exact ⟨d,by simp [Sweep.min,h],lt_irrefl d,by simpa using Or.inr h,Or.inr rfl⟩
    | false => exact ⟨m₀,by simp [Sweep.min,h],h,by simp,Or.inl rfl⟩

theorem sift_min_le {s : Sweep N T W} (hs : s.minAlarm = some m₀) :
    ∃ m, (sift (sweep time val) l s).2.minAlarm = some m ∧ (m = m₀ ∨ lt m m₀ = true) := by
  induction l generalizing s m₀ with
  | nil => exact ⟨m₀,hs,Or.inl rfl⟩
  | cons n l ih =>
    cases hd : due time val n with
    | true =>
      simp only [sift,sweep_due hd]
      exact ih hs
    | false =>
      obtain ⟨d,_,hk⟩ := sweep_kept hd s
      obtain ⟨m₁,hm₁,_,hle₁,_⟩ := min_not_lt s.minAlarm d
      obtain ⟨m,hm,hle⟩ := ih (s := { s with minAlarm := Sweep.min s.minAlarm d }) hm₁
      refine ⟨m,by simpa only [sift,hk] using hm,?_⟩
      rcases hle₁ m₀ hs with rfl | hlt
      · exact hle
      · rcases hle with rfl | hle
        · exact Or.inr hlt
        · exact Or.inr (lt_trans hle hlt)

theorem sift_min (ha : a ∈ l) (hdue : due time val a = false) (hv : val a = some d)
    (s : Sweep N T W) :
    ∃ m, (sift (sweep time val) l s).2.minAlarm = some m ∧ lt d m = false := by
  induction l generalizing s with
  | nil => simp at ha
  | cons n l ih =>
    cases hd : due time val n with
    | true =>
      have han : a ≠ n := by
        rintro rfl
        rw [hdue] at hd
        exact Bool.noConfusion hd
      simp only [sift,sweep_due hd]
      exact ih ((List.mem_cons.mp ha).resolve_left han) _
    | false =>
      obtain ⟨d',hv',hk⟩ := sweep_kept hd s
      simp only [sift,hk]
      rcases List.mem_cons.mp ha with rfl | ha
      · rw [hv] at hv'
        obtain rfl := Option.some.inj hv'
        obtain ⟨m₁,hm₁,hlt₁,_⟩ := min_not_lt s.minAlarm d
        obtain ⟨m,hm,hle⟩ : ∃ m, (sift (sweep time val) l
            { s with minAlarm := Sweep.min s.minAlarm d }).2.minAlarm = some m ∧
            (m = m₁ ∨ lt m m₁ = true) := sift_min_le hm₁
        refine ⟨m,hm,?_⟩
        rcases hle with rfl | hle
        · exact hlt₁
        · exact not_lt_of_lt hle hlt₁
      · exact ih ha _

end Min

def storedWake (waker : N → Option W) (n : N) : Option (Wake N W) := (waker n).map (Wake.alarm n)

theorem sift_woken (hl : l.Nodup) (s : Sweep N T W) : (sift (sweep time val) l s).2.woken =
    s.woken ++ (l.filter (due time val)).filterMap (storedWake s.waker) := by
  induction l generalizing s with
  | nil => simp [sift]
  | cons n l ih =>
    obtain ⟨hn,hl⟩ := List.nodup_cons.mp hl
    cases hd : due time val n with
    | true =>
      have hcongr : (l.filter (due time val)).filterMap (storedWake (wake s.waker n).1) =
          (l.filter (due time val)).filterMap (storedWake s.waker) := by
        refine List.filterMap_congr fun m hm => ?_
        have hmn : m ≠ n := fun e => hn (e ▸ (List.mem_filter.mp hm).1)
        simp [storedWake,wake,hmn]
      simp only [sift,sweep_due hd,ih hl,hcongr,List.filter_cons_of_pos hd]
      cases hw : s.waker n <;> simp [wake,storedWake,hw]
    | false =>
      obtain ⟨d,_,hs⟩ := sweep_kept hd s
      simp [sift,hs,ih hl,hd]

omit [DecidableEq N] in
theorem storedWake_nodup (hl : l.Nodup) (waker : N → Option W) :
    (l.filterMap (storedWake waker)).Nodup := by
  refine hl.filterMap ?_
  intro a b e ha hb
  obtain ⟨v,_,rfl⟩ := Option.map_eq_some_iff.mp ha
  obtain ⟨w,_,hw⟩ := Option.map_eq_some_iff.mp hb
  exact (Wake.alarm.inj hw).1.symm

end Sweep

end AlarmClock
end ProcMachines
