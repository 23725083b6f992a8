import ProcMachines.AlarmClockFires

/-! Two advances in a row, to a time and to a later one, do what the second does alone: the
alarms leave the list in two portions, and nothing else tells the runs apart. -/
namespace ProcMachines

open IntrusiveList PartialOrd

namespace PartialOrd

variable {T : Type} [PartialOrd T] [LawfulPartialOrd T] {a b c t : T}

/-- The same value, or values that compare as equal. -/
def Same (a b : T) : Prop := a = b ∨ partialCmp a b = some .eq

theorem Same.ge_eq (h : Same a b) (c : T) : ge a c = ge b c := by
  rcases h with rfl | h
  · rfl
  · rw [ge,ge,LawfulPartialOrd.congr a b c h]

theorem gt_or_eq_of_le (h : le a b = true) : gt b a = true ∨ partialCmp a b = some .eq := by
  rw [le,Bool.or_eq_true,beq_iff_eq,beq_iff_eq] at h
  rcases h with h | h
  · left
    rw [gt_eq_lt]
    simp [lt,h]
  · exact Or.inr h

theorem gt_of_le (hab : le a b = true) (hac : gt a c = true) : gt b c = true := by
  rcases gt_or_eq_of_le hab with h | h
  · exact gt_trans h hac
  · rw [gt,← LawfulPartialOrd.congr a b c h]
    exact hac

theorem ge_of_le (hab : le a b = true) (hac : ge a c = true) : ge b c = true := by
  rcases gt_or_eq_of_le hab with h | h
  · exact ge_of_gt h hac
  · rw [← Same.ge_eq (Or.inr h)]
    exact hac

end PartialOrd

namespace AlarmClock

section Later

variable {T : Type} [PartialOrd T] {time t₁ t₂ d : T}

theorem later_of_gt (h : gt t₁ time = true) : later time t₁ = t₁ := if_pos h

theorem later_of_not_gt (h : gt t₁ time = false) : later time t₁ = time := by
  simp [later,h]

variable [LawfulPartialOrd T]

theorem later_later (h : le t₁ t₂ = true) : Same (later (later time t₁) t₂) (later time t₂) := by
  cases h₁ : gt t₁ time with
  | false =>
    rw [later_of_not_gt h₁]
    exact Or.inl rfl
  | true =>
    rw [later_of_gt h₁,later_of_gt (gt_of_le h h₁)]
    cases h₂ : gt t₂ t₁ with
    | true => exact Or.inl (later_of_gt h₂)
    | false =>
      rw [later_of_not_gt h₂]
      exact Or.inr ((gt_or_eq_of_le h).resolve_left (by simp [h₂]))

theorem ge_later (h : le t₁ t₂ = true) (hd : ge (later time t₁) d = true) :
    ge (later time t₂) d = true := by
  cases h₁ : gt t₁ time with
  | true =>
    rw [later_of_gt h₁] at hd
    rw [later_of_gt (gt_of_le h h₁)]
    exact ge_of_le h hd
  | false =>
    rw [later_of_not_gt h₁] at hd
    cases h₂ : gt t₂ time with
    | true =>
      rw [later_of_gt h₂]
      exact ge_of_gt h₂ hd
    | false =>
      rw [later_of_not_gt h₂]
      exact hd

end Later

variable {N T W : Type} [DecidableEq N] [PartialOrd T] {time time' : T} {val : N → Option T}
  {l : List N}

omit [DecidableEq N] in
theorem due_later [LawfulPartialOrd T] {t₁ t₂ : T} (h : le t₁ t₂ = true) {n : N}
    (hd : due (later time t₁) val n = true) : due (later time t₂) val n = true := by
  unfold due at *
  cases hv : val n with
  | none => rfl
  | some d =>
    rw [hv] at hd
    exact ge_later h hd

omit [DecidableEq N] in
theorem due_same [LawfulPartialOrd T] (h : Same time time') (val : N → Option T) :
    due time val = due time' val := by
  funext n
  unfold due
  cases val n with
  | none => rfl
  | some d => exact h.ge_eq d

theorem sift_minAlarm (l : List N) (s : Sweep N T W) : (sift (sweep time val) l s).2.minAlarm =
    ((l.filter fun n => !due time val n).filterMap val).foldl Sweep.min s.minAlarm := by
  induction l generalizing s with
  | nil => rfl
  | cons n l ih =>
    cases hd : due time val n with
    | true => simp [sift,sweep_due hd,hd,ih]
    | false =>
      obtain ⟨d,hv,hs⟩ := sweep_kept hd s
      simp [sift,hs,hd,hv,ih]

omit [DecidableEq N] [PartialOrd T] in
theorem filter_portions {p q : N → Bool} (h : ∀ n, p n = true → q n = true) (l : List N) :
    (l.filter p ++ (l.filter fun n => !p n).filter q).Perm (l.filter q) := by
  have hfirst : (l.filter q).filter p = l.filter p := by
    rw [List.filter_filter]
    apply List.filter_congr
    intro n _
    cases hp : p n with
    | true => simp [h n hp]
    | false => simp
  have hsecond : (l.filter q).filter (fun n => !p n) = (l.filter fun n => !p n).filter q := by
    rw [List.filter_filter,List.filter_filter]
    apply List.filter_congr
    intro n _
    exact Bool.and_comm _ _
  rw [← hfirst,← hsecond]
  exact List.filter_append_perm p _

omit [DecidableEq N] [PartialOrd T] in
theorem filter_kept {p q : N → Bool} (h : ∀ n, p n = true → q n = true) (l : List N) :
    (l.filter fun n => !p n).filter (fun n => !q n) = l.filter fun n => !q n := by
  rw [List.filter_filter]
  apply List.filter_congr
  intro n _
  cases hp : p n with
  | true => simp [h n hp]
  | false => simp

omit [DecidableEq N] [PartialOrd T] in
theorem woken_portions {p q : N → Bool} (h : ∀ n, p n = true → q n = true) (l : List N)
    {waker waker₁ : N → Option W} (hw : ∀ n, p n = false → waker₁ n = waker n) :
    ((l.filter p).filterMap (storedWake waker) ++
      ((l.filter fun n => !p n).filter q).filterMap (storedWake waker₁)).Perm
        ((l.filter q).filterMap (storedWake waker)) := by
  have hrest : ((l.filter fun n => !p n).filter q).filterMap (storedWake waker₁) =
      ((l.filter fun n => !p n).filter q).filterMap (storedWake waker) := by
    apply List.filterMap_congr
    intro n hn
    have hp := (List.mem_filter.mp (List.mem_filter.mp hn).1).2
    rw [storedWake,storedWake,hw n (by simpa using hp)]
  rw [hrest,← List.filterMap_append]
  exact (filter_portions h l).filterMap _

variable [DecidableEq W] {c : Watched N T W} {F : Rows N} {fuel : ℕ} {t t₁ t₂ : T}

omit [DecidableEq W] in
theorem Sound.advance_null (hs : Sound c F) (hfuel : (F.row c.clock.head).length < fuel)
    {r : After N T W (Option T)} (h : advance fuel t c.clock = .ok r) :
    Null r.self.heap c.clock.head ↔ Null c.clock.heap c.clock.head := by
  obtain ⟨⟨s,heap⟩,hrun,hr⟩ := bind_ok h
  cases hr
  obtain ⟨heap',hexec,_,_,_,hnull⟩ := filter_row _ (hs.rep.row _ hs.head) hfuel _
  obtain rfl : heap' = heap := congrArg Prod.snd (Except.ok.inj (hexec.symm.trans hrun))
  exact hnull

omit [DecidableEq N] [DecidableEq W] in
theorem Sound.head_unique (hs : Sound c F) {g : N} (hg : F.target g = some none) :
    g = c.clock.head := by
  by_contra hne
  rw [hs.alive g hne] at hg
  cases hth : c.threshold g <;> simp [hth] at hg

omit [DecidableEq W] in
/-- An advance, then another one to a time that is not earlier, against the second alone. -/
theorem Sound.advance_twice [LawfulPartialOrd T] (hs : Sound c F)
    (hfuel : (F.row c.clock.head).length < fuel) (hle : le t₁ t₂ = true) :
    ∃ r₁ r₂ r, advance fuel t₁ c.clock = .ok r₁ ∧ advance fuel t₂ r₁.self = .ok r₂ ∧
      advance fuel t₂ c.clock = .ok r ∧ Same r₂.self.time r.self.time ∧
      r₂.self = { r.self with time := r₂.self.time } ∧
      (r₁.woken ++ r₂.woken).Perm r.woken ∧ r.woken.Nodup ∧ r₂.ret = r.ret := by
  obtain ⟨heap,waker,h,hrep,hwaker⟩ := hs.advance_exec hfuel t₂
  obtain ⟨heap₁,waker₁,h₁,hrep₁,hwaker₁⟩ := hs.advance_exec hfuel t₁
  have hs₁ := hs.advance_sound hfuel h₁
  have hrow₁ : (F.setRow c.clock.head ((F.row c.clock.head).filter fun n =>
      !due (later c.clock.time t₁) c.clock.val n)).row c.clock.head = (F.row c.clock.head).filter
        fun n => !due (later c.clock.time t₁) c.clock.val n := Rows.setRow_row_self F _ _
  have hfuel₁ : ((F.setRow c.clock.head ((F.row c.clock.head).filter fun n =>
      !due (later c.clock.time t₁) c.clock.val n)).row c.clock.head).length < fuel := by
    rw [hrow₁]
    exact (List.length_filter_le _ _).trans_lt hfuel
  obtain ⟨heap₂,waker₂,h₂,hrep₂,hwaker₂⟩ := hs₁.advance_exec hfuel₁ t₂
  have hsame : Same (later (later c.clock.time t₁) t₂) (later c.clock.time t₂) := later_later hle
  have hdue := due_same hsame c.clock.val
  have hmono : ∀ n, due (later c.clock.time t₁) c.clock.val n = true →
      due (later c.clock.time t₂) c.clock.val n = true := fun _ => due_later hle
  simp only [Watched.after,reply] at h₂ hrep₂ hwaker₂
  simp only [hrow₁,hdue,Rows.setRow_setRow,filter_kept hmono] at h₂ hrep₂ hwaker₂
  have hheap : heap₂ = heap := by
    apply hrep₂.unique hrep
    intro g hg
    obtain rfl := hs.head_unique hg
    exact (hs₁.advance_null hfuel₁ h₂).trans ((hs.advance_null hfuel h₁).trans
      (hs.advance_null hfuel h).symm)
  have hwakers : waker₂ = waker := by
    funext a
    rw [hwaker₂,hwaker,hwaker₁]
    cases hd : due (later c.clock.time t₁) c.clock.val a with
    | true => simp [hd,hmono a hd]
    | false => simp [hd]
  refine ⟨_,_,_,h₁,h₂,h,hsame,by rw [hheap,hwakers],?_,?_,?_⟩
  · refine woken_portions hmono _ fun n hn => ?_
    rw [hwaker₁,if_neg (by simp [hn])]
  · exact storedWake_nodup ((hs.rep.row _ hs.head).nodup.filter _) _
  · simp only [sift_minAlarm,hdue,filter_kept hmono]

/-- After every valid run on one clock: an advance to `t₁` and then one to `t₂`, where
`t₁ <= t₂`, leave the clock as the advance to `t₂` alone does, with a time that compares as
equal; they fire the same wakers, each once, and the second returns what the one would. -/
theorem advance_batches [LawfulPartialOrd T] (head : N) (time : T) (ops : List (Op N T W))
    (hv : ValidRun head (fun _ => none) ops) (fuel : ℕ) (hfuel : ops.length < fuel) :
    ∃ c, run fuel (.start head time) ops = .ok c ∧ ∀ t₁ t₂, le t₁ t₂ = true →
      ∃ r₁ r₂ r, advance fuel t₁ c.clock = .ok r₁ ∧ advance fuel t₂ r₁.self = .ok r₂ ∧
        advance fuel t₂ c.clock = .ok r ∧ Same r₂.self.time r.self.time ∧
        r₂.self = { r.self with time := r₂.self.time } ∧
        (r₁.woken ++ r₂.woken).Perm r.woken ∧ r.woken.Nodup ∧ r₂.ret = r.ret := by
  obtain ⟨c,F,hrun,hs,hlen⟩ := start_keeps (W := W) head time hv hfuel
  exact ⟨c,hrun,fun t₁ t₂ hle => hs.advance_twice hlen hle⟩

/-- Alarms for 10 and 20 wait when the clock advances to 15 and then to 25. -/
theorem advance_batches_at_fifteen : ∃ (c : Watched ℕ ℕ ℕ) (r₁ r₂ r : After ℕ ℕ ℕ (Option ℕ)),
    run 9 (.start 0 0) [.new 1 (some 20),.new 2 (some 10),.alarmPoll 1 7,.alarmPoll 2 8] = .ok c ∧
      advance 9 15 c.clock = .ok r₁ ∧ advance 9 25 r₁.self = .ok r₂ ∧
      advance 9 25 c.clock = .ok r ∧ (r₁.woken ++ r₂.woken).Perm r.woken := by
  obtain ⟨c,hrun,hbatch⟩ := advance_batches (W := ℕ) 0 (0 : ℕ)
    [.new 1 (some 20),.new 2 (some 10),.alarmPoll 1 7,.alarmPoll 2 8]
    (by simp [ValidRun,Op.Valid,Op.sets]) 9 (by decide)
  obtain ⟨r₁,r₂,r,h₁,h₂,h,_,_,hwoken,_⟩ := hbatch 15 25 (by rfl)
  exact ⟨c,r₁,r₂,r,hrun,h₁,h₂,h,hwoken⟩

end AlarmClock
end ProcMachines
