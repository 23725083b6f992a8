import ProcMachines.AlarmClockCalls

/-! Runs of calls on one clock keep the invariant and never turn the clock back. -/
namespace ProcMachines

open IntrusiveList PartialOrd

namespace AlarmClock

variable {N T W : Type} [DecidableEq N] [DecidableEq W] [PartialOrd T]
  {c c' : Watched N T W} {F : Rows N} {fuel : ℕ}

def thresholds (threshold : N → Option (Option T)) (ops : List (Op N T W)) : N → Option (Option T) :=
  ops.foldl (fun threshold op => op.sets threshold) threshold

omit [DecidableEq W] [PartialOrd T] in
theorem validRun_append {head : N} {threshold : N → Option (Option T)} {pre post : List (Op N T W)} :
    ValidRun head threshold (pre ++ post) ↔
      ValidRun head threshold pre ∧ ValidRun head (thresholds threshold pre) post := by
  induction pre generalizing threshold with
  | nil => simp [ValidRun,thresholds]
  | cons op pre ih =>
    simp only [List.cons_append,ValidRun,ih,and_assoc]
    rfl

theorem run_cons (c : Watched N T W) (op : Op N T W) (ops : List (Op N T W)) :
    run fuel c (op :: ops) = (next fuel c op).bind fun c => run fuel c ops := rfl

theorem run_append (fuel : ℕ) (c : Watched N T W) (pre post : List (Op N T W)) :
    run fuel c (pre ++ post) = (run fuel c pre).bind fun c => run fuel c post :=
  List.foldlM_append

theorem run_woken {ops : List (Op N T W)} (h : run fuel c ops = .ok c') :
    ∃ woken, c'.woken = c.woken ++ woken := by
  induction ops generalizing c with
  | nil =>
    obtain rfl : c = c' := Except.ok.inj h
    exact ⟨[],by simp⟩
  | cons op ops ih =>
    rw [run_cons,next] at h
    cases hcall : call fuel op c.clock with
    | error e =>
      rw [hcall] at h
      cases h
    | ok r =>
      rw [hcall] at h
      obtain ⟨woken,hwoken⟩ := ih h
      exact ⟨r.woken ++ woken,by rw [hwoken,Watched.after,List.append_assoc]⟩

/-- A sound clock with calls that it can still take. -/
structure Takes (fuel : ℕ) (c : Watched N T W) (F : Rows N) (ops : List (Op N T W)) : Prop where
  sound : Sound c F
  valid : ValidRun c.clock.head c.threshold ops
  room : (F.row c.clock.head).length + ops.length ≤ fuel

theorem Takes.next {op : Op N T W} {ops : List (Op N T W)} (h : Takes fuel c F (op :: ops)) :
    ∃ r F', call fuel op c.clock = .ok r ∧ next fuel c op = .ok (c.after op r) ∧
      (c.after op r).clock.head = c.clock.head ∧
      (F'.row c.clock.head).length ≤ (F.row c.clock.head).length + 1 ∧
      ((c.after op r).clock.time = c.clock.time ∨
        gt (c.after op r).clock.time c.clock.time = true) ∧ Takes fuel (c.after op r) F' ops := by
  have hroom := h.room
  rw [List.length_cons] at hroom
  obtain ⟨r,F',hcall,hs,hhead,hlen,htime⟩ := goes h.sound h.valid.1 (show _ < fuel by omega)
  have hhead : (c.after op r).clock.head = c.clock.head := hhead
  refine ⟨r,F',hcall,by rw [AlarmClock.next,hcall]; rfl,hhead,hlen,htime,hs,?_,?_⟩
  · rw [hhead]
    exact h.valid.2
  · rw [hhead]
    omega

theorem run_keeps {ops : List (Op N T W)} (h : Takes fuel c F ops) :
    ∃ c' F', run fuel c ops = .ok c' ∧ Sound c' F' ∧ c'.clock.head = c.clock.head ∧
      c'.threshold = thresholds c.threshold ops ∧
      (F'.row c.clock.head).length ≤ (F.row c.clock.head).length + ops.length := by
  induction ops generalizing c F with
  | nil => exact ⟨c,F,rfl,h.sound,rfl,rfl,Nat.le_refl _⟩
  | cons op ops ih =>
    obtain ⟨r,F₁,_,hnext,hhead,hlen₁,_,h₁⟩ := h.next
    obtain ⟨c₂,F₂,hrun₂,hs₂,hhead₂,hth₂,hlen₂⟩ := ih h₁
    rw [hhead] at hlen₂
    refine ⟨c₂,F₂,by rw [run_cons,hnext]; exact hrun₂,hs₂,hhead₂.trans hhead,hth₂,?_⟩
    rw [List.length_cons]
    omega

theorem run_time [LawfulPartialOrd T] {ops : List (Op N T W)} (h : Takes fuel c F ops)
    (hrun : run fuel c ops = .ok c') :
    c'.clock.time = c.clock.time ∨ gt c'.clock.time c.clock.time = true := by
  induction ops generalizing c F with
  | nil =>
    obtain rfl : c = c' := Except.ok.inj hrun
    exact Or.inl rfl
  | cons op ops ih =>
    obtain ⟨r,F₁,_,hnext,_,_,htime,h₁⟩ := h.next
    rw [run_cons,hnext] at hrun
    rcases ih h₁ hrun with hlast | hlast
    · rw [hlast]
      exact htime
    · rcases htime with htime | htime
      · rw [← htime]
        exact Or.inr hlast
      · exact Or.inr (gt_trans hlast htime)

/-- A sound clock, with how far it is from an earlier one. -/
structure Later (c : Watched N T W) (F : Rows N) (ops : List (Op N T W)) (c' : Watched N T W)
    (F' : Rows N) : Prop where
  sound : Sound c' F'
  head : c'.clock.head = c.clock.head
  threshold : c'.threshold = thresholds c.threshold ops
  length : (F'.row c.clock.head).length ≤ (F.row c.clock.head).length + ops.length
  time : c'.clock.time = c.clock.time ∨ gt c'.clock.time c.clock.time = true

/-- Every valid run succeeds, stays sound and never turns the clock back. -/
theorem run_sound [LawfulPartialOrd T] {ops : List (Op N T W)} (h : Takes fuel c F ops) :
    ∃ c' F', run fuel c ops = .ok c' ∧ Later c F ops c' F' := by
  obtain ⟨c',F',hrun,hs',hhead,hthreshold,hlength⟩ := run_keeps h
  exact ⟨c',F',hrun,hs',hhead,hthreshold,hlength,run_time h hrun⟩

omit [DecidableEq W] in
theorem start_sound (head : N) (time : T) :
    Sound (Watched.start head time : Watched N T W)
      ⟨Function.update (fun _ => none) head (some none),fun _ => []⟩ := by
  refine ⟨represents_head head,by simp [Watched.start,AlarmClock.new],rfl,?_,?_,by simp,?_⟩
  · intro a ha
    have hah : a ≠ head := ha
    simp [hah,Watched.start]
  · intro a d hd
    simp [Watched.start] at hd
  · intro a _
    exact ⟨rfl,rfl⟩

omit [DecidableEq W] in
theorem start_takes (head : N) (time : T) {ops : List (Op N T W)}
    (hv : ValidRun head (fun _ => none) ops) (hfuel : ops.length ≤ fuel) :
    Takes fuel (.start head time) ⟨Function.update (fun _ => none) head (some none),fun _ => []⟩
      ops :=
  ⟨start_sound head time,hv,by simpa using hfuel⟩

/-- A new clock takes every valid run, and the list is no longer than the run. -/
theorem start_keeps (head : N) (time : T) {ops : List (Op N T W)}
    (hv : ValidRun head (fun _ => none) ops) (hfuel : ops.length < fuel) :
    ∃ c F, run fuel (.start head time) ops = .ok c ∧ Sound c F ∧
      (F.row c.clock.head).length < fuel := by
  obtain ⟨c,F,hrun,hs,hhead,_,hlen⟩ := run_keeps (start_takes head time hv hfuel.le)
  refine ⟨c,F,hrun,hs,?_⟩
  rw [hhead]
  exact (hlen.trans (by simp)).trans_lt hfuel

end AlarmClock
end ProcMachines
