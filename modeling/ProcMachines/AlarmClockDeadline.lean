import ProcMachines.AlarmClockFires

/-! The deadline that `advance` returns is the next one: that of an alarm it leaves in the
list, and no alarm left has an earlier one. -/
namespace ProcMachines

open IntrusiveList PartialOrd

namespace AlarmClock

variable {N T W : Type} [DecidableEq N]

def waiting (fuel : ℕ) (self : AlarmClock N T W) : Except Fault (List N) :=
  ((filter fuel self.head (quiet fun n seen => (true,seen ++ [n])) []).run self.heap).map Prod.fst

omit [DecidableEq N] in
theorem sift_collect (l seen : List N) :
    sift (fun n seen => (true,seen ++ [n])) l seen = (l,seen ++ l) := by
  induction l generalizing seen with
  | nil => simp [sift]
  | cons n l ih => simp [sift,ih]

variable [DecidableEq W] [PartialOrd T] {c : Watched N T W} {F : Rows N} {a : N} {fuel : ℕ} {t : T}

omit [DecidableEq W] in
theorem Sound.waiting_eq (hs : Sound c F) (hfuel : (F.row c.clock.head).length < fuel) :
    c.clock.waiting fuel = .ok (F.row c.clock.head) := by
  obtain ⟨heap,hexec,_⟩ := filter_represents hs.rep hs.head
    (fun n (seen : List N) => (true,seen ++ [n])) [] hfuel
  rw [sift_collect,List.nil_append] at hexec
  exact congrArg (Except.map Prod.fst) hexec

/-- What an advance leaves of a list: the alarms whose deadline is not reached by then. -/
def left (time : T) (val : N → Option T) (l : List N) : List N :=
  l.filter fun a => (val a).any fun d => !le d time

omit [DecidableEq N] [DecidableEq W] in
theorem Sound.left_eq [LawfulPartialOrd T] (hs : Sound c F) (time : T) :
    left time c.clock.val (F.row c.clock.head) =
      (F.row c.clock.head).filter fun n => !due time c.clock.val n := by
  apply List.filter_congr
  intro a ha
  obtain ⟨d,_,hd,_⟩ := hs.linked a ha
  simp [due,hd,ge_eq_le]

/-- The deadline returned is the next one of the alarms left. -/
structure NextDeadline (val : N → Option T) (kept : List N) (deadline : Option T) : Prop where
  none_iff : deadline = none ↔ kept = []
  mem : ∀ m, deadline = some m → ∃ a ∈ kept, val a = some m
  least : ∀ m, deadline = some m → ∀ a ∈ kept, ∀ d, val a = some d → lt d m = false

omit [DecidableEq W] in
theorem Sound.advance_next [LawfulPartialOrd T] (hs : Sound c F)
    (hfuel : (F.row c.clock.head).length < fuel) (t : T) : ∃ r, advance fuel t c.clock = .ok r ∧
      r.self.time = later c.clock.time t ∧ r.self.val = c.clock.val ∧
      NextDeadline c.clock.val (left r.self.time c.clock.val (F.row c.clock.head)) r.ret := by
  obtain ⟨heap,waker,hcall,_,_⟩ := hs.advance_exec hfuel t
  refine ⟨_,hcall,rfl,rfl,?_⟩
  rw [hs.left_eq]
  have hmem : ∀ {a}, a ∈ (F.row c.clock.head).filter
      (fun n => !due (later c.clock.time t) c.clock.val n) ↔
      a ∈ F.row c.clock.head ∧ due (later c.clock.time t) c.clock.val a = false := by
    simp [List.mem_filter]
  refine ⟨?_,?_,?_⟩
  · constructor
    · intro hnone
      apply List.eq_nil_iff_forall_not_mem.mpr
      intro a ha
      obtain ⟨hrow,hdue⟩ := hmem.mp ha
      obtain ⟨d,_,hd,_⟩ := hs.linked a hrow
      obtain ⟨m,hm,_⟩ := sift_min hrow hdue hd ⟨c.clock.waker,[],none⟩
      exact absurd (hm.symm.trans hnone) (by simp)
    · intro hnil
      by_contra hsome
      obtain ⟨m,hm⟩ := Option.ne_none_iff_exists'.mp hsome
      rcases sift_min_mem hm with hmin | ⟨a,ha,hdue,_⟩
      · cases hmin
      · have hkept := hmem.mpr ⟨ha,hdue⟩
        rw [hnil] at hkept
        simp at hkept
  · intro m hm
    rcases sift_min_mem hm with hmin | ⟨a,ha,hdue,hd⟩
    · cases hmin
    · exact ⟨a,hmem.mpr ⟨ha,hdue⟩,hd⟩
  · intro m hm a ha d hd
    obtain ⟨hrow,hdue⟩ := hmem.mp ha
    obtain ⟨m',hm',hlt⟩ := sift_min hrow hdue hd ⟨c.clock.waker,[],none⟩
    obtain rfl : m' = m := Option.some.inj (hm'.symm.trans hm)
    exact hlt

/-- After every valid run on one clock, an advance leaves exactly the alarms whose deadline
is not reached, in order, and returns their next deadline, or none when none is left. -/
theorem advance_returns_next [LawfulPartialOrd T] (head : N) (time : T) (ops : List (Op N T W))
    (hv : ValidRun head (fun _ => none) ops) (fuel : ℕ) (hfuel : ops.length < fuel) :
    ∃ c l, run fuel (.start head time) ops = .ok c ∧ c.clock.waiting fuel = .ok l ∧
      (∀ a, c.clock.registered a = true ↔ a ∈ l) ∧
      ∀ t, ∃ r, advance fuel t c.clock = .ok r ∧ r.self.val = c.clock.val ∧
        r.self.time = (if gt t c.clock.time then t else c.clock.time) ∧
        r.self.waiting fuel = .ok (left r.self.time c.clock.val l) ∧
        (∀ a, r.self.registered a = true ↔ a ∈ left r.self.time c.clock.val l) ∧
        NextDeadline c.clock.val (left r.self.time c.clock.val l) r.ret := by
  obtain ⟨c,F,hrun,hs,hlen⟩ := start_keeps (W := W) head time hv hfuel
  refine ⟨c,F.row c.clock.head,hrun,hs.waiting_eq hlen,fun a => hs.registered_iff,fun t => ?_⟩
  obtain ⟨r,hcall,htime,hval,hnext⟩ := hs.advance_next hlen t
  have hs' := hs.advance_sound hlen hcall
  have hhead : r.self.head = c.clock.head := by
    obtain ⟨heap,waker,hexec,_,_⟩ := hs.advance_exec hlen t
    rw [Except.ok.inj (hcall.symm.trans hexec)]
  have hrow : (F.setRow c.clock.head ((F.row c.clock.head).filter fun n =>
      !due (later c.clock.time t) c.clock.val n)).row r.self.head =
      left r.self.time c.clock.val (F.row c.clock.head) := by
    rw [hs.left_eq,htime,hhead]
    simp [Rows.setRow]
  refine ⟨r,hcall,hval,htime,?_,?_,hnext⟩
  · rw [← hrow]
    apply hs'.waiting_eq
    show (Rows.row _ r.self.head).length < fuel
    rw [hrow]
    exact (List.length_filter_le _ _).trans_lt hlen
  · intro a
    rw [← hrow]
    exact hs'.registered_iff

/-- Alarms for 30, 10 and 20 wait when the clock advances to 10. -/
theorem advance_returns_next_at_ten : ∃ c l r, run 9 (.start 0 0) [.new 1 (some (30 : ℕ)),
      .new 2 (some 10),.new 3 (some 20),.alarmPoll 1 7,.alarmPoll 2 7,.alarmPoll 3 7] = .ok c ∧
    c.clock.waiting 9 = .ok l ∧ advance 9 10 c.clock = .ok (r : After ℕ ℕ ℕ (Option ℕ)) ∧
    NextDeadline c.clock.val (left r.self.time c.clock.val l) r.ret := by
  obtain ⟨c,l,hrun,hl,_,hadvance⟩ := advance_returns_next (W := ℕ) 0 (0 : ℕ)
    [.new 1 (some 30),.new 2 (some 10),.new 3 (some 20),.alarmPoll 1 7,.alarmPoll 2 7,
      .alarmPoll 3 7] (by simp [ValidRun,Op.Valid,Op.sets]) 9 (by decide)
  obtain ⟨r,hr,_,_,_,_,hnext⟩ := hadvance 10
  exact ⟨c,l,r,hrun,hl,hr,hnext⟩

end AlarmClock
end ProcMachines
