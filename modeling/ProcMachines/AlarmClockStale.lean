import ProcMachines.AlarmClockRuns

/-! An advance to a time that is not past the current one leaves the clock as it is, but for
the provider's threshold: that is forgotten although the time has not advanced. -/
namespace ProcMachines

open IntrusiveList PartialOrd

namespace AlarmClock

variable {N T W : Type} [DecidableEq N] [DecidableEq W] [PartialOrd T] {c : Watched N T W}
  {F : Rows N} {fuel : ℕ} {t d : T}

omit [DecidableEq W] in
/-- No registered alarm is due, so a stale advance keeps the list, the wakers and the time. -/
theorem Sound.advance_stale (hs : Sound c F) (hfuel : (F.row c.clock.head).length < fuel)
    (hstale : gt t c.clock.time = false) : ∃ m, advance fuel t c.clock =
      .ok ⟨{ c.clock with externalThreshold := none },[],m⟩ := by
  have htime : (if gt t c.clock.time then t else c.clock.time) = c.clock.time := by simp [hstale]
  have hkeep : ∀ n ∈ F.row c.clock.head, ∀ s : Sweep N T W,
      (sweep c.clock.time c.clock.val n s).1 = true := by
    intro n hn s
    obtain ⟨d,_,hd⟩ := sweep_kept (hs.not_due hn) s
    rw [hd]
  have hexec := filter_keeps (sweep c.clock.time c.clock.val) (hs.rep.row _ hs.head) hfuel hkeep
    ⟨c.clock.waker,[],none⟩
  have hwaker : (sift (sweep c.clock.time c.clock.val) (F.row c.clock.head)
      ⟨c.clock.waker,[],none⟩).2.waker = c.clock.waker := by
    funext a
    rw [sift_waker,if_neg]
    intro ⟨ha,hdue⟩
    rw [hs.not_due ha] at hdue
    cases hdue
  have hwoken : (sift (sweep c.clock.time c.clock.val) (F.row c.clock.head)
      ⟨c.clock.waker,[],none⟩).2.woken = [] := by
    rw [sift_woken (hs.rep.row _ hs.head).nodup,List.filter_eq_nil_iff.mpr]
    · rfl
    · intro a ha
      simp [hs.not_due ha]
  have hrun : (filter fuel c.clock.head (quiet (sweep c.clock.time c.clock.val))
      ⟨c.clock.waker,[],none⟩).run c.clock.heap = .ok (_,c.clock.heap) := hexec
  refine ⟨(sift (sweep c.clock.time c.clock.val) (F.row c.clock.head)
    ⟨c.clock.waker,[],none⟩).2.minAlarm,?_⟩
  simp only [advance,htime,hrun]
  show Except.ok _ = _
  rw [hwaker,hwoken]

theorem Sound.next_stale (hs : Sound c F) (hfuel : (F.row c.clock.head).length < fuel)
    (hstale : gt t c.clock.time = false) : next fuel c (.advance t) =
      .ok { c with clock := { c.clock with externalThreshold := none } } := by
  obtain ⟨m,hcall⟩ := hs.advance_stale hfuel hstale
  rw [next,call,hcall]
  simp [Except.map,reply,Watched.after,Op.sets,Op.arms]

omit [DecidableEq N] [DecidableEq W] in
/-- Without its threshold the provider is woken by an alarm it was not waiting for. -/
theorem wakeProvider_forgotten {self : AlarmClock N T W} {threshold : T} {cx : W}
    (ht : self.externalThreshold = some threshold) (hw : self.externalWaker = ⟨some cx⟩)
    (hd : lt d threshold = false) : (ClockAlarm.wakeProvider d self).2 = [] ∧
      (ClockAlarm.wakeProvider d { self with externalThreshold := none }).2 = [.provider cx] := by
  simp [ClockAlarm.wakeProvider,ht,hw,hd]

theorem Sound.poll_forgotten (hs : Sound c F) (fuel : ℕ) {threshold : T} {a : N} {v cx : W}
    (ht : c.clock.externalThreshold = some threshold) (hw : c.clock.externalWaker = ⟨some cx⟩)
    (ha : c.threshold a = some (some d)) (hge : ge c.clock.time d = false)
    (hd : lt d threshold = false) : ∃ p q, ClockAlarm.alarmPoll fuel a v c.clock = .ok p ∧
      p.woken = [] ∧
      ClockAlarm.alarmPoll fuel a v { c.clock with externalThreshold := none } = .ok q ∧
      q.woken = [.provider cx] := by
  have hs' : Sound { c with clock := { c.clock with externalThreshold := none } } F :=
    ⟨hs.rep,hs.head,hs.free,hs.alive,hs.val,hs.linked,hs.unlinked⟩
  obtain ⟨hbefore,hafter⟩ := wakeProvider_forgotten ht hw hd
  obtain ⟨_,_,_,_,hp,_⟩ := alarmPoll_pending fuel hs ha hge v
  obtain ⟨_,_,_,_,hq,_⟩ := alarmPoll_pending fuel hs' ha hge v
  exact ⟨_,_,hp,hbefore,hq,hafter⟩

/-- After every valid run on one clock, an advance to a time not past the current one changes
at most the provider's threshold and wakes nobody; it is a no-op, for the state and for every
later call, exactly when there is no threshold. -/
theorem stale_advance_iff (head : N) (time : T) (ops : List (Op N T W))
    (hv : ValidRun head (fun _ => none) ops) (fuel : ℕ) (hfuel : ops.length < fuel) :
    ∃ c, run fuel (.start head time) ops = .ok c ∧ ∀ t, gt t c.clock.time = false →
      ∃ r, advance fuel t c.clock = .ok r ∧ r.woken = [] ∧
        r.self = { c.clock with externalThreshold := none } ∧
        ((r.self = c.clock ∧ ∀ post, run fuel c (.advance t :: post) = run fuel c post) ↔
          c.clock.externalThreshold = none) := by
  obtain ⟨c,F,hrun,hs,hlen⟩ := start_keeps (W := W) head time hv hfuel
  refine ⟨c,hrun,fun t hstale => ?_⟩
  obtain ⟨m,hcall⟩ := hs.advance_stale hlen hstale
  refine ⟨_,hcall,rfl,rfl,?_,?_⟩
  · intro h
    exact (congrArg AlarmClock.externalThreshold h.1).symm
  · intro hnone
    have hsame : ({ c.clock with externalThreshold := none } : AlarmClock N T W) = c.clock := by
      rw [← hnone]
    refine ⟨hsame,fun post => ?_⟩
    rw [run_cons,hs.next_stale hlen hstale,hsame]
    rfl

/-- Nobody waits for an alarm: advancing a clock at 0 to 0 does nothing. -/
theorem stale_advance_iff_no_threshold : ∃ (c : Watched ℕ ℕ ℕ) (r : After ℕ ℕ ℕ (Option ℕ)),
    run 5 (.start 0 0) [.new 1 (some 30)] = .ok c ∧ advance 5 0 c.clock = .ok r ∧
      r.self = c.clock := by
  obtain ⟨c,hrun,hstale⟩ := stale_advance_iff (W := ℕ) 0 (0 : ℕ) [.new 1 (some 30)]
    (by simp [ValidRun,Op.Valid]) 5 (by decide)
  have hclock : (run 5 (Watched.start 0 0) [.new 1 (some (30 : ℕ))]).map
      (fun c : Watched ℕ ℕ ℕ => (c.clock.time,c.clock.externalThreshold)) = .ok (0,none) := by rfl
  rw [hrun] at hclock
  obtain ⟨htime,hnone⟩ := Prod.mk.inj (Except.ok.inj hclock)
  obtain ⟨r,hr,_,_,hiff⟩ := hstale 0 (by rw [htime]; rfl)
  exact ⟨c,r,hrun,hr,(hiff.mpr hnone).1⟩

/-- The provider waits for alarms below 20. After an advance of a clock at 0 to 0 an alarm set
for 30 wakes it, and would not have. -/
theorem stale_advance_forgets : ¬ ∀ (head time : ℕ) (ops : List (Op ℕ ℕ ℕ)),
    ValidRun head (fun _ => none) ops → ∀ fuel, ops.length < fuel →
    ∀ c, run fuel (.start head time) ops = .ok c → ∀ t, gt t c.clock.time = false →
    ∀ r, advance fuel t c.clock = .ok r → r.self.externalThreshold = c.clock.externalThreshold ∧
      ∀ a cx p q, ClockAlarm.alarmPoll fuel a cx c.clock = .ok p →
        ClockAlarm.alarmPoll fuel a cx r.self = .ok q → q.woken = p.woken := by
  intro hall
  have hv : ValidRun (T := ℕ) (W := ℕ) 0 (fun _ => none)
      [.new 1 (some 30),.externalPollNewAlarm 3 (some 20)] := by simp [ValidRun,Op.Valid]
  obtain ⟨c,F,hrun,hs,hlen⟩ := start_keeps (W := ℕ) 0 (0 : ℕ) hv (show _ < 5 by decide)
  have hclock : (run 5 (Watched.start 0 0)
      [.new 1 (some 30),.externalPollNewAlarm 3 (some 20)]).map (fun c : Watched ℕ ℕ ℕ =>
        (c.clock.time,c.clock.externalThreshold,c.clock.externalWaker,c.threshold 1)) =
      .ok (0,some 20,⟨some 3⟩,some (some 30)) := by rfl
  rw [hrun] at hclock
  have hfields := Except.ok.inj hclock
  simp only [Prod.mk.injEq] at hfields
  obtain ⟨htime,hthreshold,hwaker,halarm⟩ := hfields
  have hstale : gt 0 c.clock.time = false := by rw [htime]; rfl
  obtain ⟨m,hadvance⟩ := hs.advance_stale hlen hstale
  obtain ⟨p,q,hp,hsilent,hq,hwoken⟩ := hs.poll_forgotten 5 hthreshold hwaker halarm
    (by rw [htime]; rfl) (by rfl)
  have hsame := (hall 0 0 _ hv 5 (by decide) c hrun 0 hstale _ hadvance).2 1 7 p q hp hq
  rw [hsilent,hwoken] at hsame
  cases hsame

end AlarmClock
end ProcMachines
