import ProcMachines.AlarmClockBatch
import ProcMachines.AlarmClockDeadline
import ProcMachines.AlarmClockProvider
import ProcMachines.AlarmClockWakeup
import ProcMachines.Transition

/-! A clock and its provider, which sleeps until the deadline that it was told or until it is
woken, while the time goes on: as long as it sleeps, no alarm that waits is overdue. -/
namespace ProcMachines

open IntrusiveList PartialOrd Transition

theorem PartialOrd.ge_of_not_lt {T : Type} [PartialOrd T] {a b : T}
    (htotal : ∀ a b : T, partialCmp a b ≠ none) (h : lt a b = false) : ge a b = true := by
  cases hab : partialCmp a b with
  | none => exact absurd hab (htotal a b)
  | some o =>
    cases o with
    | lt => simp [lt,hab] at h
    | eq | gt => simp [ge,hab]

namespace AlarmClock

theorem le_later {T : Type} [PartialOrd T] [LawfulPartialOrd T]
    (htotal : ∀ a b : T, partialCmp a b ≠ none) (time a : T) :
    le a (later time a) = true := by
  rw [← ge_eq_le]
  cases hgt : gt a time with
  | true =>
    rw [later_of_gt hgt]
    exact ge_of_not_lt htotal (lt_irrefl a)
  | false =>
    rw [later_of_not_gt hgt]
    rw [gt_eq_lt] at hgt
    exact ge_of_not_lt htotal hgt

variable {N T W : Type} [DecidableEq N] [DecidableEq W] [PartialOrd T]

/-- A clock with the time outside, and what the provider was told if it sleeps. -/
structure Driven (N T W : Type) where
  watched : Watched N T W
  now : T
  told : Option (Option T)

/-- What happens: an alarm's owner makes a call, time passes, or the provider takes its turn. -/
inductive Move (N T W : Type)
  | call (op : Op N T W)
  | pass (now : T)
  | turn

namespace Driven

def start (head : N) (time : T) : Driven N T W := ⟨.start head time,time,none⟩

def reached (now : T) (told : Option T) : Bool := told.any fun m => ge now m

/-- The provider wakes when its waker is fired or its deadline is reached. In its turn it advances
the clock to the time, and waits for an alarm below the deadline that it is told. -/
inductive Step (fuel : ℕ) (cx : W) : Driven N T W → Move N T W → Driven N T W → Prop
  | call (s : Driven N T W) (op : Op N T W) (r : After N T W (Reply T)) (hop : op.ofAlarm = true)
      (hv : op.Valid s.watched.clock.head s.watched.threshold)
      (h : AlarmClock.call fuel op s.watched.clock = .ok r) :
    Step fuel cx s (.call op) ⟨s.watched.after op r,s.now,
      if Wake.provider cx ∈ r.woken then none else s.told⟩
  | pass (s : Driven N T W) (now : T) (h : gt now s.now = true) :
    Step fuel cx s (.pass now) ⟨s.watched,now,s.told.filter fun told => !reached now told⟩
  | turn (s : Driven N T W) (r : After N T W (Option T)) (c : Watched N T W)
      (h : advance fuel s.now s.watched.clock = .ok r)
      (hc : run fuel s.watched [.advance s.now,.externalPollNewAlarm cx r.ret] = .ok c) :
    Step fuel cx s .turn ⟨c,s.now,some r.ret⟩

/-- The clock is sound, with a list no longer than `n`; a sleeping provider is registered, and
its deadline is not reached. -/
structure OnTime (head : N) (cx : W) (n : ℕ) (s : Driven N T W) : Prop where
  sound : ∃ F, Sound s.watched F ∧ s.watched.clock.head = head ∧ (F.row head).length ≤ n
  asleep : ∀ told, s.told = some told → Asleep cx told s.watched ∧ reached s.now told = false

variable {s s' : Driven N T W} {head : N} {cx : W} {n fuel : ℕ} {e : Move N T W}

section Turn

variable [LawfulPartialOrd T] {c c' : Watched N T W} {F : Rows N} {now : T} {r : After N T W (Option T)}

theorem turn_asleep (hs : Sound c F) (hfuel : (F.row c.clock.head).length < fuel)
    (h : advance fuel now c.clock = .ok r)
    (hc : run fuel c [.advance now,.externalPollNewAlarm cx r.ret] = .ok c') :
    Asleep cx r.ret c' := by
  obtain ⟨r',hr',hdeadline⟩ := hs.advance_deadline hfuel now
  obtain rfl := Except.ok.inj (hr'.symm.trans h)
  rw [run_cons,next,call,h] at hc
  cases hc
  exact ⟨rfl,WakerRef.register_eq _ _,hdeadline⟩

omit [DecidableEq W] in
theorem turn_not_reached (htotal : ∀ a b : T, partialCmp a b ≠ none) (hs : Sound c F)
    (hfuel : (F.row c.clock.head).length < fuel) (h : advance fuel now c.clock = .ok r) :
    reached now r.ret = false := by
  obtain ⟨r',hr',htime,-,hnext⟩ := hs.advance_next hfuel now
  obtain rfl := Except.ok.inj (hr'.symm.trans h)
  cases hret : r'.ret with
  | none => rfl
  | some m =>
    obtain ⟨a,ha,hm⟩ := hnext.mem m hret
    have hleft : le m r'.self.time = false := by
      have hall := (List.mem_filter.mp ha).2
      simpa [hm] using hall
    show ge now m = false
    rw [← Bool.not_eq_true]
    intro hge
    have hlate : ge r'.self.time m = true := by
      rw [htime]
      exact ge_of_le (le_later htotal _ now) hge
    rw [ge_eq_le,hleft] at hlate
    cases hlate

end Turn

theorem OnTime.next [LawfulPartialOrd T] (htotal : ∀ a b : T, partialCmp a b ≠ none)
    (h : OnTime head cx n s) (hfuel : n + 2 ≤ fuel) (hstep : Step fuel cx s e s') :
    OnTime head cx (n + 2) s' := by
  obtain ⟨F,hs,hhead,hlen⟩ := h.sound
  subst hhead
  cases hstep with
  | call op r hop hv hr =>
    obtain ⟨r',F',hr',hs',hhead',hlen',-⟩ := goes hs hv (show _ < fuel by omega)
    obtain rfl := Except.ok.inj (hr'.symm.trans hr)
    refine ⟨⟨F',hs',hhead',by omega⟩,fun told htold => ?_⟩
    by_cases hfired : Wake.provider cx ∈ r'.woken
    · simp [hfired] at htold
    · rw [if_neg hfired] at htold
      obtain ⟨hasleep,hreached⟩ := h.asleep told htold
      exact ⟨call_asleep hs hasleep hop hv (show _ < fuel by omega) hr hfired,hreached⟩
  | pass now hnow =>
    refine ⟨⟨F,hs,rfl,by omega⟩,fun told htold => ?_⟩
    obtain ⟨htold,hreached⟩ := Option.filter_eq_some_iff.mp htold
    exact ⟨(h.asleep told htold).1,by simpa using hreached⟩
  | turn r c hr hc =>
    have hvalid : ValidRun s.watched.clock.head s.watched.threshold
        ([.advance s.now,.externalPollNewAlarm cx r.ret] : List (Op N T W)) := ⟨trivial,trivial,trivial⟩
    obtain ⟨c',F',hc',hl⟩ := run_sound ⟨hs,hvalid,show _ ≤ fuel by simp; omega⟩
    obtain rfl := Except.ok.inj (hc'.symm.trans hc)
    have hlen' : (F'.row s.watched.clock.head).length ≤
        (F.row s.watched.clock.head).length + 2 := hl.length
    refine ⟨⟨F',hl.sound,hl.head,by omega⟩,fun told htold => ?_⟩
    cases htold
    exact ⟨turn_asleep hs (by omega) hr hc,turn_not_reached htotal hs (by omega) hr⟩

theorem on_time_run [LawfulPartialOrd T] (htotal : ∀ a b : T, partialCmp a b ≠ none) (head : N)
    (time : T) {es : List (Move N T W)} (h : Run (Step fuel cx) (start head time) es s)
    (hfuel : 2 * es.length ≤ fuel) : OnTime head cx (2 * es.length) s := by
  induction h with
  | refl => exact ⟨⟨_,start_sound head time,rfl,by simp⟩,fun told htold => by cases htold⟩
  | @snoc s s' es e _ hstep ih =>
    rw [List.length_append,List.length_singleton] at hfuel ⊢
    exact (ih (by omega)).next htotal (by omega) hstep

/-- Times are totally ordered. In every run, whatever the alarms' owners do and however much time
passes: while the provider sleeps no registered alarm is overdue, its next turn wakes every
registered alarm that is, and no call of an alarm's owner fails. -/
theorem sleeping_provider_is_on_time [LawfulPartialOrd T] (htotal : ∀ a b : T, partialCmp a b ≠ none)
    (head : N) (time : T) (cx : W) (fuel : ℕ) (es : List (Move N T W)) (s : Driven N T W)
    (h : Run (Step fuel cx) (start head time) es s) (hfuel : 2 * es.length < fuel) :
    (s.told.isSome → ∀ a d, s.watched.clock.registered a = true → s.watched.clock.val a = some d →
      ge s.now d = false) ∧
    (∃ r, advance fuel s.now s.watched.clock = .ok r ∧
      ∀ a d, s.watched.clock.registered a = true → s.watched.clock.val a = some d →
        ge s.now d = true → ∃ w, Wake.alarm a w ∈ r.woken) ∧
    ∀ op, op.Valid s.watched.clock.head s.watched.threshold →
      ∃ r, call fuel op s.watched.clock = .ok r := by
  have htime := on_time_run htotal head time h hfuel.le
  obtain ⟨F,hs,rfl,hlen⟩ := htime.sound
  refine ⟨fun htold a d hreg hd => ?_,?_,fun op hv => ?_⟩
  · obtain ⟨told,htold⟩ := Option.isSome_iff_exists.mp htold
    obtain ⟨hasleep,hreached⟩ := htime.asleep told htold
    obtain ⟨hbelow,hnone⟩ := hasleep.below hs
    cases told with
    | none => simp [hnone rfl a] at hreg
    | some m =>
      rw [← Bool.not_eq_true]
      intro hdue
      have hdm : ge d m = true := ge_of_not_lt htotal (hbelow m rfl a d hreg hd)
      have hnow : ge s.now m = true := ge_of_le (by rw [← ge_eq_le]; exact hdue) hdm
      rw [show ge s.now m = false from hreached] at hnow
      cases hnow
  · obtain ⟨r,hr,-,-,hwoken⟩ := hs.advance_wakes (show _ < fuel by omega) s.now
    obtain ⟨r',hr',hlater,-⟩ := hs.advance_next (show _ < fuel by omega) s.now
    obtain rfl := Except.ok.inj (hr.symm.trans hr')
    refine ⟨r,hr,fun a d hreg hd hdue => ?_⟩
    obtain ⟨d',w,hd',-,harmed,-⟩ := hs.linked a (hs.registered_iff.mp hreg)
    obtain rfl := Option.some.inj (hd.symm.trans hd')
    refine ⟨w,(hwoken _).mpr ⟨a,d,w,rfl,harmed,?_⟩⟩
    rw [hlater,← ge_eq_le]
    exact ge_of_le (le_later htotal _ s.now) hdue
  · obtain ⟨r,-,hr,-⟩ := goes hs hv (show _ < fuel by omega)
    exact ⟨r,hr⟩

def exec (fuel : ℕ) (cx : W) (s : Driven N T W) : Move N T W → Option (Driven N T W)
  | .call op =>
    if op.ofAlarm = true ∧ op.Valid s.watched.clock.head s.watched.threshold then
      (call fuel op s.watched.clock).toOption.map fun r =>
        ⟨s.watched.after op r,s.now,if Wake.provider cx ∈ r.woken then none else s.told⟩
    else none
  | .pass now =>
    if gt now s.now then some ⟨s.watched,now,s.told.filter fun told => !reached now told⟩ else none
  | .turn =>
    (advance fuel s.now s.watched.clock).toOption.bind fun r =>
      (run fuel s.watched [.advance s.now,.externalPollNewAlarm cx r.ret]).toOption.map fun c =>
        ⟨c,s.now,some r.ret⟩

theorem toOption_eq_some {α : Type} {m : Except Fault α} {a : α} (h : m.toOption = some a) :
    m = .ok a := by
  cases m with
  | error => cases h
  | ok => exact congrArg Except.ok (Option.some.inj h)

theorem exec_step (h : exec fuel cx s e = some s') : Step fuel cx s e s' := by
  cases e with
  | call op =>
    simp only [exec] at h
    split at h
    · rename_i hv
      obtain ⟨r,hr,rfl⟩ := Option.map_eq_some_iff.mp h
      exact .call s op r hv.1 hv.2 (toOption_eq_some hr)
    · cases h
  | pass now =>
    simp only [exec] at h
    split at h
    · cases h
      exact .pass s now ‹_›
    · cases h
  | turn =>
    obtain ⟨r,hr,hcalls⟩ := Option.bind_eq_some_iff.mp h
    obtain ⟨c,hc,rfl⟩ := Option.map_eq_some_iff.mp hcalls
    exact .turn s r c (toOption_eq_some hr) (toOption_eq_some hc)

theorem exec_run {moves : List (Move N T W)} (h : moves.foldlM (exec fuel cx) s = some s') :
    Run (Step fuel cx) s moves s' := by
  induction moves using List.reverseRecOn generalizing s' with
  | nil =>
    cases h
    exact Run.refl s
  | append_singleton moves e ih =>
    rw [List.foldlM_append] at h
    obtain ⟨s₁,h₁,h₂⟩ := Option.bind_eq_some_iff.mp h
    rw [List.foldlM_cons] at h₂
    obtain ⟨s₂,hstep,hnil⟩ := Option.bind_eq_some_iff.mp h₂
    cases hnil
    exact (ih h₁).snoc (exec_step hstep)

def dozing : List (Move ℕ ℕ ℕ) :=
  [.turn,.call (.new 1 (some 20)),.call (.alarmPoll 1 7),.turn,.pass 5]

def dozed : Driven ℕ ℕ ℕ := (dozing.foldlM (exec 11 3) (start 0 0)).get (by decide +kernel)

theorem sleeping_provider_is_on_time_dozing : dozed.told.isSome ∧ dozed.now = 5 ∧
    dozed.watched.clock.registered 1 = true ∧ ∀ a d, dozed.watched.clock.registered a = true →
      dozed.watched.clock.val a = some d → ge dozed.now d = false := by
  have hrun : Run (Step 11 3) (start 0 0) dozing dozed := exec_run (Option.some_get _).symm
  have htold : dozed.told.isSome := by decide +kernel
  exact ⟨htold,by decide +kernel,by decide +kernel,
    (sleeping_provider_is_on_time (by simp [partialCmp]) 0 0 3 11 dozing dozed hrun
      (by decide)).1 htold⟩

end Driven
end AlarmClock
end ProcMachines
