import ProcMachines.AlarmClockFires
import ProcMachines.Wakeup

/-! The clock as an object that tasks poll, each in the role of an alarm: a poll told `Pending`
stays pending until its waker is fired. -/
namespace ProcMachines
namespace AlarmClock

open IntrusiveList PartialOrd Wakeup

variable {N T W : Type}

def Op.alarm : Op N T W → Option N
  | .new alarm _ | .alarmPoll alarm _ | .setAlarm alarm _ | .drop alarm => some alarm
  | .advance _ | .externalPollNewAlarm _ _ => none

def Op.waker : Op N T W → Option W
  | .alarmPoll _ cx | .externalPollNewAlarm cx _ => some cx
  | _ => none

def wakerOf : Wake N W → W
  | .alarm _ w | .provider w => w

def isPending : Reply T → Bool
  | .poll p => p.isPending
  | _ => false

variable [DecidableEq N]

instance (head : N) (threshold : N → Option (Option T)) (op : Op N T W) :
    Decidable (op.Valid head threshold) :=
  match op with
  | .new alarm _ => inferInstanceAs (Decidable (alarm ≠ head ∧ threshold alarm = none))
  | .alarmPoll alarm _ | .setAlarm alarm _ | .drop alarm =>
    inferInstanceAs (Decidable (threshold alarm ≠ none))
  | .advance _ | .externalPollNewAlarm _ _ => isTrue trivial

/-- A clock in use. The list is never longer than the calls made so far are many, so their
number is fuel enough for the next one. -/
structure Used (N T W : Type) where
  watched : Watched N T W
  calls : ℕ

variable [DecidableEq W] [PartialOrd T]

omit [DecidableEq W] in
theorem Sound.armed_threshold {c : Watched N T W} {F : Rows N} (hs : Sound c F) {a : N} {d : T} {w : W}
    (h : c.armed a = some (d,w)) : c.threshold a = some (some d) ∧ ge c.clock.time d = false := by
  obtain ⟨hmem,hval,-⟩ := hs.armed_iff.mp h
  obtain ⟨d',-,hd',-,-,hge⟩ := hs.linked a hmem
  rw [hval] at hd'
  cases hd'
  have htarget := hs.rep.target_of_mem hmem
  have hne : a ≠ c.clock.head := by
    rintro rfl
    rw [hs.head] at htarget
    cases htarget
  rw [hs.alive a hne] at htarget
  obtain ⟨threshold,hth,-⟩ := Option.map_eq_some_iff.mp htarget
  have hset := hs.val a threshold hth
  rw [hval] at hset
  subst hset
  exact ⟨hth,hge⟩

namespace Used

def start (head : N) (time : T) : Used N T W := ⟨.start head time,0⟩

/-- A call on an alarm that is not alive is none, and neither is a second creation. -/
def exec (op : Op N T W) : Act (Used N T W) W Bool := fun u =>
  if op.Valid u.watched.clock.head u.watched.threshold then
    match call (u.calls + 1) op u.watched.clock with
    | .ok r => ⟨⟨u.watched.after op r,u.calls + 1⟩,r.woken.map wakerOf,isPending r.ret⟩
    | .error _ => ⟨u,[],false⟩
  else ⟨u,[],false⟩

def Kept (u : Used N T W) : Prop :=
  ∃ F, Sound u.watched F ∧ (F.row u.watched.clock.head).length ≤ u.calls

/-- The poll waits on an alarm that is disabled, or armed with the poll's waker; a poll for new
alarms always waits. -/
def Armed (op : Op N T W) (u : Used N T W) : Prop :=
  (∃ cx threshold, op = .externalPollNewAlarm cx threshold) ∨
    ∃ a cx, op = .alarmPoll a cx ∧ (u.watched.threshold a = some none ∨
      ∃ d, u.watched.armed a = some (d,cx))

variable {u : Used N T W} {op o : Op N T W}

theorem polls_of_pending {fuel : ℕ} {self : AlarmClock N T W} {r : After N T W (Reply T)}
    (h : call fuel op self = .ok r) (hp : isPending r.ret = true) :
    (∃ a cx, op = .alarmPoll a cx ∧ r.ret = .poll .pending) ∨
      ∃ cx threshold, op = .externalPollNewAlarm cx threshold := by
  cases op with
  | alarmPoll a cx =>
    obtain ⟨q,-,rfl⟩ := map_ok h
    have hret : q.ret = .pending := (Poll.isPending_iff _).mp hp
    exact Or.inl ⟨a,cx,rfl,congrArg Reply.poll hret⟩
  | externalPollNewAlarm cx threshold => exact Or.inr ⟨cx,threshold,rfl⟩
  | _ =>
    simp only [call] at h
    obtain ⟨_,-,rfl⟩ := map_ok h
    cases hp

theorem exec_valid (hu : u.Kept) (hv : op.Valid u.watched.clock.head u.watched.threshold) :
    ∃ r, call (u.calls + 1) op u.watched.clock = .ok r ∧
      exec op u = ⟨⟨u.watched.after op r,u.calls + 1⟩,r.woken.map wakerOf,isPending r.ret⟩ ∧
      (exec op u).self.Kept := by
  obtain ⟨F,hs,hlen⟩ := hu
  obtain ⟨r,F',hcall,hs',hhead,hlen',-⟩ := goes hs hv (Nat.lt_succ_of_le hlen)
  have hexec : exec op u = ⟨⟨u.watched.after op r,u.calls + 1⟩,r.woken.map wakerOf,isPending r.ret⟩ := by
    simp only [exec,if_pos hv,hcall]
  have hhead' : (u.watched.after op r).clock.head = u.watched.clock.head := hhead
  refine ⟨r,hcall,hexec,?_⟩
  rw [hexec]
  refine ⟨F',hs',?_⟩
  change (F'.row (u.watched.after op r).clock.head).length ≤ u.calls + 1
  rw [hhead']
  omega

theorem exec_invalid (hv : ¬ op.Valid u.watched.clock.head u.watched.threshold) :
    exec op u = ⟨u,[],false⟩ := if_neg hv

theorem kept_exec (hu : u.Kept) (op : Op N T W) : (exec op u).self.Kept := by
  by_cases hv : op.Valid u.watched.clock.head u.watched.threshold
  · obtain ⟨-,-,-,hk⟩ := exec_valid hu hv
    exact hk
  · rw [exec_invalid hv]
    exact hu

theorem arms (hu : u.Kept) (h : (exec op u).ret = true) : Armed op (exec op u).self := by
  by_cases hv : op.Valid u.watched.clock.head u.watched.threshold
  · obtain ⟨r,hcall,hexec,-⟩ := exec_valid hu hv
    rw [hexec] at h ⊢
    rcases polls_of_pending hcall h with ⟨a,cx,rfl,hpending⟩ | hprovider
    · obtain ⟨threshold,hth⟩ := Option.ne_none_iff_exists'.mp hv
      refine Or.inr ⟨a,cx,rfl,?_⟩
      cases threshold with
      | none => exact Or.inl hth
      | some d => exact Or.inr ⟨d,by simp [Watched.after,Op.arms,hpending,hth]⟩
    · exact Or.inl hprovider
  · rw [exec_invalid hv] at h
    cases h

omit [DecidableEq W] [PartialOrd T] in
theorem sets_of_ne {threshold : N → Option (Option T)} {a : N} (h : op.alarm ≠ some a) :
    op.sets threshold a = threshold a := by
  cases op <;> simp_all [Op.alarm,Op.sets,Function.update_of_ne,eq_comm]

/-- An armed alarm stays armed until an advance wakes it, or its owner calls. -/
theorem armed_or_woken {c : Watched N T W} {F : Rows N} (hs : Sound c F)
    {fuel : ℕ} (hfuel : (F.row c.clock.head).length < fuel) {r : After N T W (Reply T)}
    (hcall : call fuel op c.clock = .ok r) {a : N} {d : T} {cx : W} (h : op.alarm ≠ some a)
    (ha : c.armed a = some (d,cx)) :
    .alarm a cx ∈ r.woken ∨ (c.after op r).armed a = some (d,cx) := by
  cases op with
  | advance t =>
    by_cases hany : r.woken.any (isFor a) = true
    · left
      obtain ⟨w,hw⟩ := any_isFor.mp hany
      obtain ⟨heap,waker,hadvance,-⟩ := hs.advance_exec hfuel t
      have hr : r = reply .deadline _ :=
        (Except.ok.inj ((congrArg (Except.map (reply Reply.deadline)) hadvance).symm.trans hcall)).symm
      have hmem := hw
      rw [hr] at hmem
      obtain ⟨b,d',w',hb,harmed,-⟩ := hs.mem_woken.mp hmem
      obtain ⟨rfl,rfl⟩ := Wake.alarm.inj hb
      rw [ha] at harmed
      cases harmed
      exact hw
    · exact Or.inr (by simp only [Watched.after,Op.arms,if_neg hany,ha])
  | externalPollNewAlarm cx' threshold => exact Or.inr ha
  | new b threshold | setAlarm b threshold =>
    have hb : a ≠ b := fun e => h (congrArg some e.symm)
    exact Or.inr (by simp only [Watched.after,Op.arms,Function.update_of_ne hb,ha])
  | alarmPoll b cx' =>
    have hb : a ≠ b := fun e => h (congrArg some e.symm)
    exact Or.inr (by simp only [Watched.after,Op.arms,Function.update_of_ne hb,ha])
  | drop b =>
    have hb : a ≠ b := fun e => h (congrArg some e.symm)
    exact Or.inr (by simp only [Watched.after,Op.arms,Function.update_of_ne hb,ha])

theorem keeps (hu : u.Kept) (ho : Armed o u) (hne : op.alarm ≠ o.alarm) :
    (∃ w, o.waker = some w ∧ w ∈ (exec op u).woken) ∨ Armed o (exec op u).self := by
  by_cases hv : op.Valid u.watched.clock.head u.watched.threshold
  · obtain ⟨r,hcall,hexec,-⟩ := exec_valid hu hv
    obtain ⟨F,hs,hlen⟩ := hu
    rw [hexec]
    rcases ho with hprovider | ⟨a,cx,rfl,hdisabled | ⟨d,harmed⟩⟩
    · exact Or.inr (Or.inl hprovider)
    · refine Or.inr (Or.inr ⟨a,cx,rfl,Or.inl ?_⟩)
      exact (sets_of_ne hne).trans hdisabled
    · rcases armed_or_woken hs (Nat.lt_succ_of_le hlen) hcall hne harmed with hwoken | hkept
      · exact Or.inl ⟨cx,rfl,List.mem_map.mpr ⟨_,hwoken,rfl⟩⟩
      · exact Or.inr (Or.inr ⟨a,cx,rfl,Or.inr ⟨d,hkept⟩⟩)
  · rw [exec_invalid hv]
    exact Or.inr ho

theorem waits (hu : u.Kept) (ho : Armed o u) : (exec o u).ret = true := by
  rcases ho with ⟨cx,threshold,rfl⟩ | ⟨a,cx,rfl,hwait⟩
  · simp [exec,Op.Valid,call,externalPollNewAlarm,Except.map,reply,isPending]
  · obtain ⟨F,hs,hlen⟩ := hu
    have hfuel := Nat.lt_succ_of_le hlen
    obtain ⟨r,hr,hpending⟩ : ∃ r, ClockAlarm.alarmPoll (u.calls + 1) a cx u.watched.clock = .ok r ∧
        r.ret = .pending := by
      rcases hwait with hdisabled | ⟨d,harmed⟩
      · obtain ⟨heap,hpoll,-⟩ := alarmPoll_none hs hdisabled hfuel cx
        exact ⟨_,hpoll,rfl⟩
      · obtain ⟨hth,hge⟩ := hs.armed_threshold harmed
        obtain ⟨_,_,_,-,hpoll,-⟩ := alarmPoll_pending (u.calls + 1) hs hth hge cx
        exact ⟨_,hpoll,rfl⟩
    have hv : u.watched.threshold a ≠ none := by
      rcases hwait with hdisabled | ⟨d,harmed⟩
      · simp [hdisabled]
      · simp [(hs.armed_threshold harmed).1]
    simp [exec,Op.Valid,hv,call,hr,Except.map,reply,isPending,hpending]

/-- A clock in use, polled in the role of each alarm by its owner, who alone sets and drops it. -/
def polled : Polled (Used N T W) W (Op N T W) N where
  exec := exec
  role := Op.alarm
  waker := Op.waker

def discipline : Discipline (polled (N := N) (T := T) (W := W)) where
  inv := Kept
  armed := Armed
  allowed _ _ := True
  inv_step op _ h := kept_exec h op
  arms _ _ h hret := arms h hret
  keeps _ _ _ h ho _ _ hne := keeps h ho hne
  waits _ _ h ho := waits h ho

end Used
end AlarmClock
end ProcMachines
