import ProcMachines.AlarmClockWakeup
import ProcMachines.InputValueWakeup
import ProcMachines.IoPortConnected
import ProcMachines.ProcMachineWaitables
import ProcMachines.WatchableValueWakeup

/-! The objects that the tasks of a machine wait for, exchanges, ports, alarms, watches and
inputs, all together in one machine. -/
namespace ProcMachines
namespace ProcMachine
namespace Waitables

open Transition Scheduler Wakeup

section Objects

variable {W : Type} [DecidableEq W]

/-- The calls of a port that go behind nobody's back. -/
def CalmCall {T ITEM : Type} (p : IoPort.Op W T ITEM → Prop) (op : IoPort.Op W T ITEM) : Prop :=
  p op ∧ op.preDrops = false ∧ op ≠ .reset

omit [DecidableEq W] in
theorem not_disturbs {T ITEM : Type} {p : IoPort.Op W T ITEM → Prop} {op o : IoPort.Op W T ITEM}
    (h : CalmCall p op) (self : IoPort W T) : ¬ IoPort.Disturbs op o self := by
  rintro ⟨-,⟨hdrops,-⟩ | ⟨hreset,-⟩⟩
  · rw [h.2.1] at hdrops
    cases hdrops
  · exact h.2.2 hreset

def itemPort (ITEM : Type) (noop : W) : Waitable W where
  polled := (IoPort.portPolled (IoPort.items noop)).restrict (CalmCall (@IoPort.ItemCall W ITEM))
  rule := (IoPort.connectedDiscipline (K := IoPort.itemsDiscipline noop) (fun _ _ => trivial)
    fun _ h => h).narrow fun _ h => h.1
  allows op _ _ _ _ := not_disturbs op.2 _
  new := IoPort.new
  inv_new _ hv := by cases hv

def bytePort (noop : W) : Waitable W where
  polled := (IoPort.portPolled (IoPort.bytes noop)).restrict (CalmCall IoPort.ByteCall)
  rule := (IoPort.connectedDiscipline (K := IoPort.bytesDiscipline noop) (fun _ _ => trivial)
    fun _ h => h).narrow fun _ h => h.1
  allows op _ _ _ _ := not_disturbs op.2 _
  new := IoPort.new
  inv_new _ hv := by cases hv

def clock {N T : Type} [DecidableEq N] [PartialOrd T] (head : N) (time : T) : Waitable W where
  polled := AlarmClock.Used.polled
  rule := AlarmClock.Used.discipline
  allows _ _ := trivial
  new := .start head time
  inv_new := ⟨_,AlarmClock.start_sound head time,Nat.le_refl _⟩

def watched {N T : Type} [DecidableEq N] (head : N) (val : T) : Waitable W where
  polled := WatchableValue.Used.polled
  rule := WatchableValue.Used.discipline
  allows _ _ := trivial
  new := .start head val
  inv_new := ⟨_,WatchableValue.start_simulates head val,Nat.le_refl _⟩

def input {T : Type} (value : T) : Waitable W where
  polled := InputValue.polled
  rule := InputValue.discipline
  allows _ _ := trivial
  new := .new value
  inv_new := trivial

end Objects

inductive Kind
  | items (ITEM : Type)
  | bytes
  | itemPort (ITEM : Type)
  | bytePort
  | clock (N T : Type) [DecidableEq N] [PartialOrd T] (head : N) (time : T)
  | watched (N T : Type) [DecidableEq N] (head : N) (val : T)
  | input (T : Type) (value : T)

def Kind.object {W : Type} [DecidableEq W] (noop : W) : Kind → Waitable W
  | .items ITEM => exchange (@IoExchange.channel W ITEM _)
  | .bytes => exchange IoBytesExchange.channel
  | .itemPort ITEM => Waitables.itemPort ITEM noop
  | .bytePort => Waitables.bytePort noop
  | @clock _ _ _ _ head time => Waitables.clock head time
  | @watched _ _ _ head val => Waitables.watched head val
  | .input _ value => Waitables.input value

/-- A family of objects by their kinds. -/
abbrev objects {X W : Type} [DecidableEq W] (noop : W) (kind : X → Kind) (x : X) : Waitable W :=
  (kind x).object noop

variable {E X D L Tid W : Type} [DecidableEq E] [DecidableEq X] [DecidableEq Tid]

/-- Over every run of a machine whose tasks, with any logic, wait for exchanges, connected or
unconnected ports, alarms, watches and inputs that have been used in any way before: while the
mutex is free, a pending call that was the last one of an unfinished task in its role, in the
task's most recent poll, would be pending again. -/
theorem nobody_waits_in_vain (noop : Handle E) (kind : X → Kind) (owner : Owner (objects noop kind))
    (logic : ∀ cx, L → D → Decision (objects noop kind) owner cx D L) (poller builder : Tid)
    (futures : Supported L) (io : Io (objects noop kind) D)
    (hused : ∀ x, ∃ ops, io.object x = ((objects noop kind x).polled.run (objects noop kind x).new ops).obj)
    (es : List (Tid × Event W (Polling (objects noop kind)))) (s : State Tid W L (Io (objects noop kind) D))
    (h : Run (Step (waitingJobs (objects noop kind) owner logic) poller) (new futures io builder) es s)
    (hfree : s.machine.locked = false) (n : Task) (hn : (s.machine.inner.futures.fut n).isSome) (x : X)
    (r : (objects noop kind x).Role) (o : (objects noop kind x).Op)
    (ho : (waits (objects noop kind)).noted (es.flatMap shows) n x r = some o) :
    ((objects noop kind x).polled.exec o (s.machine.inner.io.object x)).ret = true := by
  refine pending_when_free logic (fun y => ?_) h hfree hn ho
  obtain ⟨ops,hops⟩ := hused y
  rw [hops]
  exact (objects noop kind y).inv_run ops

abbrev timer : Unit → Kind := fun _ => .clock ℕ ℕ 0 0

def outside : Handle Unit := .outside ()

instance (x : Unit) : DecidableEq (objects outside timer x).Op :=
  inferInstanceAs (DecidableEq (AlarmClock.Op ℕ ℕ (Handle Unit)))

def timerOwner : Owner (objects outside timer) := fun _ (_ : ℕ) => some 1

def timerNew : (objects outside timer ()).Op := (.new 1 (some 10) : AlarmClock.Op ℕ ℕ (Handle Unit))

def timerPoll : (objects outside timer ()).Op := (.alarmPoll 1 (.task 1) : AlarmClock.Op ℕ ℕ (Handle Unit))

inductive Sleep
  | start
  | polling
  | asleep
  | over

def sleep : ∀ cx : Task, Sleep → Unit → Decision (objects outside timer) timerOwner cx Unit Sleep
  | cx, .start, _ =>
    if h : cx = 1 then .call ⟨(),timerNew,nofun,fun r _ => congrArg some h.symm⟩ fun _ => .polling
    else .ready
  | cx, .polling, _ =>
    if h : cx = 1 then .call ⟨(),timerPoll,fun w hw => by subst h; exact (Option.some.inj hw).symm,
      fun r _ => congrArg some h.symm⟩ fun u =>
        if ((objects outside timer ()).polled.exec timerPoll u).ret then .asleep else .over
    else .ready
  | _, .asleep, _ => .pending .polling
  | _, .over, _ => .ready

def timerAdvance : OutsideCall (objects outside timer) timerOwner :=
  ⟨(),(.advance 5 : AlarmClock.Op ℕ ℕ (Handle Unit)),fun r hr => by cases hr⟩

def timerMoves : List (Bool × Choice Unit (Access (objects outside timer) timerOwner Unit)) :=
  List.replicate 8 (false,.go) ++ [(true,.call .lockRef),(true,.go),(true,.access (.call timerAdvance)),
    (true,.drop)] ++ List.replicate 3 (true,.go)

abbrev timerJobs : Jobs Sleep (Io (objects outside timer) Unit) (Polling (objects outside timer))
    (Access (objects outside timer) timerOwner Unit) := waitingJobs (objects outside timer) timerOwner sleep

def timerStart : State Bool Unit Sleep (Io (objects outside timer) Unit) :=
  new ⟨.extension .base (some .start),by decide⟩ ⟨fun x => (objects outside timer x).new,()⟩ false

def timerRun : State Bool Unit Sleep (Io (objects outside timer) Unit) ×
    List (Bool × Event Unit (Polling (objects outside timer))) :=
  (exec timerJobs true timerStart timerMoves).get (by decide +kernel)

theorem timerRun_shown : timerRun.2.flatMap shows = [(false,.poll 1),(false,.act 1 (.call () timerNew false)),
    (false,.act 1 (.call () timerPoll true)),(false,.tick false),(true,.tick false)] := by
  decide +kernel

/-- The rule at an alarm that is not due yet. -/
theorem nobody_waits_in_vain_timer :
    ((objects outside timer ()).polled.exec timerPoll (timerRun.1.machine.inner.io.object ())).ret = true := by
  have hrun : Run (Step timerJobs true) timerStart timerRun.2 timerRun.1 := exec_get _
  have hnoted : (waits (objects outside timer)).noted (timerRun.2.flatMap shows) 1 () (1 : ℕ) =
      some timerPoll := by
    rw [timerRun_shown]
    decide +kernel
  have hpending := nobody_waits_in_vain outside timer timerOwner sleep true false
    ⟨.extension .base (some .start),by decide⟩ ⟨fun x => (objects outside timer x).new,()⟩ (fun _ => ⟨[],rfl⟩)
    timerRun.2 timerRun.1 hrun (by decide +kernel) 1 (by decide +kernel) () (1 : ℕ) timerPoll hnoted
  exact hpending

end Waitables
end ProcMachine
end ProcMachines
