import ProcMachines.IntrusiveListRefinement
import ProcMachines.PartialOrd
import ProcMachines.Waker

/-! The alarm clock: a time, one provider slot and the alarms' deadlines and wakers
beside the intrusive list of the alarms that wait. An alarm is named by the address of
its node; a fault of the list is a fault of the call. -/
namespace ProcMachines

open IntrusiveList PartialOrd

/-- A wake, with whose waker it fires. -/
inductive Wake (N W : Type)
  | alarm (alarm : N) (waker : W)
  | provider (waker : W)
  deriving DecidableEq, Repr

/-- The clock's head node sits at `head`; `val` and `waker` are the alarms' cells. -/
structure AlarmClock (N T W : Type) where
  heap : Heap N
  head : N
  time : T
  externalThreshold : Option T
  externalWaker : WakerRef W
  val : N → Option T
  waker : N → Option W

/-- The value of a call: nothing, a poll's answer or the next deadline. -/
inductive Reply (T : Type)
  | unit
  | poll (poll : Poll Unit)
  | deadline (deadline : Option T)
  deriving DecidableEq, Repr

namespace AlarmClock

variable {N T W : Type} [DecidableEq N] [DecidableEq W]

/-- What a call leaves behind, with the wakers it fires. -/
abbrev After (N T W α : Type) := Call (AlarmClock N T W) (Wake N W) α

omit [DecidableEq W] in
def new (head : N) (time : T) : AlarmClock N T W where
  heap := Function.update Heap.empty head (some (.new none))
  head := head
  time := time
  externalThreshold := none
  externalWaker := .new
  val _ := none
  waker _ := none

def wake (waker : N → Option W) (alarm : N) : (N → Option W) × List (Wake N W) :=
  (Function.update waker alarm none,((waker alarm).map (Wake.alarm alarm)).toList)

def setWaker (waker : N → Option W) (alarm : N) (cx : W) : N → Option W :=
  match waker alarm with
  | none => Function.update waker alarm (some cx)
  | some old => if old = cx then waker else Function.update waker alarm (some cx)

/-- What the closure of `advance` carries along the list. -/
structure Sweep (N T W : Type) where
  waker : N → Option W
  woken : List (Wake N W)
  minAlarm : Option T

variable [PartialOrd T]

def Sweep.min (minAlarm : Option T) (alarmTime : T) : Option T :=
  match minAlarm with
  | some minT => if lt alarmTime minT then some alarmTime else some minT
  | none => some alarmTime

/-- The closure of `advance`: wake and drop what is due, keep the rest and its minimum. -/
def sweep (time : T) (val : N → Option T) (node : N) (s : Sweep N T W) : Bool × Sweep N T W :=
  match val node with
  | some alarmTime =>
    if ge time alarmTime then
      let (waker,woken) := wake s.waker node
      (false,⟨waker,s.woken ++ woken,s.minAlarm⟩)
    else (true,{ s with minAlarm := Sweep.min s.minAlarm alarmTime })
  | none =>
    let (waker,woken) := wake s.waker node
    (false,⟨waker,s.woken ++ woken,s.minAlarm⟩)

def advance (fuel : ℕ) (newTime : T) (self : AlarmClock N T W) : Except Fault (After N T W (Option T)) := do
  let time := if gt newTime self.time then newTime else self.time
  let (s,heap) ← (filter fuel self.head (quiet (sweep time self.val)) ⟨self.waker,[],none⟩).run self.heap
  return ⟨{ self with heap := heap, time := time, externalThreshold := none, waker := s.waker },
    s.woken,s.minAlarm⟩

/-- The provider waits for a new alarm; the answer is always `Pending`. -/
def externalPollNewAlarm (cx : W) (wakeThreshold : Option T) (self : AlarmClock N T W) :
    Except Fault (After N T W (Poll Unit)) :=
  .ok ⟨{ self with externalThreshold := wakeThreshold,
                   externalWaker := self.externalWaker.register cx },[],.pending⟩

end AlarmClock

namespace ClockAlarm

open AlarmClock

variable {N T W : Type} [DecidableEq N] [DecidableEq W] [PartialOrd T]

def new (alarm : N) (wakeAt : Option T) (self : AlarmClock N T W) : Except Fault (After N T W Unit) := do
  let (_,heap) ← (create alarm (some self.head)).run self.heap
  return ⟨{ self with heap := heap, val := Function.update self.val alarm wakeAt,
                      waker := Function.update self.waker alarm none },[],()⟩

def setAlarm (fuel : ℕ) (alarm : N) (wakeAt : Option T) (self : AlarmClock N T W) :
    Except Fault (After N T W Unit) := do
  let (_,heap) ← (unlink fuel self.head alarm).run self.heap
  return ⟨{ self with heap := heap, waker := Function.update self.waker alarm none,
                      val := Function.update self.val alarm wakeAt },[],()⟩

/-- The provider is woken for an alarm below its threshold, or for any without one. -/
def wakeProvider (alarmTime : T) (self : AlarmClock N T W) : AlarmClock N T W × List (Wake N W) :=
  match self.externalThreshold with
  | some threshold =>
    if lt alarmTime threshold then
      ({ self with externalThreshold := none, externalWaker := .new },
        self.externalWaker.fired.map .provider)
    else (self,[])
  | none => ({ self with externalWaker := .new },self.externalWaker.fired.map .provider)

def alarmPoll (fuel : ℕ) (alarm : N) (cx : W) (self : AlarmClock N T W) :
    Except Fault (After N T W (Poll Unit)) :=
  match self.val alarm with
  | none => do
    let (_,heap) ← (unlink fuel self.head alarm).run self.heap
    return ⟨{ self with heap := heap },[],.pending⟩
  | some alarmTime =>
    if ge self.time alarmTime then do
      let (_,heap) ← (unlink fuel self.head alarm).run self.heap
      return ⟨{ self with heap := heap },[],.ready ()⟩
    else do
      let (self,woken) := wakeProvider alarmTime self
      let (_,heap) ← (link self.head alarm).run self.heap
      return ⟨{ self with heap := heap, waker := setWaker self.waker alarm cx },woken,.pending⟩

def drop (fuel : ℕ) (alarm : N) (self : AlarmClock N T W) : Except Fault (After N T W Unit) := do
  let (_,heap) ← (IntrusiveList.drop fuel alarm).run self.heap
  return ⟨{ self with heap := heap, waker := Function.update self.waker alarm none,
                      val := Function.update self.val alarm none },[],()⟩

end ClockAlarm

namespace AlarmClock

variable {N T W : Type} [DecidableEq N] [DecidableEq W] [PartialOrd T]

/-- The calls of the alarms' owners, of the clock and of its provider. -/
inductive Op (N T W : Type)
  | new (alarm : N) (wakeAt : Option T)
  | alarmPoll (alarm : N) (cx : W)
  | setAlarm (alarm : N) (wakeAt : Option T)
  | drop (alarm : N)
  | advance (newTime : T)
  | externalPollNewAlarm (cx : W) (wakeThreshold : Option T)
  deriving DecidableEq, Repr

def reply {α β : Type} (f : α → β) (r : After N T W α) : After N T W β := ⟨r.self,r.woken,f r.ret⟩

def call (fuel : ℕ) (op : Op N T W) (self : AlarmClock N T W) : Except Fault (After N T W (Reply T)) :=
  match op with
  | .new alarm wakeAt => (ClockAlarm.new alarm wakeAt self).map (reply fun _ => .unit)
  | .alarmPoll alarm cx => (ClockAlarm.alarmPoll fuel alarm cx self).map (reply .poll)
  | .setAlarm alarm wakeAt => (ClockAlarm.setAlarm fuel alarm wakeAt self).map (reply fun _ => .unit)
  | .drop alarm => (ClockAlarm.drop fuel alarm self).map (reply fun _ => .unit)
  | .advance newTime => (advance fuel newTime self).map (reply .deadline)
  | .externalPollNewAlarm cx wakeThreshold =>
    (externalPollNewAlarm cx wakeThreshold self).map (reply .poll)

end AlarmClock
end ProcMachines
