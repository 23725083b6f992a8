import ProcMachines.IntrusiveListRefinement
import ProcMachines.Waker

/-! The watchable value: a value beside the intrusive list of the watches that have seen
it, and the watches' wakers. A watch is named by the address of its node; a fault of
the list is a fault of the call. -/
namespace ProcMachines

open IntrusiveList

/-- The head node sits at `head`; `waker` holds the watches' cells. -/
structure WatchableValue (N T W : Type) where
  heap : Heap N
  head : N
  value : T
  waker : N → Option W

namespace WatchableValue

variable {N T W : Type} [DecidableEq N] [DecidableEq W]

/-- What a call leaves behind. A wake is a watch with the waker that is fired for it. -/
abbrev After (N T W α : Type) := Call (WatchableValue N T W) (N × W) α

omit [DecidableEq W] in
def new (head : N) (val : T) : WatchableValue N T W where
  heap := Function.update Heap.empty head (some (.new none))
  head := head
  value := val
  waker _ := none

def wake (waker : N → Option W) (watch : N) : (N → Option W) × List (N × W) :=
  (Function.update waker watch none,((waker watch).map fun w => (watch,w)).toList)

def setWaker (waker : N → Option W) (watch : N) (cx : W) : N → Option W :=
  match waker watch with
  | none => Function.update waker watch (some cx)
  | some old => if old = cx then waker else Function.update waker watch (some cx)

/-- The closure of `set`: wake every watch, keep none. -/
def release (node : N) (s : (N → Option W) × List (N × W)) :
    Bool × ((N → Option W) × List (N × W)) :=
  let (waker,woken) := wake s.1 node
  (false,(waker,s.2 ++ woken))

def set (fuel : ℕ) (val : T) (self : WatchableValue N T W) : Except Fault (After N T W Unit) := do
  let (s,heap) ← (do
    let head ← lockHead self.head
    filter fuel head (quiet release) (self.waker,[]) : Mem N _).run self.heap
  return ⟨{ self with heap := heap, value := val, waker := s.1 },s.2,()⟩

def get (self : WatchableValue N T W) : Except Fault (After N T W T) := do
  let (_,heap) ← (lockHead self.head).run self.heap
  return ⟨{ self with heap := heap },[],self.value⟩

end WatchableValue

namespace ValueWatch

open WatchableValue

variable {N T W : Type} [DecidableEq N] [DecidableEq W]

def new (watch : N) (self : WatchableValue N T W) : Except Fault (After N T W Unit) := do
  let (_,heap) ← (create watch (some self.head)).run self.heap
  return ⟨{ self with heap := heap, waker := Function.update self.waker watch none },[],()⟩

def watchCheck (watch : N) (cx : W) (self : WatchableValue N T W) :
    Except Fault (After N T W T) := do
  let (_,heap) ← (do
    let head ← lockHead watch
    link head watch : Mem N Unit).run self.heap
  return ⟨{ self with heap := heap, waker := setWaker self.waker watch cx },[],self.value⟩

def watchPoll (watch : N) (cx : W) (self : WatchableValue N T W) :
    Except Fault (After N T W (Poll T)) := do
  let (ready,heap) ← (do
    let head ← lockHead watch
    let ready := !(← read watch).isLinked
    link head watch
    return ready : Mem N Bool).run self.heap
  return ⟨{ self with heap := heap, waker := setWaker self.waker watch cx },[],
    if ready then .ready self.value else .pending⟩

def poll (watch : N) (cx : W) (self : WatchableValue N T W) :
    Except Fault (After N T W (Poll T)) := watchPoll watch cx self

def drop (fuel : ℕ) (watch : N) (self : WatchableValue N T W) : Except Fault (After N T W Unit) := do
  let (_,heap) ← (IntrusiveList.drop fuel watch).run self.heap
  return ⟨{ self with heap := heap, waker := Function.update self.waker watch none },[],()⟩

end ValueWatch

namespace WatchableValue

variable {N T W : Type} [DecidableEq N] [DecidableEq W]

/-- The calls of the value's owner and of the watches' owners. -/
inductive Op (N T W : Type)
  | set (val : T)
  | get
  | new (watch : N)
  | watchPoll (watch : N) (cx : W)
  | poll (watch : N) (cx : W)
  | watchCheck (watch : N) (cx : W)
  | drop (watch : N)
  deriving DecidableEq, Repr

/-- The value of a call: nothing, a value or a poll's answer. -/
inductive Reply (T : Type)
  | unit
  | value (val : T)
  | poll (poll : Poll T)
  deriving DecidableEq, Repr

def reply {α β : Type} (f : α → β) (r : After N T W α) : After N T W β := ⟨r.self,r.woken,f r.ret⟩

def call (fuel : ℕ) (op : Op N T W) (self : WatchableValue N T W) :
    Except Fault (After N T W (Reply T)) :=
  match op with
  | .set val => (set fuel val self).map (reply fun _ => .unit)
  | .get => (get self).map (reply .value)
  | .new watch => (ValueWatch.new watch self).map (reply fun _ => .unit)
  | .watchPoll watch cx => (ValueWatch.watchPoll watch cx self).map (reply .poll)
  | .poll watch cx => (ValueWatch.poll watch cx self).map (reply .poll)
  | .watchCheck watch cx => (ValueWatch.watchCheck watch cx self).map (reply .value)
  | .drop watch => (ValueWatch.drop fuel watch self).map (reply fun _ => .unit)

def run (fuel : ℕ) (self : WatchableValue N T W) : List (Op N T W) →
    Except Fault (WatchableValue N T W × List (Reply T × List (N × W)))
  | [] => .ok (self,[])
  | op :: ops => do
    let r ← call fuel op self
    let (self,outs) ← run fuel r.self ops
    return (self,(r.ret,r.woken) :: outs)

end WatchableValue
end ProcMachines
