import ProcMachines.Transition

/-! The task machine `ProcMachineImpl` as threads that interleave at its atomic steps:
the operations on `wake_mask`, on the external waker and on the mutex, the polls of
the single tasks, and what a task or a critical section does to the shared I/O. -/
namespace ProcMachines
namespace ProcMachine

def bit (n : ℕ) : BitVec 32 := 1#32 <<< n

/-- The bit of `wake_mask` that says a tick is running. -/
def ticking : BitVec 32 := 0x80000000#32

@[simp] theorem getLsbD_bit (n i : ℕ) :
    (bit n).getLsbD i = (decide (i < 32) && decide (n = i)) := by
  rw [bit,← BitVec.twoPow_eq,BitVec.getLsbD_twoPow]
  by_cases h : n = i <;> simp [h]

theorem and_bit_eq_zero {n : ℕ} (hn : n < 32) (x : BitVec 32) :
    x &&& bit n = 0 ↔ x.getLsbD n = false := by
  rw [bit,← BitVec.twoPow_eq,BitVec.and_twoPow]
  by_cases h : x.getLsbD n = true
  · simp only [h,if_true,Bool.true_eq_false,iff_false]
    intro h0
    have hbit := congrArg (fun y => y.getLsbD n) h0
    simp [hn] at hbit
  · simp [h]

theorem or_bit_eq_self {n : ℕ} (hn : n < 32) (x : BitVec 32) :
    x ||| bit n = x ↔ x.getLsbD n = true := by
  constructor
  · intro h
    rw [← h]
    simp [hn]
  · intro h
    apply BitVec.eq_of_getLsbD_eq
    intro i hi
    by_cases hin : n = i
    · subst hin
      simp [h]
    · simp [hin]

theorem ticking_eq : ticking = bit 31 := by decide

@[simp] theorem getLsbD_ticking (i : ℕ) : ticking.getLsbD i = decide (i = 31) := by
  rw [ticking_eq,getLsbD_bit]
  by_cases h : i = 31 <;> simp [h,eq_comm]

theorem getLsbD_claimed (alive wake : BitVec 32) {i : ℕ} (hi : i < 31) :
    (alive &&& wake &&& 0x7FFFFFFF#32).getLsbD i = (alive.getLsbD i && wake.getLsbD i) := by
  have h : ∀ j : Fin 31, (0x7FFFFFFF#32).getLsbD j = true := by decide
  rw [BitVec.getLsbD_and,BitVec.getLsbD_and,h ⟨i,hi⟩,Bool.and_true]

/-- The chain of task futures; a layer's future is `none` once the task has completed. -/
inductive ProcMachineFutures (FUT : Type)
  | base
  | extension (prev : ProcMachineFutures FUT) (fut : Option FUT)
  deriving DecidableEq, Repr

namespace ProcMachineFutures

variable {FUT : Type}

def DEPTH : ProcMachineFutures FUT → ℕ
  | base => 0
  | extension prev _ => prev.DEPTH + 1

def fut : ProcMachineFutures FUT → ℕ → Option FUT
  | base, _ => none
  | extension prev f, n => if n = prev.DEPTH + 1 then f else prev.fut n

def setFut : ProcMachineFutures FUT → ℕ → Option FUT → ProcMachineFutures FUT
  | base, _, _ => base
  | extension prev f, n, g =>
    if n = prev.DEPTH + 1 then extension prev g else extension (prev.setFut n g) f

theorem fut_of_DEPTH_lt {fs : ProcMachineFutures FUT} {n : ℕ} (h : fs.DEPTH < n) :
    fs.fut n = none := by
  induction fs with
  | base => rfl
  | extension prev f ih =>
    have hlt : prev.DEPTH + 1 < n := h
    simp only [fut,if_neg (show ¬ n = prev.DEPTH + 1 by omega)]
    exact ih (by omega)

@[simp] theorem fut_zero (fs : ProcMachineFutures FUT) : fs.fut 0 = none := by
  induction fs with
  | base => rfl
  | extension prev f ih => simpa [fut] using ih

@[simp] theorem DEPTH_setFut (fs : ProcMachineFutures FUT) (n : ℕ) (g : Option FUT) :
    (fs.setFut n g).DEPTH = fs.DEPTH := by
  induction fs with
  | base => rfl
  | extension prev f ih =>
    simp only [setFut]
    split <;> simp [DEPTH,ih]

theorem fut_setFut_ne (fs : ProcMachineFutures FUT) {n i : ℕ} (g : Option FUT) (h : i ≠ n) :
    (fs.setFut n g).fut i = fs.fut i := by
  induction fs with
  | base => rfl
  | extension prev f ih =>
    simp only [setFut]
    split
    · rename_i hn
      simp [fut,show ¬ i = prev.DEPTH + 1 from hn ▸ h]
    · simp [fut,ih]

theorem fut_setFut_self (fs : ProcMachineFutures FUT) {n : ℕ} (g : Option FUT)
    (h : (fs.fut n).isSome) : (fs.setFut n g).fut n = g := by
  induction fs with
  | base => cases h
  | extension prev f ih =>
    by_cases hn : n = prev.DEPTH + 1
    · simp [setFut,fut,hn]
    · simp only [fut,if_neg hn] at h
      simp [setFut,fut,hn,ih h]

end ProcMachineFutures

/-- The tasks for which `get_multi_waker` has a waker. -/
abbrev Task := Fin 31

instance neZeroTask : NeZero 31 := ⟨by decide⟩

/-- `get_multi_waker`, which panics from 31 on. -/
def getMultiWaker (n : ℕ) : Option Task := if h : n < 31 then some ⟨n,h⟩ else none

/-- What a task does next in its poll: act on the I/O, firing wakers of the machine in
order, or return. -/
inductive TaskStep (FUT SharedIo OBS : Type)
  | act (io : SharedIo) (woken : List Task) (fut : FUT) (obs : OBS)
  | pending (fut : FUT)
  | ready

/-- The parts a machine is built from: the code of its tasks, in which a future is what
remains to be run and `cx` the task's own waker, and what critical sections may do. -/
structure Jobs (FUT SharedIo OBS ACC : Type) where
  resume (cx : Task) : FUT → SharedIo → TaskStep FUT SharedIo OBS
  access : ACC → SharedIo → SharedIo × List Task

structure ProcMachineInner (FUT SharedIo : Type) where
  futures : ProcMachineFutures FUT
  aliveMask : BitVec 32
  io : SharedIo

structure ProcMachineImpl (W FUT SharedIo : Type) where
  wakeMask : BitVec 32
  externalWaker : Option W
  locked : Bool
  inner : ProcMachineInner FUT SharedIo

/-- The call that a tick belongs to. -/
inductive Caller (W : Type)
  | new | lockRef | isDone
  | externalPoll (cx : W)
  deriving DecidableEq, Repr

/-- The control points of `tick`. `polling depthMask result n` is inside `futures.poll`,
at the layer of depth `n`, whose `prev` has returned `result`; `running` is in the
poll of that layer's task. -/
inductive TickPc
  | swap
  | polling (depthMask result : BitVec 32) (n : ℕ)
  | running (depthMask result : BitVec 32) (n : Task)
  | compareExchange
  deriving DecidableEq, Repr

/-- The control points of a thread outside `MultiWake::wake`. -/
inductive Pc (W : Type)
  | idle
  | locking (call : Caller W)
  | critical
  | tick (call : Caller W) (pc : TickPc)
  | unlock (call : Caller W) (done : Bool)
  | notify (call : Caller W)
  | register (cx : W)
  | ready
  deriving DecidableEq, Repr

/-- The control points of `MultiWake::wake`. -/
inductive WakePc
  | load
  | compareExchange (old : BitVec 32)
  | fire
  deriving DecidableEq, Repr

/-- A thread, with the calls of `wake` it has still to complete before it goes on. -/
structure Thread (W : Type) where
  pc : Pc W
  wakes : List (Task × WakePc)
  deriving DecidableEq, Repr

/-- What a step shows. A `wake(n)` shows `woke n` where it takes effect: where it sets the
bit, or where it finds it set. -/
inductive Event (W OBS : Type)
  | silent
  | called (call : Caller W)
  | waking (n : Task)
  | woke (n : Task)
  | polled (n : Task)
  | acted (n : Task) (obs : OBS)
  | ticked (done : Bool)
  | fired (waker : Option W)
  | registered (waker : W)
  | ready
  deriving DecidableEq, Repr

/-- What a thread may do: its next step, the same with a spurious failure of
`compare_exchange_weak`, or, where the caller decides, a call. -/
inductive Choice (W ACC : Type)
  | go | spurious
  | wake (n : Task)
  | call (caller : Caller W)
  | access (acc : ACC)
  | drop
  deriving DecidableEq, Repr

structure Next (W FUT SharedIo OBS : Type) where
  machine : ProcMachineImpl W FUT SharedIo
  thread : Thread W
  event : Event W OBS

variable {W FUT SharedIo OBS ACC : Type}

/-- `MultiWake::wake`, at the call in front of the queue. -/
def wake (m : ProcMachineImpl W FUT SharedIo) (pc : Pc W) (n : Task) (rest : List (Task × WakePc)) :
    WakePc → Next W FUT SharedIo OBS
  | .load =>
    if m.wakeMask ||| bit n = m.wakeMask then ⟨m,⟨pc,rest⟩,.woke n⟩
    else ⟨m,⟨pc,(n,.compareExchange m.wakeMask) :: rest⟩,.silent⟩
  | .compareExchange old =>
    if m.wakeMask = old then
      if old &&& ticking = 0 then
        ⟨{m with wakeMask := old ||| bit n},⟨pc,(n,.fire) :: rest⟩,.woke n⟩
      else ⟨{m with wakeMask := old ||| bit n},⟨pc,rest⟩,.woke n⟩
    else ⟨m,⟨pc,(n,.load) :: rest⟩,.silent⟩
  | .fire => ⟨{m with externalWaker := none},⟨pc,rest⟩,.fired m.externalWaker⟩

def calls (woken : List Task) : List (Task × WakePc) := woken.map fun n => (n,.load)

/-- Where a call goes on when it has the mutex. -/
def afterLock : Caller W → Pc W
  | .lockRef => .critical
  | call => .tick call .swap

/-- `is_done` notifies before its guard unlocks, `unsafe_unlock_io` after it has unlocked. -/
def afterTick : Caller W → Bool → Pc W
  | .isDone, true => .notify .isDone
  | call, done => .unlock call done

def afterUnlock : Caller W → Bool → Pc W
  | .lockRef, true => .notify .lockRef
  | .externalPoll cx, true => .notify (.externalPoll cx)
  | .externalPoll cx, false => .register cx
  | _, _ => .idle

def afterNotify : Caller W → Pc W
  | .isDone => .unlock .isDone true
  | .externalPoll _ => .ready
  | _ => .idle

/-- One step of `tick`, and of `futures.poll` and the task polls in it. -/
def tick (J : Jobs FUT SharedIo OBS ACC) (m : ProcMachineImpl W FUT SharedIo) (call : Caller W) :
    TickPc → Option (Next W FUT SharedIo OBS)
  | .swap =>
    let mask := m.inner.aliveMask &&& m.wakeMask &&& 0x7FFFFFFF#32
    some ⟨{m with wakeMask := ticking},
      ⟨.tick call (if mask ≠ 0 then .polling mask 0 1 else .compareExchange),[]⟩,.silent⟩
  | .polling depthMask result n =>
    if m.inner.futures.DEPTH < n then
      some ⟨{m with inner.aliveMask := result},⟨.tick call .swap,[]⟩,.silent⟩
    else match m.inner.futures.fut n with
      | none => some ⟨m,⟨.tick call (.polling depthMask result (n+1)),[]⟩,.silent⟩
      | some _ =>
        if depthMask &&& bit n = 0 then
          some ⟨m,⟨.tick call (.polling depthMask (result ||| bit n) (n+1)),[]⟩,.silent⟩
        else (getMultiWaker n).map fun cx =>
          ⟨m,⟨.tick call (.running depthMask result cx),[]⟩,.polled cx⟩
  | .running depthMask result n =>
    match m.inner.futures.fut n with
    | none => none
    | some fut =>
      match J.resume n fut m.inner.io with
      | .act io woken fut obs =>
        some ⟨{m with inner.futures := m.inner.futures.setFut n (some fut), inner.io := io},
          ⟨.tick call (.running depthMask result n),calls woken⟩,.acted n obs⟩
      | .pending fut =>
        some ⟨{m with inner.futures := m.inner.futures.setFut n (some fut)},
          ⟨.tick call (.polling depthMask (result ||| bit n) (n+1)),[]⟩,.silent⟩
      | .ready =>
        some ⟨{m with inner.futures := m.inner.futures.setFut n none},
          ⟨.tick call (.polling depthMask result (n+1)),[]⟩,.silent⟩
  | .compareExchange =>
    if m.wakeMask = ticking then
      let done := decide (m.inner.aliveMask = 0)
      some ⟨{m with wakeMask := 0},⟨afterTick call done,[]⟩,.ticked done⟩
    else some ⟨m,⟨.tick call .swap,[]⟩,.silent⟩

def Thread.next (J : Jobs FUT SharedIo OBS ACC) (m : ProcMachineImpl W FUT SharedIo) (th : Thread W) :
    Choice W ACC → Option (Next W FUT SharedIo OBS)
  | .go =>
    match th.wakes with
    | (n,pc) :: rest => some (wake m th.pc n rest pc)
    | [] =>
      match th.pc with
      | .locking call =>
        if m.locked then none else some ⟨{m with locked := true},⟨afterLock call,[]⟩,.silent⟩
      | .tick call pc => tick J m call pc
      | .unlock call done => some ⟨{m with locked := false},⟨afterUnlock call done,[]⟩,.silent⟩
      | .notify call =>
        some ⟨{m with externalWaker := none},⟨afterNotify call,[]⟩,.fired m.externalWaker⟩
      | .register cx => some ⟨{m with externalWaker := some cx},⟨.idle,[]⟩,.registered cx⟩
      | .ready => some ⟨m,⟨.idle,[]⟩,.ready⟩
      | .idle | .critical => none
  | .spurious =>
    match th.wakes, th.pc with
    | [], .tick call .compareExchange => some ⟨m,⟨.tick call .swap,[]⟩,.silent⟩
    | _, _ => none
  | .wake n =>
    match th.wakes, th.pc with
    | [], .idle => some ⟨m,⟨.idle,[(n,.load)]⟩,.waking n⟩
    | _, _ => none
  | .call .new => none
  | .call caller =>
    match th.wakes, th.pc with
    | [], .idle => some ⟨m,⟨.locking caller,[]⟩,.called caller⟩
    | _, _ => none
  | .access acc =>
    match th.wakes, th.pc with
    | [], .critical =>
      let (io,woken) := J.access acc m.inner.io
      some ⟨{m with inner.io := io},⟨.critical,calls woken⟩,.silent⟩
    | _, _ => none
  | .drop =>
    match th.wakes, th.pc with
    | [], .critical => some ⟨m,⟨.tick .lockRef .swap,[]⟩,.silent⟩
    | _, _ => none

structure State (Tid W FUT SharedIo : Type) where
  machine : ProcMachineImpl W FUT SharedIo
  thread : Tid → Thread W

variable {Tid : Type} [DecidableEq Tid]

def State.move (s : State Tid W FUT SharedIo) (t : Tid) (m : ProcMachineImpl W FUT SharedIo) (th : Thread W) :
    State Tid W FUT SharedIo := ⟨m,Function.update s.thread t th⟩

namespace State

variable (s : State Tid W FUT SharedIo) (t : Tid) (m : ProcMachineImpl W FUT SharedIo) (th : Thread W)

@[simp] theorem move_machine : (s.move t m th).machine = m := rfl

@[simp] theorem move_self : (s.move t m th).thread t = th := by
  simp [move]

theorem move_other {u : Tid} (h : u ≠ t) : (s.move t m th).thread u = s.thread u := by
  simp [move,h]

variable {s t m th}

theorem move_all (P : Tid → Thread W → Prop) (hself : P t th)
    (hother : ∀ u, u ≠ t → P u (s.thread u)) (u : Tid) : P u ((s.move t m th).thread u) := by
  by_cases hut : u = t
  · subst hut
    rw [move_self]
    exact hself
  · rw [move_other s t m th hut]
    exact hother u hut

theorem move_some (P : Thread W → Prop) (h : ∃ u, P (s.thread u)) (hkeep : P (s.thread t) → P th) :
    ∃ u, P ((s.move t m th).thread u) := by
  obtain ⟨u,hu⟩ := h
  refine ⟨u,?_⟩
  by_cases hut : u = t
  · subst hut
    rw [move_self]
    exact hkeep hu
  · rw [move_other s t m th hut]
    exact hu

theorem move_new (P : Thread W → Prop) (h : P th) : ∃ u, P ((s.move t m th).thread u) :=
  ⟨t,by rw [move_self]; exact h⟩

end State

def next (J : Jobs FUT SharedIo OBS ACC) (s : State Tid W FUT SharedIo) (t : Tid) (c : Choice W ACC) :
    Option (State Tid W FUT SharedIo × Event W OBS) :=
  ((s.thread t).next J s.machine c).map fun r => (s.move t r.machine r.thread,r.event)

/-- At most one task, here a thread, may call `external_poll`. -/
def callable (poller : Tid) : Tid × Event W OBS → Bool
  | (t,.called (.externalPoll _)) => t = poller
  | _ => true

def Step (J : Jobs FUT SharedIo OBS ACC) (poller : Tid) (s : State Tid W FUT SharedIo)
    (e : Tid × Event W OBS) (s' : State Tid W FUT SharedIo) : Prop :=
  callable poller e = true ∧ ∃ c, next J s e.1 c = some (s',e.2)

/-- The chains for all of whose layers there is a waker; to build a longer one panics. -/
abbrev Supported (FUT : Type) := {futures : ProcMachineFutures FUT // futures.DEPTH ≤ 30}

/-- Where `ProcMachineImpl::new` makes its initial poll: the futures are those `init` has
created, and the building thread holds the mutex. -/
def new (futures : Supported FUT) (io : SharedIo) (builder : Tid) : State Tid W FUT SharedIo where
  machine := ⟨0,none,true,⟨futures,0,io⟩⟩
  thread t := if t = builder then ⟨.tick .new (.polling 0xFFFFFFFF#32 0 1),[]⟩ else ⟨.idle,[]⟩

end ProcMachine
end ProcMachines
