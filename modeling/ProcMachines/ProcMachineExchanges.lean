import ProcMachines.ExchangeWakeup
import ProcMachines.ProcMachineTick

/-! A machine whose tasks wait for exchanges runs to quiescence: when a tick returns, no
unfinished task sleeps on a poll that could make progress. -/
namespace ProcMachines
namespace ProcMachine

open Transition

/-- A waker that an exchange can hold: that of a task of the machine, or one from outside. -/
inductive Handle (E : Type)
  | task (n : Task)
  | outside (e : E)
  deriving DecidableEq, Repr

/-- The `wake(n)` calls that firing a list of wakers makes. -/
def tasksOf {E : Type} (woken : List (Handle E)) : List Task :=
  woken.filterMap fun | .task n => some n | .outside _ => none

theorem mem_tasksOf {E : Type} {woken : List (Handle E)} {n : Task} :
    n ∈ tasksOf woken ↔ .task n ∈ woken := by
  simp only [tasksOf,List.mem_filterMap]
  constructor
  · rintro ⟨w,hw,hn⟩
    cases w with
    | task k =>
      cases hn
      exact hw
    | outside e => cases hn
  · exact fun h => ⟨.task n,h,rfl⟩

/-- A field of the I/O structure: an exchange with the calls on it. -/
structure Field (W : Type) [DecidableEq W] where
  {P A Op : Type}
  [payload : Payload P A]
  channel : Channel W P A Op

attribute [instance] Field.payload

/-- The two kinds of fields, `IoExchange` and `IoBytesExchange`. -/
inductive Kind
  | items (ITEM : Type)
  | bytes

def Kind.field (W : Type) [DecidableEq W] : Kind → Field W
  | .items ITEM => ⟨(IoExchange.channel : Channel W (Option ITEM) ITEM (IoExchange.Op W ITEM))⟩
  | .bytes => ⟨(IoBytesExchange.channel : Channel W Bytes UInt8 (IoBytesExchange.Op W))⟩

variable {E X D L Tid : Type} [DecidableEq E] [DecidableEq X]

/-- The I/O structure: a family of exchanges, and plain data. -/
structure Io (F : X → Field (Handle E)) (D : Type) where
  exchange : ∀ x, Exchange (Handle E) (F x).P
  data : D

namespace Io

variable {F : X → Field (Handle E)}

def new (data : D) : Io F D := ⟨fun _ => Exchange.new,data⟩

def call (x : X) (op : (F x).Op) (io : Io F D) : Call (Io F D) (Handle E) (Outcome (F x).A) :=
  let out := (F x).channel.call op (io.exchange x)
  ⟨{io with exchange := Function.update io.exchange x out.self},out.woken,out.ret⟩

end Io

/-- Which task, if any, polls an exchange in a role. -/
abbrev Owner (X : Type) := X → Role → Option Task

/-- A call that a task may make: with its own waker, and in its own roles or none. -/
structure TaskCall (F : X → Field (Handle E)) (owner : Owner X) (cx : Task) where
  field : X
  op : (F field).Op
  waker : ∀ w, (F field).channel.waker op = some w → w = .task cx
  role : ∀ r, (F field).channel.role op = some r → owner field r = some cx

/-- A call that a critical section may make: in the roles that no task has, or none. -/
structure OutsideCall (F : X → Field (Handle E)) (owner : Owner X) where
  field : X
  op : (F field).Op
  role : ∀ r, (F field).channel.role op = some r → owner field r = none

/-- What a task does next: call an exchange and go on with the outcome, write the plain data,
or return. -/
inductive Decision (F : X → Field (Handle E)) (owner : Owner X) (cx : Task) (D L : Type)
  | call (c : TaskCall F owner cx) (k : Outcome (F c.field).A → L)
  | write (data : D) (l : L)
  | pending (l : L)
  | ready

/-- What an action of a task was: a call, and whether it returned `Pending`. -/
inductive Polling (F : X → Field (Handle E))
  | call (x : X) (op : (F x).Op) (pending : Bool)
  | write

instance (F : X → Field (Handle E)) [∀ x, DecidableEq (F x).Op] : DecidableEq (Polling F)
  | .write, .write => isTrue rfl
  | .call _ _ _, .write => isFalse (by simp)
  | .write, .call _ _ _ => isFalse (by simp)
  | .call x op p, .call y o q =>
    if h : x = y then by
      subst h
      exact decidable_of_iff (op = o ∧ p = q) (by simp)
    else isFalse (by simp [h])

inductive Access (F : X → Field (Handle E)) (owner : Owner X) (D : Type)
  | call (c : OutsideCall F owner)
  | write (f : D → D)

/-- The machine's jobs when its tasks follow an arbitrary logic. -/
def exchangeJobs (F : X → Field (Handle E)) (owner : Owner X)
    (logic : ∀ cx, L → D → Decision F owner cx D L) :
    Jobs L (Io F D) (Polling F) (Access F owner D) where
  resume cx l io :=
    match logic cx l io.data with
    | .call c k =>
      let out := io.call c.field c.op
      .act out.self (tasksOf out.woken) (k out.ret) (.call c.field c.op out.ret.isPending)
    | .write data l => .act {io with data := data} [] l .write
    | .pending l => .pending l
    | .ready => .ready
  access
    | .call c, io => ((io.call c.field c.op).self,tasksOf (io.call c.field c.op).woken)
    | .write f, io => ({io with data := f io.data},[])

/-- The task's last call in the role of `op`, in its most recent run, was `op` and it
returned `Pending`. -/
def Sleeping (F : X → Field (Handle E)) {W : Type} (i : Task) (x : X) (op : (F x).Op)
    (es : List (Tid × Event W (Polling F))) : Prop :=
  Unanswered (fun e => e.2 = .acted i (.call x op true))
    (fun e => e.2 = .polled i ∨ ∃ op' p, e.2 = .acted i (.call x op' p) ∧
      (F x).channel.role op' = (F x).channel.role op) es

section Steps

variable {F : X → Field (Handle E)} {owner : Owner X} {W : Type}
  {logic : ∀ cx, L → D → Decision F owner cx D L}
  {m m' : ProcMachineImpl W L (Io F D)} {th th' : Thread W} {e : Event W (Polling F)}

/-- What a step does to the exchanges: nothing, or one call by the running task or by the
critical section, which leaves the thread to wake the tasks it has fired. -/
inductive Touches (owner : Owner X) (m : ProcMachineImpl W L (Io F D)) :
    Event W (Polling F) → ProcMachineImpl W L (Io F D) → Thread W → Prop
  | none (f : Event W (Polling F)) (n : ProcMachineImpl W L (Io F D)) (u : Thread W)
    (hio : n.inner.io.exchange = m.inner.io.exchange)
    (hf : ∀ i x op p, f ≠ .acted i (.call x op p)) : Touches owner m f n u
  | task (n : ProcMachineImpl W L (Io F D)) (u : Thread W) {i : Task} (c : TaskCall F owner i)
    (hio : n.inner.io = (m.inner.io.call c.field c.op).self) (hpc : u.pc.holds = true)
    (hw : u.wakes = calls (tasksOf (m.inner.io.call c.field c.op).woken)) :
    Touches owner m
      (.acted i (.call c.field c.op (m.inner.io.call c.field c.op).ret.isPending)) n u
  | outside (n : ProcMachineImpl W L (Io F D)) (u : Thread W) (c : OutsideCall F owner)
    (hio : n.inner.io = (m.inner.io.call c.field c.op).self) (hpc : u.pc.holds = true)
    (hw : u.wakes = calls (tasksOf (m.inner.io.call c.field c.op).woken)) :
    Touches owner m .silent n u

theorem Steps.touches (h : Steps (exchangeJobs F owner logic) m th e m' th') :
    Touches owner m e m' th' := by
  cases h with
  | access acc =>
    cases acc with
    | call c => exact .outside _ _ c rfl rfl rfl
    | write f => exact .none _ _ _ rfl (by simp)
  | taskAct call mask result n hfut hr =>
    simp only [exchangeJobs] at hr
    split at hr
    · rename_i c k hlogic
      cases hr
      exact .task _ _ c rfl rfl rfl
    · cases hr
      exact .none _ _ _ rfl (by simp)
    · cases hr
    · cases hr
  | _ => exact .none _ _ _ rfl (by simp)

theorem Steps.wakes_kept {FUT SharedIo OBS ACC : Type} {J : Jobs FUT SharedIo OBS ACC}
    {m m' : ProcMachineImpl W FUT SharedIo} {e : Event W OBS} {i : Task} (h : Steps J m th e m' th')
    (hi : ∃ c ∈ th.wakes, c.1 = i ∧ c.2 ≠ .fire) :
    e = .woke i ∨ (th'.pc = th.pc ∧ ∃ c ∈ th'.wakes, c.1 = i ∧ c.2 ≠ .fire) := by
  obtain ⟨c,hc,rfl,hne⟩ := hi
  cases h with
  | wakeFound pc n rest hm | wakeInside pc n rest hm =>
    rcases List.mem_cons.mp hc with rfl | hc
    · exact Or.inl rfl
    · exact Or.inr ⟨rfl,c,hc,rfl,hne⟩
  | wakeOutside pc n rest hm =>
    rcases List.mem_cons.mp hc with rfl | hc
    · exact Or.inl rfl
    · exact Or.inr ⟨rfl,c,List.mem_cons_of_mem _ hc,rfl,hne⟩
  | wakeLoad pc n rest hm | wakeRetry pc n rest old hm =>
    rcases List.mem_cons.mp hc with rfl | hc
    · exact Or.inr ⟨rfl,_,List.mem_cons_self,rfl,WakePc.noConfusion⟩
    · exact Or.inr ⟨rfl,c,List.mem_cons_of_mem _ hc,rfl,hne⟩
  | wakeFire pc n rest =>
    rcases List.mem_cons.mp hc with rfl | hc
    · exact absurd rfl hne
    · exact Or.inr ⟨rfl,c,hc,rfl,hne⟩
  | _ => cases hc

omit [DecidableEq X] in
theorem mem_calls {woken : List Task} {i : Task} (h : i ∈ woken) :
    ∃ c ∈ calls woken, c.1 = i ∧ c.2 ≠ .fire :=
  ⟨(i,.load),List.mem_map.mpr ⟨i,h,rfl⟩,rfl,by simp⟩

theorem armed_or_woken {io : Io F D} {x y : X} {o : (F y).Op} {op : (F x).Op} {i : Task}
    (ha : (F y).channel.Armed o (io.exchange y))
    (hw : ∀ w, (F y).channel.waker o = some w → w = .task i)
    (hr : x = y → (F x).channel.role op ≠ (F y).channel.role o) :
    (F y).channel.Armed o ((io.call x op).self.exchange y) ∨ i ∈ tasksOf (io.call x op).woken := by
  by_cases hxy : x = y
  · subst hxy
    rcases (F x).channel.armed_or_fired ha (hr rfl) with ⟨w,hwaker,hmem⟩ | harmed
    · right
      cases hw w hwaker
      exact mem_tasksOf.mpr (by simpa [Channel.polled,Io.call] using hmem)
    · left
      simpa [Io.call,Channel.polled] using harmed
  · left
    simpa [Io.call,Ne.symm hxy] using ha

end Steps

variable {F : X → Field (Handle E)} {owner : Owner X} {W : Type} [DecidableEq Tid]
  {logic : ∀ cx, L → D → Decision F owner cx D L}

/-- The thread inside the mutex has still to wake the task. -/
def Waking (i : Task) (s : State Tid W L (Io F D)) : Prop :=
  ∃ t, (s.thread t).pc.holds = true ∧ ∃ c ∈ (s.thread t).wakes, c.1 = i ∧ c.2 ≠ .fire

/-- A task asleep on a call has the exchange armed for it, or is owed a poll, or is about
to be woken. -/
structure Asleep (owner : Owner X) (es : List (Tid × Event W (Polling F)))
    (s : State Tid W L (Io F D)) : Prop where
  filled : ∀ x, (s.machine.inner.io.exchange x).Filled
  waker : ∀ i x op, Sleeping F i x op es → ∀ w, (F x).channel.waker op = some w → w = .task i
  role : ∀ i x op, Sleeping F i x op es → ∀ r, (F x).channel.role op = some r →
    owner x r = some i
  armed : ∀ i x op, Sleeping F i x op es →
    (F x).channel.Armed op (s.machine.inner.io.exchange x) ∨ Owed i es ∨ Waking i s

omit [DecidableEq X] in
theorem asleep_new {io : Io F D} (hio : ∀ x, (io.exchange x).Filled) (futures : Supported L)
    (builder : Tid) :
    Asleep owner ([] : List (Tid × Event W (Polling F))) (new futures io builder) where
  filled := hio
  waker _ _ _ h := absurd h (not_unanswered_nil _ _)
  role _ _ _ h := absurd h (not_unanswered_nil _ _)
  armed _ _ _ h := absurd h (not_unanswered_nil _ _)

theorem Io.filled_call {io : Io F D} (h : ∀ x, (io.exchange x).Filled) (x : X) (op : (F x).Op)
    (y : X) : ((io.call x op).self.exchange y).Filled := by
  by_cases hxy : y = x
  · subst hxy
    simpa [Io.call] using (F y).channel.filled op _ (h y)
  · simpa [Io.call,hxy] using h y

/-- What waited before a step, and was not polled in it, is owed, or waits on. -/
theorem Waking.next {t : Tid} {s : State Tid W L (Io F D)}
    {m : ProcMachineImpl W L (Io F D)} {th : Thread W} {e : Event W (Polling F)} {i : Task}
    {es : List (Tid × Event W (Polling F))} (hw : Waking i s)
    (h : Steps (exchangeJobs F owner logic) s.machine (s.thread t) e m th) :
    Owed i (es ++ [(t,e)]) ∨ Waking i (s.move t m th) := by
  obtain ⟨u,hpc,hc⟩ := hw
  by_cases hut : u = t
  · subst hut
    rcases h.wakes_kept hc with rfl | ⟨hsame,hc'⟩
    · exact Or.inl (unanswered_snoc.mpr (Or.inl rfl))
    · refine Or.inr ⟨u,?_⟩
      rw [State.move_self,hsame]
      exact ⟨hpc,hc'⟩
  · refine Or.inr ⟨u,?_⟩
    rw [State.move_other _ _ _ _ hut]
    exact ⟨hpc,hc⟩

section Next

variable {t : Tid} {s : State Tid W L (Io F D)} {m : ProcMachineImpl W L (Io F D)} {th : Thread W}
  {e : Event W (Polling F)} {es : List (Tid × Event W (Polling F))} {i j : Task}

/-- A poll that a task is owed, or about to be owed, before a step in which it is not polled. -/
theorem waits_on (h : Steps (exchangeJobs F owner logic) s.machine (s.thread t) e m th)
    (he : e ≠ .polled i) (hi : Owed i es ∨ Waking i s) :
    Owed i (es ++ [(t,e)]) ∨ Waking i (s.move t m th) := by
  rcases hi with howed | hw
  · exact Or.inl (unanswered_snoc.mpr (Or.inr ⟨howed,he⟩))
  · exact hw.next h

/-- A call by the thread inside the mutex, in a role other than that of the sleeping call. -/
theorem Asleep.called (ha : Asleep owner es s)
    (h : Steps (exchangeJobs F owner logic) s.machine (s.thread t) e m th) {x y : X}
    {op : (F x).Op} {o : (F y).Op} (hio : m.inner.io = (s.machine.inner.io.call y o).self)
    (hpc : th.pc.holds = true)
    (hw : th.wakes = calls (tasksOf (s.machine.inner.io.call y o).woken)) (he : e ≠ .polled i)
    (hsl : Sleeping F i x op es)
    (hrole : ∀ r, (F x).channel.role op = some r → y = x → (F y).channel.role o ≠ some r) :
    (F x).channel.Armed op (m.inner.io.exchange x) ∨ Owed i (es ++ [(t,e)]) ∨
      Waking i (s.move t m th) := by
  rcases ha.armed i x op hsl with harm | hrest
  · have hr : y = x → (F y).channel.role o ≠ (F x).channel.role op := by
      intro hyx
      obtain ⟨r,-,hopr,-⟩ := harm
      rw [hopr]
      exact hrole r hopr hyx
    rw [hio]
    rcases armed_or_woken harm (ha.waker i x op hsl) hr with harm' | hwoken
    · exact Or.inl harm'
    · refine Or.inr (Or.inr ⟨t,?_⟩)
      rw [State.move_self,hw]
      exact ⟨hpc,mem_calls hwoken⟩
  · exact Or.inr (waits_on h he hrest)

theorem Asleep.untouched (ha : Asleep owner es s)
    (h : Steps (exchangeJobs F owner logic) s.machine (s.thread t) e m th)
    (hio : m.inner.io.exchange = s.machine.inner.io.exchange)
    (hf : ∀ i x op p, e ≠ .acted i (.call x op p)) :
    Asleep owner (es ++ [(t,e)]) (s.move t m th) := by
  have old : ∀ i x op, Sleeping F i x op (es ++ [(t,e)]) → Sleeping F i x op es ∧ e ≠ .polled i := by
    intro i x op hsl
    rcases unanswered_snoc.mp hsl with hnew | ⟨hold,hnot⟩
    · exact absurd hnew (hf i x op true)
    · exact ⟨hold,fun hp => hnot (Or.inl hp)⟩
  refine ⟨fun x => ?_,fun i x op hsl => ha.waker i x op (old i x op hsl).1,
    fun i x op hsl => ha.role i x op (old i x op hsl).1,fun i x op hsl => ?_⟩
  · rw [State.move_machine,hio]
    exact ha.filled x
  · rw [State.move_machine,hio]
    obtain ⟨hold,he⟩ := old i x op hsl
    rcases ha.armed i x op hold with harm | hrest
    · exact Or.inl harm
    · exact Or.inr (waits_on h he hrest)

omit [DecidableEq Tid] in
theorem Asleep.arms (ha : Asleep owner es s) (c : TaskCall F owner j) {x : X} {op : (F x).Op}
    (hio : m.inner.io = (s.machine.inner.io.call c.field c.op).self)
    (hev : (Event.acted j (.call c.field c.op (s.machine.inner.io.call c.field c.op).ret.isPending) :
      Event W (Polling F)) = .acted i (.call x op true)) :
    (∀ w, (F x).channel.waker op = some w → w = .task i) ∧
      (∀ r, (F x).channel.role op = some r → owner x r = some i) ∧
      (F x).channel.Armed op (m.inner.io.exchange x) := by
  obtain ⟨y,o,hwaker,howner⟩ := c
  obtain ⟨rfl,hcall⟩ := Event.acted.inj hev
  obtain ⟨rfl,hop,hp⟩ := Polling.call.inj hcall
  cases hop
  refine ⟨hwaker,howner,?_⟩
  rw [hio]
  have harm := (F y).channel.arms o _ (ha.filled y) (Outcome.isPending_iff.mp hp)
  simpa [Io.call,Channel.Armed] using harm

omit [DecidableEq Tid] in
theorem Asleep.role_ne (ha : Asleep owner es s) (c : TaskCall F owner j) {x : X} {op : (F x).Op}
    (hsl : Sleeping F i x op es) (hclear : ∀ op' p, (Event.acted j (.call c.field c.op
      (s.machine.inner.io.call c.field c.op).ret.isPending) : Event W (Polling F)) =
        .acted i (.call x op' p) → (F x).channel.role op' ≠ (F x).channel.role op) {r : Role}
    (hr : (F x).channel.role op = some r) (hyx : c.field = x) :
    (F c.field).channel.role c.op ≠ some r := by
  obtain ⟨y,o,hwaker,howner⟩ := c
  obtain rfl : y = x := hyx
  intro hor
  have hij : j = i := Option.some.inj ((howner r hor).symm.trans (ha.role i y op hsl r hr))
  subst hij
  exact hclear o _ rfl (hor.trans hr.symm)

theorem Asleep.acted (ha : Asleep owner es s) (c : TaskCall F owner j)
    (h : Steps (exchangeJobs F owner logic) s.machine (s.thread t) (.acted j (.call c.field c.op
      (s.machine.inner.io.call c.field c.op).ret.isPending)) m th)
    (hio : m.inner.io = (s.machine.inner.io.call c.field c.op).self) (hpc : th.pc.holds = true)
    (hw : th.wakes = calls (tasksOf (s.machine.inner.io.call c.field c.op).woken)) :
    Asleep owner (es ++ [(t,.acted j (.call c.field c.op
      (s.machine.inner.io.call c.field c.op).ret.isPending))]) (s.move t m th) := by
  refine ⟨fun x => ?_,fun i x op hsl => ?_,fun i x op hsl => ?_,fun i x op hsl => ?_⟩
  · rw [State.move_machine,hio]
    exact Io.filled_call ha.filled _ _ x
  · rcases unanswered_snoc.mp hsl with hnew | ⟨hold,-⟩
    · exact (ha.arms c hio hnew).1
    · exact ha.waker i x op hold
  · rcases unanswered_snoc.mp hsl with hnew | ⟨hold,-⟩
    · exact (ha.arms c hio hnew).2.1
    · exact ha.role i x op hold
  · rcases unanswered_snoc.mp hsl with hnew | ⟨hold,hnot⟩
    · exact Or.inl (ha.arms c hio hnew).2.2
    · refine ha.called h hio hpc hw (by simp) hold fun r hr hyx => ha.role_ne c hold ?_ hr hyx
      exact fun op' p hev hrole => hnot (Or.inr ⟨op',p,hev,hrole⟩)

theorem Asleep.accessed (ha : Asleep owner es s) (c : OutsideCall F owner)
    (h : Steps (exchangeJobs F owner logic) s.machine (s.thread t) .silent m th)
    (hio : m.inner.io = (s.machine.inner.io.call c.field c.op).self) (hpc : th.pc.holds = true)
    (hw : th.wakes = calls (tasksOf (s.machine.inner.io.call c.field c.op).woken)) :
    Asleep owner (es ++ [(t,.silent)]) (s.move t m th) := by
  have old : ∀ i x op, Sleeping F i x op (es ++ [(t,.silent)]) → Sleeping F i x op es := by
    intro i x op hsl
    rcases unanswered_snoc.mp hsl with hnew | ⟨hold,-⟩
    · cases hnew
    · exact hold
  refine ⟨fun x => ?_,fun i x op hsl => ha.waker i x op (old i x op hsl),
    fun i x op hsl => ha.role i x op (old i x op hsl),fun i x op hsl => ?_⟩
  · rw [State.move_machine,hio]
    exact Io.filled_call ha.filled _ _ x
  · apply ha.called h hio hpc hw (by simp) (old i x op hsl)
    intro r hr hfield hcr
    have howner := ha.role i x op (old i x op hsl) r hr
    rw [← hfield,c.role r hcr] at howner
    cases howner

end Next

theorem Asleep.next {poller : Tid} {s s' : State Tid W L (Io F D)}
    {es : List (Tid × Event W (Polling F))} {e : Tid × Event W (Polling F)} (ha : Asleep owner es s)
    (h : Step (exchangeJobs F owner logic) poller s e s') : Asleep owner (es ++ [e]) s' := by
  rcases e with ⟨t,e⟩
  obtain ⟨m,th,hstep,rfl⟩ := h.thread
  cases hstep.touches with
  | none _ _ _ hio hf => exact ha.untouched hstep hio hf
  | task _ _ c hio hpc hw => exact ha.acted c hstep hio hpc hw
  | outside _ _ c hio hpc hw => exact ha.accessed c hstep hio hpc hw

/-- A machine whose tasks, with any logic, wait for exchanges that have been used in any way
before: whenever a tick returns, a call in which an unfinished task went to sleep in its
most recent run would be pending again. -/
theorem machine_runs_to_quiescence (kind : X → Kind) (owner : Owner X) :
    let F := fun x => (kind x).field (Handle E)
    ∀ (logic : ∀ cx, L → D → Decision F owner cx D L) (poller builder : Tid)
      (futures : Supported L) (io : Io F D) (es : List (Tid × Event W (Polling F))) (t : Tid)
      (done : Bool) (s : State Tid W L (Io F D)),
    (∀ x, ∃ ops, io.exchange x = ((F x).channel.polled.run Exchange.new ops).obj) →
    Run (Step (exchangeJobs F owner logic) poller) (new futures io builder)
      (es ++ [(t,.ticked done)]) s →
    ∀ (i : Task) (x : X) (op : (F x).Op), (s.machine.inner.futures.fut i).isSome →
      Sleeping F i x op es →
      ((F x).channel.call op (s.machine.inner.io.exchange x)).ret = .pending := by
  intro F logic poller builder futures io es t done s hio h i x op hi hsl
  have hfilled : ∀ x, (io.exchange x).Filled := by
    intro x
    obtain ⟨ops,hops⟩ := hio x
    rw [hops]
    exact ((F x).channel.sound_run ops).inv
  have ha : Asleep owner (es ++ [(t,.ticked done)]) s := by
    refine Run.history (I := fun es s => Asleep owner es s) (asleep_new hfilled futures builder) ?_ h
    exact fun es s e s' hs hk => hs.next hk
  have hsl' : Sleeping F i x op (es ++ [(t,.ticked done)]) :=
    unanswered_snoc.mpr (Or.inr ⟨hsl,by simp⟩)
  rcases ha.armed i x op hsl' with ⟨r,cx,-,-,-,hstate⟩ | howed | ⟨u,hu,c,hc,-⟩
  · exact (F x).channel.waits op _ hstate
  · rcases unanswered_snoc.mp howed with hw | ⟨hold,-⟩
    · cases hw
    · exact absurd hold (not_owed_at_tick h hi)
  · have hs := sound_run h
    obtain ⟨s₀,-,hlast⟩ := h.snoc_inv
    obtain ⟨m,th,hstep,rfl⟩ := hlast.thread
    generalize s₀.thread t = old at hstep
    cases hstep with
    | tickEnd call hm =>
      have hut := hs.exclusive u t hu (by rw [State.move_self]; exact holds_afterTick _ _)
      subst hut
      rw [State.move_self] at hc
      cases hc

abbrev inbox : Unit → Kind := fun _ => .items ℕ

abbrev inboxFields : Unit → Field (Handle Unit) := fun x => (inbox x).field (Handle Unit)

instance (x : Unit) : DecidableEq (inboxFields x).Op :=
  inferInstanceAs (DecidableEq (IoExchange.Op (Handle Unit) ℕ))

def inboxOwner : Owner Unit
  | _, .consumer => some 1
  | _, .producer => none

def inboxRead : IoExchange.Op (Handle Unit) ℕ := .pollRead (.task 1)

def readAll : ∀ cx : Task, Bool → Unit → Decision inboxFields inboxOwner cx Unit Bool
  | _, true, _ => .pending false
  | cx, false, _ =>
    if h : cx = 1 then
      .call ⟨(),inboxRead,fun w hw => by subst h; exact (Option.some.inj hw).symm,
        fun r hr => by subst h; cases hr; rfl⟩ Outcome.isPending
    else .ready

def inboxSend : OutsideCall inboxFields inboxOwner :=
  ⟨(),(.pollSend (.outside ()) (some 5) : IoExchange.Op (Handle Unit) ℕ),
    fun r hr => by cases hr; rfl⟩

abbrev inboxJobs : Jobs Bool (Io inboxFields Unit) (Polling inboxFields)
    (Access inboxFields inboxOwner Unit) := exchangeJobs inboxFields inboxOwner readAll

def inboxMoves : List (Bool × Choice Unit (Access inboxFields inboxOwner Unit)) :=
  List.replicate 7 (false,.go) ++ [(true,.call .lockRef),(true,.go),(true,.access (.call inboxSend))] ++
    List.replicate 3 (true,.go) ++ [(true,.drop)] ++ List.replicate 15 (true,.go)

def inboxStart : State Bool Unit Bool (Io inboxFields Unit) :=
  new ⟨.extension .base (some false),by decide⟩ (Io.new ()) false

def inboxRun : State Bool Unit Bool (Io inboxFields Unit) ×
    List (Bool × Event Unit (Polling inboxFields)) :=
  (exec inboxJobs false inboxStart inboxMoves).get (by decide +kernel)

/-- The rule at a task that has read a number and gone to sleep again. -/
theorem machine_runs_to_quiescence_inbox :
    (IoExchange.call inboxRead (inboxRun.1.machine.inner.io.exchange ())).ret = .pending := by
  have hlast : inboxRun.2 = inboxRun.2.dropLast ++ [(true,.ticked false)] := by decide +kernel
  have hrun : Run (Step inboxJobs false) inboxStart
      (inboxRun.2.dropLast ++ [(true,.ticked false)]) inboxRun.1 := by
    rw [← hlast]
    exact exec_get _
  have hsplit : inboxRun.2.dropLast = inboxRun.2.take 24 ++
      (true,.acted 1 (.call () inboxRead true)) :: (inboxRun.2.drop 25).dropLast := by
    decide +kernel
  have hquiet : ∀ f ∈ (inboxRun.2.drop 25).dropLast, f.2 = .silent := by decide +kernel
  refine machine_runs_to_quiescence inbox inboxOwner readAll false false _ (Io.new ()) _ true false
    inboxRun.1 (fun _ => ⟨[],rfl⟩) hrun 1 () inboxRead (by decide +kernel)
    ⟨_,_,_,hsplit,rfl,fun f hf => ?_⟩
  rintro (h | ⟨_,_,h,-⟩) <;> cases (hquiet f hf).symm.trans h

end ProcMachine
end ProcMachines
