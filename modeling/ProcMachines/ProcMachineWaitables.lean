import ProcMachines.ProcMachineExchanges
import ProcMachines.ProcMachineRest

/-! A machine whose tasks wait for any objects that keep the wake rule: while the mutex is free,
no task sleeps on a poll that would go on. -/
namespace ProcMachines
namespace ProcMachine
namespace Waitables

open Transition Scheduler Wakeup

variable {E X D L Tid : Type} [DecidableEq E] [DecidableEq X]

/-- The I/O structure: a family of objects, and plain data. -/
structure Io (F : X → Waitable (Handle E)) (D : Type) where
  object : ∀ x, (F x).σ
  data : D

variable {F : X → Waitable (Handle E)}

namespace Io

def call (x : X) (op : (F x).Op) (io : Io F D) : Call (Io F D) (Handle E) Bool :=
  let out := (F x).polled.exec op (io.object x)
  ⟨{io with object := Function.update io.object x out.self},out.woken,out.ret⟩

end Io

/-- Which task, if any, polls an object in a role. -/
abbrev Owner (F : X → Waitable (Handle E)) := ∀ x, (F x).Role → Option Task

/-- A call that a task may make: with its own waker, and in its own roles or none. -/
structure TaskCall (F : X → Waitable (Handle E)) (owner : Owner F) (cx : Task) where
  object : X
  op : (F object).Op
  waker : ∀ w, (F object).polled.waker op = some w → w = .task cx
  role : ∀ r, (F object).polled.role op = some r → owner object r = some cx

/-- A call that a critical section may make: in the roles that no task has, or none. -/
structure OutsideCall (F : X → Waitable (Handle E)) (owner : Owner F) where
  object : X
  op : (F object).Op
  role : ∀ r, (F object).polled.role op = some r → owner object r = none

/-- What a task does next. What a call returns is read off the object as the call has found it,
so the task may go on with anything that depends on that. -/
inductive Decision (F : X → Waitable (Handle E)) (owner : Owner F) (cx : Task) (D L : Type)
  | call (c : TaskCall F owner cx) (k : (F c.object).σ → L)
  | write (data : D) (l : L)
  | pending (l : L)
  | ready

/-- What an action of a task was: a call, and whether it returned `Pending`. -/
inductive Polling (F : X → Waitable (Handle E))
  | call (x : X) (op : (F x).Op) (pending : Bool)
  | write

instance (F : X → Waitable (Handle E)) [∀ x, DecidableEq (F x).Op] : DecidableEq (Polling F)
  | .write, .write => isTrue rfl
  | .call _ _ _, .write => isFalse (by simp)
  | .write, .call _ _ _ => isFalse (by simp)
  | .call x op p, .call y o q =>
    if h : x = y then by
      subst h
      exact decidable_of_iff (op = o ∧ p = q) (by simp)
    else isFalse (by simp [h])

inductive Access (F : X → Waitable (Handle E)) (owner : Owner F) (D : Type)
  | call (c : OutsideCall F owner)
  | write (f : D → D)

/-- The machine's jobs when its tasks follow an arbitrary logic. -/
def waitingJobs (F : X → Waitable (Handle E)) (owner : Owner F)
    (logic : ∀ cx, L → D → Decision F owner cx D L) :
    Jobs L (Io F D) (Polling F) (Access F owner D) where
  resume cx l io :=
    match logic cx l io.data with
    | .call c k =>
      let out := io.call c.object c.op
      .act out.self (tasksOf out.woken) (k (io.object c.object)) (.call c.object c.op out.ret)
    | .write data l => .act {io with data := data} [] l .write
    | .pending l => .pending l
    | .ready => .ready
  access
    | .call c, io => ((io.call c.object c.op).self,tasksOf (io.call c.object c.op).woken)
    | .write f, io => ({io with data := f io.data},[])

/-- The last call of a task on each object in each role, in its most recent poll, if the call
was pending. -/
abbrev Waits (F : X → Waitable (Handle E)) := ∀ x, (F x).Role → Option (F x).Op

def waits (F : X → Waitable (Handle E)) : Notes (Polling F) (Waits F) where
  blank _ _ := none
  note g
    | .call x op pending => Function.update g x fun r =>
        if (F x).polled.role op = some r then if pending then some op else none else g x r
    | .write => g

/-- The poll is one of the task's own, and its object is armed for it. -/
structure Awaits (owner : Owner F) (object : ∀ x, (F x).σ) (n : Task) (x : X) (r : (F x).Role)
    (o : (F x).Op) : Prop where
  role : (F x).polled.role o = some r
  owner : owner x r = some n
  waker : ∀ w, (F x).polled.waker o = some w → w = .task n
  armed : (F x).rule.armed o (object x)

section Steps

variable {owner : Owner F} {io : Io F D} {n : Task} {x : X} {op : (F x).Op}

def Kept (object : ∀ x, (F x).σ) : Prop := ∀ x, (F x).rule.inv (object x)

/-- All that the task waits for is awaited. -/
def Trusts (owner : Owner F) (n : Task) (g : Waits F) (object : ∀ x, (F x).σ) : Prop :=
  ∀ x r o, g x r = some o → Awaits owner object n x r o

theorem Kept.called (h : Kept io.object) (op : (F x).Op) : Kept (io.call x op).self.object := by
  intro y
  by_cases hy : y = x
  · subst hy
    simpa [Io.call] using (F y).rule.inv_step op _ (h y)
  · simpa [Io.call,hy] using h y

theorem Awaits.other {y : X} {r : (F y).Role} {o : (F y).Op} (h : Awaits owner io.object n y r o)
    (hxy : y ≠ x) : Awaits owner (io.call x op).self.object n y r o :=
  ⟨h.role,h.owner,h.waker,by simpa [Io.call,hxy] using h.armed⟩

theorem Awaits.same (hio : Kept io.object) {r : (F x).Role} {o : (F x).Op}
    (h : Awaits owner io.object n x r o) (hne : (F x).polled.role op ≠ some r) :
    n ∈ tasksOf (io.call x op).woken ∨ Awaits owner (io.call x op).self.object n x r o := by
  rcases (F x).armed_or_fired (hio x) h.armed h.role hne with ⟨w,hw,hmem⟩ | harmed
  · left
    cases h.waker w hw
    exact mem_tasksOf.mpr hmem
  · exact Or.inr ⟨h.role,h.owner,h.waker,by simpa [Io.call] using harmed⟩

/-- A call by somebody else leaves the task waiting for all it waits for, or wakes it. -/
theorem Trusts.called (hio : Kept io.object) {g : Waits F} (h : Trusts owner n g io.object)
    (hne : ∀ r, (F x).polled.role op = some r → owner x r ≠ some n) :
    Trusts owner n g (io.call x op).self.object ∨ n ∈ tasksOf (io.call x op).woken := by
  by_cases hwoken : n ∈ tasksOf (io.call x op).woken
  · exact Or.inr hwoken
  · refine Or.inl fun y r o ho => ?_
    have hawaits := h y r o ho
    by_cases hyx : y = x
    · subst hyx
      exact (hawaits.same hio fun hr => hne r hr hawaits.owner).resolve_left hwoken
    · exact hawaits.other hyx

theorem Trusts.acted (hio : Kept io.object) {g : Waits F} (h : Trusts owner n g io.object)
    (hwaker : ∀ w, (F x).polled.waker op = some w → w = .task n)
    (howner : ∀ r, (F x).polled.role op = some r → owner x r = some n) :
    Trusts owner n ((waits F).note g (.call x op (io.call x op).ret)) (io.call x op).self.object ∨
      n ∈ tasksOf (io.call x op).woken := by
  by_cases hwoken : n ∈ tasksOf (io.call x op).woken
  · exact Or.inr hwoken
  refine Or.inl fun y r o ho => ?_
  by_cases hyx : y = x
  · subst hyx
    simp only [waits,Function.update_self] at ho
    split at ho
    · rename_i hr
      split at ho
      · rename_i hpending
        obtain rfl := Option.some.inj ho
        refine ⟨hr,howner r hr,hwaker,?_⟩
        simpa [Io.call] using (F y).rule.arms _ _ (hio y) hpending
      · cases ho
    · rename_i hr
      exact ((h y r o ho).same hio hr).resolve_left hwoken
  · simp only [waits,Function.update_of_ne hyx] at ho
    exact (h y r o ho).other hyx

theorem sleeps (owner : Owner F) (logic : ∀ cx, L → D → Decision F owner cx D L) :
    Sleeps (waitingJobs F owner logic) (waits F) (fun io => Kept io.object) (fun _ _ => True)
      (fun n g _ io => Trusts owner n g io.object) fun n g _ io => Trusts owner n g io.object where
  begins n fut io _ _ := by
    intro x r o ho
    cases ho
  act n fut io io' woken fut' obs hio hres := by
    simp only [waitingJobs] at hres
    split at hres
    · rename_i c k hlogic
      cases hres
      refine ⟨hio.called _,fun g hg => hg.acted hio c.waker c.role,fun k g f hk hg => hg.called hio ?_⟩
      intro r hr hown
      exact hk (Option.some.inj (hown.symm.trans (c.role r hr)))
    · cases hres
      exact ⟨hio,fun g hg => Or.inl hg,fun k g f _ hg => Or.inl hg⟩
    · cases hres
    · cases hres
  pending n fut io fut' _ hres := by
    simp only [waitingJobs] at hres
    split at hres
    · cases hres
    · cases hres
    · exact ⟨trivial,fun g hg => hg⟩
    · cases hres
  access acc io hio := by
    cases acc with
    | call c =>
      refine ⟨hio.called _,fun k g f hg => hg.called hio ?_⟩
      intro r hr hown
      rw [c.role r hr] at hown
      cases hown
    | write f => exact ⟨hio,fun k g f hg => Or.inl hg⟩

end Steps

theorem preserves (owner : Owner F) (logic : ∀ cx, L → D → Decision F owner cx D L) :
    Preserves (waitingJobs F owner logic) (fun _ _ => True) fun _ io => Kept io.object where
  act n _ fut io io' woken fut' obs hio _ hres :=
    ((sleeps owner logic).act n fut io io' woken fut' obs hio hres).1
  pending _ _ _ _ _ hio _ _ := hio
  ready _ _ _ _ hio _ _ := hio
  access acc _ io hio _ := ((sleeps owner logic).access acc io hio).1

section Runs

variable [DecidableEq Tid] {W : Type} {owner : Owner F} (logic : ∀ cx, L → D → Decision F owner cx D L)
  {poller builder : Tid} {futures : Supported L} {io : Io F D} {es : List (Tid × Event W (Polling F))}
  {s : State Tid W L (Io F D)} {n : Task} {x : X} {r : (F x).Role} {o : (F x).Op}

/-- While the mutex is free, a call that was the last one of an unfinished task in its role, in
the task's most recent poll, and that was pending, is awaited. -/
theorem awaits_when_free (hio : Kept io.object)
    (h : Run (Step (waitingJobs F owner logic) poller) (new futures io builder) es s)
    (hfree : s.machine.locked = false) (hn : (s.machine.inner.futures.fut n).isSome)
    (ho : (waits F).noted (es.flatMap shows) n x r = some o) :
    Awaits owner s.machine.inner.io.object n x r o := by
  obtain ⟨fut,hfut⟩ := Option.isSome_iff_exists.mp hn
  exact at_rest_when_free (sleeps owner logic) hio (fun _ _ _ => trivial) h hfree n fut hfut x r o ho

theorem pending_when_free (hio : Kept io.object)
    (h : Run (Step (waitingJobs F owner logic) poller) (new futures io builder) es s)
    (hfree : s.machine.locked = false) (hn : (s.machine.inner.futures.fut n).isSome)
    (ho : (waits F).noted (es.flatMap shows) n x r = some o) :
    ((F x).polled.exec o (s.machine.inner.io.object x)).ret = true := by
  have hkept : Kept s.machine.inner.io.object :=
    kept_run (I := fun _ io => Kept io.object) (preserves owner logic) hio h
  exact (F x).rule.waits o _ (hkept x) (awaits_when_free logic hio h hfree hn ho).armed

end Runs

abbrev exchange {W P A Op : Type} [DecidableEq W] [Payload P A] (C : Channel W P A Op) : Waitable W where
  polled := C.polled
  rule := C.discipline
  allows _ _ := trivial
  new := Exchange.new
  inv_new := Exchange.new_filled

end Waitables
end ProcMachine
end ProcMachines
