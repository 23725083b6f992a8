import ProcMachines.ProcMachineWaitables

/-! Tasks that exchanges connect without circles: when they all wait, one of them waits for the
critical sections, or for a task that has returned. -/
namespace ProcMachines

def Role.other : Role → Role
  | .producer => .consumer
  | .consumer => .producer

namespace ProcMachine
namespace Waitables

open Transition Scheduler Wakeup

variable {E X D L Tid W : Type} [DecidableEq E] [DecidableEq X] [DecidableEq Tid]

abbrev exchanges (E : Type) [DecidableEq E] (kind : X → ProcMachine.Kind) (x : X) : Waitable (Handle E) :=
  exchange ((kind x).field (Handle E)).channel

/-- The task at the far side of `a` has the side `b` as well. -/
def Beyond (owner : X → Role → Option Task) (a b : X × Role) : Prop :=
  ∃ n, owner a.1 a.2.other = some n ∧ owner b.1 b.2 = some n ∧ b ≠ (a.1,a.2.other)

omit [DecidableEq X] in
theorem Awaits.not_both {kind : X → ProcMachine.Kind} {owner : Owner (exchanges E kind)}
    {object : ∀ x, (exchanges E kind x).σ} {n k : Task} {x : X} {r : Role}
    {o p : (exchanges E kind x).Op} (h : Awaits owner object n x r o)
    (h' : Awaits owner object k x r.other p) : False := by
  obtain ⟨_,_,-,-,-,hst⟩ := h.armed
  obtain ⟨_,_,-,-,-,hst'⟩ := h'.armed
  cases r with
  | producer => exact ((kind x).field (Handle E)).channel.apart o p h.role h'.role _ hst hst'
  | consumer => exact ((kind x).field (Handle E)).channel.apart p o h'.role h.role _ hst' hst

def waitingSides (kind : X → ProcMachine.Kind) (es : List (Tid × Event W (Polling (exchanges E kind))))
    (s : State Tid W L (Io (exchanges E kind) D)) : Set (X × Role) :=
  {a | ∃ (k : Task) (o : (exchanges E kind a.1).Op), (s.machine.inner.futures.fut k).isSome ∧
    (waits (exchanges E kind)).noted (es.flatMap shows) k a.1 a.2 = some o}

/-- Over every run of a machine whose exchanges connect its tasks without circles: if, while the
mutex is free, every unfinished task of the network waits on some exchange, then a task waits on
one whose far side is left to the critical sections or to a task that has returned. -/
theorem waits_outside (kind : X → ProcMachine.Kind) (owner : Owner (exchanges E kind))
    (hwf : WellFounded fun b a => Beyond owner a b)
    (logic : ∀ cx, L → D → Decision (exchanges E kind) owner cx D L) (poller builder : Tid)
    (futures : Supported L) (io : Io (exchanges E kind) D)
    (hused : ∀ x, ∃ ops, io.object x = ((exchanges E kind x).polled.run Exchange.new ops).obj)
    (es : List (Tid × Event W (Polling (exchanges E kind)))) (s : State Tid W L (Io (exchanges E kind) D))
    (h : Run (Step (waitingJobs (exchanges E kind) owner logic) poller) (new futures io builder) es s)
    (hfree : s.machine.locked = false)
    (hall : ∀ n : Task, (s.machine.inner.futures.fut n).isSome → (∃ x r, owner x r = some n) →
      ∃ x r o, (waits (exchanges E kind)).noted (es.flatMap shows) n x r = some o)
    (n : Task) (hn : (s.machine.inner.futures.fut n).isSome) (hside : ∃ x r, owner x r = some n) :
    ∃ (k : Task) (x : X) (r : Role) (o : (exchanges E kind x).Op),
      (s.machine.inner.futures.fut k).isSome ∧
      (waits (exchanges E kind)).noted (es.flatMap shows) k x r = some o ∧
      ((exchanges E kind x).polled.exec o (s.machine.inner.io.object x)).ret = true ∧
      ∀ j, owner x r.other = some j → s.machine.inner.futures.fut j = none := by
  have hkept : Kept io.object := by
    intro x
    obtain ⟨ops,hops⟩ := hused x
    rw [hops]
    exact (exchanges E kind x).inv_run ops
  have hsome : (waitingSides kind es s).Nonempty := by
    obtain ⟨x,r,o,ho⟩ := hall n hn hside
    exact ⟨(x,r),n,o,hn,ho⟩
  obtain ⟨⟨x,r⟩,⟨k,o,hk,ho⟩,hlast⟩ := hwf.has_min (waitingSides kind es s) hsome
  have hawaits := awaits_when_free logic hkept h hfree hk ho
  refine ⟨k,x,r,o,hk,ho,pending_when_free logic hkept h hfree hk ho,fun j hj => ?_⟩
  by_contra hfut
  have hjsome : (s.machine.inner.futures.fut j).isSome := Option.isSome_iff_ne_none.mpr hfut
  obtain ⟨y,r',p,hp⟩ := hall j hjsome ⟨x,r.other,hj⟩
  have hfar := awaits_when_free logic hkept h hfree hjsome hp
  refine hlast (y,r') ⟨j,p,hjsome,hp⟩ ⟨j,hj,hfar.owner,?_⟩
  intro heq
  obtain ⟨rfl,rfl⟩ := Prod.mk.inj heq
  exact hawaits.not_both hfar

abbrev numbers : ℕ → ProcMachine.Kind := fun _ => .items ℕ

/-- Two tasks in a line: task `n` reads from exchange `n-1` and sends to exchange `n`. -/
def lineOwner : Owner (exchanges Unit numbers)
  | x, .consumer => if x = 0 then some 1 else if x = 1 then some 2 else none
  | x, .producer => if x = 1 then some 1 else if x = 2 then some 2 else none

theorem lineOwner_some {x : ℕ} {r : Role} {n : Task} (h : lineOwner x r = some n) :
    (n = 1 ∨ n = 2) ∧ match r with
      | .consumer => x + 1 = n.val
      | .producer => x = n.val := by
  cases r <;> simp only [lineOwner] at h <;> split_ifs at h with h₀ h₁ <;> cases h <;> simp [*]

def lineRank : ℕ × Role → ℕ
  | (x,.consumer) => x
  | (x,.producer) => 3 - x

theorem line_wf : WellFounded fun b a => Beyond lineOwner a b := by
  refine Subrelation.wf (r := fun b a => lineRank b < lineRank a) ?_ (measure lineRank).wf
  rintro ⟨y,r'⟩ ⟨x,r⟩ ⟨n,hfar,hside,hne⟩
  obtain ⟨hn,hx⟩ := lineOwner_some hfar
  obtain ⟨-,hy⟩ := lineOwner_some hside
  have hvalue : n.val = 1 ∨ n.val = 2 := hn.imp (congrArg Fin.val) (congrArg Fin.val)
  cases r <;> cases r' <;> simp only [Role.other,lineRank,ne_eq,Prod.mk.injEq,and_true] at hx hy hne ⊢ <;>
    omega

def lineRead (n : Task) (h : n = 1 ∨ n = 2) : TaskCall (exchanges Unit numbers) lineOwner n where
  object := n.val - 1
  op := (.pollRead (.task n) : IoExchange.Op (Handle Unit) ℕ)
  waker w hw := (Option.some.inj hw).symm
  role r hr := by
    cases hr
    rcases h with rfl | rfl <;> rfl

def lineSend (n : Task) (h : n = 1 ∨ n = 2) : TaskCall (exchanges Unit numbers) lineOwner n where
  object := n.val
  op := (.pollSend (.task n) (some 5) : IoExchange.Op (Handle Unit) ℕ)
  waker w hw := (Option.some.inj hw).symm
  role r hr := by
    cases hr
    rcases h with rfl | rfl <;> rfl

def relay : ∀ n : Task, Fin 4 → Unit → Decision (exchanges Unit numbers) lineOwner n Unit (Fin 4)
  | n, 0, _ =>
    if h : n = 1 ∨ n = 2 then .call (lineRead n h) fun ex =>
      if (IoExchange.channel.polled.exec (lineRead n h).op ex).ret then 1 else 2
    else .ready
  | _, 1, _ => .pending 0
  | n, 2, _ =>
    if h : n = 1 ∨ n = 2 then .call (lineSend n h) fun ex =>
      if (IoExchange.channel.polled.exec (lineSend n h).op ex).ret then 3 else 0
    else .ready
  | _, 3, _ => .pending 2

abbrev lineJobs : Jobs (Fin 4) (Io (exchanges Unit numbers) Unit)
    (Polling (exchanges Unit numbers)) (Access (exchanges Unit numbers) lineOwner Unit) :=
  waitingJobs (exchanges Unit numbers) lineOwner relay

def lineStart : State Bool Unit (Fin 4) (Io (exchanges Unit numbers) Unit) :=
  new ⟨.extension (.extension .base (some 0)) (some 0),by decide⟩ ⟨fun _ => Exchange.new,()⟩ false

def lineRun : State Bool Unit (Fin 4) (Io (exchanges Unit numbers) Unit) ×
    List (Bool × Event Unit (Polling (exchanges Unit numbers))) :=
  (exec lineJobs true lineStart (List.replicate 10 (false,.go))).get (by decide +kernel)

instance (x : ℕ) : DecidableEq (exchanges Unit numbers x).Op :=
  inferInstanceAs (DecidableEq (IoExchange.Op (Handle Unit) ℕ))

theorem lineRun_shown : lineRun.2.flatMap shows =
    [(false,.poll 1),(false,.act 1 (.call 0 (lineRead 1 (by simp)).op true)),(false,.poll 2),
      (false,.act 2 (.call 1 (lineRead 2 (by simp)).op true)),(false,.tick false)] := by
  decide +kernel

/-- Both tasks of the line wait to read, and the first one waits for the critical sections. -/
theorem waits_outside_line : ∃ (k : Task) (x : ℕ) (r : Role) (o : (exchanges Unit numbers x).Op),
    (lineRun.1.machine.inner.futures.fut k).isSome ∧
    (waits (exchanges Unit numbers)).noted (lineRun.2.flatMap shows) k x r = some o ∧
    ((exchanges Unit numbers x).polled.exec o (lineRun.1.machine.inner.io.object x)).ret = true ∧
    ∀ j, lineOwner x r.other = some j → lineRun.1.machine.inner.futures.fut j = none := by
  have hrun : Run (Step lineJobs true) lineStart lineRun.2 lineRun.1 := exec_get _
  have hone : (waits (exchanges Unit numbers)).noted (lineRun.2.flatMap shows) 1 0 .consumer =
      some (lineRead 1 (by simp)).op := by
    rw [lineRun_shown]
    decide +kernel
  have htwo : (waits (exchanges Unit numbers)).noted (lineRun.2.flatMap shows) 2 1 .consumer =
      some (lineRead 2 (by simp)).op := by
    rw [lineRun_shown]
    decide +kernel
  have hrest := waits_outside numbers lineOwner line_wf relay true false
    ⟨.extension (.extension .base (some 0)) (some 0),by decide⟩ ⟨fun _ => Exchange.new,()⟩
    (fun _ => ⟨[],rfl⟩) lineRun.2 lineRun.1 hrun (by decide +kernel) ?_ 1 (by decide +kernel) ⟨0,.consumer,rfl⟩
  · exact hrest
  · rintro n - ⟨x,r,hside⟩
    rcases (lineOwner_some hside).1 with rfl | rfl
    · exact ⟨0,.consumer,_,hone⟩
    · exact ⟨1,.consumer,_,htwo⟩

end Waitables
end ProcMachine
end ProcMachines
