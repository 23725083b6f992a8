import ProcMachines.ProcMachineScheduler
import ProcMachines.Ranking

/-! No thread of a machine waits for ever: a waiting thread waits for one that can go on, and
if the tasks come to rest, so do the threads, whatever the schedule. -/
namespace ProcMachines
namespace ProcMachine

open Transition Ranking

variable {W FUT SharedIo OBS ACC Tid : Type}

/-- A thread goes on with what it has begun: it takes its next step, or leaves its critical
section. A spurious failure of `compare_exchange_weak` is no such step. -/
inductive Goes (J : Jobs FUT SharedIo OBS ACC) (m : ProcMachineImpl W FUT SharedIo) (th : Thread W)
    (r : Next W FUT SharedIo OBS) : Prop
  | go (h : th.next J m .go = some r)
  | drop (h : th.next J m .drop = some r)

section Goes

variable {J : Jobs FUT SharedIo OBS ACC} {m : ProcMachineImpl W FUT SharedIo} {th : Thread W}
  {r : Next W FUT SharedIo OBS}

theorem Goes.steps (h : Goes J m th r) : Steps J m th r.event r.machine r.thread := by
  cases h with
  | go h => exact Thread.next_steps h
  | drop h => exact Thread.next_steps h

theorem Goes.not_called (h : Goes J m th r) (call : Caller W) : r.event ≠ .called call := by
  intro he
  have hsteps := h.steps
  rw [he] at hsteps
  generalize r.machine = m' at hsteps
  generalize r.thread = th' at hsteps
  cases hsteps with
  | call call hcall =>
    cases h with
    | go h => cases h
    | drop h => cases h

theorem tick_isSome {call : Caller W} {pc : TickPc} (hd : m.inner.futures.DEPTH ≤ 30)
    (ht : Tracks m.inner (Pc.tick call pc)) : (tick J m call pc).isSome := by
  cases pc with
  | swap => rfl
  | polling mask result n =>
    by_cases hn : m.inner.futures.DEPTH < n
    · simp [tick,hn]
    · cases hfut : m.inner.futures.fut n with
      | none => simp [tick,hn,hfut]
      | some fut =>
        have hlt : n < 31 := fut_lt_31 hd (by rw [hfut]; rfl)
        simp only [tick,if_neg hn,hfut,getMultiWaker,dif_pos hlt,Option.map_some]
        split <;> rfl
  | running mask result n =>
    obtain ⟨fut,hfut⟩ := Option.isSome_iff_exists.mp ht.2
    cases hres : J.resume n fut m.inner.io with
    | act | pending | ready => simp [tick,hfut,hres]
  | compareExchange =>
    by_cases hm : m.wakeMask = ticking
    · simp [tick,hm]
    · simp [tick,hm]

/-- A thread that has begun something can go on, unless it waits for the mutex. -/
theorem goes_of_sound (hd : m.inner.futures.DEPTH ≤ 30)
    (ht : th.pc.holds = true → Tracks m.inner th.pc) (hidle : th ≠ ⟨.idle,[]⟩)
    (hlock : ∀ call, th = ⟨.locking call,[]⟩ → m.locked = false) : ∃ r, Goes J m th r := by
  rcases th with ⟨pc,_ | ⟨⟨n,w⟩,rest⟩⟩
  · cases pc with
    | idle => exact absurd rfl hidle
    | critical => exact ⟨_,.drop rfl⟩
    | locking call =>
      refine ⟨⟨{ m with locked := true },⟨afterLock call,[]⟩,.silent⟩,.go ?_⟩
      simp [Thread.next,hlock call rfl]
    | tick call pc =>
      obtain ⟨r,hr⟩ := Option.isSome_iff_exists.mp (tick_isSome (J := J) hd (ht rfl))
      exact ⟨r,.go hr⟩
    | unlock | notify | register | ready => exact ⟨_,.go rfl⟩
  · exact ⟨_,.go rfl⟩

theorem le_DEPTH_of_fut {futures : ProcMachineFutures FUT} {n : ℕ} (h : (futures.fut n).isSome) :
    n ≤ futures.DEPTH := by
  by_contra hn
  rw [ProcMachineFutures.fut_of_DEPTH_lt (Nat.lt_of_not_le hn)] at h
  cases h

theorem Goes.not_ticking {call : Caller W} (h : Goes J m ⟨.tick call .compareExchange,[]⟩ r)
    (hr : r.event = .silent) : m.wakeMask ≠ ticking := by
  intro hm
  cases h with
  | go h =>
    simp only [Thread.next,tick,if_pos hm] at h
    cases h
    cases hr
  | drop h => cases h

theorem Goes.le_DEPTH {call : Caller W} {mask result : BitVec 32} {n : ℕ}
    (h : Goes J m ⟨.tick call (.polling mask result n),[]⟩ r)
    (hr : r.thread.pc ≠ .tick call .swap) : n ≤ m.inner.futures.DEPTH := by
  by_contra hn
  cases h with
  | go h =>
    simp only [Thread.next,tick,if_pos (Nat.lt_of_not_le hn)] at h
    cases h
    exact hr rfl
  | drop h => cases h

theorem Goes.not_idle (h : Goes J m ⟨.idle,[]⟩ r) : False := by
  cases h with
  | go h | drop h => cases h

theorem Goes.left_critical (h : Goes J m ⟨.critical,[]⟩ r) : r.thread = ⟨.tick .lockRef .swap,[]⟩ := by
  cases h with
  | go h => cases h
  | drop h =>
    cases h
    rfl

end Goes

variable [DecidableEq Tid]

def Proceeds (J : Jobs FUT SharedIo OBS ACC) (t : Tid) (s s' : State Tid W FUT SharedIo) : Prop :=
  ∃ r, Goes J s.machine (s.thread t) r ∧ s' = s.move t r.machine r.thread

theorem Proceeds.step {J : Jobs FUT SharedIo OBS ACC} {t : Tid} {s s' : State Tid W FUT SharedIo}
    (h : Proceeds J t s s') (poller : Tid) : ∃ e, Step J poller s (t,e) s' := by
  obtain ⟨r,hgoes,rfl⟩ := h
  refine ⟨r.event,?_,?_⟩
  · cases he : r.event with
    | called call => exact absurd he (hgoes.not_called call)
    | _ => rfl
  · cases hgoes with
    | go h => exact ⟨.go,by simp [next,h]⟩
    | drop h => exact ⟨.drop,by simp [next,h]⟩

theorem thread_proceeds {J : Jobs FUT SharedIo OBS ACC} {poller builder : Tid}
    {futures : Supported FUT} {io : SharedIo} {es : List (Tid × Event W OBS)}
    {s : State Tid W FUT SharedIo} (h : Run (Step J poller) (new futures io builder) es s) {t : Tid}
    (ht : s.thread t ≠ ⟨.idle,[]⟩) : (∃ s', Proceeds J t s s') ∨
      ∃ u s', u ≠ t ∧ (∃ call, s.thread t = ⟨.locking call,[]⟩) ∧ (s.thread u).pc.holds = true ∧
        Proceeds J u s s' := by
  have hs := sound_run h
  by_cases hwait : (∃ call, s.thread t = ⟨.locking call,[]⟩) ∧ s.machine.locked = true
  · obtain ⟨⟨call,hcall⟩,hl⟩ := hwait
    obtain ⟨u,hu⟩ := locked_run h hl
    have hnot : ∀ {pc : Pc W} {wakes}, s.thread u = ⟨pc,wakes⟩ → pc.holds = true := by
      intro pc wakes he
      rwa [he] at hu
    have hne : u ≠ t := by
      rintro rfl
      cases hnot hcall
    obtain ⟨r,hr⟩ := goes_of_sound (J := J) hs.supported (hs.held u)
      (fun hidle => by cases hnot hidle) (fun call' hlock => by cases hnot hlock)
    exact Or.inr ⟨u,_,hne,⟨call,hcall⟩,hu,r,hr,rfl⟩
  · obtain ⟨r,hr⟩ := goes_of_sound (J := J) hs.supported (hs.held t) ht fun call hcall => by
      by_contra hl
      exact hwait ⟨⟨call,hcall⟩,(Bool.not_eq_false _).mp hl⟩
    exact Or.inl ⟨_,r,hr,rfl⟩

/-- No deadlock and no panic: in every reachable state, a thread that has begun something can
go on, or it waits for the mutex and the thread inside, which is another one, can go on. -/
theorem no_thread_is_stuck (J : Jobs FUT SharedIo OBS ACC) (poller builder : Tid)
    (futures : Supported FUT) (io : SharedIo) (es : List (Tid × Event W OBS))
    (s : State Tid W FUT SharedIo) (h : Run (Step J poller) (new futures io builder) es s) (t : Tid)
    (ht : s.thread t ≠ ⟨.idle,[]⟩) : (∃ s', Proceeds J t s s') ∨
      ∃ u s', u ≠ t ∧ (∃ call, s.thread t = ⟨.locking call,[]⟩) ∧ (s.thread u).pc.holds = true ∧
        Proceeds J u s s' := thread_proceeds h ht

def waitingRun : State Bool Unit (List (Option (List Task))) Unit × List (Bool × Event Unit Unit) :=
  (exec scripts true (new restlessTasks () false) [(true,.call .lockRef)]).get (by decide +kernel)

theorem no_thread_is_stuck_waiting : (∃ s', Proceeds scripts true waitingRun.1 s') ∨
    ∃ u s', u ≠ true ∧ (∃ call, waitingRun.1.thread true = ⟨.locking call,[]⟩) ∧
      (waitingRun.1.thread u).pc.holds = true ∧ Proceeds scripts u waitingRun.1 s' :=
  no_thread_is_stuck scripts true false restlessTasks () waitingRun.2 waitingRun.1 (exec_get _) true
    (by decide +kernel)

/-- The tasks come to rest: an act that wakes somebody lowers `μ`, which nothing raises, and
between two such acts a poll acts only for so long as `ν` allows. -/
structure Settles (J : Jobs FUT SharedIo OBS ACC) (μ : (Task → Option FUT) → SharedIo → ℕ)
    (ν : FUT → SharedIo → ℕ) : Prop where
  act : ∀ n task fut io io' woken fut' obs, task n = some fut →
    J.resume n fut io = .act io' woken fut' obs →
    μ (Function.update task n (some fut')) io' < μ task io ∨
      woken = [] ∧ μ (Function.update task n (some fut')) io' ≤ μ task io ∧ ν fut' io' < ν fut io
  pending : ∀ n task fut io fut', task n = some fut → J.resume n fut io = .pending fut' →
    μ (Function.update task n (some fut')) io ≤ μ task io
  ready : ∀ n task fut io, task n = some fut → J.resume n fut io = .ready →
    μ (Function.update task n none) io ≤ μ task io

/-- How far a thread is from the end of its call, if no task is woken. -/
def cost (depth : ℕ) (mask : BitVec 32) : Pc W → ℕ
  | .idle => 0
  | .ready | .register _ => 1
  | .notify .isDone => 4
  | .notify _ => 2
  | .unlock _ _ => 3
  | .tick _ .compareExchange => if mask = ticking then 5 else 7
  | .tick _ .swap => 6
  | .tick _ (.running _ _ n) => 6 + 2 * (depth + 1 - n)
  | .tick _ (.polling _ _ n) => 7 + 2 * (depth + 1 - n)
  | .critical => 7
  | .locking _ => 8

/-- What a round costs for which there is a wake. -/
def round (depth : ℕ) (mask : BitVec 32) : ℕ :=
  if mask &&& 0x7FFFFFFF#32 = 0 then 0 else 9 + 2 * depth

/-- How long a running poll may go on. -/
def effort (ν : FUT → SharedIo → ℕ) (m : ProcMachineInner FUT SharedIo) : Pc W → ℕ
  | .tick _ (.running _ _ n) => (m.futures.fut n).elim 0 (ν · m.io)
  | _ => 0

/-- The steps of the calls of `wake` under way; a stale value costs a retry. -/
def weight (mask : BitVec 32) (wakes : List (Task × WakePc)) : ℕ :=
  (wakes.map fun c => match c.2 with
    | .load => 3
    | .compareExchange old => if mask = old then 2 else 4
    | .fire => 1).sum

section Rank

variable (μ : (Task → Option FUT) → SharedIo → ℕ) (ν : FUT → SharedIo → ℕ)

def rank [Fintype Tid] (s : State Tid W FUT SharedIo) : List ℕ :=
  let m := s.machine
  [μ (taskOf m.inner.futures) m.inner.io,
    ∑ t, (owed (s.thread t).wakes).length,
    round m.inner.futures.DEPTH m.wakeMask + ∑ t, cost m.inner.futures.DEPTH m.wakeMask (s.thread t).pc,
    ∑ t, effort ν m.inner (s.thread t).pc,
    ∑ t, weight m.wakeMask (s.thread t).wakes]

variable {μ ν}

theorem sum_move [Fintype Tid] {s : State Tid W FUT SharedIo} {t : Tid}
    {m : ProcMachineImpl W FUT SharedIo} (th : Thread W) {f g : Thread W → ℕ}
    (h : ∀ u, u ≠ t → g (s.thread u) = f (s.thread u)) :
    ∑ u, g ((s.move t m th).thread u) + f (s.thread t) = ∑ u, f (s.thread u) + g th :=
  sum_update h

theorem cost_eq {depth : ℕ} {mask mask' : BitVec 32} {pc : Pc W}
    (h : mask' = mask ∨ pc.holds = false) : cost depth mask' pc = cost depth mask pc := by
  rcases h with rfl | h
  · rfl
  · cases pc with
    | tick call pc => cases h
    | notify call => cases call <;> rfl
    | idle | locking | critical | unlock | register | ready => rfl

theorem cost_afterLock (depth : ℕ) (mask : BitVec 32) (call : Caller W) :
    cost depth mask (afterLock call) < 8 := by
  cases call <;> simp [afterLock,cost]

theorem cost_afterTick (depth : ℕ) (mask : BitVec 32) (call : Caller W) (done : Bool) :
    cost depth mask (afterTick call done) < 5 := by
  cases call <;> cases done <;> simp [afterTick,cost]

theorem cost_afterUnlock (depth : ℕ) (mask : BitVec 32) (call : Caller W) (done : Bool) :
    cost depth mask (afterUnlock call done) < 3 := by
  cases call <;> cases done <;> simp [afterUnlock,cost]

theorem cost_afterNotify (depth : ℕ) (mask : BitVec 32) (call : Caller W) :
    cost depth mask (afterNotify call) < cost depth mask (.notify call) := by
  cases call <;> simp [afterNotify,cost]

theorem round_ticking (depth : ℕ) : round depth ticking = 0 := if_pos (by decide)

theorem round_zero (depth : ℕ) : round depth 0 = 0 := if_pos (by decide)

/-- A round that has something to poll was paid for. -/
theorem round_claim {depth : ℕ} {alive wake : BitVec 32} (h : alive &&& wake &&& 0x7FFFFFFF#32 ≠ 0) :
    round depth wake = 9 + 2 * depth := by
  refine if_neg fun h0 => h ?_
  rw [BitVec.and_assoc,h0]
  exact BitVec.and_zero

theorem effort_eq {m m' : ProcMachineInner FUT SharedIo} {pc : Pc W} (h : m' = m ∨ pc.holds = false) :
    effort ν m' pc = effort ν m pc := by
  rcases h with rfl | h
  · rfl
  · cases pc with
    | tick call pc => cases h
    | idle | locking | critical | unlock | notify | register | ready => rfl

section Lowers

variable [Fintype Tid] {s : State Tid W FUT SharedIo} {t : Tid} {m : ProcMachineImpl W FUT SharedIo}
  {th : Thread W}

theorem lowers_acts (h : μ (taskOf m.inner.futures) m.inner.io <
    μ (taskOf s.machine.inner.futures) s.machine.inner.io) :
    Lowers (rank μ ν (s.move t m th)) (rank μ ν s) := .head h rfl

variable (hμ : μ (taskOf m.inner.futures) m.inner.io ≤
  μ (taskOf s.machine.inner.futures) s.machine.inner.io)

include hμ

theorem lowers_owed (h : (owed th.wakes).length < (owed (s.thread t).wakes).length) :
    Lowers (rank μ ν (s.move t m th)) (rank μ ν s) := by
  have hsum := sum_move (s := s) (t := t) (m := m) th
    (f := fun th => (owed th.wakes).length) (g := fun th => (owed th.wakes).length) fun _ _ => rfl
  exact .tail hμ (.head (by omega) rfl)

variable (howed : (owed th.wakes).length ≤ (owed (s.thread t).wakes).length)

include howed

theorem lowers_cost (hs : Sound s)
    (hmask : m.wakeMask = s.machine.wakeMask ∨ (s.thread t).pc.holds = true)
    (hd : m.inner.futures.DEPTH = s.machine.inner.futures.DEPTH)
    (h : round s.machine.inner.futures.DEPTH m.wakeMask +
        cost s.machine.inner.futures.DEPTH m.wakeMask th.pc <
      round s.machine.inner.futures.DEPTH s.machine.wakeMask +
        cost s.machine.inner.futures.DEPTH s.machine.wakeMask (s.thread t).pc) :
    Lowers (rank μ ν (s.move t m th)) (rank μ ν s) := by
  have hsum := sum_move (s := s) (t := t) (m := m) th
    (f := fun th => (owed th.wakes).length) (g := fun th => (owed th.wakes).length) fun _ _ => rfl
  have hcost := sum_move (s := s) (t := t) (m := m) th
    (f := fun th => cost s.machine.inner.futures.DEPTH s.machine.wakeMask th.pc)
    (g := fun th => cost s.machine.inner.futures.DEPTH m.wakeMask th.pc) fun u hu => by
      refine cost_eq (hmask.imp id fun hold => ?_)
      by_contra hu'
      exact hu (hs.exclusive u t ((Bool.not_eq_false _).mp hu') hold)
  refine .tail hμ (.tail (by omega) (.head ?_ rfl))
  rw [State.move_machine,hd]
  omega

variable (hmask : m.wakeMask = s.machine.wakeMask)
  (hcost : cost s.machine.inner.futures.DEPTH s.machine.wakeMask th.pc ≤
    cost s.machine.inner.futures.DEPTH s.machine.wakeMask (s.thread t).pc)
  (hd : m.inner.futures.DEPTH = s.machine.inner.futures.DEPTH)

include hmask hcost hd

theorem lowers_effort (hs : Sound s) (hold : (s.thread t).pc.holds = true)
    (h : effort ν m.inner th.pc < effort ν s.machine.inner (s.thread t).pc) :
    Lowers (rank μ ν (s.move t m th)) (rank μ ν s) := by
  have hsum := sum_move (s := s) (t := t) (m := m) th
    (f := fun th => (owed th.wakes).length) (g := fun th => (owed th.wakes).length) fun _ _ => rfl
  have hsum' := sum_move (s := s) (t := t) (m := m) th
    (f := fun th => cost s.machine.inner.futures.DEPTH s.machine.wakeMask th.pc)
    (g := fun th => cost s.machine.inner.futures.DEPTH s.machine.wakeMask th.pc) fun _ _ => rfl
  have heffort := sum_move (s := s) (t := t) (m := m) th
    (f := fun th => effort ν s.machine.inner th.pc) (g := fun th => effort ν m.inner th.pc)
    fun u hu => by
      refine effort_eq (Or.inr ?_)
      by_contra hu'
      exact hu (hs.exclusive u t ((Bool.not_eq_false _).mp hu') hold)
  refine .tail hμ (.tail (by omega) (.tail ?_ (.head ?_ rfl)))
  · rw [State.move_machine,hd,hmask]
    omega
  · rw [State.move_machine]
    omega

theorem lowers_weight (hi : m.inner = s.machine.inner)
    (heffort : effort ν s.machine.inner th.pc ≤ effort ν s.machine.inner (s.thread t).pc)
    (h : weight s.machine.wakeMask th.wakes < weight s.machine.wakeMask (s.thread t).wakes) :
    Lowers (rank μ ν (s.move t m th)) (rank μ ν s) := by
  have hsum := sum_move (s := s) (t := t) (m := m) th
    (f := fun th => (owed th.wakes).length) (g := fun th => (owed th.wakes).length) fun _ _ => rfl
  have hsum' := sum_move (s := s) (t := t) (m := m) th
    (f := fun th => cost s.machine.inner.futures.DEPTH s.machine.wakeMask th.pc)
    (g := fun th => cost s.machine.inner.futures.DEPTH s.machine.wakeMask th.pc) fun _ _ => rfl
  have heff := sum_move (s := s) (t := t) (m := m) th
    (f := fun th => effort ν s.machine.inner th.pc)
    (g := fun th => effort ν s.machine.inner th.pc) fun _ _ => rfl
  have hweight := sum_move (s := s) (t := t) (m := m) th
    (f := fun th => weight s.machine.wakeMask th.wakes)
    (g := fun th => weight s.machine.wakeMask th.wakes) fun _ _ => rfl
  refine .tail hμ (.tail (by omega) (.tail ?_ (.tail ?_ (.head ?_ rfl))))
  · rw [State.move_machine,hd,hmask]
    omega
  · rw [State.move_machine,hi]
    omega
  · rw [State.move_machine,hmask]
    omega

end Lowers

/-- Whatever a thread goes on with lowers the rank. -/
theorem Goes.lowers [Fintype Tid] {J : Jobs FUT SharedIo OBS ACC} (hJ : Settles J μ ν)
    {s : State Tid W FUT SharedIo} (hs : Sound s) {t : Tid} {r : Next W FUT SharedIo OBS}
    (h : Goes J s.machine (s.thread t) r) :
    Lowers (rank μ ν (s.move t r.machine r.thread)) (rank μ ν s) := by
  have hstep := h.steps
  have hd := hstep.depth
  generalize hth : s.thread t = old at h hstep
  have howed : owed (s.thread t).wakes = owed old.wakes := by rw [hth]
  have hpc : (s.thread t).pc = old.pc := by rw [hth]
  generalize he : r.event = e at hstep
  generalize hm : r.machine = m at hstep hd
  generalize hth' : r.thread = th at hstep
  cases hstep with
  | wakeFound pc n rest | wakeOutside pc n rest | wakeInside pc n rest =>
    refine lowers_owed le_rfl ?_
    rw [howed]
    exact Nat.lt_succ_self _
  | wakeLoad pc n rest hfound =>
    refine lowers_weight le_rfl (by rw [howed]; rfl) rfl (by rw [hpc]) hd rfl (by rw [hpc]) ?_
    rw [hth]
    simp [weight]
  | wakeRetry pc n rest old hstale =>
    refine lowers_weight le_rfl (by rw [howed]; rfl) rfl (by rw [hpc]) hd rfl (by rw [hpc]) ?_
    rw [hth]
    simp [weight,hstale]
  | wakeFire pc n rest =>
    refine lowers_weight le_rfl (by rw [howed]; rfl) rfl (by rw [hpc]) hd rfl (by rw [hpc]) ?_
    rw [hth]
    simp [weight]
  | wake n => exact h.not_idle.elim
  | call call hcall => exact h.not_idle.elim
  | lock call hl =>
    refine lowers_cost le_rfl (by rw [howed]) hs (Or.inl rfl) hd ?_
    rw [hpc]
    exact Nat.add_lt_add_left (cost_afterLock _ _ call) _
  | access acc =>
    have hleft := h.left_critical
    rw [hth'] at hleft
    cases hleft
  | drop =>
    refine lowers_cost le_rfl (by rw [howed]) hs (Or.inl rfl) hd ?_
    rw [hpc]
    simp [cost]
  | claim call hmask =>
    refine lowers_cost le_rfl (by rw [howed]) hs (Or.inr (by rw [hpc]; rfl)) hd ?_
    rw [hpc,round_ticking,round_claim hmask]
    simp only [cost]
    omega
  | claimNone call hmask =>
    refine lowers_cost le_rfl (by rw [howed]) hs (Or.inr (by rw [hpc]; rfl)) hd ?_
    rw [hpc,round_ticking]
    simp only [cost,if_true]
    omega
  | pollEnd call mask result n hn =>
    refine lowers_cost le_rfl (by rw [howed]) hs (Or.inl rfl) hd ?_
    rw [hpc]
    simp only [cost]
    omega
  | pollNone call mask result n hn =>
    have hle := h.le_DEPTH (by rw [hth']; simp)
    refine lowers_cost le_rfl (by rw [howed]) hs (Or.inl rfl) hd ?_
    rw [hpc]
    simp only [cost]
    omega
  | pollSkip call mask result n hfut hskip =>
    have hle := h.le_DEPTH (by rw [hth']; simp)
    refine lowers_cost le_rfl (by rw [howed]) hs (Or.inl rfl) hd ?_
    rw [hpc]
    simp only [cost]
    omega
  | poll call mask result n hfut hdue =>
    refine lowers_cost le_rfl (by rw [howed]) hs (Or.inl rfl) hd ?_
    rw [hpc]
    simp only [cost]
    omega
  | taskAct call mask result n hfut hres =>
    have hsome : (s.machine.inner.futures.fut n).isSome := by rw [hfut]; rfl
    rcases hJ.act n (taskOf s.machine.inner.futures) _ _ _ _ _ _ hfut hres with hlt | ⟨rfl,hle,hlt⟩
    · rw [← taskOf_setFut _ hsome] at hlt
      exact lowers_acts hlt
    · rw [← taskOf_setFut _ hsome] at hle
      refine lowers_effort hle (by rw [howed]; rfl) rfl (by rw [hpc]) hd hs (by rw [hpc]; rfl) ?_
      rw [hpc]
      simp only [effort,hfut,ProcMachineFutures.fut_setFut_self _ _ hsome]
      exact hlt
  | taskPending call mask result n hfut hres =>
    have hsome : (s.machine.inner.futures.fut n).isSome := by rw [hfut]; rfl
    have hle := hJ.pending n (taskOf s.machine.inner.futures) _ _ _ hfut hres
    rw [← taskOf_setFut _ hsome] at hle
    have hn := le_DEPTH_of_fut hsome
    refine lowers_cost hle (by rw [howed]) hs (Or.inl rfl) hd ?_
    rw [hpc]
    simp only [cost]
    omega
  | taskReady call mask result n hfut hres =>
    have hsome : (s.machine.inner.futures.fut n).isSome := by rw [hfut]; rfl
    have hle := hJ.ready n (taskOf s.machine.inner.futures) _ _ hfut hres
    rw [← taskOf_setFut _ hsome] at hle
    have hn := le_DEPTH_of_fut hsome
    refine lowers_cost hle (by rw [howed]) hs (Or.inl rfl) hd ?_
    rw [hpc]
    simp only [cost]
    omega
  | tickEnd call hmask =>
    have hcost := cost_afterTick (W := W) s.machine.inner.futures.DEPTH 0 call
      (decide (s.machine.inner.aliveMask = 0))
    refine lowers_cost le_rfl (by rw [howed]) hs (Or.inr (by rw [hpc]; rfl)) hd ?_
    have hold : cost (W := W) s.machine.inner.futures.DEPTH s.machine.wakeMask
        (.tick call .compareExchange) = 5 := if_pos hmask
    rw [hpc,round_zero,hold,Nat.zero_add]
    exact Nat.lt_add_left _ hcost
  | tickAgain call =>
    refine lowers_cost le_rfl (by rw [howed]) hs (Or.inl rfl) hd ?_
    rw [hpc]
    simp only [cost,if_neg (h.not_ticking he)]
    omega
  | unlock call done =>
    refine lowers_cost le_rfl (by rw [howed]) hs (Or.inl rfl) hd ?_
    rw [hpc]
    exact Nat.add_lt_add_left (cost_afterUnlock _ _ call done) _
  | notify call =>
    refine lowers_cost le_rfl (by rw [howed]) hs (Or.inl rfl) hd ?_
    rw [hpc]
    exact Nat.add_lt_add_left (cost_afterNotify _ _ call) _
  | register cx | ready =>
    refine lowers_cost le_rfl (by rw [howed]) hs (Or.inl rfl) hd ?_
    rw [hpc]
    exact Nat.add_lt_add_left Nat.zero_lt_one _

end Rank

/-- Some thread goes on with what it has begun. That the runs of these steps leave out the spurious
failures says of the hardware that it fails a `compare_exchange_weak` only finitely often. -/
def Runs (J : Jobs FUT SharedIo OBS ACC) (s s' : State Tid W FUT SharedIo) : Prop :=
  ∃ t, Proceeds J t s s'

theorem run_of_runs {J : Jobs FUT SharedIo OBS ACC} {poller : Tid} {s s' : State Tid W FUT SharedIo}
    (h : Relation.ReflTransGen (Runs J) s s') : ∃ es, Run (Step J poller) s es s' := by
  induction h with
  | refl => exact ⟨[],Run.refl s⟩
  | tail _ hk ih =>
    obtain ⟨es,hes⟩ := ih
    obtain ⟨t,hproceeds⟩ := hk
    obtain ⟨e,hstep⟩ := hproceeds.step poller
    exact ⟨_,Run.snoc hes hstep⟩

/-- No livelock either: if the tasks come to rest and `compare_exchange_weak` fails spuriously only
finitely often, then from every reachable state the threads cannot go on for ever with what they
have begun, whatever the schedule, and when none of them can go on any more all their calls have
returned. -/
theorem threads_come_to_rest [Fintype Tid] (J : Jobs FUT SharedIo OBS ACC)
    (μ : (Task → Option FUT) → SharedIo → ℕ) (ν : FUT → SharedIo → ℕ) (hJ : Settles J μ ν)
    (poller builder : Tid) (futures : Supported FUT) (io : SharedIo)
    (es : List (Tid × Event W OBS)) (s : State Tid W FUT SharedIo)
    (h : Run (Step J poller) (new futures io builder) es s) :
    Acc (fun s' s => Runs J s s') s ∧
      ∀ s', Relation.ReflTransGen (Runs J) s s' → (∀ s'', ¬ Runs J s' s'') →
        ∀ t, s'.thread t = ⟨.idle,[]⟩ := by
  constructor
  · refine acc_of_lowers (I := Sound) (rank μ ν) ?_ (sound_run h)
    rintro s s' hs ⟨t,hproceeds⟩
    obtain ⟨e,hstep⟩ := hproceeds.step poller
    obtain ⟨r,hgoes,rfl⟩ := hproceeds
    exact ⟨hs.next hstep,hgoes.lowers hJ hs⟩
  · intro s' hreach hend t
    obtain ⟨fs,hfs⟩ := run_of_runs hreach
    by_contra hidle
    rcases thread_proceeds (h.trans hfs) hidle with ⟨s'',hs⟩ | ⟨u,s'',-,-,-,hs⟩
    · exact hend s'' ⟨t,hs⟩
    · exact hend s'' ⟨u,hs⟩

theorem settles_scripts : Settles scripts
    (fun task _ => ∑ n, (task n).elim 0 List.length) (fun _ _ => 0) where
  act n task fut io io' woken fut' obs htask hres := by
    have hsum := sum_update (a := task) (n := n) (x := some fut')
      (f := fun o => o.elim 0 List.length) (g := fun o => o.elim 0 List.length) fun _ _ => rfl
    rw [htask] at hsum
    refine Or.inl ?_
    rcases fut with _ | ⟨_ | _,rest⟩ <;> cases hres
    simp only [Option.elim_some,List.length_cons] at hsum
    omega
  pending n task fut io fut' htask hres := by
    have hsum := sum_update (a := task) (n := n) (x := some fut')
      (f := fun o => o.elim 0 List.length) (g := fun o => o.elim 0 List.length) fun _ _ => rfl
    rw [htask] at hsum
    rcases fut with _ | ⟨_ | _,rest⟩ <;> cases hres
    simp only [Option.elim_some,List.length_cons] at hsum
    omega
  ready n task fut io htask hres := by
    have hsum := sum_update (a := task) (n := n) (x := none)
      (f := fun o => o.elim 0 List.length) (g := fun o => o.elim 0 List.length) fun _ _ => rfl
    simp only [Option.elim_none] at hsum
    omega

/-- The tick in which a task has woken itself. -/
theorem threads_come_to_rest_restless : Acc (fun s' s => Runs scripts s s') restlessRun.1 :=
  (threads_come_to_rest scripts _ _ settles_scripts true false restlessTasks () restlessRun.2
    restlessRun.1 (exec_get _)).1

end ProcMachine
end ProcMachines
