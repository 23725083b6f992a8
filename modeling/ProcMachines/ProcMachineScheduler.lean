import ProcMachines.ProcMachineSteps
import ProcMachines.Scheduler

/-! The machine of masks and atomic operations is a scheduler of cooperative tasks: every run
of it shows what a run of the scheduler shows. -/
namespace ProcMachines
namespace ProcMachine

open Transition Scheduler

variable {W FUT SharedIo OBS ACC Tid : Type}

/-- The code of a machine's tasks as a scheduler's program. -/
def Jobs.program (J : Jobs FUT SharedIo OBS ACC) : Program Task FUT SharedIo OBS ACC where
  resume n fut io :=
    match J.resume n fut io with
    | .act io woken fut obs => .act io woken fut obs
    | .pending fut => .suspend fut
    | .ready => .finish
  access := J.access

section Resume

variable {J : Jobs FUT SharedIo OBS ACC} {n : Task} {fut fut' : FUT} {io io' : SharedIo}

theorem resume_act {woken : List Task} {obs : OBS}
    (h : J.program.resume n fut io = .act io' woken fut' obs) :
    J.resume n fut io = .act io' woken fut' obs := by
  simp only [Jobs.program] at h
  cases hres : J.resume n fut io with
  | act =>
    rw [hres] at h
    cases h
    rfl
  | pending | ready =>
    rw [hres] at h
    cases h

theorem resume_suspend (h : J.program.resume n fut io = .suspend fut') :
    J.resume n fut io = .pending fut' := by
  simp only [Jobs.program] at h
  cases hres : J.resume n fut io with
  | pending =>
    rw [hres] at h
    cases h
    rfl
  | act | ready =>
    rw [hres] at h
    cases h

theorem resume_finish (h : J.program.resume n fut io = .finish) : J.resume n fut io = .ready := by
  simp only [Jobs.program] at h
  cases hres : J.resume n fut io with
  | ready => rfl
  | act | pending =>
    rw [hres] at h
    cases h

end Resume

/-- What of a step a scheduler shows. -/
def Event.shown : Event W OBS → Option (Scheduler.Event Task OBS)
  | .woke n => some (.wake n)
  | .polled n => some (.poll n)
  | .acted n obs => some (.act n obs)
  | .ticked done => some (.tick done)
  | _ => none

def shows (e : Tid × Event W OBS) : List (Tid × Scheduler.Event Task OBS) := view (e.1,e.2.shown)

theorem shows_split {t : Tid} {e : Event W OBS} {f : Scheduler.Event Task OBS}
    (h : e.shown = some f) (pre post : List (Tid × Event W OBS)) :
    (pre ++ (t,e) :: post).flatMap shows = pre.flatMap shows ++ (t,f) :: post.flatMap shows := by
  rw [List.flatMap_append,List.flatMap_cons,shows,h]
  rfl

/-- The wakes of a queue that have not taken effect. -/
def owed (wakes : List (Task × WakePc)) : List Task :=
  wakes.filterMap fun c => match c.2 with
    | .fire => none
    | _ => some c.1

@[simp] theorem owed_nil : owed [] = [] := rfl

@[simp] theorem owed_load (n : Task) (rest : List (Task × WakePc)) :
    owed ((n,.load) :: rest) = n :: owed rest := rfl

@[simp] theorem owed_compareExchange (n : Task) (old : BitVec 32) (rest : List (Task × WakePc)) :
    owed ((n,.compareExchange old) :: rest) = n :: owed rest := rfl

@[simp] theorem owed_fire (n : Task) (rest : List (Task × WakePc)) :
    owed ((n,.fire) :: rest) = owed rest := rfl

@[simp] theorem owed_calls (woken : List Task) : owed (calls woken) = woken := by
  induction woken with
  | nil => rfl
  | cons n woken ih => exact congrArg (n :: ·) ih

/-- The tasks from a layer on that the claimed mask and the chain say are to be polled. -/
def toPoll (futures : ProcMachineFutures FUT) (mask : BitVec 32) (n : ℕ) : Set Task :=
  {k | n ≤ (k : ℕ) ∧ mask.getLsbD k = true ∧ (futures.fut k).isSome}

def marked (mask : BitVec 32) : Set Task := {k | mask.getLsbD k = true}

@[simp] theorem marked_zero : marked 0 = ∅ := by
  ext k
  simp [marked]

@[simp] theorem marked_ticking : marked ticking = ∅ := by
  ext k
  have hk : (k : ℕ) ≠ 31 := by omega
  simp [marked,hk]

@[simp] theorem marked_or_bit (mask : BitVec 32) (n : Task) :
    marked (mask ||| bit n) = insert n (marked mask) := by
  ext k
  have hk : (k : ℕ) < 32 := by omega
  simp only [marked,Set.mem_ofPred_eq,Set.mem_insert_iff,BitVec.getLsbD_or,getLsbD_bit,
    Bool.or_eq_true,Bool.and_eq_true,decide_eq_true_eq,hk,true_and,Fin.ext_iff]
  rw [or_comm,eq_comm]

def taskOf (futures : ProcMachineFutures FUT) : Task → Option FUT := fun n => futures.fut n

theorem taskOf_setFut {futures : ProcMachineFutures FUT} {n : Task} (g : Option FUT)
    (h : (futures.fut n).isSome) :
    taskOf (futures.setFut n g) = Function.update (taskOf futures) n g := by
  funext k
  by_cases hk : k = n
  · subst hk
    rw [Function.update_self]
    exact futures.fut_setFut_self g h
  · rw [Function.update_of_ne hk]
    exact futures.fut_setFut_ne g (Fin.val_ne_of_ne hk)

/-- Where a thread is, in the scheduler's terms; outside the mutex it is nowhere. -/
def phase (futures : ProcMachineFutures FUT) (wakes : List (Task × WakePc)) :
    Pc W → Option (Phase Task)
  | .critical => some (.critical (owed wakes))
  | .tick _ .swap => some .between
  | .tick _ .compareExchange => some .between
  | .tick _ (.polling mask _ n) => some (.round (toPoll futures mask n))
  | .tick _ (.running mask _ n) => some (.running (toPoll futures mask (n+1)) n (owed wakes))
  | .unlock _ _ => some .leaving
  | .notify .isDone => some .leaving
  | _ => none

def Thread.phase (futures : ProcMachineFutures FUT) (th : Thread W) : Option (Phase Task) :=
  ProcMachine.phase futures th.wakes th.pc

/-- The control points at which calls of `wake` may be under way. -/
def Pc.wakes : Pc W → Bool
  | .idle | .critical | .tick _ (.running _ _ _) => true
  | _ => false

theorem phase_isSome (futures : ProcMachineFutures FUT) (wakes : List (Task × WakePc)) (pc : Pc W) :
    (phase futures wakes pc).isSome = pc.holds := by
  rcases pc with _ | _ | _ | ⟨_,_ | _ | _ | _⟩ | _ | ⟨_ | _ | _ | _⟩ | _ | _ <;> rfl

theorem holds_of_phase {futures : ProcMachineFutures FUT} {wakes : List (Task × WakePc)} {pc : Pc W}
    {ph : Phase Task} (h : phase futures wakes pc = some ph) : pc.holds = true := by
  rw [← phase_isSome futures wakes,h]
  rfl

theorem phase_afterLock (futures : ProcMachineFutures FUT) (call : Caller W) :
    ∃ ph, phase futures [] (afterLock call) = some ph ∧ (ph = .critical [] ∨ ph = .between) := by
  cases call with
  | lockRef => exact ⟨_,rfl,Or.inl rfl⟩
  | new | isDone | externalPoll => exact ⟨_,rfl,Or.inr rfl⟩

theorem phase_afterTick (futures : ProcMachineFutures FUT) (call : Caller W) (done : Bool) :
    phase futures [] (afterTick call done) = some .leaving := by
  cases call <;> cases done <;> rfl

section ToPoll

variable {futures futures' : ProcMachineFutures FUT} {mask : BitVec 32} {n : ℕ}

theorem one_le_of_isSome {k : Task} (h : (taskOf futures k).isSome) : 1 ≤ (k : ℕ) := by
  by_contra h0
  have h0 : (k : ℕ) = 0 := by omega
  rw [taskOf,h0,ProcMachineFutures.fut_zero] at h
  cases h

theorem toPoll_succ (h : ¬ (mask.getLsbD n = true ∧ (futures.fut n).isSome)) :
    toPoll futures mask (n+1) = toPoll futures mask n := by
  ext k
  constructor
  · exact fun hk => ⟨Nat.le_of_succ_le hk.1,hk.2⟩
  · rintro ⟨hle,hk⟩
    refine ⟨Nat.lt_of_le_of_ne hle ?_,hk⟩
    rintro rfl
    exact h hk

theorem toPoll_setFut (g : Option FUT) :
    toPoll (futures.setFut n g) mask (n+1) = toPoll futures mask (n+1) := by
  ext k
  have hfut : n + 1 ≤ k → (futures.setFut n g).fut k = futures.fut k := fun hle =>
    futures.fut_setFut_ne g (by omega)
  constructor
  · rintro ⟨hle,hk⟩
    rw [hfut hle] at hk
    exact ⟨hle,hk⟩
  · rintro ⟨hle,hk⟩
    rw [← hfut hle] at hk
    exact ⟨hle,hk⟩

theorem toPoll_diff (k : Task) :
    toPoll futures mask k \ {k} = toPoll futures mask (k+1) := by
  ext i
  constructor
  · rintro ⟨⟨hle,hi⟩,hne⟩
    exact ⟨lt_of_le_of_ne hle fun heq => hne (Fin.ext heq.symm),hi⟩
  · rintro ⟨hlt,hi⟩
    refine ⟨⟨Nat.le_of_succ_le hlt,hi⟩,?_⟩
    rintro rfl
    exact absurd hlt (Nat.lt_irrefl _)

/-- A tick claims the woken tasks that are not finished. -/
theorem toPoll_mask {alive wake : BitVec 32} (h : ∀ i, alive.getLsbD i = (futures.fut i).isSome) :
    toPoll futures (alive &&& wake &&& 0x7FFFFFFF#32) 1 =
      {k ∈ marked wake | (taskOf futures k).isSome} := by
  ext k
  have hk : (alive &&& wake &&& 0x7FFFFFFF#32).getLsbD k =
      ((futures.fut k).isSome && wake.getLsbD k) := by
    rw [getLsbD_claimed _ _ k.2,h]
  constructor
  · rintro ⟨-,hbit,hfut⟩
    rw [hk,hfut,Bool.true_and] at hbit
    exact ⟨hbit,hfut⟩
  · rintro ⟨hbit,hfut⟩
    exact ⟨one_le_of_isSome hfut,hk.trans (Bool.and_eq_true_iff.mpr ⟨hfut,hbit⟩),hfut⟩

theorem toPoll_eq_empty (h : futures.DEPTH < n) : toPoll futures mask n = ∅ := by
  ext k
  simp only [toPoll,Set.mem_ofPred_eq,Set.mem_empty_iff_false,iff_false]
  rintro ⟨hle,-,hk⟩
  rw [ProcMachineFutures.fut_of_DEPTH_lt (by omega)] at hk
  cases hk

theorem toPoll_all : toPoll futures 0xFFFFFFFF#32 1 = {k | (taskOf futures k).isSome} := by
  ext k
  have hbit : ∀ k : Task, (0xFFFFFFFF#32).getLsbD k = true := by decide
  constructor
  · exact fun hk => hk.2.2
  · exact fun hk => ⟨one_le_of_isSome hk,hbit k,hk⟩

theorem alive_eq_zero_iff {alive : BitVec 32} (hd : futures.DEPTH ≤ 30)
    (h : ∀ i, alive.getLsbD i = (futures.fut i).isSome) :
    alive = 0 ↔ ∀ n, taskOf futures n = none := by
  constructor
  · intro h0 n
    have hn : false = (taskOf futures n).isSome := by
      rw [taskOf,← h n,h0]
      simp
    exact Option.not_isSome_iff_eq_none.mp (by rw [← hn]; exact Bool.false_ne_true)
  · intro hnone
    apply BitVec.eq_of_getLsbD_eq
    intro i hi
    have hi' : futures.fut i = none := by
      by_cases h31 : i < 31
      · exact hnone ⟨i,h31⟩
      · exact ProcMachineFutures.fut_of_DEPTH_lt (by omega)
    rw [h i,hi']
    simp

end ToPoll

variable [DecidableEq Tid]

/-- The scheduler's state that a state of the machine stands for. -/
structure Abstracts (s : State Tid W FUT SharedIo) (a : Scheduler.State Tid Task FUT SharedIo) :
    Prop where
  sound : Sound s
  task : a.task = taskOf s.machine.inner.futures
  io : a.io = s.machine.inner.io
  pending : a.pending = marked s.machine.wakeMask
  holder : ∀ t ph, a.holder = some (t,ph) ↔ (s.thread t).phase s.machine.inner.futures = some ph
  settled : ∀ t, (s.thread t).wakes ≠ [] → (s.thread t).pc.wakes = true

section Matched

variable {J : Jobs FUT SharedIo OBS ACC} {s : State Tid W FUT SharedIo}
  {a : Scheduler.State Tid Task FUT SharedIo} {t : Tid} {m m' : ProcMachineImpl W FUT SharedIo}
  {th th' : Thread W} {e : Event W OBS}

theorem Steps.settled (h : Steps J m th e m' th') (hs : th.wakes ≠ [] → th.pc.wakes = true) :
    th'.wakes ≠ [] → th'.pc.wakes = true := by
  cases h with
  | wakeFound pc n rest | wakeLoad pc n rest | wakeOutside pc n rest | wakeInside pc n rest
  | wakeRetry pc n rest | wakeFire pc n rest => exact fun _ => hs (by simp)
  | wake | access | taskAct => exact fun _ => rfl
  | _ => exact fun h => absurd rfl h

theorem Abstracts.inside (h : Abstracts s a) (hs : Sound (s.move t m' th'))
    (hw : th'.wakes ≠ [] → th'.pc.wakes = true) {ph : Phase Task}
    (hph : th'.phase m'.inner.futures = some ph) :
    Abstracts (s.move t m' th') ⟨taskOf m'.inner.futures,m'.inner.io,
      marked m'.wakeMask,some (t,ph)⟩ where
  sound := hs
  task := rfl
  io := rfl
  pending := rfl
  holder u ph' := by
    rw [State.move_machine]
    constructor
    · intro hu
      cases hu
      rw [State.move_self]
      exact hph
    · intro hu
      have hut : u = t := by
        refine hs.exclusive u t (holds_of_phase hu) ?_
        rw [State.move_self]
        exact holds_of_phase hph
      subst hut
      rw [State.move_self,hph] at hu
      cases hu
      rfl
  settled := State.move_all (fun _ th => th.wakes ≠ [] → th.pc.wakes = true) hw
    fun u _ => h.settled u

theorem Abstracts.outside (h : Abstracts s a) (hs : Sound (s.move t m' th'))
    (hw : th'.wakes ≠ [] → th'.pc.wakes = true) (hold : (s.thread t).pc.holds = true)
    (hth : th'.pc.holds = false) :
    Abstracts (s.move t m' th') ⟨taskOf m'.inner.futures,m'.inner.io,
      marked m'.wakeMask,none⟩ where
  sound := hs
  task := rfl
  io := rfl
  pending := rfl
  holder u ph := by
    constructor
    · intro hu
      cases hu
    · intro hu
      have hut : u = t := by
        by_contra hne
        have hu' := holds_of_phase hu
        rw [State.move_other _ _ _ _ hne] at hu'
        exact hne (h.sound.exclusive u t hu' hold)
      subst hut
      have hu' := holds_of_phase hu
      rw [State.move_self,hth] at hu'
      cases hu'
  settled := State.move_all (fun _ th => th.wakes ≠ [] → th.pc.wakes = true) hw
    fun u _ => h.settled u

theorem Abstracts.stay (h : Abstracts s a) (hs : Sound (s.move t m' th'))
    (hw : th'.wakes ≠ [] → th'.pc.wakes = true) (hi : m'.inner = s.machine.inner)
    (hph : th'.phase s.machine.inner.futures = (s.thread t).phase s.machine.inner.futures) :
    Abstracts (s.move t m' th') { a with pending := marked m'.wakeMask } where
  sound := hs
  task := by
    rw [State.move_machine,hi]
    exact h.task
  io := by
    rw [State.move_machine,hi]
    exact h.io
  pending := rfl
  holder u ph := by
    rw [State.move_machine,hi]
    by_cases hut : u = t
    · subst hut
      rw [State.move_self,hph]
      exact h.holder u ph
    · rw [State.move_other _ _ _ _ hut]
      exact h.holder u ph
  settled := State.move_all (fun _ th => th.wakes ≠ [] → th.pc.wakes = true) hw
    fun u _ => h.settled u

theorem Abstracts.silent (h : Abstracts s a) (hs : Sound (s.move t m' th'))
    (hw : th'.wakes ≠ [] → th'.pc.wakes = true) (hi : m'.inner = s.machine.inner)
    (hm : m'.wakeMask = s.machine.wakeMask)
    (hph : th'.phase s.machine.inner.futures = (s.thread t).phase s.machine.inner.futures) :
    Abstracts (s.move t m' th') a := by
  have hstay := h.stay hs hw hi hph
  rwa [hm,← h.pending] at hstay

omit [DecidableEq Tid] in
theorem Abstracts.eq (h : Abstracts s a) {ph : Phase Task}
    (hph : (s.thread t).phase s.machine.inner.futures = some ph) :
    a = ⟨taskOf s.machine.inner.futures,s.machine.inner.io,marked s.machine.wakeMask,
      some (t,ph)⟩ := by
  rcases a with ⟨task,io,pending,holder⟩
  have hholder := (h.holder t ph).mpr hph
  cases h.task
  cases h.io
  cases h.pending
  cases hholder
  rfl

theorem Abstracts.wake (h : Abstracts s a) {pc : Pc W} {n : Task} {w : WakePc}
    {rest rest' : List (Task × WakePc)} (hth : s.thread t = ⟨pc,(n,w) :: rest⟩) (hw : w ≠ .fire)
    (hs : Sound (s.move t m' ⟨pc,rest'⟩)) (hrest : owed rest' = owed rest)
    (hi : m'.inner = s.machine.inner) (hm : m'.wakeMask = s.machine.wakeMask ||| bit n) :
    ∃ a', Scheduler.Step J.program a (t,some (.wake n)) a' ∧
      Abstracts (s.move t m' ⟨pc,rest'⟩) a' := by
  have hpc : pc.wakes = true := by
    have hpc := h.settled t (by rw [hth]; simp)
    rwa [hth] at hpc
  have howed : owed ((n,w) :: rest) = n :: owed rest := by
    cases w with
    | load | compareExchange => rfl
    | fire => exact absurd rfl hw
  have hmarked : marked m'.wakeMask = insert n (marked s.machine.wakeMask) := by
    rw [hm,marked_or_bit]
  cases pc with
  | idle =>
    have hstay := h.stay hs (fun _ => hpc) hi (by rw [hth]; rfl)
    rw [hmarked,← h.pending] at hstay
    refine ⟨_,.wakeOutside a t n fun ph hph => ?_,hstay⟩
    have hno := (h.holder t ph).mp hph
    rw [hth] at hno
    cases hno
  | critical =>
    have hph : (s.thread t).phase s.machine.inner.futures = some (.critical (n :: owed rest)) := by
      rw [hth,← howed]
      rfl
    rw [h.eq hph]
    refine ⟨_,.wakeCritical _ t n (owed rest) rfl,?_⟩
    have hin := h.inside hs (fun _ => hpc)
      (show _ = some (.critical (owed rest)) by rw [← hrest]; rfl)
    rwa [hmarked,hi] at hin
  | tick call pc =>
    cases pc with
    | running mask result k =>
      have hph : (s.thread t).phase s.machine.inner.futures = some (.running
          (toPoll s.machine.inner.futures mask (k+1)) k (n :: owed rest)) := by
        rw [hth,← howed]
        rfl
      rw [h.eq hph]
      refine ⟨_,.wakeRunning _ t _ k n (owed rest) rfl,?_⟩
      have hin := h.inside hs (fun _ => hpc) (show _ = some (.running
        (toPoll s.machine.inner.futures mask (k+1)) k (owed rest)) by rw [← hrest,← hi]; rfl)
      rwa [hmarked,hi] at hin
    | swap | polling | compareExchange => cases hpc
  | locking | unlock | notify | register | ready => cases hpc

omit [DecidableEq Tid] in
theorem Abstracts.eq_free (h : Abstracts s a) (hl : s.machine.locked = false) :
    a = ⟨taskOf s.machine.inner.futures,s.machine.inner.io,marked s.machine.wakeMask,none⟩ := by
  rcases a with ⟨task,io,pending,_ | ⟨u,ph⟩⟩
  · cases h.task
    cases h.io
    cases h.pending
    rfl
  · have hholds := holds_of_phase ((h.holder u ph).mp rfl)
    rw [h.sound.locked u hholds] at hl
    cases hl

/-- What the scheduler does for a step of the machine. -/
def Matched (J : Jobs FUT SharedIo OBS ACC) (a : Scheduler.State Tid Task FUT SharedIo)
    (shown : List (Tid × Scheduler.Event Task OBS)) (s' : State Tid W FUT SharedIo) : Prop :=
  ∃ fs a', Run (Scheduler.Step J.program) a fs a' ∧ fs.flatMap view = shown ∧ Abstracts s' a'

omit [DecidableEq Tid] in
theorem Matched.one {s' : State Tid W FUT SharedIo} {a' : Scheduler.State Tid Task FUT SharedIo}
    (h : Scheduler.Step J.program a (t,e.shown) a') (ha : Abstracts s' a') :
    Matched J a (shows (t,e)) s' :=
  ⟨[(t,e.shown)],a',Run.single h,List.flatMap_singleton _ _,ha⟩

omit [DecidableEq Tid] in
theorem Matched.none {s' : State Tid W FUT SharedIo} (ha : Abstracts s' a) : Matched J a [] s' :=
  ⟨[],a,Run.refl a,rfl,ha⟩

theorem Abstracts.within (h : Abstracts s a) (hs : Sound (s.move t m' th'))
    (hw : th'.wakes ≠ [] → th'.pc.wakes = true) {ph ph' : Phase Task}
    (hph : (s.thread t).phase s.machine.inner.futures = some ph)
    (hph' : th'.phase m'.inner.futures = some ph')
    (hstep : Scheduler.Step J.program
      ⟨taskOf s.machine.inner.futures,s.machine.inner.io,marked s.machine.wakeMask,some (t,ph)⟩
      (t,e.shown) ⟨taskOf m'.inner.futures,m'.inner.io,marked m'.wakeMask,some (t,ph')⟩) :
    Matched J a (shows (t,e)) (s.move t m' th') := by
  rw [h.eq hph]
  exact .one hstep (h.inside hs hw hph')

theorem Abstracts.next (h : Abstracts s a) (hs : Sound (s.move t m' th'))
    (hstep : Steps J s.machine (s.thread t) e m' th') :
    Matched J a (shows (t,e)) (s.move t m' th') := by
  have hw := hstep.settled (h.settled t)
  have htracks := h.sound.held t
  generalize hth : s.thread t = old at hstep htracks
  have hph : (s.thread t).phase s.machine.inner.futures = old.phase s.machine.inner.futures := by
    rw [hth]
  cases hstep with
  | wakeFound pc n rest hm =>
    obtain ⟨a',hstep,ha'⟩ := h.wake (J := J) hth (by simp) hs rfl rfl hm.symm
    exact .one hstep ha'
  | wakeOutside pc n rest hm | wakeInside pc n rest hm =>
    obtain ⟨a',hstep,ha'⟩ := h.wake (J := J) hth (by simp) hs rfl rfl rfl
    exact .one hstep ha'
  | wakeLoad | wakeRetry | wakeFire | wake | call | register | ready | tickAgain =>
    exact .none (h.silent hs hw rfl rfl hph.symm)
  | lock call hl =>
    obtain ⟨ph',hph',hcase⟩ := phase_afterLock s.machine.inner.futures call
    rw [h.eq_free hl]
    exact .one (.enter _ t ph' rfl hcase) (h.inside hs hw hph')
  | access acc =>
    refine h.within hs hw hph rfl ?_
    rw [owed_calls]
    exact .access _ t acc rfl
  | drop => exact h.within hs hw hph rfl (.release _ t rfl)
  | claim call hm =>
    refine h.within hs hw hph rfl ?_
    rw [toPoll_mask (htracks rfl),marked_ticking]
    exact .claim _ t rfl
  | claimNone call hm =>
    have hnone : {k ∈ marked s.machine.wakeMask |
        (taskOf s.machine.inner.futures k).isSome} = ∅ := by
      rw [← toPoll_mask (htracks rfl),hm]
      ext k
      simp [toPoll]
    have hclaim := Scheduler.Step.claim (P := J.program) ⟨taskOf s.machine.inner.futures,
      s.machine.inner.io,marked s.machine.wakeMask,some (t,.between)⟩ t rfl
    rw [hnone] at hclaim
    rw [h.eq hph]
    refine ⟨_,_,(Run.single hclaim).trans (Run.single (.endRound _ t rfl)),rfl,?_⟩
    have hin := h.inside hs hw rfl
    rwa [marked_ticking] at hin
  | pollEnd call mask result n hn =>
    refine h.within hs hw hph rfl ?_
    rw [toPoll_eq_empty hn]
    exact .endRound _ t rfl
  | pollNone call mask result n hn =>
    refine .none (h.silent hs hw rfl rfl (.trans ?_ hph.symm))
    have hsame : toPoll s.machine.inner.futures mask (n+1) = toPoll s.machine.inner.futures mask n :=
      toPoll_succ (by simp [hn])
    simp only [Thread.phase,phase,hsame]
  | pollSkip call mask result n hfut hm =>
    refine .none (h.silent hs hw rfl rfl (.trans ?_ hph.symm))
    have hbit := (and_bit_eq_zero (by have hn := fut_lt_31 h.sound.supported hfut; omega) mask).mp hm
    have hsame : toPoll s.machine.inner.futures mask (n+1) = toPoll s.machine.inner.futures mask n :=
      toPoll_succ (by simp [hbit])
    simp only [Thread.phase,phase,hsame]
  | poll call mask result n hfut hm =>
    refine h.within hs hw hph rfl ?_
    rw [← toPoll_diff]
    have hbit : mask.getLsbD n = true := by
      rw [← Bool.not_eq_false]
      exact fun hno => hm ((and_bit_eq_zero (by omega) mask).mpr hno)
    exact .poll _ t _ n rfl ⟨le_rfl,hbit,hfut⟩ fun k hk => hk.1
  | taskAct call mask result n hfut hres =>
    refine h.within hs hw hph rfl ?_
    rw [taskOf_setFut _ (by rw [hfut]; rfl),toPoll_setFut,owed_calls]
    exact .act _ t _ n rfl hfut (by simp only [Jobs.program,hres])
  | taskPending call mask result n hfut hres =>
    refine h.within hs hw hph rfl ?_
    rw [taskOf_setFut _ (by rw [hfut]; rfl),toPoll_setFut]
    exact .suspend _ t _ n rfl hfut (by simp only [Jobs.program,hres])
  | taskReady call mask result n hfut hres =>
    refine h.within hs hw hph rfl ?_
    rw [taskOf_setFut _ (by rw [hfut]; rfl),toPoll_setFut]
    exact .finish _ t _ n rfl hfut (by simp only [Jobs.program,hres])
  | tickEnd call hm =>
    refine h.within hs hw hph (phase_afterTick _ call _) ?_
    have hdone : decide (s.machine.inner.aliveMask = 0) = true ↔
        ∀ n, taskOf s.machine.inner.futures n = none :=
      decide_eq_true_iff.trans (alive_eq_zero_iff h.sound.supported (htracks rfl))
    rw [hm,marked_ticking,marked_zero]
    exact .tick _ t _ rfl rfl hdone
  | unlock call done =>
    rw [h.eq hph]
    exact .one (.leave _ t rfl)
      (h.outside hs hw (by rw [hth]; rfl) (holds_afterUnlock call done))
  | notify call =>
    refine .none (h.silent hs hw rfl rfl (.trans ?_ hph.symm))
    cases call <;> rfl

end Matched

theorem abstracts_new (futures : Supported FUT) (io : SharedIo) (builder : Tid) :
    Abstracts (new futures io builder : State Tid W FUT SharedIo)
      (start (taskOf futures) io builder) where
  sound := sound_new futures io builder
  task := rfl
  io := rfl
  pending := marked_zero.symm
  holder t ph := by
    rw [start,← toPoll_all]
    by_cases ht : t = builder
    · subst ht
      simp [new,Thread.phase,phase,eq_comm]
    · simp [new,Thread.phase,phase,ht,Ne.symm ht]
  settled t h := by
    by_cases ht : t = builder <;> simp [new,ht] at h

/-- The machine is simulated by the scheduler. -/
theorem machine_simulation (J : Jobs FUT SharedIo OBS ACC) (poller : Tid) :
    Simulation (Step (W := W) J poller) (Scheduler.Step J.program) shows view Abstracts where
  matched s e s' a h hk := by
    rcases e with ⟨t,e⟩
    have hs := h.sound.next hk
    obtain ⟨m,th,hstep,rfl⟩ := hk.thread
    exact h.next hs hstep

section Runs

variable {J : Jobs FUT SharedIo OBS ACC} {poller builder : Tid} {futures : Supported FUT}
  {io : SharedIo} {es : List (Tid × Event W OBS)} {s : State Tid W FUT SharedIo}

/-- The second task suspends; the first wakes itself the second time it is polled. -/
def restlessTasks : Supported (List (Option (List Task))) :=
  ⟨.extension (.extension .base (some [none,some [1],none,none])) (some [none,none]),by decide⟩

def restlessMoves : List (Bool × Choice Unit Empty) :=
  go false 8 ++ [(true,.wake 1)] ++ go true 3 ++ [(true,.call .lockRef)] ++ go true 1 ++
    [(true,.drop)] ++ go true 1 ++ [(false,.wake 2)] ++ go false 2 ++ go true 10

def restlessRun : State Bool Unit (List (Option (List Task))) Unit × List (Bool × Event Unit Unit) :=
  (exec scripts true (new restlessTasks () false) restlessMoves).get (by decide +kernel)

/-- Every run of a machine, however its threads interleave, shows what a run of the scheduler
shows, and they end with the same unfinished tasks, the same I/O, the same tasks woken, and the
same thread inside at the same place. -/
theorem run_of_scheduler (J : Jobs FUT SharedIo OBS ACC) (poller builder : Tid)
    (futures : Supported FUT) (io : SharedIo) (es : List (Tid × Event W OBS))
    (s : State Tid W FUT SharedIo) (h : Run (Step J poller) (new futures io builder) es s) :
    ∃ fs a, Run (Scheduler.Step J.program) (start (taskOf futures) io builder) fs a ∧
      fs.flatMap view = es.flatMap shows ∧ a.task = taskOf s.machine.inner.futures ∧
      a.io = s.machine.inner.io ∧ a.pending = marked s.machine.wakeMask ∧
      ∀ t ph, a.holder = some (t,ph) ↔
        (s.thread t).phase s.machine.inner.futures = some ph := by
  obtain ⟨fs,a,hrun,hshown,ha⟩ :=
    (machine_simulation J poller).run (abstracts_new futures io builder) h
  exact ⟨fs,a,hrun,hshown,ha.task,ha.io,ha.pending,ha.holder⟩

/-- The scheduler's run beside it. -/
theorem run_of_scheduler_restless : ∃ fs a, Run (Scheduler.Step scripts.program)
    (start (taskOf restlessTasks.1) () false) fs a ∧ fs.flatMap view = restlessRun.2.flatMap shows := by
  obtain ⟨fs,a,hrun,hshown,-⟩ :=
    run_of_scheduler scripts true false restlessTasks () restlessRun.2 restlessRun.1 (exec_get _)
  exact ⟨fs,a,hrun,hshown⟩

theorem rounds_of_run (h : Run (Step J poller) (new futures io builder) es s) :
    ∃ gs r, Run Rounds.Step (start (taskOf futures.1) io builder).rounds gs r ∧
      gs.flatMap view = es.flatMap shows ∧
      r.alive = {n | (taskOf s.machine.inner.futures n).isSome} := by
  obtain ⟨fs,a,hrun,hshown,ha⟩ :=
    (machine_simulation J poller).run (abstracts_new futures io builder) h
  have hapart : (start (taskOf futures.1) io builder).Apart :=
    apart_of_holder rfl fun _ _ _ hrun => by cases hrun
  obtain ⟨gs,r,hrounds,hsame,rfl,-⟩ := (rounds_simulation J.program).run ⟨rfl,hapart⟩ hrun
  refine ⟨gs,_,hrounds,hsame.trans hshown,?_⟩
  rw [Scheduler.State.rounds,ha.task]

/-- The tasks that a run polls, and those whose wakes take effect in it, in order. -/
def tasksPolled (es : List (Tid × Event W OBS)) : List Task := polls (es.flatMap shows)

def tasksWoken (es : List (Tid × Event W OBS)) : List Task := wakes (es.flatMap shows)

/-- Whatever the threads do, between a wake of an unfinished task and its next poll no other
task is polled more than twice, and none of a greater index more than once. -/
theorem no_task_overtakes_twice (J : Jobs FUT SharedIo OBS ACC) (poller builder : Tid)
    (futures : Supported FUT) (io : SharedIo) (pre post : List (Tid × Event W OBS)) (t : Tid)
    (n : Task) (s : State Tid W FUT SharedIo)
    (h : Run (Step J poller) (new futures io builder) (pre ++ (t,.woke n) :: post) s)
    (hn : (s.machine.inner.futures.fut n).isSome) (hpost : n ∉ tasksPolled post) (k : Task) :
    (tasksPolled post).count k ≤ 2 ∧ (n < k → (tasksPolled post).count k ≤ 1) := by
  obtain ⟨gs,r,hrun,hshown,halive⟩ := rounds_of_run h
  have hn' : n ∈ r.alive := halive ▸ hn
  exact Rounds.overtaken hrun hn' (hshown.trans (shows_split rfl pre post)) hpost k

/-- The bound is met: the first task is polled twice before the second gets its turn. -/
theorem no_task_overtakes_twice_restless : 1 < (tasksPolled (restlessRun.2.drop 19)).count 1 ∧
    (tasksPolled (restlessRun.2.drop 19)).count 1 ≤ 2 := by
  have hsplit : restlessRun.2 = restlessRun.2.take 18 ++ (false,.woke 2) :: restlessRun.2.drop 19 := by
    decide +kernel
  have hrun : Run (Step scripts true) (new restlessTasks () false)
      (restlessRun.2.take 18 ++ (false,.woke 2) :: restlessRun.2.drop 19) restlessRun.1 := by
    rw [← hsplit]
    exact exec_get _
  exact ⟨by decide +kernel,(no_task_overtakes_twice scripts true false restlessTasks () _ _ false 2
    restlessRun.1 hrun (by decide +kernel) (by decide +kernel) 1).1⟩

/-- A task is polled at most once more often than its wakes have taken effect. -/
theorem every_poll_is_woken (J : Jobs FUT SharedIo OBS ACC) (poller builder : Tid)
    (futures : Supported FUT) (io : SharedIo) (es : List (Tid × Event W OBS))
    (s : State Tid W FUT SharedIo) (h : Run (Step J poller) (new futures io builder) es s)
    (n : Task) : (tasksPolled es).count n ≤ (tasksWoken es).count n + 1 := by
  obtain ⟨gs,r,hrun,hshown,-⟩ := rounds_of_run h
  have hle := Rounds.polls_le_wakes hrun rfl n
  rwa [hshown] at hle

/-- The first task's three polls against its two wakes. -/
theorem every_poll_is_woken_restless : (tasksPolled restlessRun.2).count 1 = 3 ∧
    (tasksPolled restlessRun.2).count 1 ≤ (tasksWoken restlessRun.2).count 1 + 1 :=
  ⟨by decide +kernel,every_poll_is_woken scripts true false restlessTasks () restlessRun.2
    restlessRun.1 (exec_get _) 1⟩

/-- After a tick has found every task completed, no task is polled or acts any more, and every
later tick finds the same. -/
theorem done_for_good (J : Jobs FUT SharedIo OBS ACC) (poller builder : Tid)
    (futures : Supported FUT) (io : SharedIo) (pre post : List (Tid × Event W OBS)) (t : Tid)
    (s : State Tid W FUT SharedIo)
    (h : Run (Step J poller) (new futures io builder) (pre ++ (t,.ticked true) :: post) s) :
    (∀ n, s.machine.inner.futures.fut n = none) ∧
      ∀ e ∈ post, (∀ n, e.2 ≠ .polled n) ∧ (∀ n obs, e.2 ≠ .acted n obs) ∧ e.2 ≠ .ticked false := by
  obtain ⟨gs,r,hrun,hshown,halive⟩ := rounds_of_run h
  obtain ⟨hnone,hpost⟩ := Rounds.completed hrun (hshown.trans (shows_split rfl pre post))
  have hshows : ∀ e ∈ post, ∀ f, e.2.shown = some f → (∃ n, f = .wake n) ∨ f = .tick true := by
    intro e he f hf
    refine hpost (e.1,f) (List.mem_flatMap.mpr ⟨e,he,?_⟩)
    rw [shows,hf]
    exact List.mem_singleton_self _
  refine ⟨fun n => ?_,fun e he => ⟨fun n hpoll => ?_,fun n obs hact => ?_,fun htick => ?_⟩⟩
  · by_cases hn : n < 31
    · have hno : (⟨n,hn⟩ : Task) ∉ r.alive := by simp [hnone]
      rw [halive] at hno
      exact Option.not_isSome_iff_eq_none.mp hno
    · have hd := (sound_run h).supported
      exact ProcMachineFutures.fut_of_DEPTH_lt (by omega)
  · have hno := hshows e he (.poll n) (by rw [hpoll]; rfl)
    simp at hno
  · have hno := hshows e he (.act n obs) (by rw [hact]; rfl)
    simp at hno
  · have hno := hshows e he (.tick false) (by rw [htick]; rfl)
    simp at hno

def doneRun : State Bool Unit (List (Option (List Task))) Unit × List (Bool × Event Unit Unit) :=
  (exec scripts true (new ⟨.extension (.extension .base (some [])) (some []),by decide⟩ () false)
    (go false 8 ++ [(true,.call .lockRef)] ++ go true 1 ++ [(true,.drop)] ++ go true 2)).get
    (by decide +kernel)

theorem done_for_good_release : (true,.ticked true) ∈ doneRun.2.drop 7 ∧
    ∀ e ∈ doneRun.2.drop 7, e.2 ≠ .ticked false := by
  have hsplit : doneRun.2 = doneRun.2.take 6 ++ (false,.ticked true) :: doneRun.2.drop 7 := by
    decide +kernel
  have hrun : Run (Step scripts true) (new ⟨.extension (.extension .base (some [])) (some []),by decide⟩
      () false) (doneRun.2.take 6 ++ (false,.ticked true) :: doneRun.2.drop 7) doneRun.1 := by
    rw [← hsplit]
    exact exec_get _
  exact ⟨by decide +kernel,fun e he =>
    ((done_for_good scripts true false _ () _ _ false doneRun.1 hrun).2 e he).2.2⟩

/-- The polls are serial, though any thread may tick: what comes last before an act of a task,
but for wakes and acts of the same poll, is the poll itself, by the same thread. -/
theorem polls_are_serial (J : Jobs FUT SharedIo OBS ACC) (poller builder : Tid)
    (futures : Supported FUT) (io : SharedIo) (pre post : List (Tid × Event W OBS)) (t : Tid)
    (n : Task) (obs : OBS) (s : State Tid W FUT SharedIo)
    (h : Run (Step J poller) (new futures io builder) (pre ++ (t,.acted n obs) :: post) s) :
    Within t n (pre.flatMap shows) := by
  obtain ⟨fs,a,hrun,hshown,-⟩ :=
    (machine_simulation J poller).run (abstracts_new futures io builder) h
  exact act_within hrun (fun _ _ _ _ hrun => by cases hrun)
    (hshown.trans (shows_split rfl pre post))

/-- The act of the first task in its second poll, with a wake from the other thread before it. -/
theorem polls_are_serial_restless : Within true 1 ((restlessRun.2.take 20).flatMap shows) := by
  have hsplit : restlessRun.2 =
      restlessRun.2.take 20 ++ (true,.acted 1 ()) :: restlessRun.2.drop 21 := by decide +kernel
  have hrun : Run (Step scripts true) (new restlessTasks () false)
      (restlessRun.2.take 20 ++ (true,.acted 1 ()) :: restlessRun.2.drop 21) restlessRun.1 := by
    rw [← hsplit]
    exact exec_get _
  exact polls_are_serial scripts true false restlessTasks () _ _ true 1 () restlessRun.1 hrun

end Runs

end ProcMachine
end ProcMachines
