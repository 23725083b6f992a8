import ProcMachines.ProcMachineScheduler

/-! Whatever the scheduler can do, the machine can do: every run of the scheduler is shown by a
run of the machine, in which no thread outside the mutex has begun anything. -/
namespace ProcMachines
namespace ProcMachine

open Transition Scheduler

variable {W FUT SharedIo OBS ACC Tid : Type}

section Paths

variable {J : Jobs FUT SharedIo OBS ACC} {m m' : ProcMachineImpl W FUT SharedIo} {th th' : Thread W}

/-- A step of one thread, which does not begin an `external_poll`. -/
def Alone (J : Jobs FUT SharedIo OBS ACC) (x : ProcMachineImpl W FUT SharedIo × Thread W)
    (e : Event W OBS) (y : ProcMachineImpl W FUT SharedIo × Thread W) : Prop :=
  (∃ c, x.2.next J x.1 c = some ⟨y.1,y.2,e⟩) ∧ ∀ cx, e ≠ .called (.externalPoll cx)

/-- Some steps of one thread, with what a scheduler shows of them. -/
def Path (J : Jobs FUT SharedIo OBS ACC) (x : ProcMachineImpl W FUT SharedIo × Thread W)
    (shown : List (Scheduler.Event Task OBS)) (y : ProcMachineImpl W FUT SharedIo × Thread W) :
    Prop := ∃ es, Run (Alone J) x es y ∧ es.filterMap Event.shown = shown

namespace Path

variable {x y z : ProcMachineImpl W FUT SharedIo × Thread W}
  {shown shown' : List (Scheduler.Event Task OBS)}

theorem refl (x : ProcMachineImpl W FUT SharedIo × Thread W) : Path J x [] x := ⟨[],Run.refl x,rfl⟩

theorem trans (h : Path J x shown y) (h' : Path J y shown' z) : Path J x (shown ++ shown') z := by
  obtain ⟨es,hrun,rfl⟩ := h
  obtain ⟨fs,hrun',rfl⟩ := h'
  exact ⟨es ++ fs,hrun.trans hrun',List.filterMap_append⟩

theorem visible (c : Choice W ACC) (e : Event W OBS) {f : Scheduler.Event Task OBS}
    (hf : e.shown = some f) (h : th.next J m c = some ⟨m',th',e⟩) : Path J (m,th) [f] (m',th') := by
  refine ⟨[e],Run.single ⟨⟨c,h⟩,?_⟩,by simp [hf]⟩
  rintro cx rfl
  cases hf

theorem silent (c : Choice W ACC) (e : Event W OBS) (hcall : ∀ cx, e ≠ .called (.externalPoll cx))
    (hf : e.shown = none) (h : th.next J m c = some ⟨m',th',e⟩) : Path J (m,th) [] (m',th') :=
  ⟨[e],Run.single ⟨⟨c,h⟩,hcall⟩,by simp [hf]⟩

theorem go (h : th.next J m (.go : Choice W ACC) = some ⟨m',th',.silent⟩) :
    Path J (m,th) [] (m',th') := silent .go .silent (by simp) rfl h

end Path

theorem wake_path (m : ProcMachineImpl W FUT SharedIo) (pc : Pc W) (n : Task)
    (rest : List (Task × WakePc)) :
    ∃ w, Path J (m,⟨pc,(n,.load) :: rest⟩) [.wake n]
      ({ m with wakeMask := m.wakeMask ||| bit n, externalWaker := w },⟨pc,rest⟩) := by
  by_cases hfound : m.wakeMask ||| bit n = m.wakeMask
  · refine ⟨m.externalWaker,?_⟩
    rw [hfound]
    exact .visible .go (.woke n) rfl (by simp [Thread.next,wake,hfound])
  · have hload : Path J (m,⟨pc,(n,.load) :: rest⟩) []
        (m,⟨pc,(n,.compareExchange m.wakeMask) :: rest⟩) :=
      .go (by simp [Thread.next,wake,hfound])
    by_cases hticking : m.wakeMask &&& ticking = 0
    · have hset : Path J (m,⟨pc,(n,.compareExchange m.wakeMask) :: rest⟩) [.wake n]
          ({ m with wakeMask := m.wakeMask ||| bit n },⟨pc,(n,.fire) :: rest⟩) := by
        refine .visible .go (.woke n) rfl ?_
        simp only [Thread.next,wake,if_true,if_pos hticking]
      have hfire : Path J ({ m with wakeMask := m.wakeMask ||| bit n },⟨pc,(n,.fire) :: rest⟩) []
          ({ m with wakeMask := m.wakeMask ||| bit n, externalWaker := none },⟨pc,rest⟩) :=
        .silent .go (.fired m.externalWaker) (by simp) rfl rfl
      exact ⟨none,hload.trans (hset.trans hfire)⟩
    · refine ⟨m.externalWaker,hload.trans (.visible .go (.woke n) rfl ?_)⟩
      simp only [Thread.next,wake,if_true,if_neg hticking]

theorem pass_path (hd : m.inner.futures.DEPTH ≤ 30) (call : Caller W) (mask result : BitVec 32)
    {n k : ℕ} (hnk : n ≤ k) (hk : k ≤ m.inner.futures.DEPTH + 1)
    (hpass : ∀ i, n ≤ i → i < k → (m.inner.futures.fut i).isSome → mask.getLsbD i = false) :
    ∃ result', Path J (m,⟨.tick call (.polling mask result n),[]⟩) []
      (m,⟨.tick call (.polling mask result' k),[]⟩) := by
  induction k, hnk using Nat.le_induction with
  | base => exact ⟨result,.refl _⟩
  | succ k hnk ih =>
    obtain ⟨result',hpath⟩ := ih (by omega) fun i hi hik => hpass i hi (by omega)
    have hdepth : ¬ m.inner.futures.DEPTH < k := by omega
    cases hfut : m.inner.futures.fut k with
    | none => exact ⟨result',hpath.trans (.go (by simp [Thread.next,tick,hdepth,hfut]))⟩
    | some fut =>
      have hsome : (m.inner.futures.fut k).isSome := by rw [hfut]; rfl
      have hlt : k < 31 := fut_lt_31 hd hsome
      have hbit : mask &&& bit k = 0 :=
        (and_bit_eq_zero (by omega) mask).mpr (hpass k hnk (Nat.lt_succ_self k) hsome)
      refine ⟨result' ||| bit k,hpath.trans (.go ?_)⟩
      simp only [Thread.next,tick,if_neg hdepth,hfut,if_pos hbit]

theorem endRound_path (hd : m.inner.futures.DEPTH ≤ 30) (call : Caller W) (mask result : BitVec 32)
    (n : ℕ) (hnone : toPoll m.inner.futures mask n = ∅) :
    ∃ alive, Path J (m,⟨.tick call (.polling mask result n),[]⟩) []
      ({ m with inner.aliveMask := alive },⟨.tick call .swap,[]⟩) := by
  have hend : ∀ result n, m.inner.futures.DEPTH < n →
      Path J (m,⟨.tick call (.polling mask result n),[]⟩) []
        ({ m with inner.aliveMask := result },⟨.tick call .swap,[]⟩) := fun result n hn =>
    .go (by simp [Thread.next,tick,hn])
  by_cases hn : m.inner.futures.DEPTH < n
  · exact ⟨result,hend result n hn⟩
  · have hpass : ∀ i, n ≤ i → i < m.inner.futures.DEPTH + 1 → (m.inner.futures.fut i).isSome →
        mask.getLsbD i = false := by
      intro i hni _ hsome
      rw [← Bool.not_eq_true]
      intro hbit
      have hmem : (⟨i,fut_lt_31 hd hsome⟩ : Task) ∈ toPoll m.inner.futures mask n :=
        ⟨hni,hbit,hsome⟩
      rw [hnone] at hmem
      exact hmem
    obtain ⟨result',hpath⟩ := pass_path (J := J) hd call mask result (by omega) le_rfl hpass
    exact ⟨result',hpath.trans (hend result' _ (Nat.lt_succ_self _))⟩

theorem poll_path (hd : m.inner.futures.DEPTH ≤ 30) (call : Caller W) (mask result : BitVec 32)
    (k : ℕ) (n : Task) (hn : n ∈ toPoll m.inner.futures mask k)
    (hleast : ∀ i ∈ toPoll m.inner.futures mask k, n ≤ i) :
    ∃ result', Path J (m,⟨.tick call (.polling mask result k),[]⟩) [.poll n]
      (m,⟨.tick call (.running mask result' n),[]⟩) := by
  obtain ⟨hkn,hbit,hfut⟩ := hn
  have hle : (n : ℕ) ≤ m.inner.futures.DEPTH := by
    by_contra hlt
    rw [ProcMachineFutures.fut_of_DEPTH_lt (Nat.lt_of_not_le hlt)] at hfut
    cases hfut
  have hpass : ∀ i, k ≤ i → i < n → (m.inner.futures.fut i).isSome → mask.getLsbD i = false := by
    intro i hki hin hsome
    rw [← Bool.not_eq_true]
    intro hi
    have hmin : n ≤ ⟨i,fut_lt_31 hd hsome⟩ := hleast _ ⟨hki,hi,hsome⟩
    exact Nat.not_lt.mpr hmin hin
  obtain ⟨result',hpath⟩ := pass_path (J := J) hd call mask result hkn (Nat.le_succ_of_le hle) hpass
  obtain ⟨fut,hsome⟩ := Option.isSome_iff_exists.mp hfut
  have hmask : ¬ mask &&& bit n = 0 := fun hzero =>
    Bool.false_ne_true (((and_bit_eq_zero (by omega) mask).mp hzero).symm.trans hbit)
  refine ⟨result',hpath.trans (.visible .go (.polled n) rfl ?_)⟩
  simp only [Thread.next,tick,if_neg (Nat.not_lt.mpr hle),hsome,if_neg hmask,getMultiWaker,
    dif_pos n.2,Option.map_some,Fin.eta]

theorem tick_path (m : ProcMachineImpl W FUT SharedIo) (call : Caller W)
    (hnone : marked m.wakeMask = ∅) :
    Path J (m,⟨.tick call .swap,[]⟩) [.tick (decide (m.inner.aliveMask = 0))]
      ({ m with wakeMask := 0 },⟨afterTick call (decide (m.inner.aliveMask = 0)),[]⟩) := by
  have hclaimed : m.inner.aliveMask &&& m.wakeMask &&& 0x7FFFFFFF#32 = 0 := by
    apply BitVec.eq_of_getLsbD_eq
    intro i hi
    show _ = (0#32).getLsbD i
    rw [BitVec.getLsbD_zero]
    by_cases h31 : i < 31
    · have hno : (⟨i,h31⟩ : Task) ∉ marked m.wakeMask := by simp [hnone]
      have hwake : m.wakeMask.getLsbD i = false := Bool.not_eq_true _ ▸ hno
      rw [getLsbD_claimed _ _ h31,hwake,Bool.and_false]
    · obtain rfl : i = 31 := by omega
      have hflag : (0x7FFFFFFF#32).getLsbD 31 = false := by decide
      rw [BitVec.getLsbD_and,hflag,Bool.and_false]
  have hswap : Path J (m,⟨.tick call .swap,[]⟩) []
      ({ m with wakeMask := ticking },⟨.tick call .compareExchange,[]⟩) :=
    .go (by simp only [Thread.next,tick,hclaimed,ne_eq,not_true_eq_false,if_false])
  exact hswap.trans (.visible .go (.ticked (decide (m.inner.aliveMask = 0))) rfl
    (by simp only [Thread.next,tick,if_true]))

theorem leave_path (m : ProcMachineImpl W FUT SharedIo) (call : Caller W) (done : Bool) :
    ∃ w, Path J (m,⟨afterTick call done,[]⟩) []
      ({ m with locked := false, externalWaker := w },⟨.idle,[]⟩) := by
  have hunlock : ∀ m : ProcMachineImpl W FUT SharedIo, Path J (m,⟨.unlock call done,[]⟩) []
      ({ m with locked := false },⟨afterUnlock call done,[]⟩) := fun _ => .go rfl
  have hnotify : ∀ m : ProcMachineImpl W FUT SharedIo, Path J (m,⟨.notify call,[]⟩) []
      ({ m with externalWaker := none },⟨afterNotify call,[]⟩) := fun m =>
    .silent .go (.fired m.externalWaker) (by simp) rfl rfl
  cases call with
  | new => exact ⟨_,hunlock m⟩
  | lockRef =>
    cases done with
    | false => exact ⟨_,hunlock m⟩
    | true => exact ⟨none,(hunlock m).trans (hnotify _)⟩
  | isDone =>
    cases done with
    | false => exact ⟨_,hunlock m⟩
    | true => exact ⟨none,(hnotify m).trans (hunlock _)⟩
  | externalPoll cx =>
    cases done with
    | false =>
      exact ⟨some cx,(hunlock m).trans (.silent .go (.registered cx) (by simp) rfl rfl)⟩
    | true =>
      exact ⟨none,(hunlock m).trans ((hnotify _).trans (.silent .go .ready (by simp) rfl rfl))⟩

end Paths

variable [DecidableEq Tid]

namespace State

variable {s : State Tid W FUT SharedIo} {t : Tid}

@[simp] theorem move_id : s.move t s.machine (s.thread t) = s := by
  rw [move,Function.update_eq_self]

@[simp] theorem move_move (m m' : ProcMachineImpl W FUT SharedIo) (th th' : Thread W) :
    (s.move t m th).move t m' th' = s.move t m' th' := by
  simp only [move,Function.update_idem]

end State

section Realized

variable {J : Jobs FUT SharedIo OBS ACC} {poller t : Tid} {s : State Tid W FUT SharedIo}
  {a a' : Scheduler.State Tid Task FUT SharedIo} {m : ProcMachineImpl W FUT SharedIo} {th : Thread W}
  {shown : List (Scheduler.Event Task OBS)}

/-- The other threads may pause while one takes its steps. -/
theorem Path.run (poller : Tid) (h : Path J (s.machine,s.thread t) shown (m,th)) :
    ∃ es, Run (Step J poller) s es (s.move t m th) ∧ es.flatMap shows = shown.map (t,·) := by
  obtain ⟨es,hrun,rfl⟩ := h
  have hall : ∀ es y, Run (Alone J) (s.machine,s.thread t) es y → ∃ fs,
      Run (Step J poller) s fs (s.move t y.1 y.2) ∧
        fs.flatMap shows = (es.filterMap Event.shown).map (t,·) := by
    intro es y hrun
    induction hrun with
    | refl => exact ⟨[],by simpa using Run.refl s,rfl⟩
    | @snoc x z es e _ hstep ih =>
      obtain ⟨fs,hfs,hshown⟩ := ih
      obtain ⟨⟨c,hc⟩,hcall⟩ := hstep
      have hcallable : callable poller (t,e) = true := by
        cases e with
        | called call =>
          cases call with
          | externalPoll cx => exact absurd rfl (hcall cx)
          | new | lockRef | isDone => rfl
        | _ => rfl
      have hnext : Step J poller (s.move t x.1 x.2) (t,e) (s.move t z.1 z.2) := by
        refine ⟨hcallable,c,?_⟩
        simp only [next,State.move_machine,State.move_self,hc,Option.map_some,State.move_move]
      refine ⟨fs ++ [(t,e)],hfs.snoc hnext,?_⟩
      rw [List.flatMap_append,List.filterMap_append,List.map_append,hshown,List.flatMap_singleton]
      cases hf : e.shown <;> simp [shows,hf]
  exact hall es _ hrun

/-- A thread inside the mutex stands where the scheduler says, with none of its wakes begun. -/
def Stands (futures : ProcMachineFutures FUT) (th : Thread W) : Phase Task → Prop
  | .critical owed => th = ⟨.critical,calls owed⟩
  | .between => ∃ call, th = ⟨.tick call .swap,[]⟩
  | .round left => ∃ call, (left = ∅ ∧ th = ⟨.tick call .compareExchange,[]⟩) ∨
      ∃ mask result n, left = toPoll futures mask n ∧ th = ⟨.tick call (.polling mask result n),[]⟩
  | .running left n owed => ∃ call mask result, left = toPoll futures mask (n+1) ∧
      th = ⟨.tick call (.running mask result n),calls owed⟩
  | .leaving => ∃ call done, th = ⟨afterTick call done,[]⟩

/-- A state of the machine in which the scheduler's can be shown: nobody outside the mutex has
begun anything. -/
structure Realizes (a : Scheduler.State Tid Task FUT SharedIo) (s : State Tid W FUT SharedIo) :
    Prop where
  sound : Sound s
  task : a.task = taskOf s.machine.inner.futures
  io : a.io = s.machine.inner.io
  pending : a.pending = marked s.machine.wakeMask
  free : a.holder = none → s.machine.locked = false
  inside : ∀ t ph, a.holder = some (t,ph) → Stands s.machine.inner.futures (s.thread t) ph
  outside : ∀ t, (∀ ph, a.holder ≠ some (t,ph)) → s.thread t = ⟨.idle,[]⟩

/-- Some run of the machine shows what is to be shown, and ends where the scheduler does. -/
def Realized (J : Jobs FUT SharedIo OBS ACC) (poller : Tid) (s : State Tid W FUT SharedIo)
    (shown : List (Tid × Scheduler.Event Task OBS)) (a' : Scheduler.State Tid Task FUT SharedIo) :
    Prop := ∃ es s', Run (Step J poller) s es s' ∧ es.flatMap shows = shown ∧ Realizes a' s'

theorem Realizes.enters (h : Realizes a s) (hpath : Path J (s.machine,s.thread t) shown (m,th))
    (hhold : ∀ u ph, a.holder = some (u,ph) → u = t) {ph : Phase Task} {io : SharedIo}
    {task : Task → Option FUT} {pending : Set Task} (htask : task = taskOf m.inner.futures)
    (hio : io = m.inner.io) (hpending : pending = marked m.wakeMask)
    (hstands : Stands m.inner.futures th ph) :
    Realized J poller s (shown.map (t,·)) ⟨task,io,pending,some (t,ph)⟩ := by
  obtain ⟨es,hrun,hes⟩ := hpath.run poller
  refine ⟨es,_,hrun,hes,?_⟩
  constructor
  · exact hrun.invariant (fun _ _ _ hs hk => hs.next hk) h.sound
  · exact htask
  · exact hio
  · exact hpending
  · intro hnone
    cases hnone
  · intro u ph' hu
    cases hu
    rw [State.move_self]
    exact hstands
  · intro u hu
    have hut : u ≠ t := by
      rintro rfl
      exact hu ph rfl
    rw [State.move_other _ _ _ _ hut]
    exact h.outside u fun ph' hu' => hut (hhold u ph' hu')

theorem Realizes.leaves (h : Realizes a s) (hpath : Path J (s.machine,s.thread t) shown (m,th))
    (hhold : ∀ u ph, a.holder = some (u,ph) → u = t) (hth : th = ⟨.idle,[]⟩)
    (hl : m.locked = false) (hi : m.inner = s.machine.inner) (hw : m.wakeMask = s.machine.wakeMask) :
    Realized J poller s (shown.map (t,·)) { a with holder := none } := by
  obtain ⟨es,hrun,hes⟩ := hpath.run poller
  refine ⟨es,_,hrun,hes,?_⟩
  constructor
  · exact hrun.invariant (fun _ _ _ hs hk => hs.next hk) h.sound
  · show a.task = taskOf m.inner.futures
    rw [hi]
    exact h.task
  · show a.io = m.inner.io
    rw [hi]
    exact h.io
  · show a.pending = marked m.wakeMask
    rw [hw]
    exact h.pending
  · exact fun _ => hl
  · intro u ph hu
    cases hu
  · intro u _
    by_cases hut : u = t
    · subst hut
      rw [State.move_self,hth]
    · rw [State.move_other _ _ _ _ hut]
      exact h.outside u fun ph hu => hut (hhold u ph hu)

theorem Realizes.stays (h : Realizes a s) (hpath : Path J (s.machine,s.thread t) shown (m,th))
    (hout : ∀ ph, a.holder ≠ some (t,ph)) (hth : th = ⟨.idle,[]⟩)
    (hl : m.locked = s.machine.locked) (hi : m.inner = s.machine.inner) :
    Realized J poller s (shown.map (t,·)) { a with pending := marked m.wakeMask } := by
  obtain ⟨es,hrun,hes⟩ := hpath.run poller
  refine ⟨es,_,hrun,hes,?_⟩
  constructor
  · exact hrun.invariant (fun _ _ _ hs hk => hs.next hk) h.sound
  · show a.task = taskOf m.inner.futures
    rw [hi]
    exact h.task
  · show a.io = m.inner.io
    rw [hi]
    exact h.io
  · rfl
  · intro hnone
    exact hl.trans (h.free hnone)
  · intro u ph hu
    have hut : u ≠ t := by
      rintro rfl
      exact hout ph hu
    rw [State.move_other _ _ _ _ hut,State.move_machine,hi]
    exact h.inside u ph hu
  · intro u hu
    by_cases hut : u = t
    · subst hut
      rw [State.move_self,hth]
    · rw [State.move_other _ _ _ _ hut]
      exact h.outside u hu

end Realized

section Matched

variable {J : Jobs FUT SharedIo OBS ACC} {poller t : Tid} {s : State Tid W FUT SharedIo}
  {a a' : Scheduler.State Tid Task FUT SharedIo} {e : Tid × Option (Scheduler.Event Task OBS)}

omit [DecidableEq Tid] in
theorem holder_unique {ph : Phase Task} (h : a.holder = some (t,ph)) (u : Tid) (ph' : Phase Task)
    (hu : a.holder = some (u,ph')) : u = t := by
  rw [h] at hu
  cases hu
  rfl

omit [DecidableEq Tid] in
theorem enter_path (hidle : s.thread t = ⟨.idle,[]⟩) (hfree : s.machine.locked = false)
    {call : Caller W} (hcall : call = .lockRef ∨ call = .isDone) :
    Path J (s.machine,s.thread t) [] ({ s.machine with locked := true },⟨afterLock call,[]⟩) := by
  have hlock : Path J (s.machine,⟨.locking call,[]⟩) []
      ({ s.machine with locked := true },⟨afterLock call,[]⟩) :=
    .go (by simp [Thread.next,hfree])
  rw [hidle]
  rcases hcall with rfl | rfl
  · exact (Path.silent (.call .lockRef) (.called .lockRef) (by simp) rfl rfl).trans hlock
  · exact (Path.silent (.call .isDone) (.called .isDone) (by simp) rfl rfl).trans hlock

omit [DecidableEq Tid] in
theorem tracks_swap (h : Sound s) {call : Caller W} (hth : s.thread t = ⟨.tick call .swap,[]⟩) (i : ℕ) :
    s.machine.inner.aliveMask.getLsbD i = (s.machine.inner.futures.fut i).isSome := by
  have hheld := h.held t
  rw [hth] at hheld
  exact hheld rfl i

/-- A swap claims for the machine what the scheduler claims. -/
theorem Realizes.claim (h : Realizes a s) (hin : a.holder = some (t,.between)) :
    Realized J poller s [] ⟨a.task,a.io,∅,some (t,.round {n ∈ a.pending | (a.task n).isSome})⟩ := by
  obtain ⟨call,hth⟩ := h.inside t _ hin
  have hclaimed : toPoll s.machine.inner.futures
      (s.machine.inner.aliveMask &&& s.machine.wakeMask &&& 0x7FFFFFFF#32) 1 =
      {n ∈ marked s.machine.wakeMask | (taskOf s.machine.inner.futures n).isSome} :=
    toPoll_mask (tracks_swap h.sound hth)
  rw [h.pending,h.task,← hclaimed]
  by_cases hmask : s.machine.inner.aliveMask &&& s.machine.wakeMask &&& 0x7FFFFFFF#32 = 0
  · have hpath : Path J (s.machine,s.thread t) []
        ({ s.machine with wakeMask := ticking },⟨.tick call .compareExchange,[]⟩) := by
      rw [hth]
      exact .go (by simp only [Thread.next,tick,hmask,ne_eq,not_true_eq_false,if_false])
    refine h.enters hpath (holder_unique hin) rfl h.io marked_ticking.symm ⟨call,Or.inl ⟨?_,rfl⟩⟩
    rw [hmask]
    ext k
    simp [toPoll]
  · have hpath : Path J (s.machine,s.thread t) [] ({ s.machine with wakeMask := ticking },
        ⟨.tick call (.polling (s.machine.inner.aliveMask &&& s.machine.wakeMask &&& 0x7FFFFFFF#32)
          0 1),[]⟩) := by
      rw [hth]
      exact .go (by simp only [Thread.next,tick,ne_eq,hmask,not_false_eq_true,if_true])
    exact h.enters hpath (holder_unique hin) rfl h.io marked_ticking.symm
      ⟨call,Or.inr ⟨_,_,_,rfl,rfl⟩⟩

theorem Realizes.poll (h : Realizes a s) {left : Set Task} {n : Task}
    (hin : a.holder = some (t,.round left)) (hn : n ∈ left) (hleast : ∀ k ∈ left, n ≤ k) :
    Realized J poller s [(t,.poll n)] { a with holder := some (t,.running (left \ {n}) n []) } := by
  obtain ⟨call,⟨rfl,-⟩ | ⟨mask,result,k,rfl,hth⟩⟩ := h.inside t _ hin
  · cases hn
  · obtain ⟨result',hpath⟩ := poll_path (J := J) h.sound.supported call mask result k n hn hleast
    rw [← hth] at hpath
    refine h.enters hpath (holder_unique hin) h.task h.io h.pending ⟨call,mask,result',?_,rfl⟩
    rw [← toPoll_diff]
    ext i
    constructor
    · rintro ⟨hi,hne⟩
      exact ⟨⟨hleast i hi,hi.2⟩,hne⟩
    · rintro ⟨hi,hne⟩
      exact ⟨⟨hn.1.trans hi.1,hi.2⟩,hne⟩

omit [DecidableEq Tid] in
theorem Realizes.runs (h : Realizes a s) {left : Set Task} {n : Task} {fut : FUT}
    (hin : a.holder = some (t,.running left n [])) (hfut : a.task n = some fut) :
    s.machine.inner.futures.fut n = some fut ∧
      (∀ g, Function.update a.task n g = taskOf (s.machine.inner.futures.setFut n g)) ∧
      ∃ call mask result, (∀ g, left = toPoll (s.machine.inner.futures.setFut n g) mask (n+1)) ∧
        s.thread t = ⟨.tick call (.running mask result n),[]⟩ := by
  obtain ⟨call,mask,result,rfl,hth⟩ := h.inside t _ hin
  rw [h.task,taskOf] at hfut
  refine ⟨hfut,fun g => ?_,call,mask,result,fun g => (toPoll_setFut g).symm,hth⟩
  rw [h.task]
  exact (taskOf_setFut g (by rw [hfut]; rfl)).symm

theorem Realizes.tick (h : Realizes a s) {done : Bool} (hin : a.holder = some (t,.between))
    (hnone : a.pending = ∅) (hdone : done = true ↔ ∀ n, a.task n = none) :
    Realized J poller s [(t,.tick done)] { a with holder := some (t,.leaving) } := by
  obtain ⟨call,hth⟩ := h.inside t _ hin
  have hsame : done = decide (s.machine.inner.aliveMask = 0) := by
    apply Bool.eq_iff_iff.mpr
    rw [hdone,h.task,decide_eq_true_eq,alive_eq_zero_iff h.sound.supported (tracks_swap h.sound hth)]
  have hpath := tick_path (J := J) s.machine call (h.pending ▸ hnone)
  rw [← hth] at hpath
  rw [hsame]
  refine h.enters hpath (holder_unique hin) h.task h.io ?_ ⟨call,_,rfl⟩
  rw [hnone,marked_zero]

/-- Every step of the scheduler is matched. -/
theorem Realizes.next (h : Realizes a s) (hstep : Scheduler.Step J.program a e a') :
    Realized J poller s (view e) a' := by
  cases hstep with
  | enter t ph hfree hph =>
    have hidle : s.thread t = ⟨.idle,[]⟩ := h.outside t fun ph' => by simp [hfree]
    have hhold : ∀ u ph', a.holder = some (u,ph') → u = t := fun u ph' => by simp [hfree]
    rcases hph with rfl | rfl
    · exact h.enters (enter_path hidle (h.free hfree) (Or.inl rfl)) hhold h.task h.io h.pending rfl
    · exact h.enters (enter_path hidle (h.free hfree) (Or.inr rfl)) hhold h.task h.io h.pending
        ⟨.isDone,rfl⟩
  | access t acc hin =>
    have hth : s.thread t = ⟨.critical,[]⟩ := h.inside t _ hin
    have hpath : Path J (s.machine,s.thread t) []
        ({ s.machine with inner.io := (J.access acc s.machine.inner.io).1 },
          ⟨.critical,calls (J.access acc s.machine.inner.io).2⟩) := by
      rw [hth]
      exact .silent (.access acc) .silent (by simp) rfl rfl
    rw [h.io]
    exact h.enters hpath (holder_unique hin) h.task rfl h.pending rfl
  | release t hin =>
    have hth : s.thread t = ⟨.critical,[]⟩ := h.inside t _ hin
    have hpath : Path J (s.machine,s.thread t) [] (s.machine,⟨.tick .lockRef .swap,[]⟩) := by
      rw [hth]
      exact .silent .drop .silent (by simp) rfl rfl
    exact h.enters hpath (holder_unique hin) h.task h.io h.pending ⟨.lockRef,rfl⟩
  | wakeCritical t n owed hin =>
    have hth : s.thread t = ⟨.critical,(n,.load) :: calls owed⟩ := h.inside t _ hin
    obtain ⟨w,hpath⟩ := wake_path (J := J) s.machine .critical n (calls owed)
    rw [← hth] at hpath
    refine h.enters hpath (holder_unique hin) h.task h.io ?_ rfl
    rw [h.pending,marked_or_bit]
  | wakeRunning t left k n owed hin =>
    obtain ⟨call,mask,result,hleft,hth⟩ := h.inside t _ hin
    obtain ⟨w,hpath⟩ := wake_path (J := J) s.machine (.tick call (.running mask result k)) n (calls owed)
    change s.thread t = ⟨_,(n,.load) :: calls owed⟩ at hth
    rw [← hth] at hpath
    refine h.enters hpath (holder_unique hin) h.task h.io ?_ ⟨call,mask,result,hleft,rfl⟩
    rw [h.pending,marked_or_bit]
  | wakeOutside t n hout =>
    obtain ⟨w,hwake⟩ := wake_path (J := J) s.machine .idle n []
    have hpath : Path J (s.machine,s.thread t) [.wake n]
        ({ s.machine with wakeMask := s.machine.wakeMask ||| bit n, externalWaker := w },
          ⟨.idle,[]⟩) := by
      rw [h.outside t hout]
      exact (Path.silent (.wake n) (.waking n) (by simp) rfl rfl).trans hwake
    rw [h.pending,← marked_or_bit]
    exact h.stays hpath hout rfl rfl rfl
  | claim t hin => exact h.claim hin
  | poll t left n hin hn hleast => exact h.poll hin hn hleast
  | @act t left n fut fut' io woken obs hin hfut hres =>
    obtain ⟨hsome,hupdate,call,mask,result,hleft,hth⟩ := h.runs hin hfut
    rw [h.io] at hres
    have hpath : Path J (s.machine,s.thread t) [.act n obs]
        ({ s.machine with inner.futures := s.machine.inner.futures.setFut n (some fut'), inner.io := io },
          ⟨.tick call (.running mask result n),calls woken⟩) := by
      rw [hth]
      refine .visible .go (.acted n obs) rfl ?_
      simp only [Thread.next,ProcMachine.tick,hsome,resume_act hres]
    exact h.enters hpath (holder_unique hin) (hupdate _) rfl h.pending ⟨call,mask,result,hleft _,rfl⟩
  | @suspend t left n fut fut' hin hfut hres =>
    obtain ⟨hsome,hupdate,call,mask,result,hleft,hth⟩ := h.runs hin hfut
    rw [h.io] at hres
    have hpath : Path J (s.machine,s.thread t) []
        ({ s.machine with inner.futures := s.machine.inner.futures.setFut n (some fut') },
          ⟨.tick call (.polling mask (result ||| bit n) (n+1)),[]⟩) := by
      rw [hth]
      exact .go (by simp only [Thread.next,ProcMachine.tick,hsome,resume_suspend hres])
    exact h.enters hpath (holder_unique hin) (hupdate _) h.io h.pending
      ⟨call,Or.inr ⟨mask,result ||| bit n,n+1,hleft _,rfl⟩⟩
  | @finish t left n fut hin hfut hres =>
    obtain ⟨hsome,hupdate,call,mask,result,hleft,hth⟩ := h.runs hin hfut
    rw [h.io] at hres
    have hpath : Path J (s.machine,s.thread t) []
        ({ s.machine with inner.futures := s.machine.inner.futures.setFut n none },
          ⟨.tick call (.polling mask result (n+1)),[]⟩) := by
      rw [hth]
      exact .go (by simp only [Thread.next,ProcMachine.tick,hsome,resume_finish hres])
    exact h.enters hpath (holder_unique hin) (hupdate _) h.io h.pending
      ⟨call,Or.inr ⟨mask,result,n+1,hleft _,rfl⟩⟩
  | endRound t hin =>
    obtain ⟨call,⟨-,hth⟩ | ⟨mask,result,n,hnone,hth⟩⟩ := h.inside t _ hin
    · have hpath : Path J (s.machine,s.thread t) [] (s.machine,⟨.tick call .swap,[]⟩) := by
        rw [hth]
        exact .silent .spurious .silent (by simp) rfl rfl
      exact h.enters hpath (holder_unique hin) h.task h.io h.pending ⟨call,rfl⟩
    · obtain ⟨alive,hpath⟩ := endRound_path (J := J) h.sound.supported call mask result n hnone.symm
      rw [← hth] at hpath
      exact h.enters hpath (holder_unique hin) h.task h.io h.pending ⟨call,rfl⟩
  | tick t done hin hnone hdone => exact h.tick hin hnone hdone
  | leave t hin =>
    obtain ⟨call,done,hth⟩ := h.inside t _ hin
    obtain ⟨w,hpath⟩ := leave_path (J := J) s.machine call done
    rw [← hth] at hpath
    exact h.leaves hpath (holder_unique hin) rfl rfl rfl rfl

end Matched

theorem realizes_start (futures : Supported FUT) (io : SharedIo) (builder : Tid) :
    Realizes (Scheduler.start (taskOf futures) io builder)
      (new futures io builder : State Tid W FUT SharedIo) := by
  constructor
  · exact sound_new futures io builder
  · rfl
  · rfl
  · exact marked_zero.symm
  · intro hnone
    cases hnone
  · intro t ph ht
    cases ht
    refine ⟨.new,Or.inr ⟨_,0,1,toPoll_all.symm,?_⟩⟩
    simp [new]
  · intro t ht
    have hne : t ≠ builder := by
      rintro rfl
      exact ht _ rfl
    simp [new,hne]

/-- The scheduler is simulated by the machine. -/
theorem scheduler_simulation (J : Jobs FUT SharedIo OBS ACC) (poller : Tid) :
    Simulation (Scheduler.Step J.program) (Step (W := W) J poller) view shows Realizes where
  matched _ _ _ _ h hstep := h.next hstep

/-- A machine can do exactly what a scheduler can: their runs show the same sequences of wakes,
polls, acts and ticks, and after each sequence they can leave the tasks, the I/O and the set of the
woken tasks in the same states. -/
theorem machine_is_scheduler (W : Type) (J : Jobs FUT SharedIo OBS ACC) (poller builder : Tid)
    (futures : Supported FUT) (io : SharedIo) (shown : List (Tid × Scheduler.Event Task OBS))
    (task : Task → Option FUT) (io' : SharedIo) (pending : Set Task) :
    (∃ es, ∃ s : State Tid W FUT SharedIo, Run (Step J poller) (new futures io builder) es s ∧
      es.flatMap shows = shown ∧ taskOf s.machine.inner.futures = task ∧
      s.machine.inner.io = io' ∧ marked s.machine.wakeMask = pending) ↔
    ∃ fs a, Run (Scheduler.Step J.program) (Scheduler.start (taskOf futures) io builder) fs a ∧
      fs.flatMap view = shown ∧ a.task = task ∧ a.io = io' ∧ a.pending = pending := by
  constructor
  · rintro ⟨es,s,hrun,rfl,rfl,rfl,rfl⟩
    obtain ⟨fs,a,hfs,hshown,ha⟩ := (machine_simulation J poller).run (abstracts_new futures io builder) hrun
    exact ⟨fs,a,hfs,hshown,ha.task,ha.io,ha.pending⟩
  · rintro ⟨fs,a,hrun,rfl,rfl,rfl,rfl⟩
    obtain ⟨es,s,hes,hshown,hs⟩ :=
      (scheduler_simulation (W := W) J poller).run (realizes_start futures io builder) hrun
    exact ⟨es,s,hes,hshown,hs.task.symm,hs.io.symm,hs.pending.symm⟩

end ProcMachine
end ProcMachines
