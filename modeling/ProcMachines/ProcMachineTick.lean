import ProcMachines.ProcMachineSteps

/-! No task wake is dropped: when the last compare-exchange of a tick succeeds, every
unfinished task has been polled since it was last woken. -/
namespace ProcMachines
namespace ProcMachine

open Transition

variable {W FUT SharedIo OBS ACC Tid : Type}

/-- Every `wake(i)` that took effect is followed by a poll of task `i`. -/
def Served (i : Task) (es : List (Tid × Event W OBS)) : Prop :=
  ∀ pre t post, es = pre ++ (t,.woke i) :: post → ∃ u, (u,.polled i) ∈ post

/-- The last `wake(i)` that took effect has not been followed by a poll of task `i`. -/
def Owed (i : Task) (es : List (Tid × Event W OBS)) : Prop :=
  Unanswered (fun e => e.2 = .woke i) (fun e => e.2 = .polled i) es

theorem served_of_not_owed {i : Task} {es : List (Tid × Event W OBS)} (h : ¬ Owed i es) :
    Served i es := by
  intro pre t post hes
  by_contra hno
  apply h
  refine ⟨pre,(t,.woke i),post,hes,rfl,fun f hf he => hno ⟨f.1,?_⟩⟩
  rw [← he]
  exact hf

/-- The running poll has claimed the task's wake and has not come to its layer. -/
def Pc.claims : Pc W → Task → Prop
  | .tick _ (.polling mask _ n), i => mask.getLsbD i = true ∧ n ≤ i.val
  | .tick _ (.running mask _ n), i => mask.getLsbD i = true ∧ n < i
  | _, _ => False

theorem Pc.claims_holds {pc : Pc W} {i : Task} (h : pc.claims i) : pc.holds = true := by
  cases pc with
  | tick call pc => rfl
  | idle | locking | critical | unlock | notify | register | ready => cases h

theorem not_claims_afterTick (call : Caller W) (done : Bool) (i : Task) :
    ¬ (afterTick call done).claims i := by
  cases call <;> cases done <;> exact id

section Steps

variable {J : Jobs FUT SharedIo OBS ACC} {m m' : ProcMachineImpl W FUT SharedIo} {th th' : Thread W}
  {e : Event W OBS}

theorem Steps.woke {i : Task} (h : Steps J m th (.woke i) m' th') :
    m'.wakeMask.getLsbD i = true := by
  have hi : (i : ℕ) < 32 := by omega
  cases h with
  | wakeFound pc n rest hm => exact (or_bit_eq_self hi _).mp hm
  | wakeOutside pc rest | wakeInside pc rest => exact getLsbD_or_bit_self _ hi

theorem Steps.present {i : Task} (h : Steps J m th e m' th')
    (hi : (m'.inner.futures.fut i).isSome) : (m.inner.futures.fut i).isSome := by
  cases h with
  | taskAct call mask result n hfut | taskPending call mask result n hfut
  | taskReady call mask result n hfut =>
    by_cases hin : (i : ℕ) = n
    · rw [hin,hfut]
      rfl
    · simp only at hi
      rwa [ProcMachineFutures.fut_setFut_ne _ _ hin] at hi
  | _ => exact hi

theorem Steps.bit_kept {i : Task} (h : Steps J m th e m' th')
    (ht : th.pc.holds = true → Tracks m.inner th.pc) (hi : (m.inner.futures.fut i).isSome)
    (hb : m.wakeMask.getLsbD i = true) : m'.wakeMask.getLsbD i = true ∨ th'.pc.claims i := by
  have hlt : (i : ℕ) < 31 := i.2
  cases h with
  | wakeOutside pc n | wakeInside pc n =>
    left
    simp [hb]
  | claim call hm =>
    right
    have halive : m.inner.aliveMask.getLsbD i = true := (ht rfl i).trans hi
    refine ⟨?_,?_⟩
    · rw [getLsbD_claimed _ _ hlt,halive,hb]
      rfl
    · by_contra h0
      have h0 : (i : ℕ) = 0 := by omega
      rw [h0] at hi
      simp at hi
  | claimNone call hm =>
    exfalso
    have halive : m.inner.aliveMask.getLsbD i = true := (ht rfl i).trans hi
    have hbit := getLsbD_claimed m.inner.aliveMask m.wakeMask hlt
    rw [hm,halive,hb] at hbit
    simp at hbit
  | tickEnd call hm =>
    exfalso
    rw [hm,getLsbD_ticking] at hb
    have h31 : (i : ℕ) = 31 := by simpa using hb
    omega
  | _ => exact Or.inl hb

/-- A claimed wake stays claimed until the task is polled. -/
theorem Steps.claim_kept {i : Task} (h : Steps J m th e m' th')
    (hi : (m.inner.futures.fut i).isSome) (he : e ≠ .polled i) (hc : th.pc.claims i) :
    th'.pc.claims i := by
  cases h with
  | wakeFound | wakeLoad | wakeOutside | wakeInside | wakeRetry | wakeFire => exact hc
  | pollEnd call mask result n hn =>
    exfalso
    rw [ProcMachineFutures.fut_of_DEPTH_lt (Nat.lt_of_lt_of_le hn hc.2)] at hi
    cases hi
  | pollNone call mask result n hn =>
    refine ⟨hc.1,?_⟩
    have hne : n ≠ i := by
      rintro rfl
      rw [hn] at hi
      cases hi
    have hle := hc.2
    omega
  | pollSkip call mask result n hfut hm =>
    refine ⟨hc.1,?_⟩
    have hne : n ≠ i := by
      rintro rfl
      have hb := (and_bit_eq_zero (by omega) mask).mp hm
      rw [hc.1] at hb
      cases hb
    have hle := hc.2
    omega
  | poll call mask result n hfut hm =>
    refine ⟨hc.1,?_⟩
    have hne : n ≠ i := by
      rintro rfl
      exact he rfl
    have hle := hc.2
    exact lt_of_le_of_ne hle hne
  | taskAct call mask result n => exact hc
  | taskPending call mask result n | taskReady call mask result n =>
    exact ⟨hc.1,Nat.succ_le_of_lt hc.2⟩
  | wake | call | lock | access | drop | claim | claimNone | tickEnd | tickAgain | unlock | notify
  | register | ready => exact hc.elim

end Steps

variable [DecidableEq Tid]

/-- An unfinished task that is owed a poll has its bit in `wake_mask` or in the mask that
the running poll has claimed. -/
def Due (es : List (Tid × Event W OBS)) (s : State Tid W FUT SharedIo) : Prop :=
  ∀ i : Task, Owed i es → (s.machine.inner.futures.fut i).isSome →
    s.machine.wakeMask.getLsbD i = true ∨ ∃ t, (s.thread t).pc.claims i

theorem Due.next {J : Jobs FUT SharedIo OBS ACC} {poller : Tid} {s s' : State Tid W FUT SharedIo}
    {es : List (Tid × Event W OBS)} {e : Tid × Event W OBS} (hs : Sound s) (hdue : Due es s)
    (h : Step J poller s e s') : Due (es ++ [e]) s' := by
  rcases e with ⟨t,e⟩
  obtain ⟨m,th,hstep,rfl⟩ := h.thread
  intro i howed hi
  rw [State.move_machine] at hi ⊢
  rcases unanswered_snoc.mp howed with hw | ⟨hold,he⟩
  · simp only at hw
    subst hw
    exact Or.inl hstep.woke
  · have hi0 := hstep.present hi
    rcases hdue i hold hi0 with hb | hclaim
    · rcases hstep.bit_kept (hs.held t) hi0 hb with hb' | hc
      · exact Or.inl hb'
      · exact Or.inr (State.move_new (fun th => th.pc.claims i) hc)
    · exact Or.inr (State.move_some (fun th => th.pc.claims i) hclaim
        fun hc => hstep.claim_kept hi0 he hc)

theorem due_run {J : Jobs FUT SharedIo OBS ACC} {poller builder : Tid} {futures : Supported FUT} {io : SharedIo}
    {es : List (Tid × Event W OBS)} {s : State Tid W FUT SharedIo}
    (h : Run (Step J poller) (new futures io builder) es s) : Due es s := by
  have hboth : Sound s ∧ Due es s := by
    refine Run.history (I := fun es s => Sound s ∧ Due es s) ⟨sound_new futures io builder,?_⟩ ?_ h
    · exact fun i hi => absurd hi (not_unanswered_nil _ _)
    · exact fun es s e s' hs hk => ⟨hs.1.next hk,hs.2.next hs.1 hk⟩
  exact hboth.2

/-- When the last compare-exchange of a tick succeeds, no unfinished task is owed a poll. -/
theorem not_owed_at_tick {J : Jobs FUT SharedIo OBS ACC} {poller builder : Tid} {futures : Supported FUT}
    {io : SharedIo} {es : List (Tid × Event W OBS)} {t : Tid} {done : Bool} {s : State Tid W FUT SharedIo}
    (h : Run (Step J poller) (new futures io builder) (es ++ [(t,.ticked done)]) s) {i : Task}
    (hi : (s.machine.inner.futures.fut i).isSome) : ¬ Owed i es := by
  intro howed
  obtain ⟨s₀,hrun,hlast⟩ := h.snoc_inv
  have hs := sound_run hrun
  have howed' : Owed i (es ++ [(t,.ticked done)]) :=
    unanswered_snoc.mpr (Or.inr ⟨howed,by simp⟩)
  have hdue := due_run h i howed' hi
  obtain ⟨m,th,hstep,rfl⟩ := hlast.thread
  generalize hth : s₀.thread t = old at hstep
  cases hstep with
  | tickEnd call hm =>
    rcases hdue with hb | ⟨u,hu⟩
    · simp at hb
    · by_cases hut : u = t
      · subst hut
        rw [State.move_self] at hu
        exact not_claims_afterTick _ _ _ hu
      · rw [State.move_other _ _ _ _ hut] at hu
        exact hut (hs.exclusive u t (Pc.claims_holds hu) (by rw [hth]; rfl))

/-- No tick drops a wake: in every run of a machine, when the final compare-exchange of a
tick succeeds, every unfinished task has been polled after the last `wake` of it that took
effect; the tick leaves `wake_mask` zero and tells whether every future is `None`. -/
theorem tick_drops_no_wake (J : Jobs FUT SharedIo OBS ACC) (poller builder : Tid) (futures : Supported FUT)
    (io : SharedIo) (es : List (Tid × Event W OBS)) (t : Tid) (done : Bool) (s : State Tid W FUT SharedIo)
    (h : Run (Step J poller) (new futures io builder) (es ++ [(t,.ticked done)]) s) :
    (∀ i : Task, (s.machine.inner.futures.fut i).isSome → Served i es) ∧
    s.machine.wakeMask = 0 ∧
    (done = true ↔ ∀ n, s.machine.inner.futures.fut n = none) := by
  refine ⟨fun i hi => served_of_not_owed (not_owed_at_tick h hi),?_⟩
  obtain ⟨s₀,hrun,hlast⟩ := h.snoc_inv
  obtain ⟨m,th,hstep,rfl⟩ := hlast.thread
  generalize hth : s₀.thread t = old at hstep
  cases hstep with
  | tickEnd call hm =>
    have halive : ∀ i, s₀.machine.inner.aliveMask.getLsbD i =
        (s₀.machine.inner.futures.fut i).isSome := by
      have htracks := (sound_run hrun).held t (by rw [hth]; rfl)
      rw [hth] at htracks
      exact htracks
    refine ⟨rfl,?_⟩
    rw [decide_eq_true_eq,State.move_machine]
    constructor
    · intro h0 n
      have hn := halive n
      rw [h0] at hn
      exact Option.not_isSome_iff_eq_none.mp (by rw [← hn]; simp)
    · intro hnone
      apply BitVec.eq_of_getLsbD_eq
      intro i hi
      rw [halive i,hnone i]
      simp

def crossTasks : Supported (List (Option (List Task))) :=
  ⟨.extension (.extension .base (some [none,some [2]])) (some [none,none]),by decide⟩

def crossMoves : List (Bool × Choice Unit Empty) :=
  go false 6 ++ [(false,.spurious)] ++ go false 3 ++ [(true,.wake 1)] ++ go true 3 ++
    [(true,.call .lockRef)] ++ go true 1 ++ [(true,.drop)] ++ go true 15

def crossRun : State Bool Unit (List (Option (List Task))) Unit × List (Bool × Event Unit Unit) :=
  (exec scripts true (new crossTasks () false) crossMoves).get (by decide +kernel)

/-- The rule at a task woken by its sibling, after the tick has claimed the first mask. -/
theorem tick_drops_no_wake_cross_wake : (true,.woke 2) ∈ crossRun.2 ∧ Served 2 crossRun.2.dropLast := by
  have hlast : crossRun.2 = crossRun.2.dropLast ++ [(true,.ticked false)] := by decide +kernel
  have hrun : Run (Step scripts true) (new crossTasks () false)
      (crossRun.2.dropLast ++ [(true,.ticked false)]) crossRun.1 := by
    rw [← hlast]
    exact exec_get _
  exact ⟨by decide +kernel,(tick_drops_no_wake _ _ _ _ _ _ _ _ _ hrun).1 2 (by decide +kernel)⟩

end ProcMachine
end ProcMachines
