import ProcMachines.ProcMachineRest
import ProcMachines.ProcMachinePoll

/-! Threads that lock the machine, touch the I/O once and unlock: each of their critical
sections finds the tasks as the tick before has left them. -/
namespace ProcMachines
namespace ProcMachine

open Transition

variable {W FUT SharedIo OBS ACC Tid : Type}

theorem afterTick_ne_critical (call : Caller W) (done : Bool) : afterTick call done ≠ .critical := by
  cases call <;> cases done <;> simp [afterTick]

theorem afterUnlock_ne_critical (call : Caller W) (done : Bool) :
    afterUnlock call done ≠ .critical := by
  cases call <;> cases done <;> simp [afterUnlock]

theorem afterNotify_ne_critical (call : Caller W) : afterNotify call ≠ .critical := by
  cases call <;> simp [afterNotify]

/-- A step that leaves its thread in the critical section makes an access there, or has found
the thread already in it or the mutex free. -/
theorem Steps.critical {J : Jobs FUT SharedIo OBS ACC} {m m' : ProcMachineImpl W FUT SharedIo}
    {th th' : Thread W} {e : Event W OBS} (h : Steps J m th e m' th') (hpc : th'.pc = .critical) :
    (th.pc = .critical ∧ th.wakes = []) ∨
      m'.inner = m.inner ∧ (th.pc = .critical ∨ m.locked = false) := by
  cases h with
  | access acc => exact Or.inl ⟨rfl,rfl⟩
  | lock call hl => exact Or.inr ⟨rfl,Or.inr hl⟩
  | wakeFound | wakeLoad | wakeOutside | wakeInside | wakeRetry | wakeFire =>
    exact Or.inr ⟨rfl,Or.inl hpc⟩
  | tickEnd call => exact absurd hpc (afterTick_ne_critical call _)
  | unlock call done => exact absurd hpc (afterUnlock_ne_critical call done)
  | notify call => exact absurd hpc (afterNotify_ne_critical call)
  | _ => cases hpc

theorem critical_left {J : Jobs FUT SharedIo OBS ACC} {m : ProcMachineImpl W FUT SharedIo}
    {th : Thread W} {c : Choice W ACC} {r : Next W FUT SharedIo OBS}
    (hc : ∀ acc, c ≠ .access acc) (h : th.next J m c = some r) (hpc : th.pc = .critical)
    (hw : th.wakes = []) : r.thread.pc ≠ .critical := by
  obtain ⟨pc,wakes⟩ := th
  subst hpc hw
  cases c with
  | access acc => exact absurd rfl (hc acc)
  | drop =>
    cases h
    simp
  | call call => cases call <;> cases h
  | go | spurious | wake => cases h

variable [DecidableEq Tid]

/-- The steps of threads that make at most one access in each critical section; `used` says
whether the section under way has made its own. -/
inductive Session (J : Jobs FUT SharedIo OBS ACC) (poller : Tid) :
    State Tid W FUT SharedIo × Bool → Tid × Event W OBS → State Tid W FUT SharedIo × Bool → Prop
  | access {s s' t e} (acc) (hcall : callable poller (t,e) = true)
      (h : next J s t (.access acc) = some (s',e)) : Session J poller (s,false) (t,e) (s',true)
  | other {s s' used t e} (c) (hc : ∀ acc, c ≠ .access acc) (hcall : callable poller (t,e) = true)
      (h : next J s t c = some (s',e)) :
      Session J poller (s,used) (t,e) (s',used && s'.machine.locked)

variable {J : Jobs FUT SharedIo OBS ACC} {poller : Tid} {a b : State Tid W FUT SharedIo × Bool}
  {es : List (Tid × Event W OBS)}

theorem Session.step {e : Tid × Event W OBS} (h : Session J poller a e b) :
    Step J poller a.1 e b.1 := by
  cases h with
  | access acc hcall h => exact ⟨hcall,_,h⟩
  | other c hc hcall h => exact ⟨hcall,c,h⟩

theorem Session.run (h : Run (Session J poller) a es b) : Run (Step J poller) a.1 es b.1 := by
  induction h with
  | refl => exact .refl _
  | snoc _ hk ih => exact .snoc ih hk.step

def sessionExec (J : Jobs FUT SharedIo OBS ACC) (poller : Tid) :
    State Tid W FUT SharedIo × Bool → List (Tid × Choice W ACC) →
      Option ((State Tid W FUT SharedIo × Bool) × List (Tid × Event W OBS))
  | a, [] => some (a,[])
  | (s,used), (t,.access acc) :: moves => do
    let (s,e) ← next J s t (.access acc)
    guard (callable poller (t,e) ∧ used = false)
    let (b,es) ← sessionExec J poller (s,true) moves
    return (b,(t,e) :: es)
  | (s,used), (t,c) :: moves => do
    let (s,e) ← next J s t c
    guard (callable poller (t,e))
    let (b,es) ← sessionExec J poller (s,used && s.machine.locked) moves
    return (b,(t,e) :: es)

theorem sessionExec_run {moves : List (Tid × Choice W ACC)}
    (h : sessionExec J poller a moves = some (b,es)) : Run (Session J poller) a es b := by
  induction moves generalizing a es with
  | nil =>
    cases h
    exact .refl _
  | cons move moves ih =>
    obtain ⟨s,used⟩ := a
    obtain ⟨t,c⟩ := move
    by_cases hc : ∃ acc, c = .access acc
    · obtain ⟨acc,rfl⟩ := hc
      simp only [sessionExec,Option.bind_eq_bind,Option.bind_eq_some_iff] at h
      obtain ⟨⟨s₁,e⟩,hnext,⟨⟩,hguard,⟨b',es'⟩,hexec,hret⟩ := h
      cases hret
      have hall : callable poller (t,e) = true ∧ used = false := by
        by_contra hno
        simp [guard,hno] at hguard
      obtain ⟨hcall,rfl⟩ := hall
      exact (Run.single (.access acc hcall hnext)).trans (ih hexec)
    · have hne : ∀ acc, c ≠ .access acc := fun acc h => hc ⟨acc,h⟩
      rw [sessionExec.eq_3 _ _ _ _ _ _ _ (fun acc h => hne acc h)] at h
      simp only [Option.bind_eq_bind,Option.bind_eq_some_iff] at h
      obtain ⟨⟨s₁,e⟩,hnext,⟨⟩,hguard,⟨b',es'⟩,hexec,hret⟩ := h
      cases hret
      have hcall : callable poller (t,e) = true := by
        by_contra hno
        simp [guard,hno] at hguard
      exact (Run.single (.other c hne hcall hnext)).trans (ih hexec)

theorem sessionExec_get {moves : List (Tid × Choice W ACC)}
    (h : (sessionExec J poller a moves).isSome) :
    Run (Session J poller) a ((sessionExec J poller a moves).get h).2
      ((sessionExec J poller a moves).get h).1 :=
  sessionExec_run (Option.some_get h).symm

section Rest

variable {builder : Tid} {futures : Supported FUT} {io : SharedIo}
  {R I : (Task → Option FUT) → SharedIo → Prop} {s : State Tid W FUT SharedIo} {used : Bool}

/-- What holds whenever the mutex is free, every critical section finds before its access. -/
theorem rest_before_access
    (hrest : ∀ es (s : State Tid W FUT SharedIo), Run (Step J poller) (new futures io builder) es s →
      s.machine.locked = false → R (taskOf s.machine.inner.futures) s.machine.inner.io)
    (h : Run (Session J poller) (new futures io builder,false) es b) (hused : b.2 = false) (t : Tid)
    (ht : (b.1.thread t).pc = .critical) :
    R (taskOf b.1.machine.inner.futures) b.1.machine.inner.io := by
  generalize ha : ((new futures io builder : State Tid W FUT SharedIo),false) = a at h
  induction h generalizing t with
  | refl =>
    subst ha
    simp only [new] at ht
    split at ht <;> cases ht
  | @snoc _ _ _ _ h hk ih =>
    subst ha
    have hrun := Session.run h
    have hsound := sound_run (hrun.trans (.single hk.step))
    cases hk with
    | access acc hcall hnext => cases hused
    | @other s s' used u f choice hc hcall hnext =>
      have hlocked := hsound.locked t (by rw [ht]; rfl)
      have hunused : used = false := by
        rw [hlocked] at hused
        simpa using hused
      obtain ⟨r,hr,hs⟩ := Option.map_eq_some_iff.mp hnext
      obtain ⟨rfl,rfl⟩ := Prod.mk.inj hs
      have hsteps := Thread.next_steps hr
      by_cases htu : t = u
      · subst htu
        rw [State.move_self] at ht
        rcases hsteps.critical ht with ⟨hpc,hw⟩ | ⟨hinner,hpc | hfree⟩
        · exact absurd ht (critical_left hc hr hpc hw)
        · rw [State.move_machine,hinner]
          exact ih hunused t hpc
        · rw [State.move_machine,hinner]
          exact hrest _ _ hrun hfree
      · rw [State.move_other _ _ _ _ htu] at ht
        have hkept := (sound_run hrun).inner_kept (t := t) (by rw [ht]; rfl) (Ne.symm htu) hsteps
        rw [State.move_machine,hkept]
        exact ih hunused t ht

theorem kept_session (hJ : Preserves J R I) (hI : I (taskOf futures.1) io)
    (hrest : ∀ es (s : State Tid W FUT SharedIo), Run (Step J poller) (new futures io builder) es s →
      s.machine.locked = false → R (taskOf s.machine.inner.futures) s.machine.inner.io)
    (h : Run (Session J poller) (new futures io builder,false) es b) :
    I (taskOf b.1.machine.inner.futures) b.1.machine.inner.io := by
  generalize ha : ((new futures io builder : State Tid W FUT SharedIo),false) = a at h
  induction h with
  | refl =>
    subst ha
    exact hI
  | @snoc _ _ _ _ h hk ih =>
    subst ha
    cases hk with
    | @access s s' t e acc hcall hnext =>
      have hstep : Step J poller s (t,e) s' := ⟨hcall,_,hnext⟩
      obtain ⟨m,th,hsteps,rfl⟩ := hstep.thread
      refine hJ.steps hsteps (fun hpc _ _ => ?_) ih
      exact rest_before_access hrest h rfl t hpc
    | @other s s' used t e c hc hcall hnext =>
      obtain ⟨r,hr,hs⟩ := Option.map_eq_some_iff.mp hnext
      obtain ⟨rfl,rfl⟩ := Prod.mk.inj hs
      refine hJ.steps (Thread.next_steps hr) (fun hpc hpc' hw => ?_) ih
      exact absurd hpc' (critical_left hc hr hpc hw)

end Rest

end ProcMachine
end ProcMachines
