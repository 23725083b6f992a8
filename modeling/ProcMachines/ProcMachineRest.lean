import ProcMachines.ProcMachineScheduler
import ProcMachines.SchedulerRest

/-! What can be relied on while nobody is inside the mutex, whatever the tasks wait for: two
rules over every run of a machine, one for what the tasks keep of the I/O and one for what they
sleep on. -/
namespace ProcMachines
namespace ProcMachine

open Transition Scheduler

variable {W FUT SharedIo OBS ACC Tid H : Type}

/-- A property of the tasks and the I/O that everything that touches them keeps, a critical
section where it finds them at rest. -/
structure Preserves (J : Jobs FUT SharedIo OBS ACC) (rest I : (Task → Option FUT) → SharedIo → Prop) :
    Prop where
  act : ∀ n task fut io io' woken fut' obs, I task io → task n = some fut →
    J.resume n fut io = .act io' woken fut' obs → I (Function.update task n (some fut')) io'
  pending : ∀ n task fut io fut', I task io → task n = some fut →
    J.resume n fut io = .pending fut' → I (Function.update task n (some fut')) io
  ready : ∀ n task fut io, I task io → task n = some fut →
    J.resume n fut io = .ready → I (Function.update task n none) io
  access : ∀ acc task io, I task io → rest task io → I task (J.access acc io).1

/-- The rules by which the tasks of a machine may sleep. -/
structure Sleeps (J : Jobs FUT SharedIo OBS ACC) (N : Notes OBS H) (inv : SharedIo → Prop)
    (fresh : Task → FUT → Prop) (busy asleep : Task → H → FUT → SharedIo → Prop) : Prop where
  begins : ∀ n fut io, inv io → fresh n fut → busy n N.blank fut io
  act : ∀ n fut io io' woken fut' obs, inv io → J.resume n fut io = .act io' woken fut' obs →
    inv io' ∧ (∀ g, busy n g fut io → busy n (N.note g obs) fut' io' ∨ n ∈ woken) ∧
      ∀ k g f, k ≠ n → asleep k g f io → asleep k g f io' ∨ k ∈ woken
  pending : ∀ n fut io fut', inv io → J.resume n fut io = .pending fut' →
    fresh n fut' ∧ ∀ g, busy n g fut io → asleep n g fut' io
  access : ∀ acc io, inv io → inv (J.access acc io).1 ∧
    ∀ k g f, asleep k g f io → asleep k g f (J.access acc io).1 ∨ k ∈ (J.access acc io).2

section Rules

variable {J : Jobs FUT SharedIo OBS ACC} {N : Notes OBS H} {inv : SharedIo → Prop}
  {fresh : Task → FUT → Prop} {busy asleep : Task → H → FUT → SharedIo → Prop}
  {rest I : (Task → Option FUT) → SharedIo → Prop}
  {m m' : ProcMachineImpl W FUT SharedIo} {th th' : Thread W} {e : Event W OBS}

theorem Sleeps.attends (h : Sleeps J N inv fresh busy asleep) :
    Attends J.program N inv fresh busy asleep where
  begins := h.begins
  act n fut io io' woken fut' obs hinv hres := h.act n fut io io' woken fut' obs hinv (resume_act hres)
  suspend n fut io fut' hinv hres := h.pending n fut io fut' hinv (resume_suspend hres)
  access := h.access

theorem Preserves.steps (hJ : Preserves J rest I) (h : Steps J m th e m' th')
    (hrest : th.pc = .critical → th'.pc = .critical → th.wakes = [] →
      rest (taskOf m.inner.futures) m.inner.io)
    (hI : I (taskOf m.inner.futures) m.inner.io) : I (taskOf m'.inner.futures) m'.inner.io := by
  cases h with
  | access acc => exact hJ.access acc _ _ hI (hrest rfl rfl rfl)
  | taskAct call mask result n hfut hres =>
    rw [taskOf_setFut _ (by rw [hfut]; rfl)]
    exact hJ.act n _ _ _ _ _ _ _ hI hfut hres
  | taskPending call mask result n hfut hres =>
    rw [taskOf_setFut _ (by rw [hfut]; rfl)]
    exact hJ.pending n _ _ _ _ hI hfut hres
  | taskReady call mask result n hfut hres =>
    rw [taskOf_setFut _ (by rw [hfut]; rfl)]
    exact hJ.ready n _ _ _ hI hfut hres
  | _ => exact hI

theorem Preserves.always (hJ : Preserves J rest I) (hrest : ∀ task io, rest task io) :
    Preserves J (fun _ _ => True) I where
  act := hJ.act
  pending := hJ.pending
  ready := hJ.ready
  access acc task io hI _ := hJ.access acc task io hI (hrest task io)

end Rules

variable [DecidableEq Tid]

theorem kept_run {J : Jobs FUT SharedIo OBS ACC} {I : (Task → Option FUT) → SharedIo → Prop}
    (hJ : Preserves J (fun _ _ => True) I) {poller builder : Tid} {futures : Supported FUT} {io : SharedIo}
    (hI : I (taskOf futures) io) {es : List (Tid × Event W OBS)} {s : State Tid W FUT SharedIo}
    (h : Run (Step J poller) (new futures io builder) es s) :
    I (taskOf s.machine.inner.futures) s.machine.inner.io := by
  refine h.invariant (I := fun s => I (taskOf s.machine.inner.futures) s.machine.inner.io) ?_ hI
  rintro s ⟨t,e⟩ s' hs hk
  obtain ⟨m,th,hstep,rfl⟩ := hk.thread
  exact hJ.steps hstep (fun _ _ _ => trivial) hs

/-- Whatever the tasks wait for, if what ends a wait also wakes the waiting task, then in every
reachable state in which the mutex is free each unfinished task waits for something that has
not happened. -/
theorem at_rest_when_free {J : Jobs FUT SharedIo OBS ACC} {N : Notes OBS H} {inv : SharedIo → Prop}
    {fresh : Task → FUT → Prop} {busy asleep : Task → H → FUT → SharedIo → Prop}
    (hJ : Sleeps J N inv fresh busy asleep) {poller builder : Tid} {futures : Supported FUT}
    {io : SharedIo} (hinv : inv io) (hfresh : ∀ n fut, taskOf futures n = some fut → fresh n fut)
    {es : List (Tid × Event W OBS)} {s : State Tid W FUT SharedIo}
    (h : Run (Step J poller) (new futures io builder) es s) (hfree : s.machine.locked = false)
    (n : Task) (fut : FUT) (hn : s.machine.inner.futures.fut n = some fut) :
    asleep n (N.noted (es.flatMap shows) n) fut s.machine.inner.io := by
  obtain ⟨fs,a,hrun,hshown,ha⟩ :=
    (machine_simulation J poller).run (abstracts_new futures io builder) h
  rw [ha.eq_free hfree] at hrun
  rw [← hshown]
  exact nobody_sleeps_in_vain hJ.attends hinv hfresh hrun rfl n fut hn

end ProcMachine
end ProcMachines
