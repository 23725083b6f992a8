import ProcMachines.ProcMachineExchanges
import ProcMachines.ProcMachineSession

/-! The future `WaitLoop`, which calls a closure until it is done, and machines all of whose
tasks are such futures. -/
namespace ProcMachines

open ProcMachine Transition

/-- What a closure answers. -/
inductive Loop (T : Type)
  | done (val : T)
  | again
  | wait
  deriving DecidableEq, Repr

/-- The future, with what its closure has captured and the answer that `poll` has to act on. -/
structure WaitLoop (F T : Type) where
  f : F
  answer : Loop T
  deriving DecidableEq, Repr

namespace WaitLoop

variable {F T O SharedIo ACC W Tid : Type}

/-- Every poll begins with a call of the closure. -/
def waitLoop (f : F) : WaitLoop F T := ⟨f,.again⟩

/-- The jobs of a machine whose tasks are wait loops: the closure of each task, called with
the task's waker, and what the critical sections do. -/
def jobs (closure : Task → F → Act SharedIo (Handle O) (Loop T × F))
    (access : ACC → Act SharedIo (Handle O) Unit) : Jobs (WaitLoop F T) SharedIo (Loop T) ACC where
  resume cx fut io :=
    match fut.answer with
    | .done _ => .ready
    | .again =>
      let out := closure cx fut.f io
      .act out.self (tasksOf out.woken) ⟨out.ret.2,out.ret.1⟩ out.ret.1
    | .wait => .pending (waitLoop fut.f)
  access acc io := ((access acc io).self,tasksOf (access acc io).woken)

section Rules

variable {closure : Task → F → Act SharedIo (Handle O) (Loop T × F)}
  {access : ACC → Act SharedIo (Handle O) Unit}

theorem resume_act {n : Task} {fut fut' : WaitLoop F T} {io io' : SharedIo} {woken : List Task}
    {obs : Loop T} (h : (jobs closure access).resume n fut io = .act io' woken fut' obs) :
    fut.answer = .again ∧ io' = (closure n fut.f io).self ∧
      woken = tasksOf (closure n fut.f io).woken ∧
      fut' = ⟨(closure n fut.f io).ret.2,(closure n fut.f io).ret.1⟩ := by
  simp only [jobs] at h
  split at h
  · cases h
  · rename_i hagain
    cases h
    exact ⟨hagain,rfl,rfl,rfl⟩
  · cases h

theorem resume_pending {n : Task} {fut fut' : WaitLoop F T} {io : SharedIo}
    (h : (jobs closure access).resume n fut io = .pending fut') :
    fut.answer = .wait ∧ fut' = waitLoop fut.f := by
  simp only [jobs] at h
  split at h
  · cases h
  · cases h
  · rename_i hwait
    cases h
    exact ⟨hwait,rfl⟩

theorem resume_ready {n : Task} {fut : WaitLoop F T} {io : SharedIo}
    (h : (jobs closure access).resume n fut io = .ready) : ∃ val, fut.answer = .done val := by
  simp only [jobs] at h
  split at h
  · rename_i val hdone
    exact ⟨val,hdone⟩
  · cases h
  · cases h

/-- A closure that answers `wait` has to be woken when what it waits for happens: `asleep` is
what it may rely on, and whoever ends it wakes the task. -/
structure Waits (closure : Task → F → Act SharedIo (Handle O) (Loop T × F))
    (access : ACC → Act SharedIo (Handle O) Unit) (inv : SharedIo → Prop)
    (asleep : Task → F → SharedIo → Prop) : Prop where
  keeps : ∀ n f io, inv io → inv (closure n f io).self
  wait : ∀ n f io, inv io → (closure n f io).ret.1 = .wait →
    asleep n (closure n f io).ret.2 (closure n f io).self
  others : ∀ n f io k g, inv io → k ≠ n → asleep k g io →
    asleep k g (closure n f io).self ∨ .task k ∈ (closure n f io).woken
  access : ∀ acc io, inv io → inv (access acc io).self ∧
    ∀ k g, asleep k g io → asleep k g (access acc io).self ∨ .task k ∈ (access acc io).woken

theorem Waits.sleeps {inv : SharedIo → Prop} {asleep : Task → F → SharedIo → Prop}
    (h : Waits closure access inv asleep) :
    Sleeps (jobs closure access) .trivial inv (fun _ fut => fut.answer = .again)
      (fun n _ fut io => fut.answer = .wait → asleep n fut.f io)
      (fun n _ fut io => asleep n fut.f io) where
  begins n fut io _ hfresh hwait := by
    rw [hfresh] at hwait
    cases hwait
  act n fut io io' woken fut' obs hinv hres := by
    obtain ⟨hagain,rfl,rfl,rfl⟩ := resume_act hres
    refine ⟨h.keeps n _ io hinv,fun _ _ => Or.inl (h.wait n _ io hinv),fun k _ fut hk hsleep => ?_⟩
    exact (h.others n _ io k fut.f hinv hk hsleep).imp id mem_tasksOf.mpr
  pending n fut io fut' _ hres := by
    obtain ⟨hwait,rfl⟩ := resume_pending hres
    exact ⟨rfl,fun _ hbusy => hbusy hwait⟩
  access acc io hinv := by
    obtain ⟨hinv',hkeep⟩ := h.access acc io hinv
    exact ⟨hinv',fun k _ fut hsleep => (hkeep k fut.f hsleep).imp id mem_tasksOf.mpr⟩

variable [DecidableEq Tid]

/-- While the mutex of a machine of wait loops is free, every unfinished task waits for
something that has not happened. -/
theorem asleep_when_free {inv : SharedIo → Prop} {asleep : Task → F → SharedIo → Prop}
    (hw : Waits closure access inv asleep) {poller builder : Tid} {futures : Supported (WaitLoop F T)}
    {io : SharedIo} (hinv : inv io)
    (hnew : ∀ n fut, taskOf futures.1 n = some fut → fut.answer = .again)
    {es : List (Tid × ProcMachine.Event W (Loop T))} {s : State Tid W (WaitLoop F T) SharedIo}
    (h : Run (Step (jobs closure access) poller) (new futures io builder) es s)
    (hfree : s.machine.locked = false) (n : Task) (fut : WaitLoop F T)
    (hn : s.machine.inner.futures.fut n = some fut) : asleep n fut.f s.machine.inner.io :=
  at_rest_when_free hw.sleeps hinv hnew h hfree n fut hn

end Rules

section Single

variable {closure : F → Act SharedIo (Handle O) (Loop T × F)} {access : ACC → Act SharedIo (Handle O) Unit}

def single (closure : F → Act SharedIo (Handle O) (Loop T × F)) (n : Task) (f : F) :
    Act SharedIo (Handle O) (Loop T × F) :=
  if n = 1 then closure f else return (.wait,f)

def singleFutures (f : F) : Supported (WaitLoop F T) :=
  ⟨.extension .base (some (waitLoop f)),by simp [ProcMachineFutures.DEPTH]⟩

theorem taskOf_singleFutures (f : F) (n : Task) :
    taskOf (singleFutures f : Supported (WaitLoop F T)).1 n = if n = 1 then some (waitLoop f) else none := by
  by_cases hn : n = 1
  · subst hn
    rfl
  · have hne : (n : ℕ) ≠ 1 := fun h => hn (Fin.ext h)
    simp [taskOf,singleFutures,ProcMachineFutures.fut,ProcMachineFutures.DEPTH,hn,hne]

/-- The rules of `Waits` for one task. -/
structure SingleWaits (closure : F → Act SharedIo (Handle O) (Loop T × F))
    (access : ACC → Act SharedIo (Handle O) Unit) (inv : SharedIo → Prop)
    (asleep : F → SharedIo → Prop) : Prop where
  keeps : ∀ f io, inv io → inv (closure f io).self
  wait : ∀ f io, inv io → (closure f io).ret.1 = .wait →
    asleep (closure f io).ret.2 (closure f io).self
  access : ∀ acc io, inv io → inv (access acc io).self ∧
    ∀ f, asleep f io → asleep f (access acc io).self ∨ .task 1 ∈ (access acc io).woken

theorem SingleWaits.waits {inv : SharedIo → Prop} {asleep : F → SharedIo → Prop}
    (h : SingleWaits closure access inv asleep) :
    Waits (single closure) access inv (fun n f io => n = 1 → asleep f io) where
  keeps n f io hinv := by
    by_cases hn : n = 1
    · simpa [single,hn] using h.keeps f io hinv
    · simpa [single,hn] using hinv
  wait n f io hinv hwait hn := by
    subst hn
    exact h.wait f io hinv hwait
  others n f io k g _ hk hsleep := by
    by_cases hn : n = 1
    · exact Or.inl fun hk1 => absurd (hk1.trans hn.symm) hk
    · exact Or.inl (by simpa [single,hn] using hsleep)
  access acc io hinv := by
    obtain ⟨hinv',hkeep⟩ := h.access acc io hinv
    refine ⟨hinv',fun k f hsleep => ?_⟩
    by_cases hk : k = 1
    · subst hk
      exact (hkeep f (hsleep rfl)).imp (fun h _ => h) id
    · exact Or.inl fun hk1 => absurd hk1 hk

/-- What holds while the task is unfinished, and what holds afterwards. -/
def Lasts (K : WaitLoop F T → SharedIo → Prop) (D : SharedIo → Prop)
    (task : Task → Option (WaitLoop F T)) (io : SharedIo) : Prop :=
  match task 1 with
  | some fut => K fut io
  | none => D io

/-- The rules by which one task and the critical sections keep it. -/
structure SinglePreserves (closure : F → Act SharedIo (Handle O) (Loop T × F))
    (access : ACC → Act SharedIo (Handle O) Unit) (rest : F → SharedIo → Prop)
    (K : WaitLoop F T → SharedIo → Prop) (D : SharedIo → Prop) : Prop where
  call : ∀ f io, K (waitLoop f) io → K ⟨(closure f io).ret.2,(closure f io).ret.1⟩ (closure f io).self
  again : ∀ f io, K ⟨f,.wait⟩ io → K (waitLoop f) io
  done : ∀ f val io, K ⟨f,.done val⟩ io → D io
  critical : ∀ acc fut io, K fut io → rest fut.f io → K fut (access acc io).self
  after : ∀ acc io, D io → D (access acc io).self

theorem SinglePreserves.preserves {rest : F → SharedIo → Prop} {K : WaitLoop F T → SharedIo → Prop}
    {D : SharedIo → Prop} (h : SinglePreserves closure access rest K D) :
    Preserves (jobs (single closure) access)
      (fun task io => ∀ fut, task 1 = some fut → rest fut.f io) (Lasts K D) where
  act n task fut io io' woken fut' obs hI hn hres := by
    obtain ⟨hagain,rfl,-,rfl⟩ := resume_act hres
    by_cases hn1 : n = 1
    · subst hn1
      obtain ⟨f,answer⟩ := fut
      cases hagain
      simp only [Lasts,hn] at hI
      simpa [Lasts,single] using h.call f io hI
    · simpa [Lasts,single,hn1,Function.update_of_ne (Ne.symm hn1)] using hI
  pending n task fut io fut' hI hn hres := by
    obtain ⟨hwait,rfl⟩ := resume_pending hres
    by_cases hn1 : n = 1
    · subst hn1
      obtain ⟨f,answer⟩ := fut
      cases hwait
      simp only [Lasts,hn] at hI
      simpa [Lasts] using h.again f io hI
    · simpa [Lasts,Function.update_of_ne (Ne.symm hn1)] using hI
  ready n task fut io hI hn hres := by
    obtain ⟨val,hval⟩ := resume_ready hres
    by_cases hn1 : n = 1
    · subst hn1
      obtain ⟨f,answer⟩ := fut
      cases hval
      simp only [Lasts,hn] at hI
      simpa [Lasts] using h.done f val io hI
    · simpa [Lasts,Function.update_of_ne (Ne.symm hn1)] using hI
  access acc task io hI hrest := by
    cases htask : task 1 with
    | some fut =>
      simp only [Lasts,htask] at hI ⊢
      exact h.critical acc fut io hI (hrest fut htask)
    | none =>
      simp only [Lasts,htask] at hI ⊢
      exact h.after acc io hI

theorem lasts_new {K : WaitLoop F T → SharedIo → Prop} {D : SharedIo → Prop} {f : F} {io : SharedIo}
    (h : K (waitLoop f) io) : Lasts K D (taskOf (singleFutures f).1) io := by
  simpa [Lasts,taskOf_singleFutures] using h

variable [DecidableEq Tid] {inv D : SharedIo → Prop} {asleep : F → SharedIo → Prop}
  {K : WaitLoop F T → SharedIo → Prop} {poller builder : Tid} {f : F} {io : SharedIo}
  {es : List (Tid × ProcMachine.Event W (Loop T))}

theorem single_asleep (hw : SingleWaits closure access inv asleep) (hinv : inv io)
    {s : State Tid W (WaitLoop F T) SharedIo}
    (h : Run (Step (jobs (single closure) access) poller) (new (singleFutures f) io builder) es s)
    (hfree : s.machine.locked = false) (fut : WaitLoop F T)
    (hfut : taskOf s.machine.inner.futures 1 = some fut) : asleep fut.f s.machine.inner.io := by
  have hnew : ∀ n fut, taskOf (singleFutures f : Supported (WaitLoop F T)).1 n = some fut →
      fut.answer = .again := by
    intro n fut hn
    rw [taskOf_singleFutures] at hn
    split at hn
    · cases hn
      rfl
    · cases hn
  exact asleep_when_free hw.waits hinv hnew h hfree 1 fut hfut rfl

theorem single_kept (hK : SinglePreserves closure access (fun _ _ => True) K D)
    (hnew : K (waitLoop f) io) {s : State Tid W (WaitLoop F T) SharedIo}
    (h : Run (Step (jobs (single closure) access) poller) (new (singleFutures f) io builder) es s) :
    Lasts K D (taskOf s.machine.inner.futures) s.machine.inner.io :=
  kept_run (hK.preserves.always fun _ _ _ _ => trivial) (lasts_new hnew) h

/-- The same for critical sections that find the task asleep. -/
theorem single_session (hw : SingleWaits closure access inv asleep) (hinv : inv io)
    (hK : SinglePreserves closure access asleep K D) (hnew : K (waitLoop f) io)
    {b : State Tid W (WaitLoop F T) SharedIo × Bool}
    (h : Run (Session (jobs (single closure) access) poller)
      (new (singleFutures f) io builder,false) es b) :
    Lasts K D (taskOf b.1.machine.inner.futures) b.1.machine.inner.io :=
  kept_session hK.preserves (lasts_new hnew) (fun _ _ hrun hfree => single_asleep hw hinv hrun hfree) h

theorem single_before_access (hw : SingleWaits closure access inv asleep) (hinv : inv io)
    {s : State Tid W (WaitLoop F T) SharedIo}
    (h : Run (Session (jobs (single closure) access) poller)
      (new (singleFutures f) io builder,false) es (s,false)) (t : Tid)
    (ht : (s.thread t).pc = .critical) (fut : WaitLoop F T)
    (hfut : taskOf s.machine.inner.futures 1 = some fut) : asleep fut.f s.machine.inner.io :=
  rest_before_access (R := fun task io => ∀ fut, task 1 = some fut → asleep fut.f io)
    (fun _ _ hrun hfree => single_asleep hw hinv hrun hfree) h rfl t ht fut hfut

end Single

end WaitLoop
end ProcMachines
