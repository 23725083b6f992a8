import ProcMachines.Automaton
import ProcMachines.ProcMachinePoll
import ProcMachines.ProcMachineTick

/-! A critical section wakes some tasks and is left: what its tick does depends only on which
unfinished tasks were woken, not on how, nor on the failures of `compare_exchange_weak`. -/
namespace ProcMachines
namespace ProcMachine

open Transition Automaton

variable {W FUT SharedIo OBS ACC : Type}

/-- The thread that holds the mutex, running alone, with the spurious failures that its
`compare_exchange_weak` is going to meet. -/
structure Solo (W FUT SharedIo : Type) where
  machine : ProcMachineImpl W FUT SharedIo
  thread : Thread W
  failures : List Bool

namespace Solo

/-- The critical section is left when its wakes are made. The pattern says of each
`compare_exchange_weak` whether it fails spuriously; after its end none does. -/
def choice : Thread W → List Bool → Choice W ACC × List Bool
  | ⟨.critical,[]⟩, failures => (.drop,failures)
  | ⟨.tick _ .compareExchange,[]⟩, fails :: failures =>
    (if fails then .spurious else .go,failures)
  | _, failures => (.go,failures)

/-- The next step, to the end of the tick, with the tasks polled. -/
def next (J : Jobs FUT SharedIo OBS ACC) (c : Solo W FUT SharedIo) :
    Move (Solo W FUT SharedIo) Task (ProcMachineImpl W FUT SharedIo × Bool) :=
  let (choice,failures) := choice c.thread c.failures
  match c.thread.next J c.machine choice with
  | none => .stuck
  | some r =>
    match r.event with
    | .ticked done => .ends (r.machine,done)
    | e => .goes e.task.toList ⟨r.machine,r.thread,failures⟩

/-- In a critical section that has called `wake(n)` for these tasks, in this order. -/
def waking (m : ProcMachineImpl W FUT SharedIo) (woken : List Task) (failures : List Bool) :
    Solo W FUT SharedIo := ⟨m,⟨.critical,calls woken⟩,failures⟩

end Solo

def withBits (mask : BitVec 32) (woken : List Task) : BitVec 32 :=
  woken.foldl (fun mask (n : Task) => mask ||| bit n) mask

theorem getLsbD_withBits (mask : BitVec 32) (woken : List Task) (n : Task) :
    (withBits mask woken).getLsbD n = (mask.getLsbD n || decide (n ∈ woken)) := by
  induction woken generalizing mask with
  | nil => simp [withBits]
  | cons k woken ih =>
    have hlt : (n : ℕ) < 32 := by omega
    rw [withBits,List.foldl_cons]
    refine (ih _).trans ?_
    rw [BitVec.getLsbD_or,getLsbD_bit]
    by_cases hnk : n = k
    · subst hnk
      simp [hlt]
    · have hne : ¬ (k : ℕ) = n := fun e => hnk (Fin.ext e.symm)
      simp only [hne,hnk,decide_false,Bool.and_false,Bool.or_false,List.mem_cons,false_or]

variable {J : Jobs FUT SharedIo OBS ACC} {m : ProcMachineImpl W FUT SharedIo} {th : Thread W}
  {failures failures' : List Bool} {w : Option W} {call : Caller W} {n : Task} {woken : List Task}

section Waking

variable {c : Choice W ACC} {r : Next W FUT SharedIo OBS}

theorem next_of_step (hchoice : Solo.choice th failures = (c,failures'))
    (hnext : th.next J m c = some r) (hdone : ∀ done, r.event ≠ .ticked done) :
    Solo.next J ⟨m,th,failures⟩ = .goes r.event.task.toList ⟨r.machine,r.thread,failures'⟩ := by
  simp only [Solo.next,hchoice,hnext]

theorem next_goes {shown : List Task} {s : Solo W FUT SharedIo}
    (h : Solo.next J ⟨m,th,failures⟩ = .goes shown s)
    (hchoice : Solo.choice th failures = (c,failures')) : ∃ r, th.next J m c = some r ∧
      (∀ done, r.event ≠ .ticked done) ∧ shown = r.event.task.toList ∧
      s = ⟨r.machine,r.thread,failures'⟩ := by
  simp only [Solo.next,hchoice] at h
  split at h
  · cases h
  · rename_i r hnext
    split at h
    · cases h
    · rename_i hdone
      cases h
      exact ⟨r,hnext,hdone,rfl,rfl⟩

theorem next_ends {result : ProcMachineImpl W FUT SharedIo × Bool}
    (h : Solo.next J ⟨m,th,failures⟩ = .ends result)
    (hchoice : Solo.choice th failures = (c,failures')) : ∃ r, th.next J m c = some r ∧
      r.event = .ticked result.2 ∧ r.machine = result.1 := by
  simp only [Solo.next,hchoice] at h
  split at h
  · cases h
  · rename_i r hnext
    split at h
    · rename_i done hdone
      cases h
      exact ⟨r,hnext,hdone,rfl⟩
    · cases h

theorem goes_of_silent {m' : ProcMachineImpl W FUT SharedIo} {th' : Thread W} {e : Event W OBS}
    (hchoice : Solo.choice th failures = (c,failures'))
    (hnext : th.next J m c = some ⟨m',th',e⟩) (hdone : ∀ done, e ≠ .ticked done)
    (htask : e.task = none) :
    Reaches (Solo.next J) ⟨m,th,failures⟩ [] ⟨m',th',failures'⟩ := by
  apply Reaches.single
  rw [next_of_step hchoice hnext hdone]
  simp only [htask,Option.toList_none]

theorem wake_reaches (m : ProcMachineImpl W FUT SharedIo) (n : Task) (rest : List (Task × WakePc))
    (failures : List Bool) :
    ∃ w, Reaches (Solo.next J) ⟨m,⟨.critical,(n,.load) :: rest⟩,failures⟩ []
      ⟨{ m with wakeMask := m.wakeMask ||| bit n, externalWaker := w },⟨.critical,rest⟩,
        failures⟩ := by
  by_cases hset : m.wakeMask ||| bit n = m.wakeMask
  · refine ⟨m.externalWaker,?_⟩
    rw [hset]
    apply goes_of_silent (J := J) (e := .woke n) rfl _ (by simp) rfl
    simp [Thread.next,wake,hset]
  · have hload : Reaches (Solo.next J) ⟨m,⟨.critical,(n,.load) :: rest⟩,failures⟩ []
        ⟨m,⟨.critical,(n,.compareExchange m.wakeMask) :: rest⟩,failures⟩ := by
      apply goes_of_silent (J := J) (e := .silent) rfl _ (by simp) rfl
      simp [Thread.next,wake,hset]
    by_cases hflag : m.wakeMask &&& ticking = 0
    · refine ⟨none,hload.trans ?_⟩
      have hswap : Reaches (Solo.next J)
          ⟨m,⟨.critical,(n,.compareExchange m.wakeMask) :: rest⟩,failures⟩ []
          ⟨{ m with wakeMask := m.wakeMask ||| bit n },⟨.critical,(n,.fire) :: rest⟩,failures⟩ := by
        apply goes_of_silent (J := J) (e := .woke n) rfl _ (by simp) rfl
        simp [Thread.next,wake,hflag]
      refine hswap.trans ?_
      apply goes_of_silent (J := J) (e := .fired m.externalWaker) rfl _ (by simp) rfl
      simp [Thread.next,wake]
    · refine ⟨m.externalWaker,hload.trans ?_⟩
      apply goes_of_silent (J := J) (e := .woke n) rfl _ (by simp) rfl
      simpa [Thread.next,wake] using hflag

theorem waking_reaches (m : ProcMachineImpl W FUT SharedIo) (woken : List Task)
    (failures : List Bool) : ∃ w, Reaches (Solo.next J) (Solo.waking m woken failures) []
      ⟨{ m with wakeMask := withBits m.wakeMask woken, externalWaker := w },⟨.critical,[]⟩,
        failures⟩ := by
  induction woken generalizing m with
  | nil => exact ⟨m.externalWaker,Reaches.refl _⟩
  | cons n woken ih =>
    obtain ⟨w,hwake⟩ := wake_reaches (J := J) m n (calls woken) failures
    obtain ⟨w',hrest⟩ := ih { m with wakeMask := m.wakeMask ||| bit n, externalWaker := w }
    exact ⟨w',hwake.trans hrest⟩

def claimed (m : ProcMachineImpl W FUT SharedIo) (wakeMask : BitVec 32) : BitVec 32 :=
  m.inner.aliveMask &&& wakeMask &&& 0x7FFFFFFF#32

/-- The machine and the thread after a swap that has claimed this. -/
def afterSwap (m : ProcMachineImpl W FUT SharedIo) (call : Caller W) (mask : BitVec 32)
    (failures : List Bool) : Solo W FUT SharedIo :=
  ⟨{ m with wakeMask := ticking },
    ⟨.tick call (if mask ≠ 0 then .polling mask 0 1 else .compareExchange),[]⟩,failures⟩

theorem swap_reaches (m : ProcMachineImpl W FUT SharedIo) (call : Caller W) (failures : List Bool) :
    Reaches (Solo.next J) ⟨m,⟨.tick call .swap,[]⟩,failures⟩ []
      (afterSwap m call (claimed m m.wakeMask) failures) :=
  goes_of_silent (e := .silent) rfl rfl (by simp) rfl

theorem release_reaches (m : ProcMachineImpl W FUT SharedIo) (woken : List Task)
    (failures : List Bool) : ∃ w, Reaches (Solo.next J) (Solo.waking m woken failures) []
      (afterSwap { m with externalWaker := w } .lockRef
        (claimed m (withBits m.wakeMask woken)) failures) := by
  obtain ⟨w,hwaking⟩ := waking_reaches (J := J) m woken failures
  have hdrop : Reaches (Solo.next J)
      ⟨{ m with wakeMask := withBits m.wakeMask woken, externalWaker := w },⟨.critical,[]⟩,
        failures⟩ []
      ⟨{ m with wakeMask := withBits m.wakeMask woken, externalWaker := w },
        ⟨.tick .lockRef .swap,[]⟩,failures⟩ := goes_of_silent (e := .silent) rfl rfl (by simp) rfl
  have hswap := swap_reaches (J := J)
    { m with wakeMask := withBits m.wakeMask woken, externalWaker := w } .lockRef failures
  exact ⟨w,hwaking.trans (hdrop.trans hswap)⟩

theorem claimed_eq {woken₁ woken₂ : List Task}
    (h : ∀ n : Task, m.inner.aliveMask.getLsbD n = true → (n ∈ woken₁ ↔ n ∈ woken₂)) :
    claimed m (withBits m.wakeMask woken₁) = claimed m (withBits m.wakeMask woken₂) := by
  apply BitVec.eq_of_getLsbD_eq
  intro i hi
  by_cases hlt : i < 31
  · rw [claimed,claimed,getLsbD_claimed _ _ hlt,getLsbD_claimed _ _ hlt]
    have h₁ := getLsbD_withBits m.wakeMask woken₁ ⟨i,hlt⟩
    have h₂ := getLsbD_withBits m.wakeMask woken₂ ⟨i,hlt⟩
    cases halive : m.inner.aliveMask.getLsbD i with
    | false => rfl
    | true =>
      simp only [h₁,h₂,Bool.true_and]
      simp only [h ⟨i,hlt⟩ halive]
  · obtain rfl : i = 31 := by omega
    simp [claimed]

end Waking

section Ticking

theorem and_ticking_eq_zero (x : BitVec 32) : x &&& ticking = 0 ↔ x.getLsbD 31 = false := by
  rw [ticking_eq]
  exact and_bit_eq_zero (by decide) x

/-- In a tick, on the way to its `compare_exchange_weak`: the flag is up, and every wake that
is under way has seen it. -/
structure Busy (m : ProcMachineImpl W FUT SharedIo) (th : Thread W) : Prop where
  pc : ∃ call pc, th.pc = .tick call pc ∧ pc ≠ .compareExchange
  flag : m.wakeMask.getLsbD 31 = true
  wakes : ∀ w ∈ th.wakes, w.2 = .load ∨ ∃ old, w.2 = .compareExchange old ∧ old &&& ticking ≠ 0

/-- In a tick, at its `compare_exchange_weak` or at the swap after a spurious failure. -/
inductive Idle (call : Caller W) : Thread W → Prop
  | swap : Idle call ⟨.tick call .swap,[]⟩
  | compareExchange : Idle call ⟨.tick call .compareExchange,[]⟩

theorem Busy.choice (h : Busy m th) (failures : List Bool) :
    (Solo.choice th failures : Choice W ACC × List Bool) = (.go,failures) := by
  obtain ⟨call,pc,hpc,hne⟩ := h.pc
  rcases th with ⟨thpc,wakes⟩
  obtain rfl : thpc = Pc.tick call pc := hpc
  cases pc with
  | compareExchange => exact absurd rfl hne
  | swap | polling | running => cases wakes <;> rfl

theorem Busy.rest {pc : Pc W} {w w' : Task × WakePc} {rest : List (Task × WakePc)}
    (h : Busy m ⟨pc,w :: rest⟩) (hw : w'.2 = .load ∨ ∃ old, w'.2 = .compareExchange old ∧
      old &&& ticking ≠ 0) : Busy m ⟨pc,w' :: rest⟩ := by
  refine ⟨h.pc,h.flag,fun v hv => ?_⟩
  rcases List.mem_cons.mp hv with rfl | hv
  · exact hw
  · exact h.wakes v (List.mem_cons_of_mem _ hv)

theorem Busy.tail {pc : Pc W} {w : Task × WakePc} {rest : List (Task × WakePc)}
    (h : Busy m ⟨pc,w :: rest⟩) : Busy m ⟨pc,rest⟩ :=
  ⟨h.pc,h.flag,fun v hv => h.wakes v (List.mem_cons_of_mem _ hv)⟩

theorem Busy.not_fire {pc : Pc W} {rest : List (Task × WakePc)}
    (h : Busy m ⟨pc,(n,.fire) :: rest⟩) : False := by
  rcases h.wakes (n,.fire) (by simp) with hw | ⟨old,hw,_⟩
  · cases hw
  · cases hw

theorem Steps.busy {m' : ProcMachineImpl W FUT SharedIo} {th' : Thread W} {e : Event W OBS}
    (h : Steps J m th e m' th') (hb : Busy m th) : (∀ done, e ≠ .ticked done) ∧
      (Busy m' th' ∨ m'.wakeMask = ticking ∧ ∃ call, th' = ⟨.tick call .compareExchange,[]⟩) := by
  have hflag := hb.flag
  obtain ⟨call,pc,hpc,hne⟩ := hb.pc
  cases h with
  | wakeFound => exact ⟨by simp,Or.inl hb.tail⟩
  | wakeLoad =>
    refine ⟨by simp,Or.inl (hb.rest (Or.inr ⟨m.wakeMask,rfl,?_⟩))⟩
    rw [ne_eq,and_ticking_eq_zero,hflag]
    simp
  | wakeOutside pc n rest hout =>
    rw [and_ticking_eq_zero,hflag] at hout
    cases hout
  | wakeInside =>
    refine ⟨by simp,Or.inl ⟨hb.pc,?_,hb.tail.wakes⟩⟩
    simp only [BitVec.getLsbD_or,hflag,Bool.true_or]
  | wakeRetry => exact ⟨by simp,Or.inl (hb.rest (Or.inl rfl))⟩
  | wakeFire => exact hb.not_fire.elim
  | claim => exact ⟨by simp,Or.inl ⟨⟨_,_,rfl,by simp⟩,by simp,by simp⟩⟩
  | claimNone => exact ⟨by simp,Or.inr ⟨rfl,_,rfl⟩⟩
  | pollEnd | pollNone | pollSkip | poll | taskPending | taskReady =>
    exact ⟨by simp,Or.inl ⟨⟨_,_,rfl,by simp⟩,hflag,by simp⟩⟩
  | taskAct =>
    refine ⟨by simp,Or.inl ⟨⟨_,_,rfl,by simp⟩,hflag,fun w hw => Or.inl ?_⟩⟩
    obtain ⟨n,_,rfl⟩ := List.mem_map.mp hw
    rfl
  | tickEnd | tickAgain =>
    cases hpc
    exact absurd rfl hne
  | wake | call | lock | access | drop | unlock | notify | register | ready => cases hpc

/-- What a busy tick does next does not depend on the external waker. -/
theorem Busy.next_eq (hb : Busy m th) (w : Option W) :
    th.next J { m with externalWaker := w } .go = (th.next J m .go).map fun r =>
      ⟨{ r.machine with externalWaker := w },r.thread,r.event⟩ := by
  obtain ⟨call,pc,hpc,hne⟩ := hb.pc
  rcases th with ⟨thpc,_ | ⟨⟨n,wpc⟩,rest⟩⟩
  · obtain rfl : thpc = Pc.tick call pc := hpc
    cases pc with
    | compareExchange => exact absurd rfl hne
    | swap => rfl
    | polling mask result n =>
      simp only [Thread.next,tick]
      split
      · rfl
      · split
        · rfl
        · split
          · rfl
          · cases getMultiWaker n <;> rfl
    | running mask result n =>
      simp only [Thread.next,tick]
      split
      · rfl
      · split <;> rfl
  · cases wpc with
    | load =>
      simp only [Thread.next,wake]
      split <;> rfl
    | compareExchange old =>
      simp only [Thread.next,wake]
      split
      · split <;> rfl
      · rfl
    | fire => exact hb.not_fire.elim

theorem claimed_ticking (m : ProcMachineImpl W FUT SharedIo) : claimed m ticking = 0 := by
  have h : ticking &&& 0x7FFFFFFF#32 = 0 := by decide
  rw [claimed,BitVec.and_assoc,h]
  exact BitVec.and_zero

theorem idle_swap (hm : m.wakeMask = ticking) :
    Solo.next J ⟨m,⟨.tick call .swap,[]⟩,failures⟩ =
      .goes [] ⟨m,⟨.tick call .compareExchange,[]⟩,failures⟩ := by
  have hsame : { m with wakeMask := ticking } = m := by rw [← hm]
  have hmask : m.inner.aliveMask &&& m.wakeMask &&& 0x7FFFFFFF#32 = 0 := by
    rw [hm]
    exact claimed_ticking m
  simp [Solo.next,Solo.choice,Thread.next,tick,hmask,hsame,Event.task]

/-- With nothing left to claim the tick ends, however often the `compare_exchange_weak`
fails first. -/
theorem Idle.ends (hm : m.wakeMask = ticking) (h : Idle call th) :
    Ends (Solo.next J) ⟨m,th,failures⟩ []
      ({ m with wakeMask := 0 },decide (m.inner.aliveMask = 0)) := by
  have hexchange : Ends (Solo.next J) ⟨m,⟨.tick call .compareExchange,[]⟩,failures⟩ []
      ({ m with wakeMask := 0 },decide (m.inner.aliveMask = 0)) := by
    induction failures with
    | nil =>
      apply Ends.ends
      simp [Solo.next,Solo.choice,Thread.next,tick,hm]
    | cons fails failures ih =>
      cases fails with
      | false =>
        apply Ends.ends
        simp [Solo.next,Solo.choice,Thread.next,tick,hm]
      | true =>
        have hagain : Solo.next J ⟨m,⟨.tick call .compareExchange,[]⟩,true :: failures⟩ =
            .goes [] ⟨m,⟨.tick call .swap,[]⟩,failures⟩ := rfl
        exact .goes hagain (.goes (idle_swap hm) ih)
  cases h with
  | swap => exact .goes (idle_swap hm) hexchange
  | compareExchange => exact hexchange

theorem Idle.goes (hm : m.wakeMask = ticking) (h : Idle call th) {shown : List Task}
    {s : Solo W FUT SharedIo} (hgoes : Solo.next J ⟨m,th,failures⟩ = .goes shown s) :
    shown = [] ∧ ∃ th' failures', s = ⟨m,th',failures'⟩ ∧ Idle call th' := by
  cases h with
  | swap =>
    rw [idle_swap hm] at hgoes
    cases hgoes
    exact ⟨rfl,_,_,rfl,.compareExchange⟩
  | compareExchange =>
    obtain ⟨r,hnext,hdone,rfl,rfl⟩ := next_goes hgoes rfl
    have hsteps := Thread.next_steps hnext
    generalize hevent : r.event = e at hsteps hdone
    generalize hmachine : r.machine = m' at hsteps
    generalize hthread : r.thread = th' at hsteps
    cases hsteps with
    | tickEnd => exact absurd rfl (hdone _)
    | tickAgain => exact ⟨rfl,_,_,rfl,.swap⟩

/-- Two ticks that line up: what is left to do is the same, up to the external waker, or
neither has anything left but to end. -/
inductive Alike : Solo W FUT SharedIo → Solo W FUT SharedIo → Prop
  | busy (m : ProcMachineImpl W FUT SharedIo) (th : Thread W) (w : Option W)
      (failures failures' : List Bool) (h : Busy m th) :
    Alike ⟨m,th,failures⟩ ⟨{ m with externalWaker := w },th,failures'⟩
  | idle (m : ProcMachineImpl W FUT SharedIo) (call : Caller W) (th th' : Thread W)
      (w : Option W) (failures failures' : List Bool) (hm : m.wakeMask = ticking)
      (h : Idle call th) (h' : Idle call th') :
    Alike ⟨m,th,failures⟩ ⟨{ m with externalWaker := w },th',failures'⟩

/-- Results that are the same up to the external waker. -/
def Agree (r r' : ProcMachineImpl W FUT SharedIo × Bool) : Prop :=
  ∃ w, r' = ({ r.1 with externalWaker := w },r.2)

/-- A busy tick takes one step for each of the other's; one that has nothing left waits
until the other ends. -/
theorem alike_simulates (J : Jobs FUT SharedIo OBS ACC) :
    Simulates (Solo.next (W := W) J) (Solo.next J) Alike Agree where
  ends s t r hrel hends := by
    cases hrel with
    | busy m th w failures failures' h =>
      obtain ⟨r',hnext,hevent,_⟩ := next_ends hends (h.choice failures)
      exact absurd hevent ((Thread.next_steps hnext).busy h |>.1 _)
    | idle m call th th' w failures failures' hm h h' =>
      obtain ⟨_,rfl⟩ := (Ends.ends hends).unique (h.ends hm)
      exact ⟨_,h'.ends hm,w,rfl⟩
  goes s t shown s' hrel hgoes := by
    cases hrel with
    | busy m th w failures failures' h =>
      obtain ⟨r,hnext,hdone,rfl,rfl⟩ := next_goes hgoes (h.choice failures)
      have hnext' := h.next_eq (J := J) w
      rw [hnext,Option.map_some] at hnext'
      have hmatch := next_of_step (h.choice failures') hnext' fun done => hdone done
      refine ⟨_,Reaches.single hmatch,?_⟩
      rcases ((Thread.next_steps hnext).busy h).2 with hbusy | ⟨hmask,call,hthread⟩
      · exact .busy _ _ _ _ _ hbusy
      · exact .idle _ call _ _ _ _ _ hmask (hthread ▸ .compareExchange)
          (hthread ▸ .compareExchange)
    | idle m call th th' w failures failures' hm h h' =>
      obtain ⟨rfl,th₁,failures₁,rfl,h₁⟩ := h.goes hm hgoes
      exact ⟨_,Reaches.refl _,.idle _ call _ _ _ _ _ hm h₁ h'⟩

/-- After swaps that have claimed the same, the ticks line up. -/
theorem alike_afterSwap (m : ProcMachineImpl W FUT SharedIo) (call : Caller W) (mask : BitVec 32)
    (w w' : Option W) (failures failures' : List Bool) :
    Alike (afterSwap { m with externalWaker := w } call mask failures)
      (afterSwap { m with externalWaker := w' } call mask failures') := by
  by_cases hmask : mask = 0
  · simp only [afterSwap,hmask,ne_eq,not_true_eq_false,if_false]
    exact .idle _ call _ _ w' _ _ rfl .compareExchange .compareExchange
  · simp only [afterSwap,ne_eq,hmask,not_false_eq_true,if_true]
    exact .busy _ _ w' _ _ ⟨⟨call,_,rfl,by simp⟩,by simp,by simp⟩

theorem Steps.ticked {m' : ProcMachineImpl W FUT SharedIo} {th' : Thread W} {done : Bool}
    (h : Steps J m th (.ticked done) m' th') : m'.wakeMask = 0 := by
  cases h
  rfl

theorem ends_wakeMask {s : Solo W FUT SharedIo} {polled : List Task}
    {r : ProcMachineImpl W FUT SharedIo × Bool} (h : Ends (Solo.next J) s polled r) :
    r.1.wakeMask = 0 := by
  induction h with
  | @ends s r h =>
    obtain ⟨next,hnext,hevent,hmachine⟩ := next_ends (m := s.machine) h rfl
    have hsteps := Thread.next_steps hnext
    rw [hevent,hmachine] at hsteps
    exact hsteps.ticked
  | goes _ _ ih => exact ih

/-- What the tick of a critical section does is settled by the unfinished tasks it wakes. -/
theorem release_agrees {woken₁ woken₂ : List Task} (failures₁ failures₂ : List Bool)
    (h : ∀ n : Task, m.inner.aliveMask.getLsbD n = true → (n ∈ woken₁ ↔ n ∈ woken₂))
    {polled : List Task} {r : ProcMachineImpl W FUT SharedIo × Bool}
    (hends : Ends (Solo.next J) (Solo.waking m woken₁ failures₁) polled r) :
    ∃ r', Ends (Solo.next J) (Solo.waking m woken₂ failures₂) polled r' ∧ Agree r r' := by
  obtain ⟨w₁,hreach₁⟩ := release_reaches (J := J) m woken₁ failures₁
  obtain ⟨w₂,hreach₂⟩ := release_reaches (J := J) m woken₂ failures₂
  rw [claimed_eq h] at hreach₁
  have halike := alike_afterSwap m .lockRef (claimed m (withBits m.wakeMask woken₂)) w₁ w₂
    failures₁ failures₂
  obtain ⟨r',hends',hagree⟩ := (alike_simulates J).run halike (hreach₁.silent_iff.mp hends)
  exact ⟨r',hreach₂.silent_iff.mpr hends',hagree⟩

end Ticking

section Runs

variable {Tid : Type} [DecidableEq Tid] {poller t : Tid} {s : State Tid W FUT SharedIo}

omit [DecidableEq Tid] in
theorem not_called {c : Choice W ACC} {r : Next W FUT SharedIo OBS}
    (hchoice : Solo.choice th failures = (c,failures')) (hnext : th.next J m c = some r)
    (call : Caller W) : r.event ≠ .called call := by
  intro hevent
  have hsteps := Thread.next_steps hnext
  rw [hevent] at hsteps
  generalize r.machine = m' at hsteps
  generalize r.thread = th' at hsteps
  cases hsteps
  cases hchoice
  cases hnext

theorem solo_step (poller : Tid) {c : Choice W ACC} {r : Next W FUT SharedIo OBS}
    (hmachine : s.machine = m) (hthread : s.thread t = th)
    (hchoice : Solo.choice th failures = (c,failures')) (hnext : th.next J m c = some r) :
    Step J poller s (t,r.event) (s.move t r.machine r.thread) := by
  subst hmachine hthread
  refine ⟨?_,c,by simp only [next,hnext,Option.map_some]⟩
  have hcalled := not_called hchoice hnext
  unfold callable
  split
  · rename_i heq
    exact absurd (Prod.mk.inj heq).2 (hcalled _)
  · rfl

theorem solo_run (poller t : Tid) {c : Solo W FUT SharedIo} {polled : List Task}
    {r : ProcMachineImpl W FUT SharedIo × Bool} (h : Ends (Solo.next J) c polled r)
    (hmachine : s.machine = c.machine) (hthread : s.thread t = c.thread) :
    ∃ es s', Run (Step J poller) s (es ++ [(t,.ticked r.2)]) s' ∧ (∀ e ∈ es, e.1 = t) ∧
      polledBy t es = polled ∧ s'.machine = r.1 := by
  induction h generalizing s with
  | @ends c r h =>
    obtain ⟨⟨choice,failures⟩,hchoice⟩ :
      ∃ x : Choice W ACC × List Bool, Solo.choice c.thread c.failures = x := ⟨_,rfl⟩
    obtain ⟨r',hnext,hevent,hresult⟩ := next_ends (m := c.machine) h hchoice
    have hstep := solo_step poller hmachine hthread hchoice hnext
    rw [hevent] at hstep
    exact ⟨[],_,Run.single hstep,by simp,rfl,hresult⟩
  | @goes c c' shown polled r h _ ih =>
    obtain ⟨⟨choice,failures⟩,hchoice⟩ :
      ∃ x : Choice W ACC × List Bool, Solo.choice c.thread c.failures = x := ⟨_,rfl⟩
    obtain ⟨r',hnext,-,rfl,rfl⟩ := next_goes (m := c.machine) h hchoice
    have hstep := solo_step poller hmachine hthread hchoice hnext
    obtain ⟨es,s',hrun,hall,hpolled,hresult⟩ :=
      ih (s := s.move t r'.machine r'.thread) rfl (by simp)
    refine ⟨(t,r'.event) :: es,s',(Run.single hstep).trans hrun,?_,?_,hresult⟩
    · simpa using hall
    · simp only [polledBy,List.flatMap_cons,if_true]
      exact congrArg _ hpolled

theorem release_run (poller : Tid) {acc : ACC} (hthread : s.thread t = ⟨.critical,[]⟩)
    (hacc : J.access acc s.machine.inner.io = (s.machine.inner.io,woken)) {polled : List Task}
    {r : ProcMachineImpl W FUT SharedIo × Bool}
    (h : Ends (Solo.next J) (Solo.waking s.machine woken failures) polled r) :
    ∃ es s', Run (Step J poller) s (es ++ [(t,.ticked r.2)]) s' ∧ (∀ e ∈ es, e.1 = t) ∧
      polledBy t es = polled ∧ s'.machine = r.1 := by
  have hnext : next J s t (.access acc) =
      some (s.move t s.machine ⟨.critical,calls woken⟩,.silent) := by
    simp only [next,Thread.next,hthread,hacc,Option.map_some]
  have hstep : Step J poller s (t,.silent) (s.move t s.machine ⟨.critical,calls woken⟩) :=
    ⟨rfl,.access acc,hnext⟩
  obtain ⟨es,s',hrun,hall,hpolled,hresult⟩ :=
    solo_run (s := s.move t s.machine ⟨.critical,calls woken⟩) poller t h rfl
      (by simp [Solo.waking])
  refine ⟨(t,.silent) :: es,s',(Run.single hstep).trans hrun,?_,?_,hresult⟩
  · simpa using hall
  · simpa [polledBy,Event.task] using hpolled

end Runs

/-- Scheduling does not depend on how wakes arrive: in every reachable state in which a
thread is in its critical section, whatever the tasks, for any two sequences of `wake(n)`
with the same unfinished tasks and any two patterns of spurious failures, the tick at the
lock's release ends in both cases or in neither; it polls the same tasks in the same order,
and leaves the same futures, `alive_mask` and I/O, and `wake_mask` zero. -/
theorem ticks_deterministic {Tid : Type} [DecidableEq Tid] (J : Jobs FUT SharedIo OBS ACC)
    (poller builder t : Tid) (futures : Supported FUT) (io : SharedIo)
    (es : List (Tid × Event W OBS)) (s : State Tid W FUT SharedIo)
    (h : Run (Step J poller) (new futures io builder) es s) (ht : s.thread t = ⟨.critical,[]⟩)
    (woken₁ woken₂ : List Task)
    (hwoken : ∀ n : Task, (s.machine.inner.futures.fut n).isSome → (n ∈ woken₁ ↔ n ∈ woken₂))
    (failures₁ failures₂ : List Bool) :
    ((∃ polled r, Ends (Solo.next J) (Solo.waking s.machine woken₁ failures₁) polled r) ↔
      ∃ polled r, Ends (Solo.next J) (Solo.waking s.machine woken₂ failures₂) polled r) ∧
    ∀ polled₁ r₁ polled₂ r₂,
      Ends (Solo.next J) (Solo.waking s.machine woken₁ failures₁) polled₁ r₁ →
      Ends (Solo.next J) (Solo.waking s.machine woken₂ failures₂) polled₂ r₂ →
      polled₁ = polled₂ ∧ r₁.1.inner = r₂.1.inner ∧ r₁.2 = r₂.2 ∧
        r₁.1.wakeMask = 0 ∧ r₂.1.wakeMask = 0 := by
  have htracks := (sound_run h).held t (by rw [ht]; rfl)
  rw [ht] at htracks
  have halive : ∀ n : Task, s.machine.inner.aliveMask.getLsbD n = true →
      (n ∈ woken₁ ↔ n ∈ woken₂) := by
    intro n hn
    exact hwoken n (by rw [← htracks n]; exact hn)
  refine ⟨⟨?_,?_⟩,?_⟩
  · rintro ⟨polled,r,hends⟩
    obtain ⟨r',hends',_⟩ := release_agrees failures₁ failures₂ halive hends
    exact ⟨polled,r',hends'⟩
  · rintro ⟨polled,r,hends⟩
    obtain ⟨r',hends',_⟩ :=
      release_agrees failures₂ failures₁ (fun n hn => (halive n hn).symm) hends
    exact ⟨polled,r',hends'⟩
  · intro polled₁ r₁ polled₂ r₂ h₁ h₂
    obtain ⟨r',hends',w,rfl⟩ := release_agrees failures₁ failures₂ halive h₁
    obtain ⟨rfl,rfl⟩ := hends'.unique h₂
    exact ⟨rfl,rfl,rfl,ends_wakeMask h₁,ends_wakeMask h₂⟩

def relayTasks : Supported (List (Option (List Task))) :=
  ⟨.extension crossTasks.1 (some []),by decide⟩

def relayRun : State Bool Unit (List (Option (List Task))) Unit × List (Bool × Event Unit Unit) :=
  (exec scripts true (new relayTasks () false)
    (go false 10 ++ [(true,.call .lockRef)] ++ go true 1)).get (by decide +kernel)

def relayTick : List Task × (ProcMachineImpl Unit (List (Option (List Task))) Unit × Bool) :=
  (outcome (Solo.next scripts) 40 (Solo.waking relayRun.1.machine [1,2] [])).get (by decide +kernel)

/-- The rule at wakes in the other order, with one repeated and one of the finished task,
and at two spurious failures. -/
theorem ticks_deterministic_relay : ∃ polled r,
    Ends (Solo.next scripts) (Solo.waking relayRun.1.machine [2,3,1,2] [true,true]) polled r ∧
      polled = [1,2,2] ∧ r.1.wakeMask = 0 ∧ r.2 = true := by
  have hrun : Run (Step scripts true) (new relayTasks () false) relayRun.2 relayRun.1 := exec_get _
  have houtcome : outcome (Solo.next scripts) 40 (Solo.waking relayRun.1.machine [1,2] []) =
      some relayTick := (Option.some_get _).symm
  have hends : Ends (Solo.next scripts) (Solo.waking relayRun.1.machine [1,2] []) relayTick.1
      relayTick.2 := ends_of_outcome houtcome
  obtain ⟨hboth,hsame⟩ := ticks_deterministic scripts true false true relayTasks () relayRun.2
    relayRun.1 hrun (by decide +kernel) [1,2] [2,3,1,2] (by decide +kernel) [] [true,true]
  obtain ⟨polled,r,hends'⟩ := hboth.mp ⟨_,_,hends⟩
  obtain ⟨hpolled,_,hdone,_,hmask⟩ := hsame _ _ _ _ hends hends'
  refine ⟨polled,r,hends',?_,hmask,?_⟩
  · rw [← hpolled]
    decide +kernel
  · rw [← hdone]
    decide +kernel

end ProcMachine
end ProcMachines
