import ProcMachines.ProcMachineSteps

/-! What `external_poll` promises its caller, and when it keeps the promise: between the
end of its tick and the registration of the waker a wake can pass unnoticed. -/
namespace ProcMachines
namespace ProcMachine

open Transition

variable {W FUT SharedIo OBS ACC Tid : Type}

/-- The last `external_poll` returned `Pending`, and the waker it registered has not been
fired since. -/
def Awaiting (w : W) (es : List (Tid × Event W OBS)) : Prop :=
  Unanswered (fun e => e.2 = .registered w)
    (fun e => e.2 = .fired (some w) ∨ (∃ w', e.2 = .registered w') ∨ e.2 = .ready) es

/-- No unfinished task has an unserved wake, and the machine is not done. -/
def Settled (m : ProcMachineImpl W FUT SharedIo) : Prop :=
  m.wakeMask &&& m.inner.aliveMask = 0 ∧ m.inner.aliveMask ≠ 0

/-- No call is in progress. -/
def Quiescent (s : State Tid W FUT SharedIo) : Prop := ∀ t, s.thread t = ⟨.idle,[]⟩

/-- The control points before or in a tick, and those at which `external_waker.wake()` is
still to come. -/
def Pc.owes : Pc W → Bool
  | .locking _ | .critical | .tick _ _ | .notify _ => true
  | .unlock .lockRef done | .unlock (.externalPoll _) done => done
  | _ => false

/-- The thread will tick or call `external_waker.wake()`: a `wake(n)` does so when it has set
its bit outside of a tick, or has still to set it. -/
def Thread.Owes (wakeMask : BitVec 32) (th : Thread W) : Prop :=
  th.pc.owes = true ∨ ∃ c ∈ th.wakes, c.2 = .fire ∨ wakeMask.getLsbD c.1 = false

/-- Nothing has been left behind: all is settled, or some thread will see to it. -/
def Covered (s : State Tid W FUT SharedIo) : Prop :=
  Settled s.machine ∨ ∃ t, (s.thread t).Owes s.machine.wakeMask

section Steps

variable {J : Jobs FUT SharedIo OBS ACC} {m m' : ProcMachineImpl W FUT SharedIo} {th th' : Thread W}
  {e : Event W OBS}

theorem Steps.waker (h : Steps J m th e m' th') : m'.externalWaker = m.externalWaker ∨
    e = .fired m.externalWaker ∨ ∃ cx, e = .registered cx := by
  cases h with
  | wakeFire | notify => exact Or.inr (Or.inl rfl)
  | register cx => exact Or.inr (Or.inr ⟨cx,rfl⟩)
  | _ => exact Or.inl rfl

theorem Steps.registers {cx : W} (h : Steps J m th (.registered cx) m' th') :
    th = ⟨.register cx,[]⟩ ∧ m' = {m with externalWaker := some cx} ∧ th' = ⟨.idle,[]⟩ := by
  cases h with
  | register => exact ⟨rfl,rfl,rfl⟩

/-- What a step does to the promise: the thread owes afterwards, or all is settled, or it
relies on the tick that is running, or it changes nothing that counts. -/
inductive Keeps (m : ProcMachineImpl W FUT SharedIo) (th : Thread W) (m' : ProcMachineImpl W FUT SharedIo)
    (th' : Thread W) : Prop
  | owes (h : th'.Owes m'.wakeMask)
  | settled (h : Settled m')
  | inside (h : m.wakeMask.getLsbD 31 = true) (hpc : th'.pc = th.pc)
  | same (hw : m'.wakeMask = m.wakeMask) (ha : m'.inner.aliveMask = m.inner.aliveMask)
    (ho : th.Owes m.wakeMask → th'.Owes m'.wakeMask)

/-- A thread in the tick of `new`. -/
def Pc.builds : Pc W → Bool
  | .locking .new | .tick .new _ | .unlock .new _ => true
  | _ => false

def Pc.stray : Pc W → Bool
  | .locking .new => true
  | _ => false

theorem owes_of_pc {mask : BitVec 32} (h : th.pc.owes = true) : th.Owes mask := Or.inl h

theorem not_owes_of_pc {pc : Pc W} (mask : BitVec 32) (h : pc.owes = false) :
    ¬ (⟨pc,[]⟩ : Thread W).Owes mask := by
  rintro (hpc | ⟨c,hc,-⟩)
  · rw [h] at hpc
    cases hpc
  · cases hc

theorem ticking_clear (x : BitVec 32) : x &&& ticking ≠ 0 ↔ x.getLsbD 31 = true := by
  rw [ticking_eq,ne_eq,and_bit_eq_zero (by decide),Bool.not_eq_false]

theorem Steps.keeps (h : Steps J m th e m' th') (hb : th.pc.builds = false)
    (hf : e ≠ .fired m.externalWaker) (hr : ∀ cx, e ≠ .registered cx) : Keeps m th m' th' := by
  cases h with
  | wakeFound pc n rest hm =>
    refine .same rfl rfl ?_
    rintro (hpc | ⟨c,hc,howe⟩)
    · exact Or.inl hpc
    · rcases List.mem_cons.mp hc with rfl | hc
      · have hbit := (or_bit_eq_self (by omega) _).mp hm
        simp [hbit] at howe
      · exact Or.inr ⟨c,hc,howe⟩
  | wakeLoad pc n rest hm =>
    refine .owes (Or.inr ⟨_,List.mem_cons_self,Or.inr ?_⟩)
    rw [← Bool.not_eq_true,← or_bit_eq_self (by omega)]
    exact hm
  | wakeOutside pc n rest hm => exact .owes (Or.inr ⟨_,List.mem_cons_self,Or.inl rfl⟩)
  | wakeInside pc n rest hm => exact .inside ((ticking_clear _).mp hm) rfl
  | wakeRetry pc n rest old hm =>
    refine .same rfl rfl ?_
    rintro (hpc | ⟨c,hc,howe⟩)
    · exact Or.inl hpc
    · rcases List.mem_cons.mp hc with rfl | hc
      · exact Or.inr ⟨_,List.mem_cons_self,Or.inr (by simpa using howe)⟩
      · exact Or.inr ⟨c,List.mem_cons_of_mem _ hc,howe⟩
  | wakeFire | notify => exact absurd rfl hf
  | register cx => exact absurd rfl (hr cx)
  | wake => exact .same rfl rfl fun ho => absurd ho (not_owes_of_pc _ rfl)
  | call | access | drop | claim | claimNone | pollEnd | pollNone | pollSkip | poll | taskAct
  | taskPending | taskReady | tickAgain => exact .owes (owes_of_pc rfl)
  | lock call hl => cases call <;> exact .owes (owes_of_pc rfl)
  | tickEnd call hm =>
    by_cases h0 : m.inner.aliveMask = 0
    · cases call with
      | new => cases hb
      | lockRef | isDone | externalPoll => exact .owes (owes_of_pc (by simp [h0,afterTick,Pc.owes]))
    · exact .settled ⟨by simp,h0⟩
  | unlock call done =>
    cases call with
    | new => cases hb
    | isDone => exact .same rfl rfl fun ho => absurd ho (not_owes_of_pc _ rfl)
    | lockRef | externalPoll =>
      cases done with
      | true => exact .owes (owes_of_pc rfl)
      | false => exact .same rfl rfl fun ho => absurd ho (not_owes_of_pc _ rfl)
  | ready => exact .same rfl rfl fun ho => absurd ho (not_owes_of_pc _ rfl)

theorem Steps.builds (h : Steps J m th e m' th') (hb : th'.pc.builds = true) :
    th.pc.builds = true := by
  cases h with
  | call call hc => cases call <;> first | exact absurd rfl hc | cases hb
  | lock call => cases call <;> first | rfl | cases hb
  | claim call | claimNone call | pollEnd call | pollNone call | pollSkip call | poll call
  | taskAct call | taskPending call | taskReady call | tickAgain call => cases call <;> exact hb
  | tickEnd call =>
    revert hb
    cases call <;> cases decide (m.inner.aliveMask = 0) <;> exact id
  | unlock call done => cases call <;> cases done <;> cases hb
  | notify call => cases call <;> cases hb
  | drop | register | ready => cases hb
  | _ => exact hb

theorem Steps.stray (h : Steps J m th e m' th') (hs : th'.pc.stray = true) :
    th.pc.stray = true := by
  cases h with
  | call call hc => cases call <;> first | exact absurd rfl hc | cases hs
  | lock call | notify call => cases call <;> cases hs
  | tickEnd call =>
    revert hs
    cases call <;> cases decide (m.inner.aliveMask = 0) <;> exact Bool.noConfusion
  | unlock call done => cases call <;> cases done <;> cases hs
  | wakeFound | wakeLoad | wakeOutside | wakeInside | wakeRetry | wakeFire => exact hs
  | _ => cases hs

/-- The control points of a thread that has not got into the mutex. -/
def Pc.outer : Pc W → Bool
  | .idle | .locking _ => true
  | _ => false

theorem Steps.outer (h : Steps J m th e m' th') (ho : th.pc.outer = true)
    (hl : m.locked = true) : th'.pc.outer = true := by
  cases h with
  | lock call hfree =>
    rw [hl] at hfree
    cases hfree
  | wakeFound | wakeLoad | wakeOutside | wakeInside | wakeRetry | wakeFire => exact ho
  | wake | call => rfl
  | _ => cases ho

theorem owes_of_ticks {pc : Pc W} (h : pc.ticks = true) : pc.owes = true := by
  cases pc with
  | tick => rfl
  | idle | locking | critical | unlock | notify | register | ready => cases h

/-- The control points of an `external_poll`. -/
def Pc.polls : Pc W → Bool
  | .locking (.externalPoll _) | .tick (.externalPoll _) _ | .unlock (.externalPoll _) _
  | .notify (.externalPoll _) | .register _ | .ready => true
  | _ => false

theorem Steps.polls (h : Steps J m th e m' th') (hp : th'.pc.polls = true) :
    th.pc.polls = true ∨ ∃ cx, e = .called (.externalPoll cx) := by
  cases h with
  | call call hc =>
    cases call with
    | externalPoll cx => exact Or.inr ⟨cx,rfl⟩
    | new | lockRef | isDone => cases hp
  | wakeFound | wakeLoad | wakeOutside | wakeInside | wakeRetry | wakeFire => exact Or.inl hp
  | lock call | claim call | claimNone call | pollEnd call | pollNone call | pollSkip call
  | poll call | taskAct call | taskPending call | taskReady call | tickAgain call | notify call =>
    cases call <;> first | exact Or.inl rfl | cases hp
  | tickEnd call =>
    revert hp
    cases call <;> cases decide (m.inner.aliveMask = 0) <;>
      first | exact fun _ => Or.inl rfl | exact Bool.noConfusion
  | unlock call done =>
    cases call <;> cases done <;> first | exact Or.inl rfl | cases hp
  | wake | access | drop | register | ready => cases hp

/-- The mask a `wake` means to replace did not have its bit. -/
def Thread.Clean (th : Thread W) : Prop :=
  ∀ n old, (n,.compareExchange old) ∈ th.wakes → old.getLsbD n = false

theorem clean_calls (pc : Pc W) (woken : List Task) : (⟨pc,calls woken⟩ : Thread W).Clean := by
  intro n old hmem
  obtain ⟨k,-,hk⟩ := List.mem_map.mp hmem
  cases hk

theorem Thread.Clean.tail {pc : Pc W} {c : Task × WakePc} {rest : List (Task × WakePc)}
    (h : (⟨pc,c :: rest⟩ : Thread W).Clean) : (⟨pc,rest⟩ : Thread W).Clean :=
  fun n old hmem => h n old (List.mem_cons_of_mem _ hmem)

theorem Thread.Clean.cons {pc : Pc W} {c : Task × WakePc} {rest : List (Task × WakePc)}
    (h : (⟨pc,rest⟩ : Thread W).Clean)
    (hc : ∀ old, c.2 = .compareExchange old → old.getLsbD c.1 = false) :
    (⟨pc,c :: rest⟩ : Thread W).Clean := by
  intro n old hmem
  rcases List.mem_cons.mp hmem with rfl | hmem
  · exact hc old rfl
  · exact h n old hmem

theorem Steps.clean (h : Steps J m th e m' th') (hc : th.Clean) : th'.Clean := by
  cases h with
  | wakeFound | wakeInside | wakeFire => exact hc.tail
  | wakeLoad pc n rest hm =>
    refine hc.tail.cons fun old hold => ?_
    cases hold
    rw [← Bool.not_eq_true,← or_bit_eq_self (by omega)]
    exact hm
  | wakeOutside | wakeRetry =>
    refine hc.tail.cons fun old hold => ?_
    cases hold
  | wake n => exact clean_calls _ [n]
  | access | taskAct => exact clean_calls _ _
  | _ => exact clean_calls _ []

theorem Steps.idles (h : Steps J m th e m' th') (ho : ¬ th.Owes m.wakeMask) (hc : th.Clean)
    (hp : th.pc.polls = false) (hcall : ∀ call, e ≠ .called call) (hwake : ∀ n, e ≠ .waking n) :
    m'.wakeMask = m.wakeMask ∧ m'.inner.aliveMask = m.inner.aliveMask ∧ ¬ th'.Owes m.wakeMask ∧
      th'.pc.polls = false ∧ (e = .silent ∨ ∃ n, e = .woke n) := by
  cases h with
  | wakeFound pc n rest hm =>
    refine ⟨rfl,rfl,?_,hp,Or.inr ⟨n,rfl⟩⟩
    rintro (hpc | ⟨c,hmem,howe⟩)
    · exact ho (Or.inl hpc)
    · exact ho (Or.inr ⟨c,List.mem_cons_of_mem _ hmem,howe⟩)
  | wakeLoad pc n rest hm =>
    refine absurd (Or.inr ⟨_,List.mem_cons_self,Or.inr ?_⟩) ho
    rw [← Bool.not_eq_true,← or_bit_eq_self (by omega)]
    exact hm
  | wakeOutside pc n rest | wakeInside pc n rest =>
    exact absurd (Or.inr ⟨_,List.mem_cons_self,Or.inr (hc n _ List.mem_cons_self)⟩) ho
  | wakeRetry pc n rest old hm =>
    refine ⟨rfl,rfl,?_,hp,Or.inl rfl⟩
    rintro (hpc | ⟨c,hmem,howe⟩)
    · exact ho (Or.inl hpc)
    · rcases List.mem_cons.mp hmem with rfl | hmem
      · exact ho (Or.inr ⟨_,List.mem_cons_self,Or.inr (by simpa using howe)⟩)
      · exact ho (Or.inr ⟨c,List.mem_cons_of_mem _ hmem,howe⟩)
  | wakeFire => exact absurd (Or.inr ⟨_,List.mem_cons_self,Or.inl rfl⟩) ho
  | wake n => exact absurd rfl (hwake n)
  | call call => exact absurd rfl (hcall call)
  | lock | access | drop | claim | claimNone | pollEnd | pollNone | pollSkip | poll | taskAct
  | taskPending | taskReady | tickEnd | tickAgain | notify => exact absurd (owes_of_pc rfl) ho
  | unlock call done =>
    cases call with
    | externalPoll cx => cases hp
    | new | isDone => exact ⟨rfl,rfl,not_owes_of_pc _ (by cases done <;> rfl),by cases done <;> rfl,Or.inl rfl⟩
    | lockRef =>
      cases done with
      | true => exact absurd (owes_of_pc rfl) ho
      | false => exact ⟨rfl,rfl,not_owes_of_pc _ rfl,rfl,Or.inl rfl⟩
  | register | ready => cases hp

end Steps

theorem holds_of_builds {pc : Pc W} (hb : pc.builds = true) (hs : pc.stray = false) :
    pc.holds = true := by
  cases pc with
  | locking call =>
    cases call with
    | new => cases hs
    | lockRef | isDone | externalPoll => cases hb
  | tick | unlock => rfl
  | idle | critical | notify | register | ready => cases hb

variable [DecidableEq Tid]

/-- While the machine is being built, no other thread is inside it and nobody awaits it. -/
structure Fresh (es : List (Tid × Event W OBS)) (s : State Tid W FUT SharedIo) : Prop where
  stray : ∀ t, (s.thread t).pc.stray = false
  alone : ∀ t u, (s.thread t).pc.builds = true → u ≠ t → (s.thread u).pc.outer = true
  quiet : ∀ t, (s.thread t).pc.builds = true → ∀ w, ¬ Awaiting w es

theorem fresh_new (futures : Supported FUT) (io : SharedIo) (builder : Tid) :
    Fresh ([] : List (Tid × Event W OBS)) (new futures io builder : State Tid W FUT SharedIo) where
  stray t := by
    by_cases h : t = builder <;> simp [new,h,Pc.stray]
  alone t u ht hu := by
    have hb : t = builder := by
      by_contra hne
      simp [new,hne,Pc.builds] at ht
    subst hb
    simp [new,hu,Pc.outer]
  quiet _ _ _ := not_unanswered_nil _ _

theorem Fresh.next {J : Jobs FUT SharedIo OBS ACC} {poller : Tid} {s s' : State Tid W FUT SharedIo}
    {es : List (Tid × Event W OBS)} {e : Tid × Event W OBS} (hs : Sound s) (hf : Fresh es s)
    (h : Step J poller s e s') : Fresh (es ++ [e]) s' := by
  rcases e with ⟨t,e⟩
  obtain ⟨m,th,hstep,rfl⟩ := h.thread
  have hbuilds : ∀ u, ((s.move t m th).thread u).pc.builds = true →
      (s.thread u).pc.builds = true :=
    State.move_all (fun u th => th.pc.builds = true → (s.thread u).pc.builds = true)
      hstep.builds fun _ _ => id
  refine ⟨State.move_all (fun _ th => th.pc.stray = false) ?_ fun u _ => hf.stray u,
    fun u v hu => ?_,fun u hu w hw => ?_⟩
  · rw [← Bool.not_eq_true]
    intro hstray
    have hold := hstep.stray hstray
    rw [hf.stray t] at hold
    cases hold
  · have hold := hbuilds u hu
    have hlocked := hs.locked u (holds_of_builds hold (hf.stray u))
    exact State.move_all (fun v th => v ≠ u → th.pc.outer = true)
      (fun hv => hstep.outer (hf.alone u t hold hv) hlocked) (fun v _ => hf.alone u v hold) v
  · have hold := hbuilds u hu
    rcases unanswered_snoc.mp hw with he | ⟨hold',-⟩
    · simp only at he
      subst he
      obtain ⟨hth,-,rfl⟩ := hstep.registers
      by_cases hut : u = t
      · subst hut
        rw [State.move_self] at hu
        cases hu
      · have ho := hf.alone u t hold (Ne.symm hut)
        rw [hth] at ho
        cases ho
    · exact hf.quiet u hold w hold'

/-- Nothing is left behind by a step that neither fires nor registers the external waker. -/
theorem Covered.next {J : Jobs FUT SharedIo OBS ACC} {s : State Tid W FUT SharedIo} {t : Tid}
    {e : Event W OBS} {m : ProcMachineImpl W FUT SharedIo} {th : Thread W} (hs : Sound s)
    (hc : Covered s) (hstep : Steps J s.machine (s.thread t) e m th)
    (hbuild : (s.thread t).pc.builds = false) (hfire : e ≠ .fired s.machine.externalWaker)
    (hregister : ∀ cx, e ≠ .registered cx) : Covered (s.move t m th) := by
  cases hstep.keeps hbuild hfire hregister with
  | owes ho => exact Or.inr (State.move_new (fun th => th.Owes m.wakeMask) ho)
  | settled hset => exact Or.inl hset
  | inside hflag hpc =>
    obtain ⟨u,hu⟩ := State.move_some (m := m) (fun th => th.pc.ticks = true)
      (hs.flag hflag) fun htick => by rw [hpc]; exact htick
    exact Or.inr ⟨u,Or.inl (owes_of_ticks hu)⟩
  | same hm ha ho =>
    rcases hc with hset | howe
    · exact Or.inl ⟨by rw [State.move_machine,hm,ha]; exact hset.1,
        by rw [State.move_machine,ha]; exact hset.2⟩
    · rw [← hm] at howe
      exact Or.inr (State.move_some (fun th => th.Owes m.wakeMask) howe (by rwa [← hm] at ho))

/-- The waker somebody awaits is in the slot, and nothing has been left behind. -/
def Promise (es : List (Tid × Event W OBS)) (s : State Tid W FUT SharedIo) : Prop :=
  ∀ w, Awaiting w es → s.machine.externalWaker = some w ∧ Covered s

theorem Promise.next {J : Jobs FUT SharedIo OBS ACC} {poller : Tid} {s s' : State Tid W FUT SharedIo}
    {es : List (Tid × Event W OBS)} {e : Tid × Event W OBS} (hs : Sound s) (hf : Fresh es s)
    (hp : Promise es s) (hreg : ∀ w, e.2 = .registered w → Covered s)
    (h : Step J poller s e s') : Promise (es ++ [e]) s' := by
  rcases e with ⟨t,e⟩
  obtain ⟨m,th,hstep,rfl⟩ := h.thread
  intro w hw
  rcases unanswered_snoc.mp hw with he | ⟨hold,he⟩
  · simp only at he
    subst he
    obtain ⟨hth,rfl,rfl⟩ := hstep.registers
    refine ⟨rfl,(hreg w rfl).imp id fun howe => ?_⟩
    refine State.move_some (fun th => th.Owes s.machine.wakeMask) howe fun ho => ?_
    rw [hth] at ho
    exact absurd ho (not_owes_of_pc _ rfl)
  · simp only [not_or,not_exists] at he
    obtain ⟨hfire,hregister,-⟩ := he
    obtain ⟨hext,hcov⟩ := hp w hold
    rw [← hext] at hfire
    constructor
    · rcases hstep.waker with hsame | hfired | ⟨cx,hcx⟩
      · exact hsame.trans hext
      · exact absurd hfired hfire
      · exact absurd hcx (hregister cx)
    · have hbuild : (s.thread t).pc.builds = false := by
        rw [← Bool.not_eq_true]
        exact fun hb => hf.quiet t hb w hold
      exact hcov.next hs hstep hbuild hfire hregister

/-- Only the poller is in an `external_poll`, and every pending `wake` has its bit to set. -/
structure Orderly (poller : Tid) (s : State Tid W FUT SharedIo) : Prop where
  one : ∀ t, (s.thread t).pc.polls = true → t = poller
  clean : ∀ t, (s.thread t).Clean

theorem orderly_new (poller builder : Tid) (futures : Supported FUT) (io : SharedIo) :
    Orderly poller (new futures io builder : State Tid W FUT SharedIo) where
  one t ht := by
    by_cases h : t = builder <;> simp [new,h,Pc.polls] at ht
  clean t := by
    by_cases h : t = builder <;> simp [new,h,Thread.Clean]

theorem Orderly.next {J : Jobs FUT SharedIo OBS ACC} {poller : Tid} {s s' : State Tid W FUT SharedIo}
    {e : Tid × Event W OBS} (ho : Orderly poller s) (h : Step J poller s e s') :
    Orderly poller s' := by
  rcases e with ⟨t,e⟩
  obtain ⟨m,th,hstep,rfl⟩ := h.thread
  constructor
  · refine State.move_all (fun u th => th.pc.polls = true → u = poller) ?_ fun u _ => ho.one u
    intro hp
    rcases hstep.polls hp with hold | ⟨cx,rfl⟩
    · exact ho.one t hold
    · simpa [callable] using h.1
  · exact State.move_all (fun _ th => th.Clean) (hstep.clean (ho.clean t)) fun u _ => ho.clean u

theorem orderly_run {J : Jobs FUT SharedIo OBS ACC} {poller builder : Tid} {futures : Supported FUT}
    {io : SharedIo} {es : List (Tid × Event W OBS)} {s : State Tid W FUT SharedIo}
    (h : Run (Step J poller) (new futures io builder) es s) : Orderly poller s :=
  h.invariant (fun _ _ _ hs hk => hs.next hk) (orderly_new poller builder futures io)

/-- A wake or the end of the machine has been missed, and nobody is left to notice. -/
structure Missed (w : W) (es : List (Tid × Event W OBS)) (s : State Tid W FUT SharedIo) : Prop where
  awaiting : Awaiting w es
  unsettled : ¬ Settled s.machine
  idle : ∀ t, ¬ (s.thread t).Owes s.machine.wakeMask ∧ (s.thread t).pc.polls = false
  clean : ∀ t, (s.thread t).Clean

theorem missed_of_registered {J : Jobs FUT SharedIo OBS ACC} {poller : Tid} {s s' : State Tid W FUT SharedIo}
    {es : List (Tid × Event W OBS)} {t : Tid} {w : W} (ho : Orderly poller s)
    (h : Step J poller s (t,.registered w) s') (hc : ¬ Covered s) :
    Missed w (es ++ [(t,.registered w)]) s' := by
  obtain ⟨m,th,hstep,rfl⟩ := h.thread
  obtain ⟨hth,rfl,rfl⟩ := hstep.registers
  obtain ⟨hset,howe⟩ := not_or.mp hc
  have htp : t = poller := ho.one t (by rw [hth]; rfl)
  refine ⟨unanswered_snoc.mpr (Or.inl rfl),hset,?_,?_⟩
  · refine State.move_all (fun _ th => ¬ th.Owes s.machine.wakeMask ∧ th.pc.polls = false)
      ⟨not_owes_of_pc _ rfl,rfl⟩ fun u hut => ⟨fun hu => howe ⟨u,hu⟩,?_⟩
    rw [← Bool.not_eq_true]
    exact fun hp => hut ((ho.one u hp).trans htp.symm)
  · exact State.move_all (fun _ th => th.Clean) (clean_calls _ []) fun u _ => ho.clean u

def Returning (_ : State Tid W FUT SharedIo) (e : Tid × Event W OBS) : Prop :=
  (∀ call, e.2 ≠ .called call) ∧ ∀ n, e.2 ≠ .waking n

theorem Missed.next {J : Jobs FUT SharedIo OBS ACC} {poller : Tid} {s s' : State Tid W FUT SharedIo} {w : W}
    {es : List (Tid × Event W OBS)} {e : Tid × Event W OBS} (hm : Missed w es s)
    (h : guarded Returning (Step J poller) s e s') : Missed w (es ++ [e]) s' := by
  rcases e with ⟨t,e⟩
  obtain ⟨⟨hcall,hwake⟩,h⟩ := h
  obtain ⟨m,th,hstep,rfl⟩ := h.thread
  obtain ⟨hmask,halive,howe,hpolls,hev⟩ :=
    hstep.idles (hm.idle t).1 (hm.clean t) (hm.idle t).2 hcall hwake
  refine ⟨unanswered_snoc.mpr (Or.inr ⟨hm.awaiting,?_⟩),?_,?_,?_⟩
  · rcases hev with rfl | ⟨n,rfl⟩ <;> simp
  · intro hset
    refine hm.unsettled ⟨?_,?_⟩
    · rw [← hmask,← halive]
      exact hset.1
    · rw [← halive]
      exact hset.2
  · rw [State.move_machine,hmask]
    exact State.move_all (fun _ th => ¬ th.Owes s.machine.wakeMask ∧ th.pc.polls = false)
      ⟨howe,hpolls⟩ fun u _ => hm.idle u
  · exact State.move_all (fun _ th => th.Clean) (hstep.clean (hm.clean t)) fun u _ => hm.clean u

omit [DecidableEq Tid] in
theorem settled_of_quiescent {s : State Tid W FUT SharedIo} (hq : Quiescent s) (hc : Covered s) :
    Settled s.machine := by
  rcases hc with hset | ⟨t,ht⟩
  · exact hset
  · rw [hq t] at ht
    exact absurd ht (not_owes_of_pc _ rfl)

/-- The waker is only registered where nothing has been left behind. -/
def RegistersCovered (s : State Tid W FUT SharedIo) (e : Tid × Event W OBS) : Prop :=
  ∀ w, e.2 = .registered w → Covered s

/-- `external_poll` keeps its promise in every run that registers its waker only where
nothing has been left behind. Where it registers the waker after it has missed something,
the promise is broken as soon as the calls in progress have returned. -/
theorem external_poll_notices (J : Jobs FUT SharedIo OBS ACC) (poller builder : Tid)
    (futures : Supported FUT) (io : SharedIo) :
    (∀ (es : List (Tid × Event W OBS)) (s : State Tid W FUT SharedIo),
      Run (guarded RegistersCovered (Step J poller)) (new futures io builder) es s →
      Quiescent s → ∀ w, Awaiting w es → Settled s.machine) ∧
    (∀ (es fs : List (Tid × Event W OBS)) (s s' u : State Tid W FUT SharedIo) (t : Tid) (w : W),
      Run (Step J poller) (new futures io builder) es s →
      Step J poller s (t,.registered w) s' → ¬ Covered s →
      Run (guarded Returning (Step J poller)) s' fs u → Quiescent u →
      Awaiting w (es ++ [(t,.registered w)] ++ fs) ∧ ¬ Settled u.machine) := by
  constructor
  · intro es s h hq w hw
    have hinv : Sound s ∧ Fresh es s ∧ Promise es s := by
      refine Run.history (I := fun es s => Sound s ∧ Fresh es s ∧ Promise es s)
        ⟨sound_new futures io builder,fresh_new futures io builder,?_⟩ ?_ h
      · exact fun w hw => absurd hw (not_unanswered_nil _ _)
      · intro es s e s' hs hk
        exact ⟨hs.1.next hk.2,hs.2.1.next hs.1 hk.2,hs.2.2.next hs.1 hs.2.1 hk.1 hk.2⟩
    exact settled_of_quiescent hq (hinv.2.2 w hw).2
  · intro es fs s s' u t w h hreg hc hret hq
    have hm : Missed w (es ++ [(t,.registered w)] ++ fs) u := by
      refine Run.history (I := fun fs u => Missed w (es ++ [(t,.registered w)] ++ fs) u) ?_ ?_ hret
      · rw [List.append_nil]
        exact missed_of_registered (orderly_run h) hreg hc
      · intro fs s e s' hs hk
        rw [← List.append_assoc]
        exact hs.next hk
    exact ⟨hm.awaiting,hm.unsettled⟩

def sleeper : Supported (List (Option (List Task))) := ⟨.extension .base (some [none,none]),by decide⟩

def pollMoves : List (Bool × Choice Unit Empty) :=
  go false 6 ++ [(true,.call (.externalPoll ()))] ++ go true 4

/-- Meanwhile another thread wakes the task. -/
def lostMoves : List (Bool × Choice Unit Empty) := pollMoves ++ [(false,.wake 1)] ++ go false 3

abbrev ScriptState := State Bool Unit (List (Option (List Task))) Unit

def pollRun : ScriptState × List (Bool × Event Unit Unit) :=
  (exec scripts true (new sleeper () false) pollMoves).get (by decide +kernel)

def lostRun : ScriptState × List (Bool × Event Unit Unit) :=
  (exec scripts true (new sleeper () false) lostMoves).get (by decide +kernel)

def pollEnd : ScriptState × Event Unit Unit :=
  (next scripts pollRun.1 true .go).get (by decide +kernel)

def lostEnd : ScriptState × Event Unit Unit :=
  (next scripts lostRun.1 true .go).get (by decide +kernel)

theorem pollEnd_step : Step scripts true pollRun.1 (true,.registered ()) pollEnd.1 := by
  have hev : pollEnd.2 = .registered () := by decide +kernel
  rw [← hev]
  exact step_get _ (by decide +kernel)

theorem lostEnd_step : Step scripts true lostRun.1 (true,.registered ()) lostEnd.1 := by
  have hev : lostEnd.2 = .registered () := by decide +kernel
  rw [← hev]
  exact step_get _ (by decide +kernel)

instance (s : ScriptState) : Decidable (Quiescent s) :=
  inferInstanceAs (Decidable (∀ t, s.thread t = ⟨.idle,[]⟩))

instance (m : ProcMachineImpl W FUT SharedIo) : Decidable (Settled m) :=
  inferInstanceAs (Decidable (_ ∧ _))

theorem not_covered_lostRun : ¬ Covered lostRun.1 := by
  have hset : ¬ Settled lostRun.1.machine := by decide +kernel
  have howe : ∀ t, (lostRun.1.thread t).pc.owes = false ∧ (lostRun.1.thread t).wakes = [] := by
    decide +kernel
  rintro (h | ⟨t,hpc | ⟨c,hc,-⟩⟩)
  · exact hset h
  · rw [(howe t).1] at hpc
    cases hpc
  · rw [(howe t).2] at hc
    cases hc

/-- A wake that arrives between the tick and the registration is lost: the poller sleeps
and the woken task is never polled. -/
theorem external_poll_misses_wake :
    ¬ ∀ (es : List (Bool × Event Unit Unit)) (s : ScriptState),
      Run (Step scripts true) (new sleeper () false) es s → Quiescent s →
      ∀ w, Awaiting w es → Settled s.machine := by
  intro h
  have hrun : Run (Step scripts true) (new sleeper () false)
      (lostRun.2 ++ [(true,.registered ())]) lostEnd.1 := Run.snoc (exec_get _) lostEnd_step
  have hset := h _ _ hrun (by decide +kernel) () (unanswered_snoc.mpr (Or.inl rfl))
  revert hset
  decide +kernel

/-- Both directions: a poll that nobody disturbs, and the one that misses a wake. -/
theorem external_poll_notices_sleeper : Settled pollEnd.1.machine ∧ ¬ Settled lostEnd.1.machine := by
  have hboth := external_poll_notices (W := Unit) scripts true false sleeper ()
  constructor
  · have hquiet : ∀ e ∈ pollRun.2, ∀ w, e.2 ≠ .registered w := by decide +kernel
    have hrun : Run (guarded RegistersCovered (Step scripts true)) (new sleeper () false)
        pollRun.2 pollRun.1 :=
      Run.guard_of_labels (exec_get _) fun e he _ w hw => absurd hw (hquiet e he w)
    have hcov : Settled pollRun.1.machine := by decide +kernel
    exact hboth.1 _ _ (hrun.snoc ⟨fun _ _ => Or.inl hcov,pollEnd_step⟩) (by decide +kernel) ()
      (unanswered_snoc.mpr (Or.inl rfl))
  · exact (hboth.2 _ [] _ _ _ _ _ (exec_get _) lostEnd_step not_covered_lostRun (Run.refl _)
      (by decide +kernel)).2

end ProcMachine
end ProcMachines
