import ProcMachines.ProcMachine

/-! What a step of the machine can do, and what every run keeps: one thread at most is
inside the mutex, `alive_mask` follows the futures, and the ticking flag is only set
while a tick runs. -/
namespace ProcMachines
namespace ProcMachine

variable {W FUT SharedIo OBS ACC : Type}

/-- The steps of a thread, one case for each thing that can happen. -/
inductive Steps (J : Jobs FUT SharedIo OBS ACC) : ProcMachineImpl W FUT SharedIo → Thread W → Event W OBS →
    ProcMachineImpl W FUT SharedIo → Thread W → Prop
  | wakeFound (m pc) (n : Task) (rest) (h : m.wakeMask ||| bit n = m.wakeMask) :
    Steps J m ⟨pc,(n,.load) :: rest⟩ (.woke n) m ⟨pc,rest⟩
  | wakeLoad (m pc) (n : Task) (rest) (h : m.wakeMask ||| bit n ≠ m.wakeMask) :
    Steps J m ⟨pc,(n,.load) :: rest⟩ .silent m ⟨pc,(n,.compareExchange m.wakeMask) :: rest⟩
  | wakeOutside (m pc) (n : Task) (rest) (h : m.wakeMask &&& ticking = 0) :
    Steps J m ⟨pc,(n,.compareExchange m.wakeMask) :: rest⟩ (.woke n)
      {m with wakeMask := m.wakeMask ||| bit n} ⟨pc,(n,.fire) :: rest⟩
  | wakeInside (m pc) (n : Task) (rest) (h : m.wakeMask &&& ticking ≠ 0) :
    Steps J m ⟨pc,(n,.compareExchange m.wakeMask) :: rest⟩ (.woke n)
      {m with wakeMask := m.wakeMask ||| bit n} ⟨pc,rest⟩
  | wakeRetry (m pc) (n : Task) (rest old) (h : m.wakeMask ≠ old) :
    Steps J m ⟨pc,(n,.compareExchange old) :: rest⟩ .silent m ⟨pc,(n,.load) :: rest⟩
  | wakeFire (m pc) (n : Task) (rest) :
    Steps J m ⟨pc,(n,.fire) :: rest⟩ (.fired m.externalWaker) {m with externalWaker := none}
      ⟨pc,rest⟩
  | wake (m n) : Steps J m ⟨.idle,[]⟩ (.waking n) m ⟨.idle,[(n,.load)]⟩
  | call (m call) (h : call ≠ .new) : Steps J m ⟨.idle,[]⟩ (.called call) m ⟨.locking call,[]⟩
  | lock (m call) (h : m.locked = false) :
    Steps J m ⟨.locking call,[]⟩ .silent {m with locked := true} ⟨afterLock call,[]⟩
  | access (m acc) :
    Steps J m ⟨.critical,[]⟩ .silent {m with inner.io := (J.access acc m.inner.io).1}
      ⟨.critical,calls (J.access acc m.inner.io).2⟩
  | drop (m) : Steps J m ⟨.critical,[]⟩ .silent m ⟨.tick .lockRef .swap,[]⟩
  | claim (m call) (h : m.inner.aliveMask &&& m.wakeMask &&& 0x7FFFFFFF#32 ≠ 0) :
    Steps J m ⟨.tick call .swap,[]⟩ .silent {m with wakeMask := ticking}
      ⟨.tick call (.polling (m.inner.aliveMask &&& m.wakeMask &&& 0x7FFFFFFF#32) 0 1),[]⟩
  | claimNone (m call) (h : m.inner.aliveMask &&& m.wakeMask &&& 0x7FFFFFFF#32 = 0) :
    Steps J m ⟨.tick call .swap,[]⟩ .silent {m with wakeMask := ticking}
      ⟨.tick call .compareExchange,[]⟩
  | pollEnd (m call mask result n) (h : m.inner.futures.DEPTH < n) :
    Steps J m ⟨.tick call (.polling mask result n),[]⟩ .silent {m with inner.aliveMask := result}
      ⟨.tick call .swap,[]⟩
  | pollNone (m call mask result n) (h : m.inner.futures.fut n = none) :
    Steps J m ⟨.tick call (.polling mask result n),[]⟩ .silent m
      ⟨.tick call (.polling mask result (n+1)),[]⟩
  | pollSkip (m call mask result n) (hfut : (m.inner.futures.fut n).isSome)
      (h : mask &&& bit n = 0) :
    Steps J m ⟨.tick call (.polling mask result n),[]⟩ .silent m
      ⟨.tick call (.polling mask (result ||| bit n) (n+1)),[]⟩
  | poll (m call mask result) (n : Task) (hfut : (m.inner.futures.fut n).isSome)
      (h : mask &&& bit n ≠ 0) :
    Steps J m ⟨.tick call (.polling mask result n),[]⟩ (.polled n) m
      ⟨.tick call (.running mask result n),[]⟩
  | taskAct (m call mask result) (n : Task) {fut fut' io woken obs}
      (hfut : m.inner.futures.fut n = some fut)
      (h : J.resume n fut m.inner.io = .act io woken fut' obs) :
    Steps J m ⟨.tick call (.running mask result n),[]⟩ (.acted n obs)
      {m with inner.futures := m.inner.futures.setFut n (some fut'), inner.io := io}
      ⟨.tick call (.running mask result n),calls woken⟩
  | taskPending (m call mask result) (n : Task) {fut fut'}
      (hfut : m.inner.futures.fut n = some fut)
      (h : J.resume n fut m.inner.io = .pending fut') :
    Steps J m ⟨.tick call (.running mask result n),[]⟩ .silent
      {m with inner.futures := m.inner.futures.setFut n (some fut')}
      ⟨.tick call (.polling mask (result ||| bit n) (n+1)),[]⟩
  | taskReady (m call mask result) (n : Task) {fut} (hfut : m.inner.futures.fut n = some fut)
      (h : J.resume n fut m.inner.io = .ready) :
    Steps J m ⟨.tick call (.running mask result n),[]⟩ .silent
      {m with inner.futures := m.inner.futures.setFut n none}
      ⟨.tick call (.polling mask result (n+1)),[]⟩
  | tickEnd (m call) (h : m.wakeMask = ticking) :
    Steps J m ⟨.tick call .compareExchange,[]⟩ (.ticked (decide (m.inner.aliveMask = 0)))
      {m with wakeMask := 0} ⟨afterTick call (decide (m.inner.aliveMask = 0)),[]⟩
  | tickAgain (m call) :
    Steps J m ⟨.tick call .compareExchange,[]⟩ .silent m ⟨.tick call .swap,[]⟩
  | unlock (m call done) :
    Steps J m ⟨.unlock call done,[]⟩ .silent {m with locked := false} ⟨afterUnlock call done,[]⟩
  | notify (m call) :
    Steps J m ⟨.notify call,[]⟩ (.fired m.externalWaker) {m with externalWaker := none}
      ⟨afterNotify call,[]⟩
  | register (m cx) :
    Steps J m ⟨.register cx,[]⟩ (.registered cx) {m with externalWaker := some cx} ⟨.idle,[]⟩
  | ready (m) : Steps J m ⟨.ready,[]⟩ .ready m ⟨.idle,[]⟩

theorem wake_steps (J : Jobs FUT SharedIo OBS ACC) {m : ProcMachineImpl W FUT SharedIo} {pc : Pc W} {n : Task}
    {rest : List (Task × WakePc)} {w : WakePc} {r : Next W FUT SharedIo OBS}
    (h : wake m pc n rest w = r) : Steps J m ⟨pc,(n,w) :: rest⟩ r.event r.machine r.thread := by
  cases w with
  | load =>
    simp only [wake] at h
    split at h
    · cases h
      exact .wakeFound m pc n rest ‹_›
    · cases h
      exact .wakeLoad m pc n rest ‹_›
  | compareExchange old =>
    simp only [wake] at h
    split at h
    · rename_i hold
      subst hold
      split at h
      · cases h
        exact .wakeOutside m pc n rest ‹_›
      · cases h
        exact .wakeInside m pc n rest ‹_›
    · cases h
      exact .wakeRetry m pc n rest old ‹_›
  | fire => cases h; exact .wakeFire m pc n rest

theorem getMultiWaker_eq_some {n : ℕ} {cx : Task} (h : getMultiWaker n = some cx) : n = cx := by
  unfold getMultiWaker at h
  split at h
  · cases h
    rfl
  · cases h

theorem tick_steps {J : Jobs FUT SharedIo OBS ACC} {m : ProcMachineImpl W FUT SharedIo} {call : Caller W}
    {pc : TickPc} {r : Next W FUT SharedIo OBS} (h : tick J m call pc = some r) :
    Steps J m ⟨.tick call pc,[]⟩ r.event r.machine r.thread := by
  cases pc with
  | swap =>
    by_cases hm : m.inner.aliveMask &&& m.wakeMask &&& 0x7FFFFFFF#32 = 0
    · simp only [tick,hm,ne_eq,not_true_eq_false,if_false] at h
      cases h
      exact .claimNone m call hm
    · simp only [tick,ne_eq,hm,not_false_eq_true,if_true] at h
      cases h
      exact .claim m call hm
  | polling mask result n =>
    simp only [tick] at h
    split at h
    · cases h
      exact .pollEnd m call mask result n ‹_›
    · split at h
      · cases h
        exact .pollNone m call mask result n ‹_›
      · rename_i fut hfut
        have hsome : (m.inner.futures.fut n).isSome := by rw [hfut]; rfl
        split at h
        · cases h
          exact .pollSkip m call mask result n hsome ‹_›
        · obtain ⟨cx,hcx,rfl⟩ := Option.map_eq_some_iff.mp h
          have hn := getMultiWaker_eq_some hcx
          subst hn
          exact .poll m call mask result cx hsome ‹_›
  | running mask result n =>
    simp only [tick] at h
    split at h
    · cases h
    · rename_i fut hfut
      split at h
      · cases h
        exact .taskAct m call mask result n hfut ‹_›
      · cases h
        exact .taskPending m call mask result n hfut ‹_›
      · cases h
        exact .taskReady m call mask result n hfut ‹_›
  | compareExchange =>
    simp only [tick] at h
    split at h
    · cases h
      exact .tickEnd m call ‹_›
    · cases h
      exact .tickAgain m call

theorem Thread.next_steps {J : Jobs FUT SharedIo OBS ACC} {m : ProcMachineImpl W FUT SharedIo} {th : Thread W}
    {c : Choice W ACC} {r : Next W FUT SharedIo OBS} (h : th.next J m c = some r) :
    Steps J m th r.event r.machine r.thread := by
  rcases th with ⟨pc,_ | ⟨⟨n,w⟩,rest⟩⟩
  · cases c with
    | go =>
      cases pc with
      | idle | critical => cases h
      | locking call =>
        simp only [Thread.next] at h
        split at h
        · cases h
        · cases h
          exact .lock m call ((Bool.not_eq_true _).mp ‹_›)
      | tick call pc => exact tick_steps h
      | unlock call done => cases h; exact .unlock m call done
      | notify call => cases h; exact .notify m call
      | register cx => cases h; exact .register m cx
      | ready => cases h; exact .ready m
    | spurious =>
      cases pc with
      | tick call pc =>
        cases pc with
        | compareExchange => cases h; exact .tickAgain m call
        | swap | polling | running => cases h
      | idle | locking | critical | unlock | notify | register | ready => cases h
    | wake n =>
      cases pc with
      | idle => cases h; exact .wake m n
      | locking | critical | tick | unlock | notify | register | ready => cases h
    | call caller =>
      cases caller with
      | new => cases h
      | lockRef | isDone | externalPoll cx =>
        cases pc with
        | idle => cases h; exact .call m _ (by simp)
        | locking | critical | tick | unlock | notify | register | ready => cases h
    | access acc =>
      cases pc with
      | critical => cases h; exact .access m acc
      | idle | locking | tick | unlock | notify | register | ready => cases h
    | drop =>
      cases pc with
      | critical => cases h; exact .drop m
      | idle | locking | tick | unlock | notify | register | ready => cases h
  · cases c with
    | go => exact wake_steps J (Option.some.inj h)
    | call caller => cases caller <;> cases h
    | spurious | wake | access | drop => cases h

def Pc.holds : Pc W → Bool
  | .critical | .tick _ _ | .unlock _ _ | .notify .isDone => true
  | _ => false

def Pc.ticks : Pc W → Bool
  | .tick _ _ => true
  | _ => false

/-- `alive_mask`, or during a poll the result that will replace it, has exactly the bits
of the futures that are present. -/
def Tracks (m : ProcMachineInner FUT SharedIo) : Pc W → Prop
  | .tick _ (.polling _ result n) =>
    ∀ i, result.getLsbD i = (decide (i < n) && (m.futures.fut i).isSome)
  | .tick _ (.running _ result n) =>
    (∀ i, result.getLsbD i = (decide (i < n.val) && (m.futures.fut i).isSome)) ∧
      (m.futures.fut n).isSome
  | _ => ∀ i, m.aliveMask.getLsbD i = (m.futures.fut i).isSome

/-- What a step does to the mutex and to what it protects. -/
inductive Guarded (m : ProcMachineImpl W FUT SharedIo) (pc : Pc W) (m' : ProcMachineImpl W FUT SharedIo)
    (pc' : Pc W) : Prop
  | outside (h : pc.holds = false) (h' : pc'.holds = false) (hl : m'.locked = m.locked)
    (hi : m'.inner = m.inner)
  | enter (h : pc.holds = false) (h' : pc'.holds = true) (hl : m.locked = false)
    (hl' : m'.locked = true) (hi : m'.inner = m.inner)
    (ht : Tracks m.inner (Pc.idle : Pc W) → Tracks m.inner pc')
  | inside (h : pc.holds = true) (h' : pc'.holds = true) (hl : m'.locked = m.locked)
    (ht : Tracks m.inner pc → Tracks m'.inner pc')
  | leave (h : pc.holds = true) (h' : pc'.holds = false) (hl' : m'.locked = false)
    (ht : Tracks m.inner pc → Tracks m'.inner (Pc.idle : Pc W))

theorem Steps.depth {J : Jobs FUT SharedIo OBS ACC} {m m' : ProcMachineImpl W FUT SharedIo} {th th' : Thread W}
    {e : Event W OBS} (h : Steps J m th e m' th') :
    m'.inner.futures.DEPTH = m.inner.futures.DEPTH := by
  cases h <;> simp

theorem Guarded.same {m m' : ProcMachineImpl W FUT SharedIo} (pc : Pc W) (hl : m'.locked = m.locked)
    (hi : m'.inner = m.inner) : Guarded m pc m' pc := by
  by_cases h : pc.holds = true
  · exact .inside h h hl (by rw [hi]; exact id)
  · have h' : pc.holds = false := (Bool.not_eq_true _).mp h
    exact .outside h' h' hl hi

theorem holds_afterLock (call : Caller W) : (afterLock call).holds = true := by
  cases call <;> rfl

theorem holds_afterTick (call : Caller W) (done : Bool) : (afterTick call done).holds = true := by
  cases call <;> cases done <;> rfl

theorem holds_afterUnlock (call : Caller W) (done : Bool) :
    (afterUnlock call done).holds = false := by
  cases call <;> cases done <;> rfl

theorem tracks_afterLock (m : ProcMachineInner FUT SharedIo) (call : Caller W) :
    Tracks m (afterLock call) = Tracks m (Pc.idle : Pc W) := by
  cases call <;> rfl

theorem tracks_afterTick (m : ProcMachineInner FUT SharedIo) (call : Caller W) (done : Bool) :
    Tracks m (afterTick call done) = Tracks m (Pc.idle : Pc W) := by
  cases call <;> cases done <;> rfl

theorem answered {futures futures' : ProcMachineFutures FUT} {result result' : BitVec 32} {n : ℕ}
    (h : ∀ i, result.getLsbD i = (decide (i < n) && (futures.fut i).isSome))
    (hne : ∀ i, i ≠ n → futures'.fut i = futures.fut i)
    (hres : ∀ i, i ≠ n → result'.getLsbD i = result.getLsbD i)
    (hn : result'.getLsbD n = (futures'.fut n).isSome) (i : ℕ) :
    result'.getLsbD i = (decide (i < n+1) && (futures'.fut i).isSome) := by
  by_cases hi : i = n
  · subst hi
    simp [hn]
  · rw [hres i hi,h i,hne i hi]
    have hlt : i < n ↔ i < n+1 := by omega
    simp [hlt]

theorem fut_lt_31 {futures : ProcMachineFutures FUT} (hd : futures.DEPTH ≤ 30) {n : ℕ}
    (h : (futures.fut n).isSome) : n < 31 := by
  by_contra hn
  rw [ProcMachineFutures.fut_of_DEPTH_lt (by omega)] at h
  cases h

theorem getLsbD_or_bit_ne (x : BitVec 32) {n i : ℕ} (h : i ≠ n) :
    (x ||| bit n).getLsbD i = x.getLsbD i := by
  simp [Ne.symm h]

theorem getLsbD_or_bit_self (x : BitVec 32) {n : ℕ} (h : n < 32) :
    (x ||| bit n).getLsbD n = true := by
  simp [h]

theorem Steps.guarded {J : Jobs FUT SharedIo OBS ACC} {m m' : ProcMachineImpl W FUT SharedIo}
    {th th' : Thread W} {e : Event W OBS} (h : Steps J m th e m' th')
    (hd : m.inner.futures.DEPTH ≤ 30) : Guarded m th.pc m' th'.pc := by
  cases h with
  | wakeFound | wakeLoad | wakeOutside | wakeInside | wakeRetry | wakeFire =>
    exact .same _ rfl rfl
  | wake => exact .same _ rfl rfl
  | call | register | ready => exact .outside rfl rfl rfl rfl
  | lock call hl =>
    exact .enter rfl (holds_afterLock call) hl rfl rfl (by rw [tracks_afterLock]; exact id)
  | access | drop => exact .inside rfl rfl rfl id
  | claimNone | tickAgain => exact .inside rfl rfl rfl id
  | claim call hm =>
    refine .inside rfl rfl rfl fun _ i => ?_
    by_cases hi : i < 1
    · have h0 : i = 0 := by omega
      simp [h0]
    · simp [hi]
  | pollEnd call mask result n hn =>
    refine .inside rfl rfl rfl fun ht i => ?_
    rw [ht i]
    by_cases hi : i < n
    · simp [hi]
    · rw [ProcMachineFutures.fut_of_DEPTH_lt (by omega)]
      simp
  | pollNone call mask result n hn =>
    refine .inside rfl rfl rfl fun ht => answered ht (fun _ _ => rfl) (fun _ _ => rfl) ?_
    simp [ht n,hn]
  | pollSkip call mask result n hfut hm =>
    refine .inside rfl rfl rfl fun ht =>
      answered ht (fun _ _ => rfl) (fun _ hi => getLsbD_or_bit_ne _ hi) ?_
    have hn := fut_lt_31 hd hfut
    rw [getLsbD_or_bit_self _ (by omega),hfut]
  | poll call mask result n hfut hm => exact .inside rfl rfl rfl fun ht => ⟨ht,hfut⟩
  | taskAct call mask result n hfut hr =>
    refine .inside rfl rfl rfl fun ht => ⟨fun i => ?_,?_⟩
    · rw [ht.1 i]
      by_cases hi : i < n.val
      · simp only
        rw [ProcMachineFutures.fut_setFut_ne _ _ (by omega)]
      · simp [hi]
    · simp only
      rw [ProcMachineFutures.fut_setFut_self _ _ ht.2]
      rfl
  | taskPending call mask result n hfut hr =>
    refine .inside rfl rfl rfl fun ht => answered ht.1
      (fun _ hi => ProcMachineFutures.fut_setFut_ne _ _ hi) (fun _ hi => getLsbD_or_bit_ne _ hi) ?_
    have hn := fut_lt_31 hd ht.2
    rw [getLsbD_or_bit_self _ (by omega)]
    simp only
    rw [ProcMachineFutures.fut_setFut_self _ _ ht.2]
    rfl
  | taskReady call mask result n hfut hr =>
    refine .inside rfl rfl rfl fun ht => answered ht.1
      (fun _ hi => ProcMachineFutures.fut_setFut_ne _ _ hi) (fun _ _ => rfl) ?_
    simp only
    rw [ProcMachineFutures.fut_setFut_self _ _ ht.2,ht.1 n]
    simp
  | tickEnd call hm =>
    exact .inside rfl (holds_afterTick _ _) rfl (by rw [tracks_afterTick]; exact id)
  | unlock call done => exact .leave rfl (holds_afterUnlock call done) rfl id
  | notify call =>
    cases call with
    | new | lockRef | externalPoll => exact .outside rfl rfl rfl rfl
    | isDone => exact .inside rfl rfl rfl id

/-- The flag is up only while its thread ticks: no step leaves `tick` with it. -/
theorem Steps.flag {J : Jobs FUT SharedIo OBS ACC} {m m' : ProcMachineImpl W FUT SharedIo} {th th' : Thread W}
    {e : Event W OBS} (h : Steps J m th e m' th') (hf : m'.wakeMask.getLsbD 31 = true) :
    th'.pc.ticks = true ∨ (m.wakeMask.getLsbD 31 = true ∧ th.pc.ticks = false) := by
  have keep : ∀ n : Task, (m.wakeMask ||| bit n).getLsbD 31 = true →
      m.wakeMask.getLsbD 31 = true := by
    intro n hn
    have hne : (31 : ℕ) ≠ n := by omega
    rwa [getLsbD_or_bit_ne _ hne] at hn
  have either : ∀ pc : Pc W, m.wakeMask.getLsbD 31 = true →
      pc.ticks = true ∨ (m.wakeMask.getLsbD 31 = true ∧ pc.ticks = false) := by
    intro pc hm
    cases hpc : pc.ticks
    · exact Or.inr ⟨hm,rfl⟩
    · exact Or.inl rfl
  cases h with
  | wakeFound pc | wakeLoad pc | wakeRetry pc | wakeFire pc => exact either pc hf
  | wakeOutside pc n | wakeInside pc n => exact either pc (keep n hf)
  | drop | claim | claimNone | pollEnd | pollNone | pollSkip | poll | taskAct | taskPending
  | taskReady | tickAgain => exact Or.inl rfl
  | tickEnd => simp at hf
  | wake | call | lock | access | unlock | notify | register | ready => exact Or.inr ⟨hf,rfl⟩

variable {Tid : Type} [DecidableEq Tid]

theorem Step.thread {J : Jobs FUT SharedIo OBS ACC} {poller : Tid} {s s' : State Tid W FUT SharedIo} {t : Tid}
    {e : Event W OBS} (h : Step J poller s (t,e) s') : ∃ m th, Steps J s.machine (s.thread t) e m th ∧
      s' = s.move t m th := by
  obtain ⟨-,c,h⟩ := h
  obtain ⟨r,hr,hs⟩ := Option.map_eq_some_iff.mp h
  obtain ⟨rfl,rfl⟩ := Prod.mk.inj hs
  exact ⟨r.machine,r.thread,Thread.next_steps hr,rfl⟩

/-- What holds in every reachable state: the mutex excludes, `alive_mask` follows the
futures and the flag belongs to a tick. -/
structure Sound (s : State Tid W FUT SharedIo) : Prop where
  supported : s.machine.inner.futures.DEPTH ≤ 30
  exclusive : ∀ t u, (s.thread t).pc.holds = true → (s.thread u).pc.holds = true → t = u
  locked : ∀ t, (s.thread t).pc.holds = true → s.machine.locked = true
  free : s.machine.locked = false → Tracks s.machine.inner (Pc.idle : Pc W)
  held : ∀ t, (s.thread t).pc.holds = true → Tracks s.machine.inner (s.thread t).pc
  flag : s.machine.wakeMask.getLsbD 31 = true → ∃ t, (s.thread t).pc.ticks = true

theorem sound_new (futures : Supported FUT) (io : SharedIo) (builder : Tid) :
    Sound (new futures io builder : State Tid W FUT SharedIo) where
  supported := futures.2
  exclusive t u ht hu := by
    by_cases h : t = builder <;> by_cases k : u = builder <;> simp_all [new,Pc.holds]
  locked _ _ := rfl
  free h := by cases h
  held t ht := by
    by_cases h : t = builder
    · simp only [new,h,if_true]
      intro i
      by_cases hi : i < 1
      · have h0 : i = 0 := by omega
        simp [h0]
      · simp [hi]
    · simp [new,h,Pc.holds] at ht
  flag h := by simp [new] at h

theorem Sound.next {J : Jobs FUT SharedIo OBS ACC} {poller : Tid} {s s' : State Tid W FUT SharedIo}
    {e : Tid × Event W OBS} (hs : Sound s) (h : Step J poller s e s') : Sound s' := by
  rcases e with ⟨t,e⟩
  obtain ⟨m,th,hstep,rfl⟩ := h.thread
  have hother := fun u => s.move_other t m th (u := u)
  have hflag : m.wakeMask.getLsbD 31 = true →
      ∃ u, ((s.move t m th).thread u).pc.ticks = true := by
    intro hf
    rcases hstep.flag hf with htick | ⟨hold,hno⟩
    · exact State.move_new (fun th => th.pc.ticks = true) htick
    · refine State.move_some (fun th => th.pc.ticks = true) (hs.flag hold) fun htick => ?_
      rw [hno] at htick
      cases htick
  have hdepth : m.inner.futures.DEPTH ≤ 30 := by
    rw [hstep.depth]
    exact hs.supported
  cases hstep.guarded hs.supported with
  | outside h0 h1 hl hi =>
    have hne : ∀ u, ((s.move t m th).thread u).pc.holds = true → u ≠ t := by
      rintro u hu rfl
      rw [State.move_self,h1] at hu
      cases hu
    have hold : ∀ u, ((s.move t m th).thread u).pc.holds = true →
        (s.thread u).pc.holds = true := by
      intro u hu
      rwa [hother u (hne u hu)] at hu
    refine ⟨hdepth,fun u v hu hv => hs.exclusive u v (hold u hu) (hold v hv),?_,?_,?_,hflag⟩
    · intro u hu
      exact hl.trans (hs.locked u (hold u hu))
    · intro hf
      rw [State.move_machine,hi]
      exact hs.free (hl.symm.trans hf)
    · intro u hu
      rw [State.move_machine,hi,hother u (hne u hu)]
      exact hs.held u (hold u hu)
  | enter h0 h1 hl hl' hi ht =>
    have honly : ∀ u, ((s.move t m th).thread u).pc.holds = true → u = t := by
      intro u hu
      by_contra hne
      rw [hother u hne] at hu
      rw [hs.locked u hu] at hl
      cases hl
    refine ⟨hdepth,fun u v hu hv => (honly u hu).trans (honly v hv).symm,fun _ _ => hl',?_,?_,hflag⟩
    · intro hf
      rw [State.move_machine,hl'] at hf
      cases hf
    · intro u hu
      cases honly u hu
      rw [State.move_machine,State.move_self,hi]
      exact ht (hs.free hl)
  | inside h0 h1 hl ht =>
    have honly : ∀ u, ((s.move t m th).thread u).pc.holds = true → u = t := by
      intro u hu
      by_contra hne
      rw [hother u hne] at hu
      exact hne (hs.exclusive u t hu h0)
    refine ⟨hdepth,fun u v hu hv => (honly u hu).trans (honly v hv).symm,?_,?_,?_,hflag⟩
    · exact fun _ _ => hl.trans (hs.locked t h0)
    · intro hf
      rw [State.move_machine,hl.trans (hs.locked t h0)] at hf
      cases hf
    · intro u hu
      cases honly u hu
      rw [State.move_machine,State.move_self]
      exact ht (hs.held _ h0)
  | leave h0 h1 hl' ht =>
    have hnone : ∀ u, ¬ ((s.move t m th).thread u).pc.holds = true := by
      intro u hu
      by_cases hut : u = t
      · rw [hut,State.move_self,h1] at hu
        cases hu
      · rw [hother u hut] at hu
        exact hut (hs.exclusive u t hu h0)
    refine ⟨hdepth,fun u _ hu => absurd hu (hnone u),fun u hu => absurd hu (hnone u),?_,
      fun u hu => absurd hu (hnone u),hflag⟩
    exact fun _ => ht (hs.held t h0)

theorem sound_run {J : Jobs FUT SharedIo OBS ACC} {poller builder : Tid} {futures : Supported FUT}
    {io : SharedIo} {es : List (Tid × Event W OBS)} {s : State Tid W FUT SharedIo}
    (h : Transition.Run (Step J poller) (new futures io builder) es s) : Sound s :=
  h.invariant (fun _ _ _ hs hk => hs.next hk) (sound_new futures io builder)

theorem locked_next {J : Jobs FUT SharedIo OBS ACC} {poller : Tid} {s s' : State Tid W FUT SharedIo}
    {e : Tid × Event W OBS} (hs : Sound s) (h : Step J poller s e s')
    (hheld : s.machine.locked = true → ∃ t, (s.thread t).pc.holds = true)
    (hl : s'.machine.locked = true) : ∃ t, (s'.thread t).pc.holds = true := by
  rcases e with ⟨t,e⟩
  obtain ⟨m,th,hstep,rfl⟩ := h.thread
  cases hstep.guarded hs.supported with
  | outside h0 h1 hsame =>
    refine State.move_some (fun th => th.pc.holds = true) (hheld (hsame.symm.trans hl)) ?_
    intro hold
    rw [h0] at hold
    cases hold
  | enter h0 h1 => exact State.move_new (fun th => th.pc.holds = true) h1
  | inside h0 h1 => exact State.move_new (fun th => th.pc.holds = true) h1
  | leave h0 h1 hfree =>
    rw [State.move_machine,hfree] at hl
    cases hl

/-- A locked mutex has a holder. -/
theorem locked_run {J : Jobs FUT SharedIo OBS ACC} {poller builder : Tid} {futures : Supported FUT}
    {io : SharedIo} {es : List (Tid × Event W OBS)} {s : State Tid W FUT SharedIo}
    (h : Transition.Run (Step J poller) (new futures io builder) es s)
    (hl : s.machine.locked = true) : ∃ t, (s.thread t).pc.holds = true := by
  induction h with
  | refl => exact ⟨builder,by simp [new,Pc.holds]⟩
  | snoc h hk ih => exact locked_next (sound_run h) hk ih hl

def exec (J : Jobs FUT SharedIo OBS ACC) (poller : Tid) : State Tid W FUT SharedIo → List (Tid × Choice W ACC) →
    Option (State Tid W FUT SharedIo × List (Tid × Event W OBS))
  | s, [] => some (s,[])
  | s, (t,c) :: moves => do
    let (s,e) ← next J s t c
    guard (callable poller (t,e))
    let (s,es) ← exec J poller s moves
    return (s,(t,e) :: es)

theorem exec_run {J : Jobs FUT SharedIo OBS ACC} {poller : Tid} {moves : List (Tid × Choice W ACC)}
    {s s' : State Tid W FUT SharedIo} {es : List (Tid × Event W OBS)}
    (h : exec J poller s moves = some (s',es)) : Transition.Run (Step J poller) s es s' := by
  induction moves generalizing s es with
  | nil =>
    cases h
    exact .refl _
  | cons move moves ih =>
    simp only [exec,Option.bind_eq_bind,Option.bind_eq_some_iff] at h
    obtain ⟨⟨s₁,e⟩,hnext,⟨⟩,hguard,⟨s₂,es'⟩,hexec,hret⟩ := h
    cases hret
    have hcall : callable poller (move.1,e) = true := by
      by_contra hno
      simp [guard,hno] at hguard
    exact (Transition.Run.single ⟨hcall,move.2,hnext⟩).trans (ih hexec)

theorem exec_get {J : Jobs FUT SharedIo OBS ACC} {poller : Tid} {moves : List (Tid × Choice W ACC)}
    {s : State Tid W FUT SharedIo} (h : (exec J poller s moves).isSome) :
    Transition.Run (Step J poller) s ((exec J poller s moves).get h).2
      ((exec J poller s moves).get h).1 :=
  exec_run (Option.some_get h).symm

theorem step_get {J : Jobs FUT SharedIo OBS ACC} {poller t : Tid} {c : Choice W ACC}
    {s : State Tid W FUT SharedIo} (h : (next J s t c).isSome)
    (hc : callable poller (t,((next J s t c).get h).2) = true) :
    Step J poller s (t,((next J s t c).get h).2) ((next J s t c).get h).1 :=
  ⟨hc,c,(Option.some_get h).symm⟩

/-- Tasks written as scripts: wake some tasks, or return `Pending`; at its end a script is ready. -/
def scripts : Jobs (List (Option (List Task))) Unit Unit Empty where
  resume _ fut _ :=
    match fut with
    | [] => .ready
    | some woken :: rest => .act () woken rest ()
    | none :: rest => .pending rest
  access a := a.elim

def go (t : Bool) (n : ℕ) : List (Bool × Choice Unit Empty) := List.replicate n (t,.go)

end ProcMachine
end ProcMachines
