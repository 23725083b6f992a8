import ProcMachines.ProcMachineSteps

/-! One poll of the whole chain of task futures, as the chain computes it, and what it has to
do with `alive_mask` over every run. -/
namespace ProcMachines
namespace ProcMachine

open Transition

/-- One poll of a task: the layer it lies in, the waker it was given, its future, and what
the poll left of that. -/
structure Visit (FUT : Type) where
  depth : ℕ
  waker : Task
  fut : FUT
  left : Option FUT
  deriving DecidableEq, Repr

/-- What a poll of the chain leaves behind, with the tasks it polled and its result. -/
structure Pass (FUT S : Type) where
  futures : ProcMachineFutures FUT
  state : S
  visits : List (Visit FUT)
  result : BitVec 32

section Pass

variable {FUT S : Type} (pollTask : Task → FUT → S → Option (Option FUT × S)) (depthMask : BitVec 32)

/-- `poll` of the chain, its `prev` first. A task's poll leaves its future, or none when it is
ready; it may also not return at all. -/
def ProcMachineFutures.poll : ProcMachineFutures FUT → S → Option (Pass FUT S)
  | .base, s => some ⟨.base,s,[],0⟩
  | .extension prev fut, s => do
    let parent ← prev.poll s
    let depth := prev.DEPTH + 1
    match fut with
    | none => return { parent with futures := .extension parent.futures none }
    | some fut =>
      if depthMask &&& bit depth = 0 then
        return { parent with futures := .extension parent.futures (some fut),
                             result := parent.result ||| bit depth }
      else
        let cx ← getMultiWaker depth
        let (left,s) ← pollTask cx fut parent.state
        return ⟨.extension parent.futures left,s,parent.visits ++ [⟨depth,cx,fut,left⟩],
          if left.isSome then parent.result ||| bit depth else parent.result⟩

/-- The futures that are to be polled, with their depths, in ascending order. -/
def ProcMachineFutures.due (futures : ProcMachineFutures FUT) : List (ℕ × FUT) :=
  (List.range' 1 futures.DEPTH).filterMap fun n =>
    if depthMask.getLsbD n then (futures.fut n).map (n,·) else none

/-- The polls are made one after the other, and leave what the tasks leave. -/
def Replays : S → List (Visit FUT) → S → Prop
  | s, [], t => s = t
  | s, v :: visits, t => ∃ u, pollTask v.waker v.fut s = some (v.left,u) ∧ Replays u visits t

/-- A poll of the chain polls the futures that are due, each once, in order and with the waker
of its own index, drops those that are ready, touches no other, and returns what is left. -/
structure Polls (futures : ProcMachineFutures FUT) (s : S) (p : Pass FUT S) : Prop where
  order : p.visits.map (fun v => (v.depth,v.fut)) = futures.due depthMask
  waker : ∀ v ∈ p.visits, (v.waker : ℕ) = v.depth
  replays : Replays pollTask s p.visits p.state
  DEPTH : p.futures.DEPTH = futures.DEPTH
  visited : ∀ v ∈ p.visits, p.futures.fut v.depth = v.left
  untouched : ∀ n, (∀ v ∈ p.visits, v.depth ≠ n) → p.futures.fut n = futures.fut n
  result : ∀ i, p.result.getLsbD i = (p.futures.fut i).isSome

variable {pollTask depthMask} {prev : ProcMachineFutures FUT} {f : FUT} {s t : S}

theorem getMultiWaker_of_lt {n : ℕ} (h : n < 31) : getMultiWaker n = some ⟨n,h⟩ := dif_pos h

theorem bit_mask_iff {n : ℕ} (hn : n < 32) : depthMask &&& bit n = 0 ↔ depthMask.getLsbD n = false :=
  and_bit_eq_zero hn depthMask

theorem Replays.snoc {visits : List (Visit FUT)} {v : Visit FUT} {u : S}
    (h : Replays pollTask s visits t) (hv : pollTask v.waker v.fut t = some (v.left,u)) :
    Replays pollTask s (visits ++ [v]) u := by
  induction visits generalizing s with
  | nil =>
    obtain rfl : s = t := h
    exact ⟨u,hv,rfl⟩
  | cons w visits ih =>
    obtain ⟨r,hr,hrest⟩ := h
    exact ⟨r,hr,ih hrest⟩

theorem ProcMachineFutures.due_extension (fut : Option FUT) :
    (ProcMachineFutures.extension prev fut).due depthMask = prev.due depthMask ++
      (if depthMask.getLsbD (prev.DEPTH + 1) then fut.map (prev.DEPTH + 1,·) else none).toList := by
  have hprev : ∀ n ∈ List.range' 1 prev.DEPTH, (if depthMask.getLsbD n then
      ((ProcMachineFutures.extension prev fut).fut n).map (n,·) else none) =
      if depthMask.getLsbD n then (prev.fut n).map (n,·) else none := by
    intro n hn
    have hne : n ≠ prev.DEPTH + 1 := by
      have hlt := (List.mem_range'_1.mp hn).2
      omega
    simp [ProcMachineFutures.fut,hne]
  rw [ProcMachineFutures.due,ProcMachineFutures.DEPTH,List.range'_concat,List.filterMap_append,
    List.filterMap_congr hprev,ProcMachineFutures.due]
  congr 1
  rw [Nat.one_mul,Nat.add_comm 1]
  cases hbit : depthMask.getLsbD (prev.DEPTH + 1) <;> cases fut <;>
    simp [hbit,ProcMachineFutures.fut]

theorem Polls.depth_lt {futures : ProcMachineFutures FUT} {p : Pass FUT S}
    (h : Polls pollTask depthMask futures s p) {v : Visit FUT} (hv : v ∈ p.visits) :
    v.depth ≤ futures.DEPTH := by
  have hmem : (v.depth,v.fut) ∈ futures.due depthMask := by
    rw [← h.order]
    exact List.mem_map_of_mem hv
  obtain ⟨n,hn,hdue⟩ := List.mem_filterMap.mp hmem
  have hlt := (List.mem_range'_1.mp hn).2
  split at hdue
  · obtain ⟨_,_,heq⟩ := Option.map_eq_some_iff.mp hdue
    have hdepth := (Prod.mk.inj heq).1
    omega
  · cases hdue

theorem fut_extension_ne (fut : Option FUT) {n : ℕ} (h : n ≠ prev.DEPTH + 1) :
    (ProcMachineFutures.extension prev fut).fut n = prev.fut n := if_neg h

theorem fut_extension_self (fut : Option FUT) :
    (ProcMachineFutures.extension prev fut).fut (prev.DEPTH + 1) = fut := if_pos rfl

theorem result_extension {result : BitVec 32}
    (h : ∀ i, result.getLsbD i = (prev.fut i).isSome) (hd : prev.DEPTH < 30) (left : Option FUT)
    (i : ℕ) : (if left.isSome then result ||| bit (prev.DEPTH + 1) else result).getLsbD i =
      ((ProcMachineFutures.extension prev left).fut i).isSome := by
  have hlast : (prev.fut (prev.DEPTH + 1)).isSome = false := by
    rw [ProcMachineFutures.fut_of_DEPTH_lt (Nat.lt_succ_self _)]
    rfl
  by_cases hi : i = prev.DEPTH + 1
  · subst hi
    rw [fut_extension_self]
    cases left with
    | none => exact (h _).trans hlast
    | some f => exact getLsbD_or_bit_self result (by omega)
  · rw [fut_extension_ne left hi,← h i]
    cases left with
    | none => rfl
    | some f => exact getLsbD_or_bit_ne result hi

theorem Polls.keep {p : Pass FUT S} (h : Polls pollTask depthMask prev s p) {fut : Option FUT}
    (hd : prev.DEPTH < 30) (hidle : fut = none ∨ depthMask.getLsbD (prev.DEPTH + 1) = false) :
    Polls pollTask depthMask (.extension prev fut) s ⟨.extension p.futures fut,p.state,p.visits,
      if fut.isSome then p.result ||| bit (prev.DEPTH + 1) else p.result⟩ where
  order := by
    have hnone : (if depthMask.getLsbD (prev.DEPTH + 1) then fut.map (prev.DEPTH + 1,·)
        else none) = none := by
      rcases hidle with rfl | hbit
      · simp
      · simp [hbit]
    rw [ProcMachineFutures.due_extension,hnone,Option.toList_none,List.append_nil]
    exact h.order
  waker := h.waker
  replays := h.replays
  DEPTH := congrArg (· + 1) h.DEPTH
  visited v hv := by
    have hle := h.depth_lt hv
    rw [fut_extension_ne fut (by rw [h.DEPTH]; omega)]
    exact h.visited v hv
  untouched n hn := by
    by_cases hlast : n = prev.DEPTH + 1
    · rw [hlast,fut_extension_self,← h.DEPTH,fut_extension_self]
    · rw [fut_extension_ne fut hlast,fut_extension_ne fut (by rw [h.DEPTH]; exact hlast)]
      exact h.untouched n hn
  result := by
    rw [← h.DEPTH] at hd ⊢
    exact result_extension h.result hd fut

theorem Polls.add {p : Pass FUT S} (h : Polls pollTask depthMask prev s p) (hd : prev.DEPTH < 30)
    (hbit : depthMask.getLsbD (prev.DEPTH + 1) = true) {cx : Task} (hcx : (cx : ℕ) = prev.DEPTH + 1)
    {left : Option FUT} (hleft : pollTask cx f p.state = some (left,t)) :
    Polls pollTask depthMask (.extension prev (some f)) s ⟨.extension p.futures left,t,
      p.visits ++ [⟨prev.DEPTH + 1,cx,f,left⟩],
      if left.isSome then p.result ||| bit (prev.DEPTH + 1) else p.result⟩ where
  order := by
    rw [ProcMachineFutures.due_extension,if_pos hbit,List.map_append,h.order]
    rfl
  waker v hv := by
    rcases List.mem_append.mp hv with hv | hv
    · exact h.waker v hv
    · rw [List.mem_singleton.mp hv]
      exact hcx
  replays := h.replays.snoc hleft
  DEPTH := congrArg (· + 1) h.DEPTH
  visited v hv := by
    rcases List.mem_append.mp hv with hv | hv
    · have hle := h.depth_lt hv
      rw [fut_extension_ne left (by rw [h.DEPTH]; omega)]
      exact h.visited v hv
    · rw [List.mem_singleton.mp hv,← h.DEPTH]
      exact fut_extension_self left
  untouched n hn := by
    have hlast : n ≠ prev.DEPTH + 1 := fun e =>
      hn ⟨prev.DEPTH + 1,cx,f,left⟩ (by simp) e.symm
    rw [fut_extension_ne (some f) hlast,fut_extension_ne left (by rw [h.DEPTH]; exact hlast)]
    exact h.untouched n fun v hv => hn v (List.mem_append_left _ hv)
  result := by
    rw [← h.DEPTH] at hd ⊢
    exact result_extension h.result hd left

/-- Whatever the tasks do, a poll of the chain that returns has polled what is due. -/
theorem poll_polls {futures : ProcMachineFutures FUT} (hd : futures.DEPTH ≤ 30) {p : Pass FUT S}
    (h : futures.poll pollTask depthMask s = some p) : Polls pollTask depthMask futures s p := by
  induction futures generalizing p with
  | base =>
    obtain rfl := Option.some.inj h
    exact ⟨rfl,by simp,rfl,rfl,by simp,fun _ _ => rfl,by simp [ProcMachineFutures.fut]⟩
  | extension prev fut ih =>
    have hlt : prev.DEPTH < 30 := hd
    simp only [ProcMachineFutures.poll,Option.bind_eq_bind,Option.bind_eq_some_iff] at h
    obtain ⟨parent,hparent,h⟩ := h
    have hprev := ih hlt.le hparent
    cases fut with
    | none =>
      obtain rfl := Option.some.inj h
      exact hprev.keep hlt (Or.inl rfl)
    | some f =>
      simp only at h
      split at h
      · rename_i hbit
        obtain rfl := Option.some.inj h
        exact hprev.keep hlt (Or.inr ((bit_mask_iff (by omega)).mp hbit))
      · rename_i hbit
        obtain ⟨cx,hcx,⟨left,t⟩,hleft,h⟩ := by simpa only [Option.bind_eq_some_iff] using h
        obtain rfl := Option.some.inj h
        refine hprev.add hlt ?_ (getMultiWaker_eq_some hcx).symm hleft
        simpa using mt (bit_mask_iff (by omega)).mpr hbit

theorem poll_returns {futures : ProcMachineFutures FUT} (hd : futures.DEPTH ≤ 30)
    (hpoll : ∀ cx f s, (pollTask cx f s).isSome) (s : S) :
    ∃ p, futures.poll pollTask depthMask s = some p := by
  induction futures with
  | base => exact ⟨_,rfl⟩
  | extension prev fut ih =>
    have hlt : prev.DEPTH < 30 := hd
    obtain ⟨parent,hparent⟩ := ih hlt.le
    cases fut with
    | none => exact ⟨_,by simp only [ProcMachineFutures.poll,hparent]; rfl⟩
    | some f =>
      by_cases hbit : depthMask &&& bit (prev.DEPTH + 1) = 0
      · exact ⟨_,by simp only [ProcMachineFutures.poll,hparent,Option.bind_eq_bind,Option.bind_some,
          if_pos hbit]; rfl⟩
      · have hcx := getMultiWaker_of_lt (n := prev.DEPTH + 1) (by omega)
        obtain ⟨r,hr⟩ := Option.isSome_iff_exists.mp (hpoll ⟨prev.DEPTH + 1,by omega⟩ f parent.state)
        exact ⟨_,by simp only [ProcMachineFutures.poll,hparent,Option.bind_eq_bind,Option.bind_some,
          if_neg hbit,hcx,hr]; rfl⟩

end Pass

section Completion

variable {W FUT SharedIo OBS ACC : Type} {J : Jobs FUT SharedIo OBS ACC}
  {m m' : ProcMachineImpl W FUT SharedIo} {th th' : Thread W} {e : Event W OBS}

/-- The task whose poll returns `Ready` in the next step of a thread. -/
def completes (J : Jobs FUT SharedIo OBS ACC) (m : ProcMachineImpl W FUT SharedIo) :
    Thread W → Option Task
  | ⟨.tick _ (.running _ _ n),[]⟩ =>
    match m.inner.futures.fut n with
    | some fut =>
      match J.resume n fut m.inner.io with
      | .ready => some n
      | _ => none
    | none => none
  | _ => none

theorem Steps.completes (h : Steps J m th e m' th') (i : ℕ) : (m'.inner.futures.fut i).isSome ↔
    (m.inner.futures.fut i).isSome ∧ (ProcMachine.completes J m th).map Fin.val ≠ some i := by
  cases h with
  | taskAct call mask result n hfut hr =>
    simp only [ProcMachine.completes,hfut,hr]
    by_cases hin : i = n
    · rw [hin,ProcMachineFutures.fut_setFut_self _ _ (by rw [hfut]; rfl),hfut]
      simp
    · simp [ProcMachineFutures.fut_setFut_ne _ _ hin]
  | taskPending call mask result n hfut hr =>
    simp only [ProcMachine.completes,hfut,hr]
    by_cases hin : i = n
    · rw [hin,ProcMachineFutures.fut_setFut_self _ _ (by rw [hfut]; rfl),hfut]
      simp
    · simp [ProcMachineFutures.fut_setFut_ne _ _ hin]
  | taskReady call mask result n hfut hr =>
    simp only [ProcMachine.completes,hfut,hr]
    by_cases hin : i = n
    · rw [hin,ProcMachineFutures.fut_setFut_self _ _ (by rw [hfut]; rfl)]
      simp
    · simp [ProcMachineFutures.fut_setFut_ne _ _ hin,Ne.symm hin]
  | _ => simp [ProcMachine.completes]

theorem Steps.polled {n : Task} (h : Steps J m th (.polled n) m' th') :
    (m.inner.futures.fut n).isSome := by
  cases h
  assumption

variable {Tid : Type} [DecidableEq Tid] {poller builder : Tid} {s s' : State Tid W FUT SharedIo}

/-- A step of the system, with the task that it completes. -/
def Observed (J : Jobs FUT SharedIo OBS ACC) (poller : Tid) (s : State Tid W FUT SharedIo)
    (e : (Tid × Event W OBS) × Option Task) (s' : State Tid W FUT SharedIo) : Prop :=
  Step J poller s e.1 s' ∧ e.2 = completes J s.machine (s.thread e.1.1)

/-- A task that was built and has not returned `Ready` yet. -/
def Unfinished (futures : ProcMachineFutures FUT) (es : List ((Tid × Event W OBS) × Option Task))
    (i : ℕ) : Prop :=
  (futures.fut i).isSome ∧ ∀ e ∈ es, e.2.map Fin.val ≠ some i

omit [DecidableEq Tid] in
theorem unfinished_snoc {futures : ProcMachineFutures FUT}
    {es : List ((Tid × Event W OBS) × Option Task)} {e : (Tid × Event W OBS) × Option Task} {i : ℕ} :
    Unfinished futures (es ++ [e]) i ↔ Unfinished futures es i ∧ e.2.map Fin.val ≠ some i := by
  simp only [Unfinished,List.forall_mem_append,List.forall_mem_singleton,and_assoc]

/-- A later event is no poll of the task that the earlier one completes. -/
def NotRepolled (e f : (Tid × Event W OBS) × Option Task) : Prop :=
  ∀ n, e.2 = some n → f.1.2 ≠ .polled n

/-- The history of completions agrees with the futures that are left. -/
structure Recorded (futures : ProcMachineFutures FUT)
    (es : List ((Tid × Event W OBS) × Option Task)) (s : State Tid W FUT SharedIo) : Prop where
  left : ∀ i : ℕ, (s.machine.inner.futures.fut i).isSome ↔ Unfinished futures es i
  order : es.Pairwise NotRepolled

theorem Recorded.next {futures : ProcMachineFutures FUT}
    {es : List ((Tid × Event W OBS) × Option Task)} (hrec : Recorded futures es s)
    {e : (Tid × Event W OBS) × Option Task} (h : Observed J poller s e s') :
    Recorded futures (es ++ [e]) s' := by
  rcases e with ⟨⟨t,e⟩,done⟩
  obtain ⟨hstep,hdone⟩ := h
  obtain ⟨m,th,hsteps,rfl⟩ := hstep.thread
  obtain rfl : done = completes J s.machine (s.thread t) := hdone
  constructor
  · intro i
    rw [unfinished_snoc,← hrec.left i]
    exact hsteps.completes i
  · rw [List.pairwise_append]
    refine ⟨hrec.order,List.pairwise_singleton _ _,?_⟩
    intro f hf g hg n hn hpoll
    obtain rfl := List.mem_singleton.mp hg
    obtain rfl : e = .polled n := hpoll
    have hsome := (hrec.left n).mp hsteps.polled
    exact hsome.2 f hf (by rw [hn]; rfl)

def Pc.passing : Pc W → Bool
  | .tick _ (.polling _ _ _) | .tick _ (.running _ _ _) => true
  | _ => false

theorem tracks_of_not_passing {m : ProcMachineInner FUT SharedIo} {pc : Pc W} (h : pc.passing = false)
    (ht : Tracks m pc) (i : ℕ) : m.aliveMask.getLsbD i = (m.futures.fut i).isSome := by
  cases pc with
  | tick call pc =>
    cases pc with
    | polling mask result n => cases h
    | running mask result n => cases h
    | swap => exact ht i
    | compareExchange => exact ht i
  | idle | locking | critical | unlock | notify | register | ready => exact ht i

/-- Between polls of the chain `alive_mask` has exactly the bits of the futures present. -/
theorem alive_between {futures : Supported FUT} {io : SharedIo} {es : List (Tid × Event W OBS)}
    (h : Run (Step J poller) (new futures io builder) es s)
    (hidle : ∀ t, (s.thread t).pc.passing = false) (i : ℕ) :
    s.machine.inner.aliveMask.getLsbD i = (s.machine.inner.futures.fut i).isSome := by
  have hs := sound_run h
  cases hl : s.machine.locked with
  | false => exact hs.free hl i
  | true =>
    obtain ⟨t,ht⟩ := locked_run h hl
    exact tracks_of_not_passing (hidle t) (hs.held t ht) i

theorem observed_run {s₀ : State Tid W FUT SharedIo} {es : List ((Tid × Event W OBS) × Option Task)}
    (h : Run (Observed J poller) s₀ es s) : Run (Step J poller) s₀ (es.map Prod.fst) s := by
  induction h with
  | refl => exact Run.refl _
  | snoc _ hk ih =>
    rw [List.map_append]
    exact ih.snoc hk.1

theorem run_observed {s₀ : State Tid W FUT SharedIo} {es : List (Tid × Event W OBS)}
    (h : Run (Step J poller) s₀ es s) : ∃ ds, ds.map Prod.fst = es ∧
      Run (Observed J poller) s₀ ds s := by
  induction h with
  | refl => exact ⟨[],rfl,Run.refl _⟩
  | @snoc t u es e _ hk ih =>
    obtain ⟨ds,hds,hrun⟩ := ih
    exact ⟨ds ++ [(e,completes J t.machine (t.thread e.1))],by simp [hds],hrun.snoc ⟨hk,rfl⟩⟩

theorem recorded_run {futures : Supported FUT} {io : SharedIo}
    {es : List ((Tid × Event W OBS) × Option Task)}
    (h : Run (Observed J poller) (new futures io builder) es s) : Recorded futures.1 es s := by
  refine h.history ?_ fun es t e u hrec hk => hrec.next hk
  exact ⟨fun i => by simp [new,Unfinished],List.Pairwise.nil⟩

end Completion

section Layers

variable {FUT S : Type} {pollTask pollTask' : Task → FUT → S → Option (Option FUT × S)}
  {depthMask : BitVec 32} {futures : ProcMachineFutures FUT} {s : S} {p : Pass FUT S} {k n : ℕ}

namespace ProcMachineFutures

def upTo (k : ℕ) : ProcMachineFutures FUT → ProcMachineFutures FUT
  | base => base
  | extension prev fut => if prev.DEPTH + 1 ≤ k then extension prev fut else prev.upTo k

theorem upTo_of_le (h : futures.DEPTH ≤ k) : futures.upTo k = futures := by
  cases futures with
  | base => rfl
  | extension prev fut => exact if_pos h

theorem DEPTH_upTo (h : k ≤ futures.DEPTH) : (futures.upTo k).DEPTH = k := by
  induction futures with
  | base => exact (Nat.le_zero.mp h).symm
  | extension prev fut ih =>
    have hk : k ≤ prev.DEPTH + 1 := h
    by_cases hle : prev.DEPTH + 1 ≤ k
    · rw [upTo,if_pos hle]
      exact le_antisymm hle hk
    · rw [upTo,if_neg hle]
      exact ih (by omega)

theorem upTo_succ (h : k < futures.DEPTH) :
    futures.upTo (k + 1) = extension (futures.upTo k) (futures.fut (k + 1)) := by
  induction futures with
  | base => exact absurd h (Nat.not_lt_zero k)
  | extension prev fut ih =>
    have hk : k < prev.DEPTH + 1 := h
    by_cases hle : prev.DEPTH + 1 ≤ k + 1
    · obtain rfl : k = prev.DEPTH := by omega
      rw [upTo,if_pos hle,upTo,if_neg (by omega),upTo_of_le le_rfl,ProcMachineFutures.fut,if_pos rfl]
    · rw [upTo,if_neg hle,upTo,if_neg (by omega),ProcMachineFutures.fut,if_neg (by omega)]
      exact ih (by omega)

theorem setFut_of_DEPTH_lt (g : Option FUT) (h : futures.DEPTH < n) : futures.setFut n g = futures := by
  induction futures with
  | base => rfl
  | extension prev fut ih =>
    have hlt : prev.DEPTH + 1 < n := h
    rw [setFut,if_neg (by omega),ih (by omega)]

theorem setFut_self {f : FUT} (h : futures.fut n = some f) : futures.setFut n (some f) = futures := by
  induction futures with
  | base => rfl
  | extension prev fut ih =>
    by_cases hn : n = prev.DEPTH + 1
    · rw [ProcMachineFutures.fut,if_pos hn] at h
      rw [setFut,if_pos hn,h]
    · rw [ProcMachineFutures.fut,if_neg hn] at h
      rw [setFut,if_neg hn,ih h]

theorem setFut_setFut (f g : Option FUT) :
    (futures.setFut n f).setFut n g = futures.setFut n g := by
  induction futures with
  | base => rfl
  | extension prev fut ih =>
    by_cases hn : n = prev.DEPTH + 1
    · simp only [setFut,if_pos hn]
    · simp only [setFut,if_neg hn,DEPTH_setFut,ih]

theorem upTo_zero : futures.upTo 0 = base := by
  induction futures with
  | base => rfl
  | extension prev fut ih => exact (if_neg (Nat.not_succ_le_zero _)).trans ih

theorem upTo_setFut (g : Option FUT) (h : k < n) : (futures.setFut n g).upTo k = futures.upTo k := by
  induction futures with
  | base => rfl
  | extension prev fut ih =>
    by_cases hn : n = prev.DEPTH + 1
    · rw [setFut,if_pos hn,upTo,upTo,if_neg (by omega),if_neg (by omega)]
    · rw [setFut,if_neg hn,upTo,upTo,DEPTH_setFut,ih]
      by_cases hle : prev.DEPTH + 1 ≤ k
      · rw [if_pos hle,if_pos hle,setFut_of_DEPTH_lt g (by omega)]
      · rw [if_neg hle,if_neg hle]

end ProcMachineFutures

theorem poll_mono (hle : ∀ cx f s r, pollTask cx f s = some r → pollTask' cx f s = some r)
    (h : futures.poll pollTask depthMask s = some p) :
    futures.poll pollTask' depthMask s = some p := by
  induction futures generalizing p with
  | base => exact h
  | extension prev fut ih =>
    simp only [ProcMachineFutures.poll,Option.bind_eq_bind,Option.bind_eq_some_iff] at h ⊢
    obtain ⟨parent,hparent,h⟩ := h
    refine ⟨parent,ih hparent,?_⟩
    cases fut with
    | none => exact h
    | some f =>
      simp only at h ⊢
      split at h
      · rename_i hbit
        rw [if_pos hbit]
        exact h
      · rename_i hbit
        rw [if_neg hbit]
        obtain ⟨cx,hcx,r,hr,h⟩ := by simpa only [Option.bind_eq_some_iff] using h
        simp only [Option.bind_eq_some_iff]
        exact ⟨cx,hcx,r,hle _ _ _ _ hr,h⟩

end Layers

section Passes

variable {W FUT SharedIo OBS ACC : Type} {J : Jobs FUT SharedIo OBS ACC}

/-- The poll of a task runs its steps, `fuel` at most, to the first that returns. -/
def runTask (J : Jobs FUT SharedIo OBS ACC) :
    ℕ → Task → FUT → SharedIo → Option (Option FUT × SharedIo)
  | 0, _, _, _ => none
  | fuel+1, cx, fut, io =>
    match J.resume cx fut io with
    | .act io _ fut _ => runTask J fuel cx fut io
    | .pending fut => some (some fut,io)
    | .ready => some (none,io)

theorem runTask_succ {fuel : ℕ} {cx : Task} {fut : FUT} {io : SharedIo} {r : Option FUT × SharedIo}
    (h : runTask J fuel cx fut io = some r) : runTask J (fuel + 1) cx fut io = some r := by
  induction fuel generalizing fut io with
  | zero => cases h
  | succ fuel ih =>
    rw [runTask] at h ⊢
    split
    · rename_i hact
      rw [hact] at h
      exact ih h
    · rename_i hpending
      rw [hpending] at h
      exact h
    · rename_i hready
      rw [hready] at h
      exact h

theorem runTask_mono {fuel fuel' : ℕ} (hle : fuel ≤ fuel') {cx : Task} {fut : FUT} {io : SharedIo}
    {r : Option FUT × SharedIo} (h : runTask J fuel cx fut io = some r) :
    runTask J fuel' cx fut io = some r := by
  induction hle with
  | refl => exact h
  | step _ ih => exact runTask_succ ih

/-- The first `k` layers of the chain `futures₀` have been polled, and left `futures`. -/
structure Progress (J : Jobs FUT SharedIo OBS ACC) (depthMask : BitVec 32)
    (futures₀ : ProcMachineFutures FUT) (io₀ : SharedIo) (k : ℕ) (futures : ProcMachineFutures FUT)
    (io : SharedIo) (result : BitVec 32) (polled : List Task) : Prop where
  pass : ∃ fuel visits, (futures₀.upTo k).poll (runTask J fuel) depthMask io₀ =
      some ⟨futures.upTo k,io,visits,result⟩ ∧ visits.map Visit.waker = polled
  DEPTH : futures.DEPTH = futures₀.DEPTH
  ahead : ∀ i, k < i → futures.fut i = futures₀.fut i

variable {depthMask result : BitVec 32} {futures₀ futures futures' : ProcMachineFutures FUT}
  {io₀ io io' : SharedIo} {k : ℕ} {polled : List Task}

theorem Progress.keep (h : Progress J depthMask futures₀ io₀ k futures io result polled)
    (hidle : futures.fut (k + 1) = none ∨ depthMask &&& bit (k + 1) = 0) :
    Progress J depthMask futures₀ io₀ (k + 1) futures io
      (if (futures.fut (k + 1)).isSome then result ||| bit (k + 1) else result) polled := by
  obtain ⟨⟨fuel,visits,hpoll,hpolled⟩,hd,hahead⟩ := h
  refine ⟨⟨fuel,visits,?_,hpolled⟩,hd,fun i hi => hahead i (by omega)⟩
  have hsame := hahead (k + 1) (Nat.lt_succ_self k)
  by_cases hk : k < futures₀.DEPTH
  · rw [ProcMachineFutures.upTo_succ hk,ProcMachineFutures.upTo_succ (hd ▸ hk),← hsame]
    have hdepth := ProcMachineFutures.DEPTH_upTo hk.le
    simp only [ProcMachineFutures.poll,hpoll,Option.bind_eq_bind,Option.bind_some,hdepth]
    cases hfut : futures.fut (k + 1) with
    | none => simp
    | some f =>
      have hbit : depthMask &&& bit (k + 1) = 0 := by simpa [hfut] using hidle
      simp [hbit]
  · have hlast : futures.fut (k + 1) = none :=
      ProcMachineFutures.fut_of_DEPTH_lt (by omega)
    rw [hlast,ProcMachineFutures.upTo_of_le (by omega),ProcMachineFutures.upTo_of_le (by omega)]
    rw [ProcMachineFutures.upTo_of_le (by omega),ProcMachineFutures.upTo_of_le (by omega)] at hpoll
    exact hpoll

theorem Progress.add {fut : FUT} {left : Option FUT} {fuel : ℕ} {cx : Task}
    (h : Progress J depthMask futures₀ io₀ k futures io result polled) (hcx : (cx : ℕ) = k + 1)
    (hfut : futures.fut (k + 1) = some fut) (hbit : depthMask &&& bit (k + 1) ≠ 0)
    (hrun : runTask J fuel cx fut io = some (left,io')) :
    Progress J depthMask futures₀ io₀ (k + 1) (futures.setFut (k + 1) left) io'
      (if left.isSome then result ||| bit (k + 1) else result) (polled ++ [cx]) := by
  obtain ⟨⟨fuel₀,visits,hpoll,hpolled⟩,hd,hahead⟩ := h
  have hk : k < futures₀.DEPTH := by
    by_contra hk
    rw [ProcMachineFutures.fut_of_DEPTH_lt (by omega)] at hfut
    cases hfut
  have hsame := hahead (k + 1) (Nat.lt_succ_self k)
  have hpoll' := poll_mono (fun cx f s r => runTask_mono (Nat.le_max_left fuel₀ fuel)) hpoll
  have hrun' := runTask_mono (Nat.le_max_right fuel₀ fuel) hrun
  have hdepth := ProcMachineFutures.DEPTH_upTo hk.le
  have hwaker : getMultiWaker (k + 1) = some cx := by
    rw [← hcx]
    exact getMultiWaker_of_lt cx.2
  refine ⟨⟨max fuel₀ fuel,visits ++ [⟨k + 1,cx,fut,left⟩],?_,by simp [hpolled]⟩,?_,?_⟩
  · rw [ProcMachineFutures.upTo_succ hk,
      ProcMachineFutures.upTo_succ (by rw [ProcMachineFutures.DEPTH_setFut,hd]; exact hk),
      ProcMachineFutures.upTo_setFut left (Nat.lt_succ_self k),
      ProcMachineFutures.fut_setFut_self _ _ (by rw [hfut]; rfl),← hsame,hfut]
    simp only [ProcMachineFutures.poll,hpoll',Option.bind_eq_bind,Option.bind_some,hdepth,hbit,
      if_false,hwaker,hrun']
    rfl
  · rw [ProcMachineFutures.DEPTH_setFut,hd]
  · intro i hi
    rw [ProcMachineFutures.fut_setFut_ne _ _ (by omega)]
    exact hahead i (by omega)

/-- Where a thread is in a pass over the chain that has begun with `futures₀`. -/
def InPass (J : Jobs FUT SharedIo OBS ACC) (depthMask : BitVec 32)
    (futures₀ : ProcMachineFutures FUT) (io₀ : SharedIo) (m : ProcMachineInner FUT SharedIo)
    (polled : List Task) : Pc W → Prop
  | .tick _ (.polling mask result n) => mask = depthMask ∧ ∃ k, n = k + 1 ∧
      Progress J depthMask futures₀ io₀ k m.futures m.io result polled
  | .tick _ (.running mask result n) => mask = depthMask ∧
      ∃ k before fut₀ io₁ fut ran, (n : ℕ) = k + 1 ∧ polled = before ++ [n] ∧
        depthMask &&& bit (k + 1) ≠ 0 ∧
        Progress J depthMask futures₀ io₀ k (m.futures.setFut (k + 1) (some fut₀)) io₁ result before ∧
        m.futures.fut (k + 1) = some fut ∧
        ∀ fuel, runTask J (ran + fuel) n fut₀ io₁ = runTask J fuel n fut m.io
  | _ => True

def Event.task : Event W OBS → Option Task
  | .polled n => some n
  | _ => none

variable {m m' : ProcMachineImpl W FUT SharedIo} {th th' : Thread W} {e : Event W OBS}

theorem Progress.returned {n : Task} {before : List Task} {fut₀ fut : FUT} {io₁ : SharedIo} {ran : ℕ}
    {left : Option FUT} (hn : (n : ℕ) = k + 1) (hbit : depthMask &&& bit (k + 1) ≠ 0)
    (h : Progress J depthMask futures₀ io₀ k (futures.setFut (k + 1) (some fut₀)) io₁ result before)
    (hfut : futures.fut (k + 1) = some fut)
    (hran : ∀ fuel, runTask J (ran + fuel) n fut₀ io₁ = runTask J fuel n fut io)
    (hlast : runTask J 1 n fut io = some (left,io)) :
    Progress J depthMask futures₀ io₀ (k + 1) (futures.setFut (k + 1) left) io
      (if left.isSome then result ||| bit (k + 1) else result) (before ++ [n]) := by
  have hfut₀ : (futures.setFut (k + 1) (some fut₀)).fut (k + 1) = some fut₀ :=
    ProcMachineFutures.fut_setFut_self _ _ (by rw [hfut]; rfl)
  have hadd := h.add hn hfut₀ hbit ((hran 1).trans hlast)
  rwa [ProcMachineFutures.setFut_setFut] at hadd

theorem Steps.inPass (h : Steps J m th e m' th') (hp : th.pc.passing = true)
    (hin : InPass J depthMask futures₀ io₀ m.inner polled th.pc) :
    InPass J depthMask futures₀ io₀ m'.inner (polled ++ e.task.toList) th'.pc := by
  cases h with
  | wakeFound | wakeLoad | wakeOutside | wakeInside | wakeRetry | wakeFire =>
    simpa [Event.task] using hin
  | pollEnd => trivial
  | pollNone call mask result n hfut =>
    obtain ⟨rfl,k,rfl,hprogress⟩ := hin
    have hkeep := hprogress.keep (Or.inl hfut)
    rw [hfut] at hkeep
    exact ⟨rfl,k + 1,rfl,by simpa [Event.task] using hkeep⟩
  | pollSkip call mask result n hfut hbit =>
    obtain ⟨rfl,k,rfl,hprogress⟩ := hin
    have hkeep := hprogress.keep (Or.inr hbit)
    rw [if_pos hfut] at hkeep
    exact ⟨rfl,k + 1,rfl,by simpa [Event.task] using hkeep⟩
  | poll call mask result n hfut hbit =>
    obtain ⟨rfl,k,hn,hprogress⟩ := hin
    obtain ⟨fut,hfut⟩ := Option.isSome_iff_exists.mp hfut
    rw [hn] at hfut hbit
    refine ⟨rfl,k,polled,fut,m.inner.io,fut,0,hn,rfl,hbit,?_,hfut,fun fuel => by rw [Nat.zero_add]⟩
    rwa [ProcMachineFutures.setFut_self hfut]
  | taskAct call mask result n hfut hr =>
    rename_i fut fut' io woken obs
    obtain ⟨rfl,k,before,fut₀,io₁,fut₁,ran,hn,hpolled,hbit,hprogress,hfut₁,hran⟩ := hin
    rw [hn] at hfut
    obtain rfl : fut₁ = fut := Option.some.inj (hfut₁.symm.trans hfut)
    refine ⟨rfl,k,before,fut₀,io₁,fut',ran + 1,hn,by simpa [Event.task] using hpolled,hbit,?_,?_,?_⟩
    · simp only [hn]
      rwa [ProcMachineFutures.setFut_setFut]
    · simp only [hn]
      exact ProcMachineFutures.fut_setFut_self _ _ (by rw [hfut]; rfl)
    · intro fuel
      rw [Nat.add_assoc,Nat.add_comm 1 fuel,hran (fuel + 1),runTask,hr]
  | taskPending call mask result n hfut hr =>
    rename_i fut fut'
    obtain ⟨rfl,k,before,fut₀,io₁,fut₁,ran,hn,hpolled,hbit,hprogress,hfut₁,hran⟩ := hin
    rw [hn] at hfut
    obtain rfl : fut₁ = fut := Option.some.inj (hfut₁.symm.trans hfut)
    have hdone := hprogress.returned hn hbit hfut hran (by rw [runTask,hr])
    refine ⟨rfl,k + 1,by rw [hn],?_⟩
    simp only [hn]
    simpa [Event.task,hpolled] using hdone
  | taskReady call mask result n hfut hr =>
    rename_i fut
    obtain ⟨rfl,k,before,fut₀,io₁,fut₁,ran,hn,hpolled,hbit,hprogress,hfut₁,hran⟩ := hin
    rw [hn] at hfut
    obtain rfl : fut₁ = fut := Option.some.inj (hfut₁.symm.trans hfut)
    have hdone := hprogress.returned hn hbit hfut hran (by rw [runTask,hr])
    refine ⟨rfl,k + 1,by rw [hn],?_⟩
    simp only [hn]
    simpa [Event.task,hpolled] using hdone
  | _ => cases hp

variable {Tid : Type} [DecidableEq Tid] {poller builder t : Tid} {s s' : State Tid W FUT SharedIo}

def polledBy (t : Tid) (es : List (Tid × Event W OBS)) : List Task :=
  es.flatMap fun e => if e.1 = t then e.2.task.toList else []

theorem holds_of_passing {pc : Pc W} (h : pc.passing = true) : pc.holds = true := by
  cases pc with
  | tick call pc => rfl
  | idle | locking | critical | unlock | notify | register | ready => cases h

omit [DecidableEq Tid] in
theorem Sound.inner_kept (hs : Sound s) (ht : (s.thread t).pc.holds = true) {u : Tid} (hne : u ≠ t)
    (h : Steps J s.machine (s.thread u) e m th) : m.inner = s.machine.inner := by
  cases h.guarded hs.supported with
  | outside h0 h1 hl hi => exact hi
  | enter h0 h1 hl hl' hi => exact hi
  | inside h0 => exact absurd (hs.exclusive u t h0 ht) hne
  | leave h0 => exact absurd (hs.exclusive u t h0 ht) hne

/-- The steps of a thread's pass over the chain, the other threads' included. -/
def passSteps (J : Jobs FUT SharedIo OBS ACC) (poller t : Tid) :
    State Tid W FUT SharedIo → Tid × Event W OBS → State Tid W FUT SharedIo → Prop :=
  guarded (fun s _ => (s.thread t).pc.passing = true) (Step J poller)

theorem pass_run {es : List (Tid × Event W OBS)} (h : Run (passSteps J poller t) s es s')
    (hs : Sound s) (hin : InPass J depthMask futures₀ io₀ s.machine.inner [] (s.thread t).pc) :
    Sound s' ∧
      InPass J depthMask futures₀ io₀ s'.machine.inner (polledBy t es) (s'.thread t).pc := by
  induction h with
  | refl => exact ⟨hs,hin⟩
  | @snoc v w es e _ hk ih =>
    obtain ⟨hv,hpass⟩ := ih
    obtain ⟨hpassing,hstep⟩ := hk
    refine ⟨hv.next hstep,?_⟩
    rcases e with ⟨u,e⟩
    obtain ⟨m,th,hsteps,rfl⟩ := hstep.thread
    by_cases hut : u = t
    · subst hut
      have hnext := hsteps.inPass hpassing hpass
      simpa [polledBy] using hnext
    · rw [State.move_machine,State.move_other _ _ _ _ (Ne.symm hut),
        hv.inner_kept (holds_of_passing hpassing) hut hsteps]
      simpa [polledBy,hut] using hpass

/-- A pass of a tick over the chain, from its first layer to past its last, is a poll of the
chain, whatever the other threads do. -/
theorem pass_polls {futures : Supported FUT} {io : SharedIo} {es fs : List (Tid × Event W OBS)}
    (h : Run (Step J poller) (new futures io builder) es s) {call call' : Caller W}
    (hstart : (s.thread t).pc = .tick call (.polling depthMask 0 1))
    (hpass : Run (passSteps J poller t) s fs s') {mask : BitVec 32} {n : ℕ}
    (hend : (s'.thread t).pc = .tick call' (.polling mask result n))
    (hn : s'.machine.inner.futures.DEPTH < n) : ∃ fuel visits,
      s.machine.inner.futures.poll (runTask J fuel) depthMask s.machine.inner.io =
        some ⟨s'.machine.inner.futures,s'.machine.inner.io,visits,result⟩ ∧
      visits.map Visit.waker = polledBy t fs := by
  have hin : InPass J depthMask s.machine.inner.futures s.machine.inner.io s.machine.inner []
      (s.thread t).pc := by
    rw [hstart]
    refine ⟨rfl,0,rfl,⟨0,[],?_,rfl⟩,rfl,fun _ _ => rfl⟩
    rw [ProcMachineFutures.upTo_zero]
    rfl
  obtain ⟨_,hlast⟩ := pass_run hpass (sound_run h) hin
  rw [hend] at hlast
  obtain ⟨_,k,rfl,⟨fuel,visits,hpoll,hpolled⟩,hd,_⟩ := hlast
  rw [ProcMachineFutures.upTo_of_le (by omega),ProcMachineFutures.upTo_of_le (by omega)] at hpoll
  exact ⟨fuel,visits,hpoll,hpolled⟩

end Passes

/-- A poll of any supported chain, whatever its tasks do and whichever have finished, polls
the tasks that are present and asked for, and no other, and returns those that are left. Over
every run, each pass of a tick is such a poll, `alive_mask` has exactly the unfinished tasks
whenever no pass is in progress, and no task is polled again after it has returned `Ready`. -/
theorem poll_keeps_alive :
    (∀ {FUT S : Type} (pollTask : Task → FUT → S → Option (Option FUT × S)) (depthMask : BitVec 32)
      (futures : Supported FUT) (s : S),
      ((∀ cx f s, (pollTask cx f s).isSome) →
        ∃ p, futures.1.poll pollTask depthMask s = some p) ∧
      ∀ p, futures.1.poll pollTask depthMask s = some p →
        Polls pollTask depthMask futures.1 s p) ∧
    (∀ {W FUT SharedIo OBS ACC Tid : Type} [DecidableEq Tid] (J : Jobs FUT SharedIo OBS ACC)
      (poller builder : Tid) (futures : Supported FUT) (io : SharedIo)
      (es : List ((Tid × Event W OBS) × Option Task)) (s : State Tid W FUT SharedIo),
      Run (Observed J poller) (new futures io builder) es s →
      ((∀ t, (s.thread t).pc.passing = false) → ∀ i,
        (s.machine.inner.aliveMask.getLsbD i = true ↔ Unfinished futures.1 es i) ∧
        (s.machine.inner.aliveMask.getLsbD i = (s.machine.inner.futures.fut i).isSome)) ∧
      es.Pairwise NotRepolled ∧
      ∀ t call depthMask fs s' call' mask result n,
        (s.thread t).pc = .tick call (.polling depthMask 0 1) →
        Run (passSteps J poller t) s fs s' →
        (s'.thread t).pc = .tick call' (.polling mask result n) →
        s'.machine.inner.futures.DEPTH < n → ∃ fuel visits,
          s.machine.inner.futures.poll (runTask J fuel) depthMask s.machine.inner.io =
            some ⟨s'.machine.inner.futures,s'.machine.inner.io,visits,result⟩ ∧
          visits.map Visit.waker = polledBy t fs) := by
  constructor
  · intro FUT S pollTask depthMask futures s
    exact ⟨fun hpoll => poll_returns futures.2 hpoll s,fun p => poll_polls futures.2⟩
  · intro W FUT SharedIo OBS ACC Tid _ J poller builder futures io es s h
    have hrun := observed_run h
    have hrec := recorded_run h
    refine ⟨fun hidle i => ?_,hrec.order,?_⟩
    · have halive := alive_between hrun hidle i
      exact ⟨by rw [halive]; exact hrec.left i,halive⟩
    · intro t call depthMask fs s' call' mask result n hstart hpass hend hn
      exact pass_polls hrun hstart hpass hend hn

def halfDone : Supported (List (Option (List Task))) :=
  ⟨.extension (.extension .base (some [none])) (some []),by decide⟩

def halfRun : State Bool Unit (List (Option (List Task))) Unit × List (Bool × Event Unit Unit) :=
  (exec scripts true (new halfDone () false) (go false 5)).get (by decide +kernel)

theorem poll_keeps_alive_halfDone : ∃ es : List ((Bool × Event Unit Unit) × Option Task),
    es.map Prod.fst = halfRun.2 ∧ es.Pairwise NotRepolled ∧
      Unfinished halfDone.1 es 1 ∧ ¬ Unfinished halfDone.1 es 2 := by
  have hexec : Run (Step scripts true) (new halfDone () false) halfRun.2 halfRun.1 := exec_get _
  obtain ⟨es,hes,hrun⟩ := run_observed hexec
  obtain ⟨halive,horder,-⟩ := poll_keeps_alive.2 scripts true false halfDone () es halfRun.1 hrun
  have hidle : ∀ t, (halfRun.1.thread t).pc.passing = false := by decide +kernel
  refine ⟨es,hes,horder,(halive hidle 1).1.mp (by decide +kernel),fun hleft => ?_⟩
  have hset := (halive hidle 2).1.mpr hleft
  revert hset
  decide +kernel

end ProcMachine
end ProcMachines
