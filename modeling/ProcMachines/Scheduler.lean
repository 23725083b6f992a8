import ProcMachines.Simulation

/-! What a machine of cooperative tasks is for, without masks and atomic operations: tasks
are woken, and whoever is about to leave the mutex polls the woken ones round by round, until
none is left. Below it, the rounds alone: who is unfinished, who is woken, who is claimed. -/
namespace ProcMachines
namespace Scheduler

open Transition

/-- What a task does when it is resumed. -/
inductive Resumed (ι FUT SharedIo OBS : Type)
  | act (io : SharedIo) (woken : List ι) (fut : FUT) (obs : OBS)
  | suspend (fut : FUT)
  | finish

/-- The code of the tasks, and what critical sections may do. -/
structure Program (ι FUT SharedIo OBS ACC : Type) where
  resume : ι → FUT → SharedIo → Resumed ι FUT SharedIo OBS
  access : ACC → SharedIo → SharedIo × List ι

/-- Where the thread inside the mutex is. `owed` are the wakes that it makes before it goes
on, `left` are the tasks that the round has still to poll. -/
inductive Phase (ι : Type)
  | critical (owed : List ι)
  | between
  | round (left : Set ι)
  | running (left : Set ι) (n : ι) (owed : List ι)
  | leaving

structure State (Tid ι FUT SharedIo : Type) where
  task : ι → Option FUT
  io : SharedIo
  pending : Set ι
  holder : Option (Tid × Phase ι)

/-- What a scheduler shows. -/
inductive Event (ι OBS : Type)
  | wake (n : ι)
  | poll (n : ι)
  | act (n : ι) (obs : OBS)
  | tick (done : Bool)
  deriving DecidableEq

variable {Tid ι FUT SharedIo OBS ACC : Type} [LinearOrder ι]

/-- The steps of a thread. A wake is one step, whoever makes it. -/
inductive Step (P : Program ι FUT SharedIo OBS ACC) :
    State Tid ι FUT SharedIo → Tid × Option (Event ι OBS) → State Tid ι FUT SharedIo → Prop
  | enter (s : State Tid ι FUT SharedIo) (t : Tid) (ph : Phase ι) (h : s.holder = none)
      (hph : ph = .critical [] ∨ ph = .between) :
    Step P s (t,none) { s with holder := some (t,ph) }
  | access (s : State Tid ι FUT SharedIo) (t : Tid) (acc : ACC) (h : s.holder = some (t,.critical [])) :
    Step P s (t,none) { s with
      io := (P.access acc s.io).1, holder := some (t,.critical (P.access acc s.io).2) }
  | release (s : State Tid ι FUT SharedIo) (t : Tid) (h : s.holder = some (t,.critical [])) :
    Step P s (t,none) { s with holder := some (t,.between) }
  | wakeCritical (s : State Tid ι FUT SharedIo) (t : Tid) (n : ι) (owed : List ι)
      (h : s.holder = some (t,.critical (n :: owed))) :
    Step P s (t,some (.wake n)) { s with
      pending := insert n s.pending, holder := some (t,.critical owed) }
  | wakeRunning (s : State Tid ι FUT SharedIo) (t : Tid) (left : Set ι) (m n : ι) (owed : List ι)
      (h : s.holder = some (t,.running left m (n :: owed))) :
    Step P s (t,some (.wake n)) { s with
      pending := insert n s.pending, holder := some (t,.running left m owed) }
  | wakeOutside (s : State Tid ι FUT SharedIo) (t : Tid) (n : ι) (h : ∀ ph, s.holder ≠ some (t,ph)) :
    Step P s (t,some (.wake n)) { s with pending := insert n s.pending }
  | claim (s : State Tid ι FUT SharedIo) (t : Tid) (h : s.holder = some (t,.between)) :
    Step P s (t,none) { s with
      pending := ∅, holder := some (t,.round {n ∈ s.pending | (s.task n).isSome}) }
  | poll (s : State Tid ι FUT SharedIo) (t : Tid) (left : Set ι) (n : ι)
      (h : s.holder = some (t,.round left)) (hn : n ∈ left) (hleast : ∀ k ∈ left, n ≤ k) :
    Step P s (t,some (.poll n)) { s with holder := some (t,.running (left \ {n}) n []) }
  | act (s : State Tid ι FUT SharedIo) (t : Tid) (left : Set ι) (n : ι) {fut fut' : FUT} {io : SharedIo}
      {woken : List ι} {obs : OBS} (h : s.holder = some (t,.running left n []))
      (hfut : s.task n = some fut) (hres : P.resume n fut s.io = .act io woken fut' obs) :
    Step P s (t,some (.act n obs)) { s with
      task := Function.update s.task n (some fut'), io := io,
      holder := some (t,.running left n woken) }
  | suspend (s : State Tid ι FUT SharedIo) (t : Tid) (left : Set ι) (n : ι) {fut fut' : FUT}
      (h : s.holder = some (t,.running left n [])) (hfut : s.task n = some fut)
      (hres : P.resume n fut s.io = .suspend fut') :
    Step P s (t,none) { s with
      task := Function.update s.task n (some fut'), holder := some (t,.round left) }
  | finish (s : State Tid ι FUT SharedIo) (t : Tid) (left : Set ι) (n : ι) {fut : FUT}
      (h : s.holder = some (t,.running left n [])) (hfut : s.task n = some fut)
      (hres : P.resume n fut s.io = .finish) :
    Step P s (t,none) { s with
      task := Function.update s.task n none, holder := some (t,.round left) }
  | endRound (s : State Tid ι FUT SharedIo) (t : Tid) (h : s.holder = some (t,.round ∅)) :
    Step P s (t,none) { s with holder := some (t,.between) }
  | tick (s : State Tid ι FUT SharedIo) (t : Tid) (done : Bool) (h : s.holder = some (t,.between))
      (hnone : s.pending = ∅) (hdone : done = true ↔ ∀ n, s.task n = none) :
    Step P s (t,some (.tick done)) { s with holder := some (t,.leaving) }
  | leave (s : State Tid ι FUT SharedIo) (t : Tid) (h : s.holder = some (t,.leaving)) :
    Step P s (t,none) { s with holder := none }

def view (e : Tid × Option (Event ι OBS)) : List (Tid × Event ι OBS) := e.2.toList.map (e.1,·)

omit [LinearOrder ι] in
@[simp] theorem view_none (t : Tid) : view (t,(none : Option (Event ι OBS))) = [] := rfl

omit [LinearOrder ι] in
@[simp] theorem view_some (t : Tid) (e : Event ι OBS) : view (t,some e) = [(t,e)] := rfl

def start (task : ι → Option FUT) (io : SharedIo) (builder : Tid) : State Tid ι FUT SharedIo :=
  ⟨task,io,∅,some (builder,.round {n | (task n).isSome})⟩

/-- The rounds alone: the unfinished tasks, those woken and those claimed. -/
structure Rounds (ι : Type) where
  alive : Set ι
  pending : Set ι
  left : Set ι

namespace Rounds

/-- What a step can do to the rounds. -/
inductive Step : Rounds ι → Tid × Option (Event ι OBS) → Rounds ι → Prop
  | stay (r : Rounds ι) (t : Tid) : Step r (t,none) r
  | wake (r : Rounds ι) (t : Tid) (n : ι) :
    Step r (t,some (.wake n)) { r with pending := insert n r.pending }
  | claim (r : Rounds ι) (t : Tid) (h : r.left = ∅) :
    Step r (t,none) ⟨r.alive,∅,r.pending ∩ r.alive⟩
  | poll (r : Rounds ι) (t : Tid) (n : ι) (hn : n ∈ r.left) (hleast : ∀ k ∈ r.left, n ≤ k) :
    Step r (t,some (.poll n)) { r with left := r.left \ {n} }
  | act (r : Rounds ι) (t : Tid) (n : ι) (obs : OBS) (hn : n ∈ r.alive) :
    Step r (t,some (.act n obs)) r
  | finish (r : Rounds ι) (t : Tid) (n : ι) (hn : n ∉ r.left) :
    Step r (t,none) { r with alive := r.alive \ {n} }
  | tick (r : Rounds ι) (t : Tid) (done : Bool) (hp : r.pending = ∅) (hl : r.left = ∅)
      (hdone : done = true ↔ r.alive = ∅) : Step r (t,some (.tick done)) r

end Rounds

def Phase.left : Phase ι → Set ι
  | .round left => left
  | .running left _ _ => left
  | _ => ∅

namespace State

def left (s : State Tid ι FUT SharedIo) : Set ι :=
  match s.holder with
  | none => ∅
  | some (_,ph) => ph.left

def rounds (s : State Tid ι FUT SharedIo) : Rounds ι := ⟨{n | (s.task n).isSome},s.pending,s.left⟩

end State

section Simulated

variable {P : Program ι FUT SharedIo OBS ACC} {s s' : State Tid ι FUT SharedIo} {t : Tid}

omit [LinearOrder ι] in
theorem left_of_holder {ph : Phase ι} (h : s.holder = some (t,ph)) : s.left = ph.left := by
  simp only [State.left,h]

theorem alive_update {task : ι → Option FUT} {n : ι} {fut fut' : FUT} (h : task n = some fut) :
    {k | (Function.update task n (some fut') k).isSome} = {k | (task k).isSome} := by
  ext k
  by_cases hk : k = n
  · subst hk
    simp [h]
  · simp [hk]

theorem alive_finish {task : ι → Option FUT} {n : ι} :
    {k | (Function.update task n none k).isSome} = {k | (task k).isSome} \ {n} := by
  ext k
  by_cases hk : k = n
  · subst hk
    simp
  · simp [hk]

/-- The running task is not claimed again by the round it runs in. -/
def State.Apart (s : State Tid ι FUT SharedIo) : Prop :=
  ∀ t left n owed, s.holder = some (t,.running left n owed) → n ∉ left

omit [LinearOrder ι] in
theorem apart_of_holder {ph : Phase ι} (h : s.holder = some (t,ph))
    (hph : ∀ left n owed, ph = .running left n owed → n ∉ left) : s.Apart := by
  intro u left n owed hu
  rw [h] at hu
  obtain ⟨-,rfl⟩ := Prod.mk.inj (Option.some.inj hu)
  exact hph left n owed rfl

theorem Rounds.Step.same {r r' : Rounds ι} (t : Tid) (h : r' = r) :
    Rounds.Step r (t,(none : Option (Event ι OBS))) r' := by
  subst h
  exact .stay r' t

omit [LinearOrder ι] in
theorem rounds_eq {ph : Phase ι} (h : s.holder = some (t,ph)) :
    s.rounds = ⟨{n | (s.task n).isSome},s.pending,ph.left⟩ := by
  rw [State.rounds,left_of_holder h]

theorem Step.rounds {e : Option (Event ι OBS)} (h : Step P s (t,e) s') (hs : s.Apart) :
    Rounds.Step s.rounds (t,e) s'.rounds := by
  cases h with
  | enter _ ph h hph =>
    refine .same t ?_
    have hleft : s.left = ∅ := by simp only [State.left,h]
    rw [State.rounds,State.rounds,hleft]
    rcases hph with rfl | rfl <;> rfl
  | access _ acc h | release _ h | endRound _ h | leave _ h =>
    rw [rounds_eq h]
    exact .same t rfl
  | wakeCritical _ n owed h | wakeRunning _ left m n owed h =>
    rw [rounds_eq h]
    exact .wake _ t n
  | wakeOutside _ n h => exact .wake _ t n
  | claim _ h =>
    rw [rounds_eq h]
    exact .claim _ t rfl
  | poll _ left n h hn hleast =>
    rw [rounds_eq h]
    exact .poll _ t n hn hleast
  | act _ left n h hfut hres =>
    rw [rounds_eq h,State.rounds,alive_update hfut]
    exact .act _ t n _ (by simp [hfut])
  | suspend _ left n h hfut hres =>
    rw [rounds_eq h]
    refine .same t ?_
    rw [State.rounds,alive_update hfut]
    rfl
  | finish _ left n h hfut hres =>
    rw [rounds_eq h,State.rounds,alive_finish]
    exact .finish _ t n (hs t left n [] h)
  | tick _ done h hnone hdone =>
    rw [rounds_eq h]
    refine .tick _ t done hnone rfl (hdone.trans ?_)
    simp [Set.eq_empty_iff_forall_notMem]

theorem Step.apart {e : Option (Event ι OBS)} (h : Step P s (t,e) s') (hs : s.Apart) : s'.Apart := by
  cases h with
  | enter _ ph h hph =>
    refine apart_of_holder rfl fun left n owed hrun => ?_
    rcases hph with rfl | rfl <;> cases hrun
  | access | release | wakeCritical | claim | suspend | finish | endRound | tick =>
    exact apart_of_holder rfl fun _ _ _ hrun => by cases hrun
  | wakeRunning _ left m n owed h =>
    refine apart_of_holder rfl fun left' n' owed' hrun => ?_
    cases hrun
    exact hs t left m (n :: owed) h
  | wakeOutside _ n h => exact hs
  | poll _ left n h hn hleast =>
    refine apart_of_holder rfl fun left' n' owed' hrun => ?_
    cases hrun
    simp
  | act _ left n h hfut hres =>
    refine apart_of_holder rfl fun left' n' owed' hrun => ?_
    cases hrun
    exact hs t left n [] h
  | leave _ h =>
    intro u left n owed hu
    cases hu

/-- The rounds follow the scheduler. -/
theorem rounds_simulation (P : Program ι FUT SharedIo OBS ACC) :
    Simulation (@Step Tid _ _ _ _ _ _ P) Rounds.Step view view
      fun s r => r = s.rounds ∧ s.Apart where
  matched s e s' r hrel hstep := by
    obtain ⟨rfl,hapart⟩ := hrel
    exact ⟨[e],s'.rounds,Run.single (hstep.rounds hapart),List.flatMap_singleton _ _,rfl,
      hstep.apart hapart⟩

end Simulated

namespace Event

def polled : Event ι OBS → Option ι
  | poll n => some n
  | _ => none

def woken : Event ι OBS → Option ι
  | wake n => some n
  | _ => none

end Event

def polls (es : List (Tid × Event ι OBS)) : List ι := es.filterMap fun e => e.2.polled

def wakes (es : List (Tid × Event ι OBS)) : List ι := es.filterMap fun e => e.2.woken

omit [LinearOrder ι] in
@[simp] theorem polls_nil : polls ([] : List (Tid × Event ι OBS)) = [] := rfl

omit [LinearOrder ι] in
@[simp] theorem wakes_nil : wakes ([] : List (Tid × Event ι OBS)) = [] := rfl

omit [LinearOrder ι] in
@[simp] theorem polls_singleton (t : Tid) (e : Event ι OBS) :
    polls [(t,e)] = e.polled.toList := by
  cases e <;> rfl

omit [LinearOrder ι] in
@[simp] theorem wakes_singleton (t : Tid) (e : Event ι OBS) :
    wakes [(t,e)] = e.woken.toList := by
  cases e <;> rfl

omit [LinearOrder ι] in
@[simp] theorem polls_append (es fs : List (Tid × Event ι OBS)) :
    polls (es ++ fs) = polls es ++ polls fs := List.filterMap_append

omit [LinearOrder ι] in
@[simp] theorem wakes_append (es fs : List (Tid × Event ι OBS)) :
    wakes (es ++ fs) = wakes es ++ wakes fs := List.filterMap_append

theorem append_singleton_eq_split {α : Type} {as pre post : List α} {a b : α}
    (h : as ++ [a] = pre ++ b :: post) :
    (post = [] ∧ b = a) ∨ ∃ post', post = post' ++ [a] ∧ as = pre ++ b :: post' := by
  rcases List.eq_nil_or_concat post with rfl | ⟨post',c,rfl⟩
  · obtain ⟨-,hab⟩ := List.append_inj' h rfl
    exact Or.inl ⟨rfl,(List.singleton_inj.mp hab).symm⟩
  · have hassoc : as ++ [a] = (pre ++ b :: post') ++ [c] := by simpa using h
    obtain ⟨rfl,hac⟩ := List.append_inj' hassoc rfl
    rw [List.singleton_inj.mp hac]
    exact Or.inr ⟨post',List.concat_eq_append,rfl⟩

namespace Rounds

variable {r r' : Rounds ι} {t : Tid} {e : Option (Event ι OBS)}

theorem Step.alive_subset (h : Step r (t,e) r') : r'.alive ⊆ r.alive := by
  cases h with
  | finish _ n hn => exact Set.sdiff_subset
  | _ => exact subset_rfl

/-- A property of the trace and of the rounds holds after every run when each step keeps it:
a silent step as it is, any other with its event. -/
theorem run_history {I : List (Tid × Event ι OBS) → Rounds ι → Prop} (hr : I [] r)
    (hstep : ∀ shown r t e r', I shown r → Step r (t,e) r' → I (shown ++ view (t,e)) r')
    {es : List (Tid × Option (Event ι OBS))} (h : Run Step r es r') : I (es.flatMap view) r' := by
  refine Run.history (I := fun es r => I (es.flatMap view) r) hr ?_ h
  intro es r₁ e r₂ hI hk
  rw [List.flatMap_append,List.flatMap_singleton]
  exact hstep _ _ e.1 e.2 _ hI hk

/-- A woken task has been claimed by the round or will be by the next one, and another task
has had `c` turns meanwhile. -/
def Waits (n k : ι) (c : ℕ) (r : Rounds ι) : Prop :=
  (n ∈ r.left ∧ (c ≤ 1 ∨ k < n ∧ k ∉ r.left ∧ c ≤ 2)) ∨
    (n ∈ r.pending ∧ (c = 0 ∨ k ∉ r.left ∧ c ≤ 1))

theorem Waits.le {n k : ι} {c : ℕ} (h : Waits n k c r) : c ≤ 2 ∧ (n < k → c ≤ 1) := by
  rcases h with ⟨-,h | ⟨hkn,-,h⟩⟩ | ⟨-,h | ⟨-,h⟩⟩
  · exact ⟨by omega,fun _ => h⟩
  · exact ⟨h,fun hnk => absurd hkn hnk.asymm⟩
  · exact ⟨by omega,fun _ => by omega⟩
  · exact ⟨by omega,fun _ => h⟩

/-- No step but its own poll ends the wait of an unfinished task, and the turns are counted. -/
theorem Waits.next {n k : ι} {c : ℕ} (hw : Waits n k c r) (h : Step r (t,e) r')
    (hn : n ∈ r'.alive) (he : n ∉ polls (view (t,e))) :
    Waits n k (c + (polls (view (t,e))).count k) r' := by
  have hn0 := h.alive_subset hn
  cases h with
  | stay | act | finish | tick => exact hw
  | wake _ m =>
    rcases hw with hw | ⟨hp,hw⟩
    · exact Or.inl hw
    · exact Or.inr ⟨Set.mem_insert_of_mem _ hp,hw⟩
  | claim _ hl =>
    rcases hw with ⟨hl',-⟩ | ⟨hp,hw⟩
    · rw [hl] at hl'
      exact hl'.elim
    · refine Or.inl ⟨⟨hp,hn0⟩,Or.inl ?_⟩
      rcases hw with rfl | ⟨-,hc⟩
      · exact Nat.zero_le 1
      · exact hc
  | poll _ m hm hleast =>
    have hnm : n ≠ m := by
      rintro rfl
      exact he (by simp [Event.polled])
    have hcount : (polls (view (t,some (Event.poll m : Event ι OBS)))).count k =
        if m = k then 1 else 0 := by simp [Event.polled,List.count_singleton]
    rw [hcount]
    by_cases hmk : m = k
    · subst hmk
      have hgone : m ∉ r.left \ {m} := fun h => h.2 rfl
      rw [if_pos rfl]
      rcases hw with ⟨hl,hw⟩ | ⟨hp,hw⟩
      · have hlt : m < n := lt_of_le_of_ne (hleast n hl) (Ne.symm hnm)
        refine Or.inl ⟨⟨hl,hnm⟩,Or.inr ⟨hlt,hgone,?_⟩⟩
        rcases hw with hc | ⟨-,hno,-⟩
        · omega
        · exact absurd hm hno
      · refine Or.inr ⟨hp,Or.inr ⟨hgone,?_⟩⟩
        rcases hw with hc | ⟨hno,-⟩
        · omega
        · exact absurd hm hno
    · rw [if_neg hmk]
      have hsub : ∀ {x}, x ∉ r.left → x ∉ r.left \ {m} := fun hx h => hx h.1
      rcases hw with ⟨hl,hw⟩ | ⟨hp,hw⟩
      · exact Or.inl ⟨⟨hl,hnm⟩,hw.imp id fun h => ⟨h.1,hsub h.2.1,h.2.2⟩⟩
      · exact Or.inr ⟨hp,hw.imp id fun h => ⟨hsub h.1,h.2⟩⟩

/-- Between a wake of an unfinished task and its poll every other task gets at most two turns,
and one that comes after it in the round at most one. -/
theorem overtaken {es : List (Tid × Option (Event ι OBS))} (h : Run Step r es r') {n : ι}
    (hn : n ∈ r'.alive) {pre post : List (Tid × Event ι OBS)}
    (hes : es.flatMap view = pre ++ (t,.wake n) :: post) (hpost : n ∉ polls post) (k : ι) :
    (polls post).count k ≤ 2 ∧ (n < k → (polls post).count k ≤ 1) := by
  suffices hwaits : ∀ pre t post, es.flatMap view = pre ++ (t,.wake n) :: post → n ∈ r'.alive →
      n ∉ polls post → Waits n k ((polls post).count k) r' from (hwaits pre t post hes hn hpost).le
  refine run_history (I := fun shown r => ∀ pre t post, shown = pre ++ (t,.wake n) :: post →
    n ∈ r.alive → n ∉ polls post → Waits n k ((polls post).count k) r) ?_ ?_ h
  · intro pre t post hnil
    simp at hnil
  · intro shown r₁ u e r₂ ih hstep pre t post hsplit hn hpost
    cases e with
    | none =>
      rw [view_none,List.append_nil] at hsplit
      have hc := (ih pre t post hsplit (hstep.alive_subset hn) hpost).next hstep hn (by simp)
      exact hc
    | some e =>
      rw [view_some] at hsplit
      rcases append_singleton_eq_split hsplit with ⟨rfl,he⟩ | ⟨post',rfl,hold⟩
      · cases he
        cases hstep
        exact Or.inr ⟨Set.mem_insert _ _,Or.inl rfl⟩
      · rw [polls_append,List.mem_append,not_or] at hpost
        rw [polls_append,List.count_append]
        exact (ih pre t post' hold (hstep.alive_subset hn) hpost.1).next hstep hn hpost.2

open scoped Classical in
/-- A task is polled at most once more often than it has been woken. -/
theorem polls_le_wakes {es : List (Tid × Option (Event ι OBS))} (h : Run Step r es r')
    (hr : r.pending = ∅) (n : ι) :
    (polls (es.flatMap view)).count n ≤ (wakes (es.flatMap view)).count n + 1 := by
  suffices hpaid : (polls (es.flatMap view)).count n + (if n ∈ r'.left then 1 else 0) +
      (if n ∈ r'.pending then 1 else 0) ≤ (wakes (es.flatMap view)).count n + 1 by omega
  refine run_history (I := fun shown r => (polls shown).count n + (if n ∈ r.left then 1 else 0) +
    (if n ∈ r.pending then 1 else 0) ≤ (wakes shown).count n + 1) ?_ ?_ h
  · rw [hr,if_neg (Set.notMem_empty n)]
    split <;> simp [polls,wakes]
  · intro shown r₁ u e r₂ ih hstep
    simp only [polls_append,wakes_append,List.count_append]
    cases hstep with
    | stay | finish => simpa using ih
    | act | tick => simpa [Event.polled,Event.woken] using ih
    | wake _ m =>
      simp only [view_some,polls_singleton,wakes_singleton,Event.polled,Event.woken,
        Option.toList_none,List.count_nil,Option.toList_some,List.count_singleton,
        Set.mem_insert_iff,beq_iff_eq]
      by_cases hm : m = n
      · rw [if_pos (Or.inl hm.symm),if_pos hm]
        omega
      · rw [if_neg hm]
        simpa [Ne.symm hm] using ih
    | claim _ hl =>
      rw [hl] at ih
      simp only [Set.mem_empty_iff_false,if_false,view_none,polls_nil,wakes_nil,
        List.count_nil,Nat.add_zero] at ih ⊢
      by_cases hp : n ∈ r₁.pending
      · rw [if_pos hp] at ih
        split <;> omega
      · rw [if_neg fun h => hp h.1]
        omega
    | poll _ m hm hleast =>
      simp only [view_some,polls_singleton,wakes_singleton,Event.polled,Event.woken,
        Option.toList_none,List.count_nil,Option.toList_some,List.count_singleton,beq_iff_eq]
      by_cases hmn : m = n
      · subst hmn
        have hgone : m ∉ r₁.left \ {m} := fun h => h.2 rfl
        rw [if_pos hm] at ih
        rw [if_neg hgone,if_pos rfl]
        omega
      · have hdiff : n ∈ r₁.left \ {m} ↔ n ∈ r₁.left := by simp [Ne.symm hmn]
        rw [if_neg hmn]
        simpa only [hdiff,Nat.add_zero] using ih

/-- The polls so far begin with those of the first round: in ascending order, each once, of
all its tasks before anything else is polled. -/
def Opening (all : Set ι) (ps : List ι) (left : Set ι) : Prop :=
  ∃ first later, ps = first ++ later ∧ first.Pairwise (· < ·) ∧ (∀ n ∈ first, n ∈ all) ∧
    ((later = [] ∧ left = {n ∈ all | n ∉ first} ∧ ∀ n ∈ first, ∀ k ∈ left, n < k) ∨
      ∀ n ∈ all, n ∈ first)

theorem Opening.same {all left left' : Set ι} {ps : List ι} (h : Opening all ps left)
    (hleft : left = ∅ ∨ left' = left) : Opening all ps left' := by
  obtain ⟨first,later,hps,hsorted,hall,⟨hnil,hleft₀,hless⟩ | hdone⟩ := h
  · rcases hleft with hempty | rfl
    · refine ⟨first,later,hps,hsorted,hall,Or.inr fun n hn => ?_⟩
      by_contra hnot
      have hmem : n ∈ left := hleft₀ ▸ ⟨hn,hnot⟩
      rw [hempty] at hmem
      exact hmem
    · exact ⟨first,later,hps,hsorted,hall,Or.inl ⟨hnil,hleft₀,hless⟩⟩
  · exact ⟨first,later,hps,hsorted,hall,Or.inr hdone⟩

theorem Opening.poll {all left : Set ι} {ps : List ι} (h : Opening all ps left) {n : ι}
    (hn : n ∈ left) (hleast : ∀ k ∈ left, n ≤ k) : Opening all (ps ++ [n]) (left \ {n}) := by
  obtain ⟨first,later,rfl,hsorted,hall,⟨rfl,rfl,hless⟩ | hdone⟩ := h
  · refine ⟨first ++ [n],[],by simp,?_,?_,Or.inl ⟨rfl,?_,?_⟩⟩
    · refine List.pairwise_append.mpr ⟨hsorted,List.pairwise_singleton _ _,fun m hm k hk => ?_⟩
      rw [List.mem_singleton.mp hk]
      exact hless m hm n hn
    · intro m hm
      rcases List.mem_append.mp hm with hm | hm
      · exact hall m hm
      · rw [List.mem_singleton.mp hm]
        exact hn.1
    · ext k
      simp only [Set.mem_sdiff,Set.mem_ofPred_eq,Set.mem_singleton_iff,List.mem_append,
        List.mem_singleton,not_or,and_assoc]
    · intro m hm k hk
      rcases List.mem_append.mp hm with hm | hm
      · exact hless m hm k hk.1
      · rw [List.mem_singleton.mp hm]
        exact lt_of_le_of_ne (hleast k hk.1) fun heq => hk.2 heq.symm
  · exact ⟨first,later ++ [n],by simp,hsorted,hall,Or.inr hdone⟩

theorem opening {es : List (Tid × Option (Event ι OBS))} (h : Run Step r es r') :
    Opening r.left (polls (es.flatMap view)) r'.left := by
  refine run_history (I := fun shown r' => Opening r.left (polls shown) r'.left) ?_ ?_ h
  · exact ⟨[],[],rfl,List.Pairwise.nil,by simp,Or.inl ⟨rfl,by simp,by simp⟩⟩
  · intro shown r₁ u e r₂ ih hstep
    rw [polls_append]
    cases hstep with
    | stay | finish => simpa using ih
    | wake | act | tick => simpa [Event.polled] using ih
    | claim _ hl => simpa using ih.same (Or.inl hl)
    | poll _ m hm hleast => simpa [Event.polled] using ih.poll hm hleast

theorem completed {es : List (Tid × Option (Event ι OBS))} (h : Run Step r es r')
    {pre post : List (Tid × Event ι OBS)} (hes : es.flatMap view = pre ++ (t,.tick true) :: post) :
    r'.alive = ∅ ∧ ∀ e ∈ post, (∃ n, e.2 = .wake n) ∨ e.2 = .tick true := by
  suffices hdone : ∀ pre t post, es.flatMap view = pre ++ (t,.tick true) :: post →
      (r'.alive = ∅ ∧ r'.left = ∅) ∧ ∀ e ∈ post, (∃ n, e.2 = .wake n) ∨ e.2 = .tick true from
    ⟨(hdone pre t post hes).1.1,(hdone pre t post hes).2⟩
  refine run_history (I := fun shown r => ∀ pre t post, shown = pre ++ (t,.tick true) :: post →
    (r.alive = ∅ ∧ r.left = ∅) ∧ ∀ e ∈ post, (∃ n, e.2 = .wake n) ∨ e.2 = .tick true) ?_ ?_ h
  · intro pre t post hnil
    simp at hnil
  · intro shown r₁ u e r₂ ih hstep pre t post hsplit
    cases e with
    | none =>
      rw [view_none,List.append_nil] at hsplit
      obtain ⟨⟨halive,hleft⟩,hpost⟩ := ih pre t post hsplit
      refine ⟨⟨Set.subset_eq_empty hstep.alive_subset halive,?_⟩,hpost⟩
      cases hstep with
      | stay | finish => exact hleft
      | claim _ hl => exact Set.subset_eq_empty Set.inter_subset_right halive
    | some e =>
      rw [view_some] at hsplit
      rcases append_singleton_eq_split hsplit with ⟨rfl,he⟩ | ⟨post',rfl,hold⟩
      · cases he
        cases hstep with
        | tick _ _ hp hl hdone => exact ⟨⟨hdone.mp rfl,hl⟩,by simp⟩
      · obtain ⟨⟨halive,hleft⟩,hpost⟩ := ih pre t post' hold
        cases hstep with
        | wake _ m =>
          refine ⟨⟨halive,hleft⟩,fun e he => ?_⟩
          rcases List.mem_append.mp he with he | he
          · exact hpost e he
          · rw [List.mem_singleton.mp he]
            exact Or.inl ⟨m,rfl⟩
        | poll _ m hm hleast =>
          rw [hleft] at hm
          exact hm.elim
        | act _ m obs hm =>
          rw [halive] at hm
          exact hm.elim
        | tick _ done hp hl hdone =>
          refine ⟨⟨halive,hleft⟩,fun e he => ?_⟩
          rcases List.mem_append.mp he with he | he
          · exact hpost e he
          · rw [List.mem_singleton.mp he,hdone.mpr halive]
            exact Or.inr rfl

end Rounds

/-- The trace has come to a poll of the task by the thread, and since then nothing but wakes
and acts of that poll. -/
def Within (t : Tid) (n : ι) (shown : List (Tid × Event ι OBS)) : Prop :=
  ∃ pre mid, shown = pre ++ (t,.poll n) :: mid ∧
    ∀ e ∈ mid, (∃ k, e.2 = .wake k) ∨ ∃ obs, e = (t,.act n obs)

omit [LinearOrder ι] in
theorem Within.snoc {t : Tid} {n : ι} {shown : List (Tid × Event ι OBS)} {e : Tid × Event ι OBS}
    (h : Within t n shown) (he : (∃ k, e.2 = .wake k) ∨ ∃ obs, e = (t,.act n obs)) :
    Within t n (shown ++ [e]) := by
  obtain ⟨pre,mid,rfl,hmid⟩ := h
  refine ⟨pre,mid ++ [e],by simp,fun f hf => ?_⟩
  rcases List.mem_append.mp hf with hf | hf
  · exact hmid f hf
  · rw [List.mem_singleton.mp hf]
    exact he

section Serial

variable {P : Program ι FUT SharedIo OBS ACC} {s s' : State Tid ι FUT SharedIo}

/-- While a task runs the trace is within its poll. -/
def Serial (shown : List (Tid × Event ι OBS)) (s : State Tid ι FUT SharedIo) : Prop :=
  ∀ t left n owed, s.holder = some (t,.running left n owed) → Within t n shown

omit [LinearOrder ι] in
theorem serial_of_holder {shown : List (Tid × Event ι OBS)} {t : Tid} {ph : Phase ι}
    (h : s.holder = some (t,ph)) (hph : ∀ left n owed, ph ≠ .running left n owed) :
    Serial shown s := by
  intro u left n owed hu
  rw [h] at hu
  exact absurd (Prod.mk.inj (Option.some.inj hu)).2 (hph left n owed)

theorem Serial.next {shown : List (Tid × Event ι OBS)} {t : Tid} {e : Option (Event ι OBS)}
    (hs : Serial shown s) (h : Step P s (t,e) s') : Serial (shown ++ view (t,e)) s' := by
  cases h with
  | enter _ ph h hph =>
    refine serial_of_holder rfl ?_
    rintro left n owed rfl
    rcases hph with hph | hph <;> cases hph
  | access | release | wakeCritical | claim | suspend | finish | endRound | tick =>
    exact serial_of_holder rfl fun _ _ _ hph => by cases hph
  | leave h =>
    intro u left n owed hu
    cases hu
  | wakeOutside _ k h => exact fun u left n owed hu => (hs u left n owed hu).snoc (Or.inl ⟨k,rfl⟩)
  | wakeRunning _ left m k owed h =>
    intro u left' n owed' hu
    cases hu
    exact (hs t left m (k :: owed) h).snoc (Or.inl ⟨k,rfl⟩)
  | poll _ left n h hn hleast =>
    intro u left' n' owed' hu
    cases hu
    exact ⟨shown,[],rfl,by simp⟩
  | act _ left n h hfut hres =>
    intro u left' n' owed' hu
    cases hu
    exact (hs t left n [] h).snoc (Or.inr ⟨_,rfl⟩)

/-- The polls of the tasks are serial: when a task acts, the last thing in the trace that is
not a wake or an act of the same poll is that poll, made by the same thread. -/
theorem act_within {es : List (Tid × Option (Event ι OBS))} (h : Run (Step P) s es s')
    (hs : ∀ t left n owed, s.holder ≠ some (t,.running left n owed)) {t : Tid} {n : ι} {obs : OBS}
    {pre post : List (Tid × Event ι OBS)} (hes : es.flatMap view = pre ++ (t,.act n obs) :: post) :
    Within t n pre := by
  suffices hall : Serial (es.flatMap view) s' ∧ ∀ pre t n obs post,
      es.flatMap view = pre ++ (t,.act n obs) :: post → Within t n pre from
    hall.2 pre t n obs post hes
  refine Run.history (I := fun es s => Serial (es.flatMap view) s ∧ ∀ pre t n obs post,
    es.flatMap view = pre ++ (t,Event.act n obs) :: post → Within t n pre) ?_ ?_ h
  · refine ⟨fun t left n owed h => absurd h (hs t left n owed),fun pre t n obs post hnil => ?_⟩
    simp at hnil
  · rintro es s₁ ⟨u,e⟩ s₂ ⟨hserial,hall⟩ hstep
    rw [List.flatMap_append,List.flatMap_singleton]
    refine ⟨hserial.next hstep,fun pre t n obs post hsplit => ?_⟩
    cases e with
    | none =>
      rw [view_none,List.append_nil] at hsplit
      exact hall pre t n obs post hsplit
    | some e =>
      rw [view_some] at hsplit
      rcases append_singleton_eq_split hsplit with ⟨rfl,he⟩ | ⟨post',-,hold⟩
      · cases he
        have hpre : es.flatMap view = pre := List.append_cancel_right hsplit
        rw [← hpre]
        cases hstep with
        | act _ left _ h hfut hres => exact hserial u left n [] h
      · exact hall pre t n obs post' hold

end Serial

end Scheduler
end ProcMachines
