import ProcMachines.ProcMachinePoll
import ProcMachines.ProcMachineScheduler

/-! The builder of a machine: how the constructors of the tasks become the chain of futures, and
how that chain is polled first. -/
namespace ProcMachines
namespace ProcMachine

open Transition

/-- The builder, its last task outermost. A constructor makes the task's future, and may act on
the I/O. -/
inductive ProcMachineJobs (FUT SharedIo : Type)
  | base
  | extension (prev : ProcMachineJobs FUT SharedIo) (proc : SharedIo → FUT × SharedIo)

namespace ProcMachineJobs

variable {FUT SharedIo : Type}

def DEPTH : ProcMachineJobs FUT SharedIo → ℕ
  | base => 0
  | extension prev _ => prev.DEPTH + 1

def futures : ProcMachineJobs FUT SharedIo → ProcMachineFutures FUT
  | base => .base
  | extension prev _ => .extension prev.futures none

/-- The futures have a layer for each task: the types of the two chains belong together. -/
def init : ProcMachineJobs FUT SharedIo → SharedIo → ProcMachineFutures FUT →
    ProcMachineFutures FUT × SharedIo
  | extension prev proc, io, .extension futures _ =>
    let (futures,io) := prev.init io futures
    let (fut,io) := proc io
    (.extension futures (some fut),io)
  | _, io, futures => (futures,io)

/-- `with`: append a task. -/
def withTask (self : ProcMachineJobs FUT SharedIo) (proc : SharedIo → FUT × SharedIo) :
    ProcMachineJobs FUT SharedIo := extension self proc

/-- The builder for a list of tasks, from `PROC_MACHINE_BUILDER` on. -/
def ofList (procs : List (SharedIo → FUT × SharedIo)) : ProcMachineJobs FUT SharedIo :=
  procs.foldl withTask base

def create (procs : List (SharedIo → FUT × SharedIo)) (io : SharedIo) : List FUT × SharedIo :=
  procs.foldl (fun made proc => (made.1 ++ [(proc made.2).1],(proc made.2).2)) ([],io)

/-- What `new` has built before its first poll. -/
def build (jobs : ProcMachineJobs FUT SharedIo) (io : SharedIo) : ProcMachineFutures FUT × SharedIo :=
  jobs.init io jobs.futures

variable {procs : List (SharedIo → FUT × SharedIo)} {proc : SharedIo → FUT × SharedIo} {io : SharedIo}

@[simp] theorem ofList_snoc : ofList (procs ++ [proc]) = extension (ofList procs) proc := by
  simp [ofList,withTask]

@[simp] theorem create_snoc : create (procs ++ [proc]) io =
    ((create procs io).1 ++ [(proc (create procs io).2).1],(proc (create procs io).2).2) := by
  simp [create]

theorem length_create : (create procs io).1.length = procs.length := by
  induction procs using List.reverseRecOn with
  | nil => rfl
  | append_singleton procs proc ih => simp [ih]

theorem build_snoc : (ofList (procs ++ [proc])).build io =
    (.extension ((ofList procs).build io).1 (some (proc ((ofList procs).build io).2).1),
      (proc ((ofList procs).build io).2).2) := by
  rw [ofList_snoc]
  rfl

/-- The constructors are called in the order in which their tasks were appended, each once, and
the future of each is in the layer of its own index. -/
theorem build_creates (procs : List (SharedIo → FUT × SharedIo)) (io : SharedIo) :
    ((ofList procs).build io).1.DEPTH = procs.length ∧
    ((ofList procs).build io).2 = (create procs io).2 ∧
    ∀ n, ((ofList procs).build io).1.fut (n+1) = (create procs io).1[n]? := by
  induction procs using List.reverseRecOn with
  | nil => exact ⟨rfl,rfl,fun n => rfl⟩
  | append_singleton procs proc ih =>
    obtain ⟨hdepth,hio,hfut⟩ := ih
    rw [build_snoc,create_snoc,← hio,List.length_append,List.length_singleton]
    refine ⟨congrArg (· + 1) hdepth,rfl,fun n => ?_⟩
    have hlen : (create procs io).1.length = procs.length := length_create
    rcases Nat.lt_trichotomy n procs.length with hlt | rfl | hgt
    · rw [fut_extension_ne _ (by omega),hfut n,List.getElem?_append_left (by omega)]
    · rw [← hdepth,fut_extension_self,hdepth,← hlen]
      simp
    · rw [ProcMachineFutures.fut_of_DEPTH_lt (by rw [ProcMachineFutures.DEPTH,hdepth]; omega),
        List.getElem?_eq_none (by simp [hlen]; omega)]

end ProcMachineJobs

section FirstPoll

variable {FUT S : Type} {pollTask : Task → FUT → S → Option (Option FUT × S)} {depthMask : BitVec 32}

def all : BitVec 32 := 0xFFFFFFFF#32

theorem getLsbD_all {n : ℕ} (h : n < 32) : all.getLsbD n = true := by
  have hall : ∀ i : Fin 32, all.getLsbD i = true := by decide
  exact hall ⟨n,h⟩

theorem all_and_bit {n : ℕ} (h : n < 32) : all &&& bit n ≠ 0 := by
  rw [ne_eq,and_bit_eq_zero h,getLsbD_all h]
  exact Bool.true_eq_false_eq_False

/-- There is no waker for the layer of depth 31: a poll of it does not return. -/
theorem poll_unsupported {futures : ProcMachineFutures FUT} (h : (futures.fut 31).isSome)
    (hbit : depthMask &&& bit 31 ≠ 0) (s : S) : futures.poll pollTask depthMask s = none := by
  induction futures with
  | base => cases h
  | extension prev fut ih =>
    simp only [ProcMachineFutures.poll,Option.bind_eq_bind]
    by_cases hlast : 31 = prev.DEPTH + 1
    · rw [hlast,fut_extension_self] at h
      obtain ⟨f,rfl⟩ := Option.isSome_iff_exists.mp h
      have hnone : getMultiWaker (prev.DEPTH + 1) = none := by rw [← hlast]; rfl
      rw [hlast] at hbit
      simp only [if_neg hbit,hnone,Option.bind_none,Option.bind_fun_none]
    · rw [fut_extension_ne fut hlast] at h
      rw [ih h,Option.bind_none]

theorem due_build (procs : List (S → FUT × S)) (io : S) (h : procs.length ≤ 30) :
    ((ProcMachineJobs.ofList procs).build io).1.due all =
      (List.range' 1 procs.length).zip (ProcMachineJobs.create procs io).1 := by
  induction procs using List.reverseRecOn with
  | nil => rfl
  | append_singleton procs proc ih =>
    rw [List.length_append,List.length_singleton] at h
    obtain ⟨hdepth,hio,-⟩ := ProcMachineJobs.build_creates procs io
    have hlen : (List.range' 1 procs.length).length = (ProcMachineJobs.create procs io).1.length := by
      rw [List.length_range',ProcMachineJobs.length_create]
    rw [ProcMachineJobs.build_snoc,ProcMachineFutures.due_extension,ih (by omega),hdepth,hio,
      getLsbD_all (by omega),if_pos rfl,ProcMachineJobs.create_snoc,List.length_append,
      List.length_singleton,List.range'_concat,List.zip_append hlen,Nat.one_mul,Nat.add_comm 1]
    rfl

/-- Whatever the tasks do in their first poll: for up to 30 tasks the initial poll of a new
machine returns, and it has polled every task once, in the order in which they were appended,
each with the waker of its own index; of more tasks no machine can be built. -/
theorem build_polls_each (pollTask : Task → FUT → S → Option (Option FUT × S))
    (hpoll : ∀ cx fut s, (pollTask cx fut s).isSome) (procs : List (S → FUT × S)) (io : S) :
    let built := (ProcMachineJobs.ofList procs).build io
    let made := ProcMachineJobs.create procs io
    if procs.length ≤ 30 then
      ∃ p, built.1.poll pollTask all built.2 = some p ∧
        p.visits.map (fun v => (v.depth,v.fut)) = (List.range' 1 procs.length).zip made.1 ∧
        (∀ v ∈ p.visits, (v.waker : ℕ) = v.depth) ∧ Replays pollTask made.2 p.visits p.state ∧
        ∀ i, p.result.getLsbD i = (p.futures.fut i).isSome
    else built.1.poll pollTask all built.2 = none := by
  intro built made
  obtain ⟨hdepth,hio,hfut⟩ := ProcMachineJobs.build_creates procs io
  split_ifs with hlen
  · obtain ⟨p,hp⟩ : ∃ p, built.1.poll pollTask all built.2 = some p :=
      poll_returns (hdepth.trans_le hlen) hpoll built.2
    have hall := poll_polls (hdepth.trans_le hlen) hp
    refine ⟨p,hp,hall.order.trans (due_build procs io hlen),hall.waker,?_,hall.result⟩
    rw [← hio]
    exact hall.replays
  · refine poll_unsupported ?_ (all_and_bit (by decide)) _
    rw [hfut 30,List.getElem?_eq_getElem (by rw [ProcMachineJobs.length_create]; omega)]
    rfl

/-- The rule at two tasks, of which the first completes at once. -/
theorem build_polls_each_two : ∃ p, ((ProcMachineJobs.ofList
      ([fun io => (5,io + 1),fun io => (6,io)] : List (ℕ → ℕ × ℕ))).build 0).1.poll
        (fun _ fut io => some (if fut = 5 then none else some fut,io)) all 1 = some p ∧
    p.visits.map (fun v => (v.depth,v.fut)) = [(1,5),(2,6)] := by
  have hall := build_polls_each (fun _ fut io => some (if fut = 5 then none else some fut,io))
    (fun _ _ _ => rfl) [fun io => (5,io + 1),fun io => (6,io)] (0 : ℕ)
  obtain ⟨p,hp,hvisits,-⟩ := hall
  exact ⟨p,hp,hvisits⟩

end FirstPoll

section Run

variable {W FUT SharedIo OBS ACC Tid : Type}

def start (procs : List (SharedIo → FUT × SharedIo)) (hlen : procs.length ≤ 30) (io : SharedIo)
    (builder : Tid) [DecidableEq Tid] : State Tid W FUT SharedIo :=
  new ⟨((ProcMachineJobs.ofList procs).build io).1,
      (ProcMachineJobs.build_creates procs io).1.trans_le hlen⟩
    ((ProcMachineJobs.ofList procs).build io).2 builder

theorem isSome_build (procs : List (SharedIo → FUT × SharedIo)) (io : SharedIo) (n : Task) :
    (taskOf ((ProcMachineJobs.ofList procs).build io).1 n).isSome ↔
      1 ≤ (n : ℕ) ∧ (n : ℕ) ≤ procs.length := by
  obtain ⟨-,-,hfut⟩ := ProcMachineJobs.build_creates procs io
  have hlen : (ProcMachineJobs.create procs io).1.length = procs.length := ProcMachineJobs.length_create
  rcases Nat.eq_zero_or_pos (n : ℕ) with hzero | hpos
  · simp [taskOf,hzero]
  · obtain ⟨k,hk⟩ := Nat.exists_eq_add_of_le' hpos
    rw [taskOf,hk,hfut k,Option.isSome_iff_ne_none,ne_eq,List.getElem?_eq_none_iff,hlen]
    omega

variable [DecidableEq Tid]

/-- In every run, whatever the other threads do: the first polls are those of all the tasks, each
once and in the order in which they were appended; they are over when the machine is first
unlocked, and no task is polled again before. -/
theorem first_polls_in_order (J : Jobs FUT SharedIo OBS ACC) (poller builder : Tid)
    (procs : List (SharedIo → FUT × SharedIo)) (hlen : procs.length ≤ 30) (io : SharedIo)
    (es : List (Tid × Event W OBS)) (s : State Tid W FUT SharedIo)
    (h : Run (Step J poller) (start procs hlen io builder) es s) :
    ∃ first later, tasksPolled es = first ++ later ∧ first.Pairwise (· < ·) ∧
      (∀ n ∈ first, 1 ≤ (n : ℕ) ∧ (n : ℕ) ≤ procs.length) ∧
      ((later = [] ∧ s.machine.locked = true) ∨
        ∀ n : Task, 1 ≤ (n : ℕ) → (n : ℕ) ≤ procs.length → n ∈ first) := by
  obtain ⟨fs,a,hrun,hshown,ha⟩ := (machine_simulation J poller).run (abstracts_new _ _ builder) h
  have hapart : (Scheduler.start (taskOf ((ProcMachineJobs.ofList procs).build io).1)
      ((ProcMachineJobs.ofList procs).build io).2 builder).Apart :=
    Scheduler.apart_of_holder rfl fun _ _ _ hrun => by cases hrun
  obtain ⟨gs,r,hrounds,hsame,hr,-⟩ :=
    (Scheduler.rounds_simulation J.program).run ⟨rfl,hapart⟩ hrun
  obtain ⟨first,later,hpolls,hsorted,hall,hwhere⟩ := Scheduler.Rounds.opening hrounds
  rw [hsame.trans hshown] at hpolls
  refine ⟨first,later,hpolls,hsorted,fun n hn => (isSome_build procs io n).mp (hall n hn),?_⟩
  rcases hwhere with ⟨hnil,hleft,-⟩ | hdone
  · cases hl : s.machine.locked with
    | true => exact Or.inl ⟨hnil,rfl⟩
    | false =>
      refine Or.inr fun n hpos hle => ?_
      by_contra hnot
      have hmem : n ∈ r.left := hleft ▸ ⟨(isSome_build procs io n).mpr ⟨hpos,hle⟩,hnot⟩
      rw [hr,ha.eq_free hl] at hmem
      exact hmem
  · exact Or.inr fun n hpos hle => hdone n ((isSome_build procs io n).mpr ⟨hpos,hle⟩)

def restlessProcs : List (Unit → List (Option (List Task)) × Unit) :=
  [fun io => ([none,some [1],none,none],io),fun io => ([none,none],io)]

/-- The first polls of two tasks that are polled again later. -/
theorem first_polls_in_order_restless : ∃ first later, tasksPolled restlessRun.2 = first ++ later ∧
    first.Pairwise (· < ·) ∧ ∀ n : Task, 1 ≤ (n : ℕ) → (n : ℕ) ≤ 2 → n ∈ first := by
  obtain ⟨first,later,hpolls,hsorted,-,⟨rfl,-⟩ | hall⟩ :=
    first_polls_in_order scripts true false restlessProcs (by decide) () restlessRun.2 restlessRun.1
      (exec_get _)
  · have hagain : ¬ (tasksPolled restlessRun.2).Pairwise (· < ·) := by decide +kernel
    rw [hpolls,List.append_nil] at hagain
    exact absurd hsorted hagain
  · exact ⟨first,later,hpolls,hsorted,hall⟩

end Run

end ProcMachine
end ProcMachines
