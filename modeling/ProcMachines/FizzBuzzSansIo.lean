import ProcMachines.FizzBuzzTask
import ProcMachines.ExchangeFlow

/-! The example `fizz_buzz_sans_io`: a machine of one task between two exchanges, and a `main`
that feeds the one and prints what comes out of the other. -/
namespace ProcMachines
namespace FizzBuzzSansIo

open ProcMachine Transition WaitLoop FizzBuzz

variable {O : Type} [DecidableEq O]

structure FizzBuzzIO (O : Type) where
  input : IoExchange (Handle O) ℕ
  output : IoExchange (Handle O) String
  deriving DecidableEq

/-- What the closure of `main` captures, what it has printed, and its last answer. -/
structure Main where
  nextInt : ℕ
  printed : List String
  answer : Loop Unit
  deriving DecidableEq, Repr

/-- What the mutex protects, and `main`, which does nothing outside of it. -/
structure World (O : Type) where
  io : FizzBuzzIO O
  main : Main
  deriving DecidableEq

def World.new : World O := ⟨⟨IoExchange.new,IoExchange.new⟩,⟨1,[],.again⟩⟩

section Calls

variable {α : Type}

def onInput (call : Act (IoExchange (Handle O) ℕ) (Handle O) α) : Act (World O) (Handle O) α := fun w =>
  let r := call w.io.input
  ⟨{ w with io.input := r.self },r.woken,r.ret⟩

def onOutput (call : Act (IoExchange (Handle O) String) (Handle O) α) : Act (World O) (Handle O) α :=
  fun w =>
    let r := call w.io.output
    ⟨{ w with io.output := r.self },r.woken,r.ret⟩

def onMain (change : Main → Main) : Act (World O) (Handle O) Unit := fun w =>
  ⟨{ w with main := change w.main },[],()⟩

def nextInt : Act (World O) (Handle O) ℕ := fun w => ⟨w,[],w.main.nextInt⟩

end Calls

def task : Sends → Act (World O) (Handle O) (Loop Unit × Sends) :=
  fizzBuzzTask (onInput (IoExchange.conPollRead (.task 1)))
    fun item => onOutput (IoExchange.prodPollSend (.task 1) item)

def println (line : String) : Act (World O) (Handle O) Unit :=
  onMain fun main => { main with printed := main.printed ++ [line] }

/-- The closure of `main`, under the lock; the source has 16 for `limit`. -/
def mainLoop (limit : ℕ) (cx : O) : Act (World O) (Handle O) (Loop Unit) := do
  match ← onOutput (IoExchange.conPollRead (.outside cx)) with
  | .ready (.ok (some s)) =>
    println s
    return .again
  | .ready _ => return .done ()
  | .pending =>
    let next ← nextInt
    if limit < next then return .done ()
    match (← onInput (IoExchange.prodPollSend (.outside cx) (some next))).1 with
    | .ready (.ok _) =>
      println (toString next)
      onMain fun main => { main with nextInt := main.nextInt + 1 }
      return .again
    | .ready _ => return .done ()
    | .pending => return .wait

/-- A critical section is a call of `main`'s closure, until it is done. -/
def access (limit : ℕ) (cx : O) : Act (World O) (Handle O) Unit := fun w =>
  match w.main.answer with
  | .done _ => ⟨w,[],()⟩
  | _ =>
    let r := mainLoop limit cx w
    ⟨{ r.self with main.answer := r.ret },r.woken,()⟩

def machine (limit : ℕ) : Jobs (WaitLoop Sends Unit) (World O) (Loop Unit) O :=
  jobs (single task) (access limit)

def Flows (w : World O) : Prop := w.io.input.Flowing ∧ w.io.output.Flowing

inductive TaskMoves (f : Sends) (w : World O) : Call (World O) (Handle O) (Loop Unit × Sends) → Prop
  | sent (line : String) (f' : Sends) (output : IoExchange (Handle O) String) (hleft : f.left = line :: f'.left)
    (hfull : w.io.output.slot = none) (hflow : output.Flowing) (hslot : output.slot = some line) :
    TaskMoves f w ⟨{ w with io.output := output },w.io.output.reader.fired,(.again,f')⟩
  | blocked (old : String) (output : IoExchange (Handle O) String) (hleft : f.left ≠ [])
    (hslot : output.slot = w.io.output.slot) (hfull : w.io.output.slot = some old)
    (hflow : output.Flowing) (hwriter : output.writer = ⟨some (.task 1)⟩) :
    TaskMoves f w ⟨{ w with io.output := output },[],(.wait,f)⟩
  | read (val : ℕ) (f' : Sends) (input : IoExchange (Handle O) ℕ) (woken) (hleft : f.left = [])
    (hslot : w.io.input.slot = some val) (hleft' : f'.left = words val) (hflow : input.Flowing)
    (hempty : input.slot = none) : TaskMoves f w ⟨{ w with io.input := input },woken,(.again,f')⟩
  | awaits (input : IoExchange (Handle O) ℕ) (woken) (hleft : f.left = [])
    (hslot : w.io.input.slot = none) (hflow : input.Flowing) (hempty : input.slot = none)
    (hreader : input.reader = ⟨some (.task 1)⟩) :
    TaskMoves f w ⟨{ w with io.input := input },woken,(.wait,f)⟩

theorem send_moves {f : Sends} (f' : Sends) {w : World O} (h : Flows w) (line : String)
    (hleft : f.left = line :: f'.left) {out : Call (World O) (Handle O) (Loop Unit × Sends)}
    (hout : ∀ res : Call (World O) (Handle O) (Poll (Except IoError Unit) × Option String),
      res = onOutput (IoExchange.prodPollSend (.task 1) (some line)) w →
        out.self = res.self ∧ out.woken = res.woken ∧ out.ret.1 = sent res.ret.1 ∧
          (res.ret.2 = none → out.ret.2 = f') ∧ (res.ret.2 = some line → out.ret.2 = f)) :
    TaskMoves f w out := by
  obtain ⟨hself,hwoken,hret,hnone,hsome⟩ := hout _ rfl
  obtain ⟨self,woken,answer,f''⟩ := out
  cases hslot : w.io.output.slot with
  | none =>
    simp only [onOutput,h.2.send hslot] at hself hwoken hret hnone
    subst hself hwoken hret
    rw [hnone trivial]
    exact .sent line f' _ hleft hslot rfl rfl
  | some old =>
    simp only [onOutput,h.2.blocked hslot] at hself hwoken hret hsome
    subst hself hwoken hret
    rw [hsome trivial]
    refine .blocked old _ (by simp [hleft]) rfl hslot ?_ rfl
    simpa [IoExchange.Flowing] using h.2

theorem task_moves (f : Sends) {w : World O} (h : Flows w) : TaskMoves f w (task f w) := by
  obtain ⟨send1,send2⟩ := f
  cases send1 with
  | some line =>
    refine send_moves ⟨none,send2⟩ h line rfl fun res hres => ?_
    rw [task,task_send1,← hres]
    exact ⟨rfl,rfl,rfl,fun hnone => by rw [hnone],fun hsome => by rw [hsome]⟩
  | none =>
    cases send2 with
    | some line =>
      refine send_moves .none h line rfl fun res hres => ?_
      rw [task,task_send2,← hres]
      exact ⟨rfl,rfl,rfl,fun hnone => by rw [hnone]; rfl,fun hsome => by rw [hsome]⟩
    | none =>
      cases hslot : w.io.input.slot with
      | some val =>
        have hread := h.1.read hslot (.task 1)
        rw [task,← Sends.none,task_read val (by simp [onInput,hread])]
        simp only [onInput,hread]
        exact .read val _ _ _ rfl hslot (left_read val) rfl rfl
      | none =>
        obtain ⟨hret,hreader,hempty,hflow⟩ := h.1.await hslot (.task 1)
        rw [task,← Sends.none,task_wait (by simp [onInput,hret])]
        exact .awaits _ _ rfl hslot hflow hempty hreader

/-- What a call of `main`'s closure does. -/
inductive MainMoves (limit : ℕ) (w : World O) : Call (World O) (Handle O) (Loop Unit) → Prop
  | printed (line : String) (output : IoExchange (Handle O) String) (woken)
    (hslot : w.io.output.slot = some line) (hflow : output.Flowing) (hempty : output.slot = none)
    (hwoken : ∀ cx, w.io.output.writer = ⟨some cx⟩ → cx ∈ woken) :
    MainMoves limit w
      ⟨{ w with io.output := output, main.printed := w.main.printed ++ [line] },woken,.again⟩
  | ended (output : IoExchange (Handle O) String) (woken) (hslot : w.io.output.slot = none)
    (hflow : output.Flowing) (hempty : output.slot = none) (hend : limit < w.main.nextInt) :
    MainMoves limit w ⟨{ w with io.output := output },woken,.done ()⟩
  | sent (output : IoExchange (Handle O) String) (input : IoExchange (Handle O) ℕ) (woken)
    (hslot : w.io.output.slot = none) (hflow : output.Flowing) (hempty : output.slot = none)
    (hnext : w.main.nextInt ≤ limit) (hvacant : w.io.input.slot = none) (hflow' : input.Flowing)
    (hslot' : input.slot = some w.main.nextInt)
    (hwoken : ∀ cx, w.io.input.reader = ⟨some cx⟩ → cx ∈ woken) :
    MainMoves limit w ⟨⟨⟨input,output⟩,{ w.main with
      printed := w.main.printed ++ [toString w.main.nextInt],nextInt := w.main.nextInt + 1 }⟩,woken,.again⟩
  | blocked (output : IoExchange (Handle O) String) (input : IoExchange (Handle O) ℕ) (woken)
    (hslot : w.io.output.slot = none) (hflow : output.Flowing) (hfull : w.io.input.slot ≠ none)
    (hflow' : input.Flowing) : MainMoves limit w ⟨{ w with io := ⟨input,output⟩ },woken,.wait⟩

theorem main_moves (limit : ℕ) (cx : O) {w : World O} (h : Flows w) :
    MainMoves limit w (mainLoop limit cx w) := by
  obtain ⟨hin,hout⟩ := h
  cases hslot : w.io.output.slot with
  | some line =>
    have hread := hout.read hslot (.outside cx)
    simp only [mainLoop,Act.bind_apply,onOutput,hread,println,onMain,Act.pure_apply]
    refine .printed line _ _ hslot rfl rfl fun cx hcx => ?_
    simp [hcx]
  | none =>
    obtain ⟨hret,-,hempty,hflow⟩ := hout.await hslot (.outside cx)
    by_cases hend : limit < w.main.nextInt
    · simp only [mainLoop,Act.bind_apply,onOutput,hret,nextInt,hend,↓reduceIte,Act.pure_apply]
      exact .ended _ _ hslot hflow hempty hend
    · cases hvacant : w.io.input.slot with
      | none =>
        have hsend := hin.send hvacant (.outside cx) w.main.nextInt
        simp only [mainLoop,Act.bind_apply,onOutput,onInput,hret,nextInt,hend,↓reduceIte,hsend,println,
          onMain,Act.pure_apply]
        refine .sent _ _ _ hslot hflow hempty (by omega) hvacant rfl rfl fun cx hcx => ?_
        simp [hcx]
      | some old =>
        have hsend := hin.blocked hvacant (.outside cx) w.main.nextInt
        simp only [mainLoop,Act.bind_apply,onOutput,onInput,hret,nextInt,hend,↓reduceIte,hsend,Act.pure_apply]
        refine .blocked _ _ _ hslot hflow (by simp [hvacant]) ?_
        simpa [IoExchange.Flowing] using hin

/-- The task waits for a number, or for room for the next word. -/
def Asleep (f : Sends) (w : World O) : Prop :=
  (f.left = [] ∧ w.io.input.slot = none ∧ w.io.input.reader = ⟨some (.task 1)⟩) ∨
    f.left ≠ [] ∧ w.io.output.slot ≠ none ∧ w.io.output.writer = ⟨some (.task 1)⟩

theorem access_done {limit : ℕ} {cx : O} {w : World O} {val : Unit} (h : w.main.answer = .done val) :
    access limit cx w = ⟨w,[],()⟩ := by
  simp [access,h]

theorem access_undone {limit : ℕ} {cx : O} {w : World O} (h : ∀ val, w.main.answer ≠ .done val) :
    access limit cx w = ⟨{ (mainLoop limit cx w).self with main.answer := (mainLoop limit cx w).ret },
      (mainLoop limit cx w).woken,()⟩ := by
  cases hanswer : w.main.answer with
  | done val => exact absurd hanswer (h val)
  | again | wait => simp [access,hanswer]

omit [DecidableEq O] in
theorem TaskMoves.flows {f : Sends} {w : World O} {out : Call (World O) (Handle O) (Loop Unit × Sends)}
    (h : TaskMoves f w out) (hflows : Flows w) : Flows out.self := by
  cases h with
  | sent line f' output hleft hfull hflow hslot => exact ⟨hflows.1,hflow⟩
  | blocked old output hleft hslot hfull hflow hwriter => exact ⟨hflows.1,hflow⟩
  | read val f' input woken hleft hslot hleft' hflow hempty => exact ⟨hflow,hflows.2⟩
  | awaits input woken hleft hslot hflow hempty hreader => exact ⟨hflow,hflows.2⟩

omit [DecidableEq O] in
theorem TaskMoves.asleep {f : Sends} {w : World O} {out : Call (World O) (Handle O) (Loop Unit × Sends)}
    (h : TaskMoves f w out) (hwait : out.ret.1 = .wait) : Asleep out.ret.2 out.self := by
  cases h with
  | sent => cases hwait
  | blocked old output hleft hslot hfull hflow hwriter =>
    exact Or.inr ⟨hleft,by rw [hslot,hfull]; simp,hwriter⟩
  | read => cases hwait
  | awaits input woken hleft hslot hflow hempty hreader => exact Or.inl ⟨hleft,hempty,hreader⟩

omit [DecidableEq O] in
theorem MainMoves.flows {limit : ℕ} {w : World O} {out : Call (World O) (Handle O) (Loop Unit)}
    (h : MainMoves limit w out) (hflows : Flows w) : Flows out.self := by
  cases h with
  | printed line output woken hslot hflow => exact ⟨hflows.1,hflow⟩
  | ended output woken hslot hflow => exact ⟨hflows.1,hflow⟩
  | sent output input woken hslot hflow hempty hnext hvacant hflow' => exact ⟨hflow',hflow⟩
  | blocked output input woken hslot hflow hfull hflow' => exact ⟨hflow',hflow⟩

omit [DecidableEq O] in
theorem MainMoves.keeps {limit : ℕ} {w : World O} {out : Call (World O) (Handle O) (Loop Unit)}
    (h : MainMoves limit w out) {f : Sends} (hsleep : Asleep f w) :
    Asleep f out.self ∨ .task 1 ∈ out.woken := by
  cases h with
  | printed line output woken hslot hflow hempty hwoken =>
    rcases hsleep with ⟨hleft,hslot',hreader⟩ | ⟨hleft,hfull,hwriter⟩
    · exact Or.inl (Or.inl ⟨hleft,hslot',hreader⟩)
    · exact Or.inr (hwoken _ hwriter)
  | ended output woken hslot hflow hempty hend =>
    rcases hsleep with ⟨hleft,hslot',hreader⟩ | ⟨hleft,hfull,hwriter⟩
    · exact Or.inl (Or.inl ⟨hleft,hslot',hreader⟩)
    · exact absurd hslot hfull
  | sent output input woken hslot hflow hempty hnext hvacant hflow' hslot' hwoken =>
    rcases hsleep with ⟨hleft,hslot',hreader⟩ | ⟨hleft,hfull,hwriter⟩
    · exact Or.inr (hwoken _ hreader)
    · exact absurd hslot hfull
  | blocked output input woken hslot hflow hfull hflow' =>
    rcases hsleep with ⟨hleft,hslot',hreader⟩ | ⟨hleft,hfull',hwriter⟩
    · exact absurd hslot' hfull
    · exact absurd hslot hfull'

theorem waits (limit : ℕ) : SingleWaits (task (O := O)) (access limit) Flows Asleep where
  keeps f w h := (task_moves f h).flows h
  wait f w h hwait := (task_moves f h).asleep hwait
  access cx w h := by
    cases hanswer : w.main.answer with
    | done val =>
      rw [access_done hanswer]
      exact ⟨h,fun f hsleep => Or.inl hsleep⟩
    | again | wait =>
      rw [access_undone (by simp [hanswer])]
      exact ⟨(main_moves limit cx h).flows h,fun f hsleep => (main_moves limit cx h).keeps hsleep⟩

/-- What has been printed, and what of the text is on its way to be printed. -/
def toldUpTo (k : ℕ) (f : Sends) (w : World O) : Prop :=
  w.main.printed ++ (w.io.output.slot.toList ++ f.left ++ w.io.input.slot.toList.flatMap words) = text k

/-- What the machine and `main` keep. -/
structure Tells (limit : ℕ) (f : Sends) (w : World O) : Prop where
  flows : Flows w
  told : ∃ k, w.main.nextInt = k + 1 ∧ k ≤ limit ∧ toldUpTo k f w
  answer : w.main.answer ≠ .wait
  done : w.main.answer = .done () → w.main.printed = text limit

omit [DecidableEq O] in
theorem TaskMoves.tells {limit : ℕ} {f : Sends} {w : World O}
    {out : Call (World O) (Handle O) (Loop Unit × Sends)} (h : TaskMoves f w out)
    (ht : Tells limit f w) : Tells limit out.ret.2 out.self ∧ ∀ val, out.ret.1 ≠ .done val := by
  obtain ⟨hflows,⟨k,hnext,hk,htold⟩,hanswer,hdone⟩ := ht
  have hflows' := h.flows hflows
  unfold toldUpTo at htold
  cases h with
  | sent line f' output hleft hfull hflow hslot =>
    refine ⟨⟨hflows',⟨k,hnext,hk,?_⟩,hanswer,hdone⟩,by simp⟩
    rw [toldUpTo,← htold,hslot,hfull,hleft]
    simp
  | blocked old output hleft hslot hfull hflow hwriter =>
    refine ⟨⟨hflows',⟨k,hnext,hk,?_⟩,hanswer,hdone⟩,by simp⟩
    rw [toldUpTo,← htold,hslot]
  | read val f' input woken hleft hslot hleft' hflow hempty =>
    refine ⟨⟨hflows',⟨k,hnext,hk,?_⟩,hanswer,hdone⟩,by simp⟩
    rw [toldUpTo,← htold,hslot,hempty,hleft,hleft']
    simp
  | awaits input woken hleft hslot hflow hempty hreader =>
    refine ⟨⟨hflows',⟨k,hnext,hk,?_⟩,hanswer,hdone⟩,by simp⟩
    rw [toldUpTo,← htold,hslot,hempty]

omit [DecidableEq O] in
/-- A call of `main`'s closure that finds the task asleep prints the next line or is the last. -/
theorem MainMoves.tells {limit : ℕ} {f : Sends} {w : World O}
    {out : Call (World O) (Handle O) (Loop Unit)} (h : MainMoves limit w out)
    (ht : Tells limit f w) (hsleep : Asleep f w) :
    Tells limit f { out.self with main.answer := out.ret } ∧
      (out.ret = .done () ∨ out.self.main.printed.length = w.main.printed.length + 1) := by
  obtain ⟨hflows,⟨k,hnext,hk,htold⟩,hanswer,hdone⟩ := ht
  have hflows' := h.flows hflows
  unfold toldUpTo at htold
  cases h with
  | printed line output woken hslot hflow hempty hwoken =>
    refine ⟨⟨hflows',⟨k,hnext,hk,?_⟩,by simp,by simp⟩,Or.inr (by simp)⟩
    rw [toldUpTo,← htold,hslot,hempty]
    simp
  | ended output woken hslot hflow hempty hend =>
    obtain ⟨hleft,hslot',hreader⟩ := hsleep.resolve_right fun h => h.2.1 hslot
    have hk' : k = limit := by omega
    subst hk'
    have hprinted : w.main.printed = text k := by
      rw [← htold,hslot,hleft,hslot']
      simp
    refine ⟨⟨hflows',⟨k,hnext,hk,?_⟩,by simp,fun _ => hprinted⟩,Or.inl rfl⟩
    rw [toldUpTo,hempty,hleft,hslot']
    simp [hprinted]
  | sent output input woken hslot hflow hempty hle hvacant hflow' hslot' hwoken =>
    obtain ⟨hleft,-,hreader⟩ := hsleep.resolve_right fun h => h.2.1 hslot
    have hprinted : w.main.printed = text k := by
      rw [← htold,hslot,hleft,hvacant]
      simp
    refine ⟨⟨hflows',⟨k+1,by simp [hnext],by omega,?_⟩,by simp,by simp⟩,Or.inr (by simp)⟩
    rw [toldUpTo,hempty,hleft,hslot']
    simp [hprinted,hnext,text]
  | blocked output input woken hslot hflow hfull hflow' =>
    rcases hsleep with ⟨hleft,hslot',hreader⟩ | ⟨hleft,hfull',hwriter⟩
    · exact absurd hslot' hfull
    · exact absurd hslot hfull'

theorem preserves (limit : ℕ) : SinglePreserves (task (O := O)) (access limit) Asleep
    (fun fut w => Tells limit fut.f w ∧ ∀ val, fut.answer ≠ .done val) (fun _ => False) where
  call f w h := (task_moves f h.1.flows).tells h.1
  again f w h := ⟨h.1,by simp [waitLoop]⟩
  done f val w h := h.2 val rfl
  critical cx fut w h hsleep := by
    refine ⟨?_,h.2⟩
    cases hanswer : w.main.answer with
    | done val =>
      rw [access_done hanswer]
      exact h.1
    | again | wait =>
      rw [access_undone (by simp [hanswer])]
      exact ((main_moves limit cx h.1.flows).tells h.1 hsleep).1
  after _ _ h := h

omit [DecidableEq O] in
theorem tells_new (limit : ℕ) : Tells limit .none (World.new : World O) where
  flows := ⟨IoExchange.flowing_new,IoExchange.flowing_new⟩
  told := ⟨0,rfl,by omega,rfl⟩
  answer := by simp [World.new]
  done := by simp [World.new]

section Runs

variable {W Tid : Type} [DecidableEq Tid] {limit : ℕ} {poller builder : Tid}
  {es : List (Tid × ProcMachine.Event W (Loop Unit))} {s : State Tid W (WaitLoop Sends Unit) (World O)}
  {used : Bool}

theorem tells_session (h : Run (Session (machine limit) poller)
    (ProcMachine.new (singleFutures .none) World.new builder,false) es (s,used)) :
    ∃ fut, taskOf s.machine.inner.futures 1 = some fut ∧ Tells limit fut.f s.machine.inner.io := by
  have hkept := single_session (waits limit) ⟨IoExchange.flowing_new,IoExchange.flowing_new⟩
    (preserves limit) ⟨tells_new limit,by simp [waitLoop]⟩ h
  cases hfut : taskOf s.machine.inner.futures 1 with
  | some fut =>
    simp only [Lasts,hfut] at hkept
    exact ⟨fut,rfl,hkept.1⟩
  | none => simp [Lasts,hfut] at hkept

/-- However the threads interleave, `main` prints the lines of the text in order, never has to
wait, and when it is done it has printed them all. -/
theorem main_prints_text (limit : ℕ) (poller builder : Tid)
    (es : List (Tid × ProcMachine.Event W (Loop Unit))) (s : State Tid W (WaitLoop Sends Unit) (World O))
    (used : Bool) (h : Run (Session (machine limit) poller)
      (ProcMachine.new (singleFutures .none) World.new builder,false) es (s,used)) :
    s.machine.inner.io.main.printed <+: text limit ∧ s.machine.inner.io.main.answer ≠ .wait ∧
      (s.machine.inner.io.main.answer = .done () → s.machine.inner.io.main.printed = text limit) := by
  obtain ⟨fut,-,-,⟨k,-,hk,htold⟩,hanswer,hdone⟩ := tells_session h
  exact ⟨List.IsPrefix.trans ⟨_,htold⟩ (text_mono hk),hanswer,hdone⟩

def visit (wakes steps : ℕ) : List (Bool × Choice Unit Unit) :=
  [(true,.call .lockRef),(true,.go),(true,.access ())] ++ List.replicate wakes (true,.go) ++
    [(true,.drop)] ++ List.replicate steps (true,.go)

def threeMoves : List (Bool × Choice Unit Unit) :=
  List.replicate 7 (false,.go) ++ visit 3 16 ++ visit 3 16 ++ visit 3 17 ++ visit 0 3 ++ visit 0 3

def threeRun : (State Bool Unit (WaitLoop Sends Unit) (World Unit) × Bool) ×
    List (Bool × ProcMachine.Event Unit (Loop Unit)) :=
  (sessionExec (machine 3) true (ProcMachine.new (singleFutures .none) World.new false,false)
    threeMoves).get (by decide +kernel)

theorem three_session : Run (Session (machine 3) true)
    (ProcMachine.new (singleFutures .none) World.new false,false) threeRun.2
      (threeRun.1.1,threeRun.1.2) := by
  rw [Prod.mk.eta]
  exact sessionExec_get _

theorem main_prints_text_three : threeRun.1.1.machine.inner.io.main.printed = text 3 :=
  (main_prints_text 3 true false threeRun.2 threeRun.1.1 threeRun.1.2 three_session).2.2
    (by decide +kernel)

/-- Every call of `main`'s closure prints a line, or is its last. -/
theorem each_call_prints_or_ends (limit : ℕ) (poller builder : Tid)
    (es : List (Tid × ProcMachine.Event W (Loop Unit))) (s : State Tid W (WaitLoop Sends Unit) (World O))
    (h : Run (Session (machine limit) poller)
      (ProcMachine.new (singleFutures .none) World.new builder,false) es (s,false)) (t : Tid)
    (ht : (s.thread t).pc = .critical) (hanswer : s.machine.inner.io.main.answer ≠ .done ()) (cx : O) :
    (access limit cx s.machine.inner.io).self.main.answer = .done () ∨
      (access limit cx s.machine.inner.io).self.main.printed.length =
        s.machine.inner.io.main.printed.length + 1 := by
  obtain ⟨fut,hfut,htells⟩ := tells_session h
  have hsleep := single_before_access (waits limit)
    ⟨IoExchange.flowing_new,IoExchange.flowing_new⟩ h t ht fut hfut
  rw [access_undone fun val => hanswer]
  exact ((main_moves limit cx htells.flows).tells htells hsleep).2

def lockedRun : (State Bool Unit (WaitLoop Sends Unit) (World Unit) × Bool) ×
    List (Bool × ProcMachine.Event Unit (Loop Unit)) :=
  (sessionExec (machine 3) true (ProcMachine.new (singleFutures .none) World.new false,false)
    (List.replicate 7 (false,.go) ++ [(true,.call .lockRef),(true,.go)])).get (by decide +kernel)

theorem locked_session : Run (Session (machine 3) true)
    (ProcMachine.new (singleFutures .none) World.new false,false) lockedRun.2
      (lockedRun.1.1,false) := by
  have hused : lockedRun.1.2 = false := by decide +kernel
  rw [← hused,Prod.mk.eta]
  exact sessionExec_get _

theorem each_call_prints_or_ends_first :
    (access 3 () lockedRun.1.1.machine.inner.io).self.main.answer = .done () ∨
      (access 3 () lockedRun.1.1.machine.inner.io).self.main.printed.length =
        lockedRun.1.1.machine.inner.io.main.printed.length + 1 :=
  each_call_prints_or_ends 3 true false lockedRun.2 lockedRun.1.1 locked_session true
    (by decide +kernel) (by decide +kernel) ()

end Runs

end FizzBuzzSansIo
end ProcMachines
