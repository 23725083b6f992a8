import ProcMachines.FizzBuzzTask
import ProcMachines.IoPort

/-! The example `fizz_buzz_io`: the same task between two ports, to which `main` connects a
source of numbers and a sink for words that print what passes through them. -/
namespace ProcMachines
namespace FizzBuzzIo

open ProcMachine Transition WaitLoop FizzBuzz

variable {O W : Type} [DecidableEq O] [DecidableEq W]

structure FizzBuzzSrc where
  next : ℕ
  deriving DecidableEq, Repr

def FizzBuzzSrc.new : FizzBuzzSrc := ⟨1⟩

/-- The value carries the lines printed; the source has 16 for `limit`. -/
def FizzBuzzSrc.conPollRead (limit : ℕ) :
    Act FizzBuzzSrc W (Poll (Except Unit (Option ℕ)) × List String) := fun self =>
  if limit < self.next then ⟨self,[],.ready (.ok none),[]⟩
  else ⟨⟨self.next + 1⟩,[],.ready (.ok (some self.next)),[toString self.next]⟩

structure FizzBuzzSink where
  deriving DecidableEq, Repr

/-- The value carries what is left in `*item` and the lines printed. -/
def FizzBuzzSink.prodPollSend (item : Option String) :
    Act FizzBuzzSink W ((Poll (Except Unit Unit) × Option String) × List String) := fun self =>
  ⟨self,[],(.ready (.ok ()),none),item.toList⟩

def FizzBuzzSrc.ioStream (limit : ℕ) : IoStream FizzBuzzSrc W ℕ Unit where
  conPollRead _ := do return (← FizzBuzzSrc.conPollRead limit).1
  dropRead := return ()

def FizzBuzzSink.ioSink : IoSink FizzBuzzSink W String Unit where
  prodPollReady _ := return .ready (.ok ())
  prodPollSend _ item := do return (← FizzBuzzSink.prodPollSend item).1
  prodPollFlush _ := return .ready (.ok ())
  prodPollClose _ := return .ready (.ok ())

structure FizzBuzzIO (O : Type) where
  input : IoPort (Handle O) FizzBuzzSrc
  output : IoPort (Handle O) FizzBuzzSink
  deriving DecidableEq

/-- What the mutex protects, and all that has been printed. -/
structure World (O : Type) where
  io : FizzBuzzIO O
  printed : List String
  deriving DecidableEq

def World.new : World O := ⟨⟨IoPort.new,IoPort.new⟩,[]⟩

def read (limit : ℕ) (cx : Handle O) : Act (World O) (Handle O) (Poll (Except Unit (Option ℕ))) := fun w =>
  let r := IoPort.through (IoPort.conPollConnected cx) (.ready (.ok none),[]) (.pending,[])
    (FizzBuzzSrc.conPollRead limit) w.io.input
  ⟨{ w with io.input := r.self, printed := w.printed ++ r.ret.2 },r.woken,r.ret.1⟩

def send (cx : Handle O) (item : Option String) :
    Act (World O) (Handle O) (Poll (Except Unit Unit) × Option String) := fun w =>
  let r := IoPort.through (IoPort.prodPollConnected cx) ((.ready (.ok ()),none),[])
    ((.pending,item),[]) (FizzBuzzSink.prodPollSend item) w.io.output
  ⟨{ w with io.output := r.self, printed := w.printed ++ r.ret.2 },r.woken,r.ret.1⟩

theorem read_eq (limit : ℕ) (cx noop : Handle O) (w : World O) :
    (⟨(read limit cx w).self.io.input,(read limit cx w).woken,(read limit cx w).ret⟩ : Call _ _ _) =
      (IoPort.ioStream noop (FizzBuzzSrc.ioStream limit)).conPollRead cx w.io.input := by
  obtain ⟨⟨⟨state,dropped⟩,output⟩,printed⟩ := w
  cases state <;> cases dropped <;>
    simp [read,IoPort.ioStream,IoPort.through,IoPort.conPollConnected,IoPort.forward,
      FizzBuzzSrc.ioStream]

theorem send_eq (cx : Handle O) (item : Option String) (w : World O) :
    (⟨(send cx item w).self.io.output,(send cx item w).woken,(send cx item w).ret⟩ : Call _ _ _) =
      (IoPort.ioSink FizzBuzzSink.ioSink).prodPollSend cx item w.io.output := by
  obtain ⟨⟨input,⟨state,dropped⟩⟩,printed⟩ := w
  cases state <;> cases dropped <;>
    simp [send,IoPort.ioSink,IoPort.through,IoPort.prodPollConnected,IoPort.forward,
      FizzBuzzSink.ioSink]

def task (limit : ℕ) : Sends → Act (World O) (Handle O) (Loop Unit × Sends) :=
  fizzBuzzTask (read limit (.task 1)) (send (.task 1))

/-- What `main` does under the lock. -/
inductive Connect
  | input | output
  deriving DecidableEq, Repr

/-- Nobody is woken when a refused source or sink is dropped. -/
def connect : Connect → Act (World O) (Handle O) Unit
  | .input => fun w =>
    let r := IoPort.connect (fun _ => []) FizzBuzzSrc.new w.io.input
    ⟨{ w with io.input := r.self },r.woken,()⟩
  | .output => fun w =>
    let r := IoPort.connect (fun _ => []) FizzBuzzSink.mk w.io.output
    ⟨{ w with io.output := r.self },r.woken,()⟩

def machine (limit : ℕ) : Jobs (WaitLoop Sends Unit) (World O) (Loop Unit) Connect :=
  jobs (single (task limit)) connect

section Port

variable {T α : Type} (call : Act T (Handle O) α) (ended waiting : α) (cx : Handle O)
  {port : IoPort (Handle O) T}

theorem through_con_connected {value : T} (h : port.state = .connected value) :
    IoPort.through (IoPort.conPollConnected cx) ended waiting call port =
      ⟨⟨.connected (call value).self,port.isPredropped⟩,(call value).woken,(call value).ret⟩ := by
  simp [IoPort.through,IoPort.conPollConnected,IoPort.forward,h]

theorem through_prod_connected {value : T} (h : port.state = .connected value) :
    IoPort.through (IoPort.prodPollConnected cx) ended waiting call port =
      ⟨⟨.connected (call value).self,port.isPredropped⟩,(call value).woken,(call value).ret⟩ := by
  simp [IoPort.through,IoPort.prodPollConnected,IoPort.forward,h]

theorem through_con_disconnected {conWaker prodWaker : WakerRef (Handle O)}
    (h : port.state = .disconnected conWaker prodWaker) (hopen : port.isPredropped = false) :
    IoPort.through (IoPort.conPollConnected cx) ended waiting call port =
      ⟨⟨.disconnected ⟨some cx⟩ prodWaker,false⟩,[],waiting⟩ := by
  obtain ⟨state,dropped⟩ := port
  cases h
  cases hopen
  simp [IoPort.through,IoPort.conPollConnected]

theorem through_prod_disconnected {conWaker prodWaker : WakerRef (Handle O)}
    (h : port.state = .disconnected conWaker prodWaker) (hopen : port.isPredropped = false) :
    IoPort.through (IoPort.prodPollConnected cx) ended waiting call port =
      ⟨⟨.disconnected conWaker ⟨some cx⟩,false⟩,[],waiting⟩ := by
  obtain ⟨state,dropped⟩ := port
  cases h
  cases hopen
  simp [IoPort.through,IoPort.prodPollConnected]

end Port

def Opens (w : World O) : Prop := w.io.input.isPredropped = false ∧ w.io.output.isPredropped = false

/-- What a call of the task's closure does. -/
inductive TaskMoves (limit : ℕ) (f : Sends) (w : World O) :
    Call (World O) (Handle O) (Loop Unit × Sends) → Prop
  | sent (line : String) (f' : Sends) (hleft : f.left = line :: f'.left) :
    TaskMoves limit f w ⟨{ w with printed := w.printed ++ [line] },[],(.again,f')⟩
  | blocked (conWaker prodWaker) (hleft : f.left ≠ [])
    (hout : w.io.output.state = .disconnected conWaker prodWaker) :
    TaskMoves limit f w
      ⟨{ w with io.output := ⟨.disconnected conWaker ⟨some (.task 1)⟩,false⟩ },[],(.wait,f)⟩
  | read (val : ℕ) (f' : Sends) (hleft : f.left = []) (hin : w.io.input.state = .connected ⟨val⟩)
    (hle : val ≤ limit) (hleft' : f'.left = words val) :
    TaskMoves limit f w ⟨{ w with io.input.state := .connected ⟨val+1⟩,
                                  printed := w.printed ++ [toString val] },[],(.again,f')⟩
  | ended (val : ℕ) (hleft : f.left = []) (hin : w.io.input.state = .connected ⟨val⟩)
    (hlt : limit < val) : TaskMoves limit f w ⟨w,[],(.done (),f)⟩
  | awaits (conWaker prodWaker) (hleft : f.left = [])
    (hin : w.io.input.state = .disconnected conWaker prodWaker) :
    TaskMoves limit f w
      ⟨{ w with io.input := ⟨.disconnected ⟨some (.task 1)⟩ prodWaker,false⟩ },[],(.wait,f)⟩

theorem send_moves {limit : ℕ} {f : Sends} (f' : Sends) {w : World O} (h : Opens w) (line : String)
    (hleft : f.left = line :: f'.left) {out : Call (World O) (Handle O) (Loop Unit × Sends)}
    (hout : ∀ res : Call (World O) (Handle O) (Poll (Except Unit Unit) × Option String),
      res = send (.task 1) (some line) w →
        out.self = res.self ∧ out.woken = res.woken ∧ out.ret.1 = sent res.ret.1 ∧
          (res.ret.2 = none → out.ret.2 = f') ∧ (res.ret.2 = some line → out.ret.2 = f)) :
    TaskMoves limit f w out := by
  obtain ⟨hself,hwoken,hret,hnone,hsome⟩ := hout _ rfl
  obtain ⟨self,woken,answer,f''⟩ := out
  cases hstate : w.io.output.state with
  | connected sink =>
    simp only [send,through_prod_connected _ _ _ _ hstate,FizzBuzzSink.prodPollSend] at hself hwoken hret hnone
    subst hself hwoken hret
    rw [hnone trivial,← hstate]
    exact .sent line f' hleft
  | disconnected conWaker prodWaker =>
    simp only [send,through_prod_disconnected _ _ _ _ hstate h.2,List.append_nil] at hself hwoken hret hsome
    subst hself hwoken hret
    rw [hsome trivial]
    exact .blocked conWaker prodWaker (by simp [hleft]) hstate

theorem task_moves (limit : ℕ) (f : Sends) {w : World O} (h : Opens w) :
    TaskMoves limit f w (task limit f w) := by
  obtain ⟨send1,send2⟩ := f
  cases send1 with
  | some line =>
    refine send_moves ⟨none,send2⟩ h line rfl fun res hres => ?_
    rw [task,task_send1,← hres]
    exact ⟨rfl,rfl,rfl,fun hnone => by rw [hnone],fun hsome => by rw [hsome]⟩
  | none =>
    cases send2 with
    | some line =>
      refine send_moves .none h line rfl fun res hres => ?_
      rw [task,task_send2,← hres]
      exact ⟨rfl,rfl,rfl,fun hnone => by rw [hnone]; rfl,fun hsome => by rw [hsome]⟩
    | none =>
      cases hstate : w.io.input.state with
      | connected src =>
        obtain ⟨val⟩ := src
        by_cases hlt : limit < val
        · have hread : read limit (.task 1) w = ⟨w,[],.ready (.ok none)⟩ := by
            simp [read,through_con_connected _ _ _ _ hstate,FizzBuzzSrc.conPollRead,hlt,← hstate]
          rw [task,← Sends.none,task_end (by rw [hread]),hread]
          exact .ended val rfl hstate hlt
        · have hread : read limit (.task 1) w = ⟨{ w with
              io.input.state := .connected ⟨val+1⟩, printed := w.printed ++ [toString val] },
              [],.ready (.ok (some val))⟩ := by
            simp [read,through_con_connected _ _ _ _ hstate,FizzBuzzSrc.conPollRead,hlt]
          rw [task,← Sends.none,task_read val (by rw [hread]),hread]
          exact .read val _ rfl hstate (by omega) (left_read val)
      | disconnected conWaker prodWaker =>
        have hread : read limit (.task 1) w = ⟨{ w with
            io.input := ⟨.disconnected ⟨some (.task 1)⟩ prodWaker,false⟩ },[],.pending⟩ := by
          simp [read,through_con_disconnected _ _ _ _ hstate h.1]
        rw [task,← Sends.none,task_wait (by rw [hread]),hread]
        exact .awaits conWaker prodWaker rfl hstate

/-- The task waits for the port it needs next to be connected. -/
def Asleep (f : Sends) (w : World O) : Prop :=
  (f.left = [] ∧ ∃ prodWaker, w.io.input.state = .disconnected ⟨some (.task 1)⟩ prodWaker) ∨
    f.left ≠ [] ∧ ∃ conWaker, w.io.output.state = .disconnected conWaker ⟨some (.task 1)⟩

omit [DecidableEq O] in
theorem TaskMoves.opens {limit : ℕ} {f : Sends} {w : World O}
    {out : Call (World O) (Handle O) (Loop Unit × Sends)} (h : TaskMoves limit f w out)
    (hopens : Opens w) : Opens out.self := by
  cases h with
  | sent | read | ended => exact hopens
  | blocked => exact ⟨hopens.1,rfl⟩
  | awaits => exact ⟨rfl,hopens.2⟩

omit [DecidableEq O] in
theorem TaskMoves.asleep {limit : ℕ} {f : Sends} {w : World O}
    {out : Call (World O) (Handle O) (Loop Unit × Sends)} (h : TaskMoves limit f w out)
    (hwait : out.ret.1 = .wait) : Asleep out.ret.2 out.self := by
  cases h with
  | sent | read | ended => cases hwait
  | blocked conWaker prodWaker hleft hout => exact Or.inr ⟨hleft,conWaker,rfl⟩
  | awaits conWaker prodWaker hleft hin => exact Or.inl ⟨hleft,prodWaker,rfl⟩

omit [DecidableEq O] in
theorem connect_keeps {f : Sends} {w : World O} (c : Connect) (h : Asleep f w) (hopens : Opens w) :
    Asleep f (connect c w).self ∨ .task 1 ∈ (connect c w).woken := by
  cases c with
  | input =>
    rcases h with ⟨hleft,prodWaker,hin⟩ | ⟨hleft,conWaker,hout⟩
    · exact Or.inr (by simp [connect,IoPort.connect,hin,hopens.1])
    · exact Or.inl (Or.inr ⟨hleft,conWaker,hout⟩)
  | output =>
    rcases h with ⟨hleft,prodWaker,hin⟩ | ⟨hleft,conWaker,hout⟩
    · exact Or.inl (Or.inl ⟨hleft,prodWaker,hin⟩)
    · exact Or.inr (by simp [connect,IoPort.connect,hout,hopens.2])

omit [DecidableEq O] in
theorem connect_opens {w : World O} (c : Connect) (hopens : Opens w) : Opens (connect c w).self := by
  cases c with
  | input =>
    refine ⟨?_,hopens.2⟩
    simp only [connect,IoPort.connect]
    split
    · simp [hopens.1]
    · exact hopens.1
  | output =>
    refine ⟨hopens.1,?_⟩
    simp only [connect,IoPort.connect]
    split
    · simp [hopens.2]
    · exact hopens.2

theorem waits (limit : ℕ) : SingleWaits (task (O := O) limit) connect Opens Asleep where
  keeps f _ h := (task_moves limit f h).opens h
  wait f _ h hwait := (task_moves limit f h).asleep hwait
  access c _ h := ⟨connect_opens c h,fun _ hsleep => connect_keeps c hsleep h⟩

/-- What has been printed and what is left to send are the lines of the numbers read so far. -/
structure Tells (limit : ℕ) (fut : WaitLoop Sends Unit) (w : World O) : Prop where
  opens : Opens w
  told : ∃ k ≤ limit, w.printed ++ fut.f.left = text k ∧ (w.io.input.state = .connected ⟨k+1⟩ ∨
    k = 0 ∧ ∃ conWaker prodWaker, w.io.input.state = .disconnected conWaker prodWaker)
  done : ∀ val, fut.answer = .done val → w.printed = text limit

omit [DecidableEq O] in
theorem TaskMoves.tells {limit : ℕ} {f : Sends} {w : World O}
    {out : Call (World O) (Handle O) (Loop Unit × Sends)} (h : TaskMoves limit f w out)
    (ht : Tells limit (waitLoop f) w) : Tells limit ⟨out.ret.2,out.ret.1⟩ out.self := by
  obtain ⟨hopens,⟨k,hk,htold,hstate⟩,-⟩ := ht
  have hopens' := h.opens hopens
  have htold : w.printed ++ f.left = text k := htold
  cases h with
  | sent line f' hleft =>
    refine ⟨hopens',⟨k,hk,?_,hstate⟩,by simp⟩
    rw [← htold,hleft]
    simp
  | blocked => exact ⟨hopens',⟨k,hk,htold,hstate⟩,by simp⟩
  | read val f' hleft hin hle hleft' =>
    obtain rfl : val = k + 1 := by
      rcases hstate with hstate | ⟨-,conWaker,prodWaker,hstate⟩
      · rw [hin] at hstate
        simpa using hstate
      · rw [hin] at hstate
        cases hstate
    refine ⟨hopens',⟨k+1,hle,?_,Or.inl rfl⟩,by simp⟩
    rw [hleft,List.append_nil] at htold
    simp [htold,hleft',text]
  | ended val hleft hin hlt =>
    have hk' : k = limit := by
      rcases hstate with hstate | ⟨-,conWaker,prodWaker,hstate⟩
      · rw [hin] at hstate
        have hval : val = k + 1 := by simpa using hstate
        omega
      · rw [hin] at hstate
        cases hstate
    refine ⟨hopens',⟨k,hk,htold,hstate⟩,fun _ _ => ?_⟩
    rw [hleft,List.append_nil] at htold
    rw [htold,hk']
  | awaits conWaker prodWaker hleft hin =>
    refine ⟨hopens',⟨k,hk,htold,Or.inr ⟨?_,_,_,rfl⟩⟩,by simp⟩
    rcases hstate with hstate | ⟨hzero,-⟩
    · rw [hin] at hstate
      cases hstate
    · exact hzero

omit [DecidableEq O] in
theorem connect_tells {limit : ℕ} {fut : WaitLoop Sends Unit} {w : World O} (c : Connect)
    (h : Tells limit fut w) : Tells limit fut (connect c w).self := by
  obtain ⟨hopens,⟨k,hk,htold,hstate⟩,hdone⟩ := h
  have hopens' := connect_opens c hopens
  cases c with
  | input =>
    refine ⟨hopens',⟨k,hk,htold,Or.inl ?_⟩,hdone⟩
    rcases hstate with hstate | ⟨rfl,conWaker,prodWaker,hstate⟩
    · simp [connect,IoPort.connect,hstate]
    · simp [connect,IoPort.connect,hstate,hopens.1,FizzBuzzSrc.new]
  | output => exact ⟨hopens',⟨k,hk,htold,hstate⟩,hdone⟩

theorem preserves (limit : ℕ) : SinglePreserves (task (O := O) limit) connect (fun _ _ => True)
    (Tells limit) (fun w => w.printed = text limit) where
  call f w h := (task_moves limit f h.opens).tells h
  again f w h := ⟨h.opens,h.told,by simp [waitLoop]⟩
  done f val w h := h.done val rfl
  critical c fut w h _ := connect_tells c h
  after c w h := by cases c <;> exact h

omit [DecidableEq O] in
theorem tells_new (limit : ℕ) : Tells limit (waitLoop .none) (World.new : World O) where
  opens := ⟨rfl,rfl⟩
  told := ⟨0,Nat.zero_le _,rfl,Or.inr ⟨rfl,_,_,rfl⟩⟩
  done := by simp [waitLoop]

/-- However the threads interleave and in whatever order they connect the ports, the lines are
printed in order, and as soon as both are connected and the mutex is free the task is finished
and they have all been printed. -/
theorem prints_text {Tid V : Type} [DecidableEq Tid] (limit : ℕ) (poller builder : Tid)
    (es : List (Tid × ProcMachine.Event V (Loop Unit))) (s : State Tid V (WaitLoop Sends Unit) (World O))
    (h : Run (Step (machine limit) poller)
      (ProcMachine.new (singleFutures .none) World.new builder) es s) :
    s.machine.inner.io.printed <+: text limit ∧
      (s.machine.inner.futures.fut 1 = none → s.machine.inner.io.printed = text limit) ∧
      (s.machine.locked = false → s.machine.inner.io.io.input.isDisconnected = false →
        s.machine.inner.io.io.output.isDisconnected = false → s.machine.inner.futures.fut 1 = none) := by
  have hkept := single_kept (preserves limit) (tells_new limit) h
  cases hfut : taskOf s.machine.inner.futures 1 with
  | none =>
    simp only [Lasts,hfut] at hkept
    exact ⟨hkept ▸ List.prefix_refl _,fun _ => hkept,fun _ _ _ => hfut⟩
  | some fut =>
    simp only [Lasts,hfut] at hkept
    obtain ⟨k,hk,htold,-⟩ := hkept.told
    refine ⟨List.IsPrefix.trans ⟨_,htold⟩ (text_mono hk),fun hnone => ?_,fun hfree hin hout => ?_⟩
    · rw [taskOf] at hfut
      exact absurd (hnone.symm.trans hfut) (by simp)
    · rcases single_asleep (waits limit) ⟨rfl,rfl⟩ h hfree fut hfut with
        ⟨-,prodWaker,hstate⟩ | ⟨-,conWaker,hstate⟩
      · simp [IoPort.isDisconnected,hstate] at hin
      · simp [IoPort.isDisconnected,hstate] at hout

def visit (c : Connect) (wakes steps : ℕ) : List (Bool × Choice Unit Connect) :=
  [(true,.call .lockRef),(true,.go),(true,.access c)] ++ List.replicate wakes (true,.go) ++
    [(true,.drop)] ++ List.replicate steps (true,.go)

def threeRun : State Bool Unit (WaitLoop Sends Unit) (World Unit) ×
    List (Bool × ProcMachine.Event Unit (Loop Unit)) :=
  (exec (machine 3) true (ProcMachine.new (singleFutures .none) World.new false)
    (List.replicate 7 (false,.go) ++ visit .output 0 3 ++ visit .input 3 13)).get (by decide +kernel)

theorem prints_text_three : threeRun.1.machine.inner.io.printed = text 3 := by
  obtain ⟨-,hdone,hends⟩ := prints_text 3 true false threeRun.2 threeRun.1 (exec_get _)
  exact hdone (hends (by decide +kernel) (by decide +kernel) (by decide +kernel))

end FizzBuzzIo
end ProcMachines
