import ProcMachines.IoTraits
import ProcMachines.Wakeup

/-! The lazily connected endpoint `IoPort`. Its consumer and producer wait in two
waker slots until the port is connected; pre-dropping it answers their polls without
firing those slots. -/
namespace ProcMachines

inductive PortState (W T : Type)
  | disconnected (conWaker prodWaker : WakerRef W)
  | connected (value : T)
  deriving DecidableEq, Repr

structure IoPort (W T : Type) where
  state : PortState W T
  isPredropped : Bool
  deriving DecidableEq, Repr

namespace IoPort

variable {W T ITEM ERR : Type}

def new : IoPort W T := ⟨.disconnected .new .new,false⟩

/-- The wakers fired by dropping a port whose value fires `dropValue` when dropped. -/
def drop (dropValue : T → List W) (self : IoPort W T) : List W :=
  match self.state with
  | .disconnected conWaker prodWaker => conWaker.fired ++ prodWaker.fired
  | .connected value => dropValue value

/-- A refused `value` is dropped on return. -/
def connect (dropValue : T → List W) (value : T) : Act (IoPort W T) W (Except Unit Unit) := fun self =>
  match self.state with
  | .disconnected conWaker prodWaker =>
    if self.isPredropped then ⟨self,dropValue value,.error ()⟩
    else ⟨{ self with state := .connected value },conWaker.fired ++ prodWaker.fired,.ok ()⟩
  | .connected _ => ⟨self,dropValue value,.error ()⟩

def reset (dropValue : T → List W) : Act (IoPort W T) W Unit := fun self =>
  match self.state with
  | .disconnected _ _ => ⟨{ self with isPredropped := false },[],()⟩
  | .connected value => ⟨⟨.disconnected .new .new,false⟩,dropValue value,()⟩

def tryPredrop : Act (IoPort W T) W Bool := fun self =>
  match self.state with
  | .disconnected _ _ => ⟨{ self with isPredropped := true },[],true⟩
  | .connected _ => ⟨self,[],false⟩

variable [DecidableEq W]

def conPollConnected (cx : W) : Act (IoPort W T) W (Poll (Option T)) := fun self =>
  match self.state with
  | .disconnected conWaker prodWaker =>
    if self.isPredropped then ⟨self,[],.ready none⟩
    else ⟨{ self with state := .disconnected (conWaker.register cx) prodWaker },[],.pending⟩
  | .connected connected => ⟨self,[],.ready (some connected)⟩

def prodPollConnected (cx : W) : Act (IoPort W T) W (Poll (Option T)) := fun self =>
  match self.state with
  | .disconnected conWaker prodWaker =>
    if self.isPredropped then ⟨self,[],.ready none⟩
    else ⟨{ self with state := .disconnected conWaker (prodWaker.register cx) },[],.pending⟩
  | .connected connected => ⟨self,[],.ready (some connected)⟩

/-- A call on the connected value, through the port. -/
def forward {α : Type} (connected : T) (call : Act T W α) : Act (IoPort W T) W α := fun self =>
  let r := call connected
  ⟨{ self with state := .connected r.self },r.woken,r.ret⟩

/-- The shape of every forwarded call: wait for the connection, then answer with
`ended` if the port is pre-dropped and with `waiting` if it is still disconnected. -/
def through {α : Type} (poll : Act (IoPort W T) W (Poll (Option T))) (ended waiting : α)
    (call : Act T W α) : Act (IoPort W T) W α := do
  match ← poll with
  | .ready (some connected) => forward connected call
  | .ready none => return ended
  | .pending => return waiting

def dropRead (noop : W) (inner : Act T W Unit) : Act (IoPort W T) W Unit := do
  if ← tryPredrop then return ()
  match ← conPollConnected noop with
  | .ready (some connected) => forward connected inner
  | _ => return ()

def ioStream (noop : W) (inner : IoStream T W ITEM ERR) : IoStream (IoPort W T) W ITEM ERR where
  conPollRead cx := through (conPollConnected cx) (.ready (.ok none)) .pending (inner.conPollRead cx)
  dropRead := dropRead noop inner.dropRead

def ioSink (inner : IoSink T W ITEM ERR) : IoSink (IoPort W T) W ITEM ERR where
  prodPollReady cx :=
    through (prodPollConnected cx) (.ready (.ok ())) .pending (inner.prodPollReady cx)
  prodPollSend cx item :=
    through (prodPollConnected cx) (.ready (.ok ()),none) (.pending,item) (inner.prodPollSend cx item)
  prodPollFlush cx :=
    through (prodPollConnected cx) (.ready (.ok ())) .pending (inner.prodPollFlush cx)
  prodPollClose cx :=
    through (prodPollConnected cx) (.ready (.ok ())) .pending (inner.prodPollClose cx)

def ioReader (noop : W) (inner : IoReader T W ERR) : IoReader (IoPort W T) W ERR where
  conPollRead cx maxLen :=
    through (conPollConnected cx) (.ready (.ok none)) .pending (inner.conPollRead cx maxLen)
  dropRead := dropRead noop inner.dropRead

def ioWriter (inner : IoWriter T W ERR) : IoWriter (IoPort W T) W ERR where
  prodPollWrite cx bytes :=
    through (prodPollConnected cx) (.ready (.ok bytes.length),[]) (.pending,bytes)
      (inner.prodPollWrite cx bytes)
  prodPollFlush cx :=
    through (prodPollConnected cx) (.ready (.ok ())) .pending (inner.prodPollFlush cx)
  prodPollClose cx :=
    through (prodPollConnected cx) (.ready (.ok ())) .pending (inner.prodPollClose cx)

/-- What the port relies on of its value: its trait calls, the wakers fired when it is
dropped, and the waker that wakes nothing. -/
structure Endpoint (T W ITEM ERR : Type) where
  stream : IoStream T W ITEM ERR
  sink : IoSink T W ITEM ERR
  reader : IoReader T W ERR
  writer : IoWriter T W ERR
  dropValue : T → List W
  noop : W

inductive Op (W T ITEM : Type)
  | connect (value : T)
  | reset
  | tryPredrop
  | dropStream
  | dropReader
  | conPollConnected (cx : W)
  | conPollItem (cx : W)
  | conPollBytes (cx : W) (maxLen : ℕ)
  | prodPollConnected (cx : W)
  | prodPollReady (cx : W)
  | prodPollSend (cx : W) (item : Option ITEM)
  | prodPollFlushItems (cx : W)
  | prodPollCloseItems (cx : W)
  | prodPollWrite (cx : W) (bytes : Bytes)
  | prodPollFlushBytes (cx : W)
  | prodPollCloseBytes (cx : W)

/-- The role of a poll and the waker it hands over. -/
def Op.poller : Op W T ITEM → Option (Role × W)
  | .conPollConnected cx | .conPollItem cx | .conPollBytes cx _ => some (.consumer,cx)
  | .prodPollConnected cx | .prodPollReady cx | .prodPollSend cx _ | .prodPollFlushItems cx
  | .prodPollCloseItems cx | .prodPollWrite cx _ | .prodPollFlushBytes cx
  | .prodPollCloseBytes cx => some (.producer,cx)
  | _ => none

/-- A call on the port; the value says whether it is a poll that returned `Pending`. -/
def call (E : Endpoint T W ITEM ERR) : Op W T ITEM → Act (IoPort W T) W Bool
  | .connect value => do let _ ← connect E.dropValue value; return false
  | .reset => do reset E.dropValue; return false
  | .tryPredrop => do let _ ← tryPredrop; return false
  | .dropStream => do (ioStream E.noop E.stream).dropRead; return false
  | .dropReader => do (ioReader E.noop E.reader).dropRead; return false
  | .conPollConnected cx => do return (← conPollConnected cx).isPending
  | .conPollItem cx => do return (← (ioStream E.noop E.stream).conPollRead cx).isPending
  | .conPollBytes cx maxLen => do
    return (← (ioReader E.noop E.reader).conPollRead cx maxLen).isPending
  | .prodPollConnected cx => do return (← prodPollConnected cx).isPending
  | .prodPollReady cx => do return (← (ioSink E.sink).prodPollReady cx).isPending
  | .prodPollSend cx item => do return (← (ioSink E.sink).prodPollSend cx item).1.isPending
  | .prodPollFlushItems cx => do return (← (ioSink E.sink).prodPollFlush cx).isPending
  | .prodPollCloseItems cx => do return (← (ioSink E.sink).prodPollClose cx).isPending
  | .prodPollWrite cx bytes => do return (← (ioWriter E.writer).prodPollWrite cx bytes).1.isPending
  | .prodPollFlushBytes cx => do return (← (ioWriter E.writer).prodPollFlush cx).isPending
  | .prodPollCloseBytes cx => do return (← (ioWriter E.writer).prodPollClose cx).isPending

def isDisconnected (self : IoPort W T) : Bool :=
  match self.state with
  | .disconnected _ _ => true
  | .connected _ => false

/-- The polls of a port; one counts as waiting when the port was disconnected. -/
def polled (E : Endpoint T W ITEM ERR) : Wakeup.Polled (IoPort W T) W (Op W T ITEM) Role where
  exec op := fun self => let r := call E op self; ⟨r.self,r.woken,self.isDisconnected && r.ret⟩
  role op := op.poller.map Prod.fst
  waker op := op.poller.map Prod.snd

def registered (r : Role) (cx : W) (conWaker prodWaker : WakerRef W) : PortState W T :=
  match r with
  | .consumer => .disconnected (conWaker.register cx) prodWaker
  | .producer => .disconnected conWaker (prodWaker.register cx)

theorem call_disconnected (E : Endpoint T W ITEM ERR) {op : Op W T ITEM} {r : Role} {cx : W}
    (h : op.poller = some (r,cx)) (conWaker prodWaker : WakerRef W) (b : Bool) :
    call E op ⟨.disconnected conWaker prodWaker,b⟩ =
      ⟨⟨if b then .disconnected conWaker prodWaker else registered r cx conWaker prodWaker,b⟩,
        [],!b⟩ := by
  cases op <;> simp only [Op.poller,Option.some.injEq,Prod.mk.injEq,reduceCtorEq] at h <;>
    obtain ⟨rfl,rfl⟩ := h <;> cases b <;>
    simp [call,ioStream,ioReader,ioSink,ioWriter,through,conPollConnected,prodPollConnected,
      registered]

/-- The port is disconnected, not pre-dropped, and holds the waker of the poll. -/
def Armed (op : Op W T ITEM) (self : IoPort W T) : Prop :=
  ∃ conWaker prodWaker r cx, op.poller = some (r,cx) ∧
    self = ⟨.disconnected conWaker prodWaker,false⟩ ∧
      (match r with | .consumer => conWaker | .producer => prodWaker) = ⟨some cx⟩

def Op.preDrops : Op W T ITEM → Bool
  | .tryPredrop | .dropStream | .dropReader => true
  | _ => false

/-- The call pre-drops the port while a role waits for its connection. -/
def PreDropsWaiting (op : Op W T ITEM)
    (c : Wakeup.Polled.Watched (IoPort W T) (Op W T ITEM) Role) : Prop :=
  op.preDrops = true ∧ c.obj.isDisconnected = true ∧ ∃ r, c.waiting r ≠ none

theorem call_preDrops (E : Endpoint T W ITEM ERR) {op : Op W T ITEM} (h : op.preDrops = true)
    (conWaker prodWaker : WakerRef W) (b : Bool) :
    call E op ⟨.disconnected conWaker prodWaker,b⟩ =
      ⟨⟨.disconnected conWaker prodWaker,true⟩,[],false⟩ := by
  cases op <;> simp [Op.preDrops] at h <;>
    simp [call,ioStream,ioReader,dropRead,tryPredrop]

theorem arms (E : Endpoint T W ITEM ERR) (op : Op W T ITEM) (self : IoPort W T)
    (h : ((polled E).exec op self).ret = true) : Armed op ((polled E).exec op self).self := by
  rcases self with ⟨_ | _,b⟩
  case connected value => simp [polled,isDisconnected] at h
  case disconnected conWaker prodWaker =>
    have hpend : (call E op ⟨.disconnected conWaker prodWaker,b⟩).ret = true := by
      simpa [polled,isDisconnected] using h
    cases hp : op.poller with
    | none =>
      cases op <;> simp [Op.poller] at hp <;> simp [call] at hpend
    | some rc =>
      obtain ⟨r,cx⟩ := rc
      rw [call_disconnected E hp] at hpend
      have hb : b = false := by simpa using hpend
      subst hb
      simp only [polled,call_disconnected E hp]
      cases r with
      | consumer => exact ⟨_,_,.consumer,cx,hp,rfl,WakerRef.register_eq _ _⟩
      | producer => exact ⟨_,_,.producer,cx,hp,rfl,WakerRef.register_eq _ _⟩

theorem waits (E : Endpoint T W ITEM ERR) (op : Op W T ITEM) (self : IoPort W T)
    (h : Armed op self) : ((polled E).exec op self).ret = true := by
  obtain ⟨conWaker,prodWaker,r,cx,hp,rfl,_⟩ := h
  simp [polled,isDisconnected,call_disconnected E hp]

/-- Only a pre-drop can make a waiting poll ready without firing its waker. -/
theorem keeps (E : Endpoint T W ITEM ERR) (o op : Op W T ITEM) (self : IoPort W T)
    (h : Armed o self) (hd : op.preDrops = false) (hr : (polled E).role op ≠ (polled E).role o) :
    (polled E).Fired o ((polled E).exec op self).woken ∨ Armed o ((polled E).exec op self).self := by
  obtain ⟨conWaker,prodWaker,r,cx,hp,rfl,hslot⟩ := h
  cases hq : op.poller with
  | some rc =>
    obtain ⟨r',cx'⟩ := rc
    right
    simp only [polled,call_disconnected E hq]
    have hne : r' ≠ r := by
      rintro rfl
      simp [polled,hp,hq] at hr
    cases r <;> cases r' <;> first | exact absurd rfl hne | skip
    · exact ⟨_,_,.producer,cx,hp,rfl,hslot⟩
    · exact ⟨_,_,.consumer,cx,hp,rfl,hslot⟩
  | none =>
    cases op <;> simp [Op.poller,Op.preDrops] at hq hd
    case connect value =>
      left
      refine ⟨cx,by simp [polled,hp],?_⟩
      cases r <;> simp_all [polled,call,connect]
    case reset =>
      right
      exact ⟨conWaker,prodWaker,r,cx,hp,by simp [polled,call,reset],hslot⟩

def discipline (E : Endpoint T W ITEM ERR) : Wakeup.Discipline (polled E) where
  inv _ := True
  armed := Armed
  allowed op c := ¬ PreDropsWaiting op c
  inv_step _ _ _ := trivial
  arms op self _ := arms E op self
  keeps o op c _ ho hallow hwait hr := by
    refine keeps E o op c.obj ho ?_ hr
    by_contra hd
    obtain ⟨r,hw⟩ := hwait
    obtain ⟨_,_,_,_,_,hobj,_⟩ := ho
    exact hallow ⟨by simpa using hd,by simp [hobj,isDisconnected],r,by simp [hw]⟩
  waits op self _ := waits E op self

/-- A poll told `Pending` on a disconnected port stays pending until its waker fires,
in every state of a run, exactly when no call of the run pre-drops the port while a
role is waiting. -/
theorem blocked_until_woken_iff (E : Endpoint T W ITEM ERR) (ops : List (Op W T ITEM)) :
    (∀ pre, pre <+: ops → ∀ r o, ((polled E).run new pre).waiting r = some o →
      (call E o ((polled E).run new pre).obj).ret = true) ↔
    ∀ pre op, pre ++ [op] <+: ops → ¬ PreDropsWaiting op ((polled E).run new pre) := by
  constructor
  · rintro h pre op hpre ⟨hd,hdisc,r,hw⟩
    obtain ⟨o,ho⟩ := Option.ne_none_iff_exists'.mp hw
    have hrole := (polled E).role_of_waiting new pre ho
    obtain ⟨⟨r',cx⟩,hpoll,_⟩ := Option.map_eq_some_iff.mp hrole
    have hnone : (polled E).role op = none := by
      cases op <;> simp [Op.preDrops] at hd <;> simp [polled,Op.poller]
    have hstill := h (pre ++ [op]) hpre r o
    rw [Wakeup.Polled.run_snoc] at hstill
    rcases hc : (polled E).run new pre with ⟨⟨st,b⟩,waiting⟩
    rw [hc] at hdisc ho hstill
    have hwait : waiting r = some o := ho
    cases st with
    | connected value => simp [isDisconnected] at hdisc
    | disconnected conWaker prodWaker =>
      have hexec : (polled E).exec op ⟨.disconnected conWaker prodWaker,b⟩ =
          ⟨⟨.disconnected conWaker prodWaker,true⟩,[],false⟩ := by
        simp [polled,call_preDrops E hd]
      have hready := hstill (by
        simp [Wakeup.Polled.next,Wakeup.Polled.note,hnone,hexec,hwait,Wakeup.Polled.Fired])
      simp [Wakeup.Polled.next,hexec,call_disconnected E hpoll] at hready
  · intro h pre hpre r o ho
    have hs := (discipline E).sound_run (s := new) trivial pre fun p e hp => h p e (hp.trans hpre)
    exact (Bool.and_eq_true_iff.mp (hs.repeats ho)).2

/-- The value whose streams are at their end and which discards what it is sent. -/
def sinkhole (noop : W) : Endpoint Unit W ITEM ERR where
  stream := ⟨fun _ => return .ready (.ok none),return ()⟩
  sink := ⟨fun _ => return .ready (.ok ()),fun _ _ => return (.ready (.ok ()),none),
    fun _ => return .ready (.ok ()),fun _ => return .ready (.ok ())⟩
  reader := ⟨fun _ _ => return .ready (.ok none),return ()⟩
  writer := ⟨fun _ bytes => return (.ready (.ok bytes.length),[]),
    fun _ => return .ready (.ok ()),fun _ => return .ready (.ok ())⟩
  dropValue _ := []
  noop := noop

/-- A producer waits, the reader end is dropped: the producer's waker stays silent and
its poll has become ready. -/
theorem not_blocked_after_dropStream : ¬ ∀ ops : List (Op ℕ Unit ℕ), ∀ r o,
    ((polled (sinkhole 0 : Endpoint Unit ℕ ℕ ℕ)).run new ops).waiting r = some o →
      (call (sinkhole 0 : Endpoint Unit ℕ ℕ ℕ) o
        ((polled (sinkhole 0 : Endpoint Unit ℕ ℕ ℕ)).run new ops).obj).ret = true := by
  intro h
  have hready := h [.prodPollReady 7,.dropStream] .producer (.prodPollReady 7) rfl
  exact absurd hready (by decide)

end IoPort
end ProcMachines
