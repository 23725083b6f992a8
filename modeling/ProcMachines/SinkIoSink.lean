import ProcMachines.IoTraits

/-! The adapter that sends to a `Sink`, which is a parameter. -/
namespace ProcMachines

/-- A sink: it says whether it has room for an item, and takes the items sent to it. -/
structure Sink (ω W ITEM ERR : Type) where
  pollReady : W → Act ω W (Poll (Except ERR Unit))
  startSend : ITEM → Act ω W (Except ERR Unit)
  pollFlush : W → Act ω W (Poll (Except ERR Unit))
  pollClose : W → Act ω W (Poll (Except ERR Unit))

structure SinkIoSink (ω : Type) where
  inner : ω
  deriving DecidableEq, Repr

namespace SinkIoSink

variable {ω W ITEM ERR : Type}

def new (inner : ω) : SinkIoSink ω := ⟨inner⟩

def onInner {α : Type} (call : Act ω W α) : Act (SinkIoSink ω) W α := fun self =>
  let r := call self.inner
  ⟨⟨r.self⟩,r.woken,r.ret⟩

def prodPollReady (S : Sink ω W ITEM ERR) (cx : W) :
    Act (SinkIoSink ω) W (Poll (Except ERR Unit)) := onInner (S.pollReady cx)

/-- The value carries what is left in `*item`. -/
def prodPollSend (S : Sink ω W ITEM ERR) (cx : W) (item : Option ITEM) :
    Act (SinkIoSink ω) W (Poll (Except ERR Unit) × Option ITEM) := do
  match item with
  | none => return (.ready (.ok ()),none)
  | some i =>
    match ← onInner (S.pollReady cx) with
    | .pending => return (.pending,some i)
    | .ready (.error e) => return (.ready (.error e),some i)
    | .ready (.ok _) =>
      -- the item is taken before the sink has accepted it
      match ← onInner (S.startSend i) with
      | .ok _ => return (.ready (.ok ()),none)
      | .error e => return (.ready (.error e),none)

def prodPollFlush (S : Sink ω W ITEM ERR) (cx : W) :
    Act (SinkIoSink ω) W (Poll (Except ERR Unit)) := onInner (S.pollFlush cx)

def prodPollClose (S : Sink ω W ITEM ERR) (cx : W) :
    Act (SinkIoSink ω) W (Poll (Except ERR Unit)) := onInner (S.pollClose cx)

def ioSink (S : Sink ω W ITEM ERR) : IoSink (SinkIoSink ω) W ITEM ERR where
  prodPollReady := prodPollReady S
  prodPollSend := prodPollSend S
  prodPollFlush := prodPollFlush S
  prodPollClose := prodPollClose S

end SinkIoSink
end ProcMachines
