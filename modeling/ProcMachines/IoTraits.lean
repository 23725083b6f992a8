import ProcMachines.Exchange

/-! The four I/O traits as records of calls on an object, and the exchanges'
implementations of them. A call that takes `&mut` of its payload returns what is
left of it beside its result. -/
namespace ProcMachines

structure IoStream (σ W ITEM ERR : Type) where
  conPollRead : W → Act σ W (Poll (Except ERR (Option ITEM)))
  dropRead : Act σ W Unit

structure IoReader (σ W ERR : Type) where
  conPollRead : W → ℕ → Act σ W (Poll (Except ERR (Option Bytes)))
  dropRead : Act σ W Unit

structure IoSink (σ W ITEM ERR : Type) where
  prodPollReady : W → Act σ W (Poll (Except ERR Unit))
  prodPollSend : W → Option ITEM → Act σ W (Poll (Except ERR Unit) × Option ITEM)
  prodPollFlush : W → Act σ W (Poll (Except ERR Unit))
  prodPollClose : W → Act σ W (Poll (Except ERR Unit))

structure IoWriter (σ W ERR : Type) where
  prodPollWrite : W → Bytes → Act σ W (Poll (Except ERR ℕ) × Bytes)
  prodPollFlush : W → Act σ W (Poll (Except ERR Unit))
  prodPollClose : W → Act σ W (Poll (Except ERR Unit))

variable {W ITEM : Type} [DecidableEq W]

def IoExchange.ioStream : IoStream (IoExchange W ITEM) W ITEM IoError where
  conPollRead := IoExchange.conPollRead
  dropRead := IoExchange.dropRead

def IoExchange.ioSink : IoSink (IoExchange W ITEM) W ITEM IoError where
  prodPollReady := IoExchange.prodPollReady
  prodPollSend := IoExchange.prodPollSend
  prodPollFlush := IoExchange.prodPollFlush
  prodPollClose := IoExchange.prodPollClose

def IoBytesExchange.ioReader : IoReader (IoBytesExchange W) W IoError where
  conPollRead := IoBytesExchange.conPollRead
  dropRead := IoBytesExchange.dropRead

def IoBytesExchange.ioWriter : IoWriter (IoBytesExchange W) W IoError where
  prodPollWrite := IoBytesExchange.prodPollWrite
  prodPollFlush := IoBytesExchange.prodPollFlush
  prodPollClose := IoBytesExchange.prodPollClose

end ProcMachines
