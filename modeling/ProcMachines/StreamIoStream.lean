import ProcMachines.Waker

/-! The adapter that reads a `Stream` of results. The wrapped stream is a parameter; what
it fires itself is told apart from the wakes of the adapter. -/
namespace ProcMachines

/-- A stream of results: a poll is pending, yields an item or an error, or is the end. -/
structure Stream (ρ W ITEM ERR : Type) where
  pollNext : W → Act ρ W (Poll (Option (Except ERR ITEM)))

structure StreamIoStream (ρ : Type) where
  inner : Option ρ
  deriving DecidableEq, Repr

namespace StreamIoStream

variable {ρ W ITEM ERR : Type}

inductive Event (W : Type)
  | woke (cx : W)
  | inner (waker : W)
  deriving DecidableEq, Repr

def new (inner : ρ) : StreamIoStream ρ := ⟨some inner⟩

def conPollRead (S : Stream ρ W ITEM ERR) (cx : W) :
    Act (StreamIoStream ρ) (Event W) (Poll (Except ERR (Option ITEM))) := fun self =>
  match self.inner with
  | some stream =>
    let r := S.pollNext cx stream
    let events := r.woken.map Event.inner
    match r.ret with
    | .ready (some (.ok item)) => ⟨⟨some r.self⟩,events ++ [.woke cx],.ready (.ok (some item))⟩
    | .ready (some (.error e)) => ⟨⟨none⟩,events ++ [.woke cx],.ready (.error e)⟩
    | .ready none => ⟨⟨none⟩,events,.ready (.ok none)⟩
    | .pending => ⟨⟨some r.self⟩,events,.pending⟩
  | none => ⟨self,[],.ready (.ok none)⟩

def dropRead : Act (StreamIoStream ρ) (Event W) Unit := fun _ => ⟨⟨none⟩,[],()⟩

end StreamIoStream
end ProcMachines
