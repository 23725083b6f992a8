import ProcMachines.Exchange

/-! The calls tasks and external code make on an exchange, with one reading of
their results for both exchanges, and the invariant every call keeps: the slot is
occupied exactly in the `FULL*` states. -/
namespace ProcMachines

/-- What a call reported to its caller. -/
inductive Outcome (A : Type)
  | pending | ok | accepted (xs : List A) | delivered (xs : List A) | endOfStream
  | failed (e : IoError) | unit
  deriving DecidableEq, Repr

namespace Outcome

variable {A : Type}

def ofProd (accepted : Outcome A) {α : Type} : Poll (Except IoError α) → Outcome A
  | .pending => .pending
  | .ready (.ok _) => accepted
  | .ready (.error e) => .failed e

def ofRead {P : Type} [Payload P A] {α : Type} (payload : α → P) :
    Poll (Except IoError (Option α)) → Outcome A
  | .pending => .pending
  | .ready (.ok none) => .endOfStream
  | .ready (.ok (some a)) => .delivered (Payload.elems (payload a))
  | .ready (.error e) => .failed e

def isPending : Outcome A → Bool
  | .pending => true
  | _ => false

theorem isPending_iff {o : Outcome A} : o.isPending = true ↔ o = .pending := by
  cases o <;> simp [isPending]

end Outcome

/-- A `FULL*` state always has an occupied slot and every other state a vacant one. -/
def Exchange.Filled {W P A : Type} [Payload P A] (ex : Exchange W P) : Prop :=
  ex.state.isFull = true ↔ ex.slot ≠ Payload.vacant

theorem Exchange.new_filled {W P A : Type} [Payload P A] : (new : Exchange W P).Filled := by
  simp [new,Filled,Exch.isFull]

namespace IoExchange

inductive Op (W ITEM : Type)
  | pollReady (cx : W)
  | pollSend (cx : W) (item : Option ITEM)
  | pollFlush (cx : W)
  | pollClose (cx : W)
  | pollRead (cx : W)
  | dropRead
  | reset
  deriving DecidableEq, Repr

variable {W ITEM : Type} [DecidableEq W]

def Op.role : Op W ITEM → Option Role
  | .pollReady _ | .pollSend _ _ | .pollFlush _ | .pollClose _ => some .producer
  | .pollRead _ | .dropRead => some .consumer
  | .reset => none

def Op.waker : Op W ITEM → Option W
  | .pollReady cx | .pollSend cx _ | .pollFlush cx | .pollClose cx | .pollRead cx => some cx
  | .dropRead | .reset => none

def call : Op W ITEM → Act (IoExchange W ITEM) W (Outcome ITEM)
  | .pollReady cx => do return .ofProd .ok (← prodPollReady cx)
  | .pollSend cx item => do return .ofProd (.accepted item.toList) (← prodPollSend cx item).1
  | .pollFlush cx => do return .ofProd .ok (← prodPollFlush cx)
  | .pollClose cx => do return .ofProd .ok (← prodPollClose cx)
  | .pollRead cx => do return .ofRead some (← conPollRead cx)
  | .dropRead => do dropRead; return .unit
  | .reset => do reset; return .unit

theorem call_filled (op : Op W ITEM) (ex : IoExchange W ITEM) (h : ex.Filled) :
    (call op ex).self.Filled := by
  rcases ex with ⟨_,_,st,slot⟩
  cases op with
  | pollReady cx => cases st <;> simpa [call,prodPollReady_apply,Exchange.Filled] using h
  | pollSend cx item =>
    cases item <;> cases st <;>
      simp_all [call,prodPollSend,Exchange.place_apply,Exchange.Filled,Exch.isFull,Payload.vacant]
  | pollFlush cx =>
    cases st <;>
      simp_all [call,prodPollFlush,Exchange.prodPollFlush_apply,Exchange.Filled,Exch.isFull]
  | pollClose cx =>
    cases st <;>
      simp_all [call,prodPollClose,Exchange.prodPollClose_apply,Exchange.Filled,Exch.isFull]
  | pollRead cx =>
    cases slot <;> cases st <;>
      simp_all [call,conPollRead_apply,Exchange.Filled,Exch.isFull,Exch.consumed,Payload.vacant]
  | dropRead =>
    cases st <;> simp_all [call,dropRead,Exchange.dropRead_apply,Exchange.Filled,Exch.isFull]
  | reset => simp [call,reset,Exchange.reset_apply,Exchange.Filled,Exch.isFull]

end IoExchange

namespace IoBytesExchange

inductive Op (W : Type)
  | pollWrite (cx : W) (data : Bytes)
  | pollFlush (cx : W)
  | pollClose (cx : W)
  | pollRead (cx : W) (maxLen : ℕ)
  | dropRead
  | reset
  deriving DecidableEq, Repr

variable {W : Type} [DecidableEq W]

def Op.role : Op W → Option Role
  | .pollWrite _ _ | .pollFlush _ | .pollClose _ => some .producer
  | .pollRead _ _ | .dropRead => some .consumer
  | .reset => none

def Op.waker : Op W → Option W
  | .pollWrite cx _ | .pollFlush cx | .pollClose cx | .pollRead cx _ => some cx
  | .dropRead | .reset => none

def call : Op W → Act (IoBytesExchange W) W (Outcome UInt8)
  | .pollWrite cx data => do return .ofProd (.accepted data) (← prodPollWrite cx data).1
  | .pollFlush cx => do return .ofProd .ok (← prodPollFlush cx)
  | .pollClose cx => do return .ofProd .ok (← prodPollClose cx)
  | .pollRead cx maxLen => do return .ofRead (fun data : Bytes => data) (← conPollRead cx maxLen)
  | .dropRead => do dropRead; return .unit
  | .reset => do reset; return .unit

theorem call_filled (op : Op W) (ex : IoBytesExchange W) (h : ex.Filled) :
    (call op ex).self.Filled := by
  rcases ex with ⟨_,_,st,slot⟩
  cases op with
  | pollWrite cx data =>
    cases data <;> cases st <;>
      simp_all [call,prodPollWrite,Exchange.place_apply,Exchange.Filled,Exch.isFull,Payload.vacant]
  | pollFlush cx =>
    cases st <;>
      simp_all [call,prodPollFlush,Exchange.prodPollFlush_apply,Exchange.Filled,Exch.isFull]
  | pollClose cx =>
    cases st <;>
      simp_all [call,prodPollClose,Exchange.prodPollClose_apply,Exchange.Filled,Exch.isFull]
  | pollRead cx maxLen =>
    simp only [call,Act.bind_apply,Act.pure_apply,conPollRead_apply]
    cases st <;> simp_all [Exchange.Filled,Exch.isFull,Payload.vacant]
    all_goals split_ifs <;> simp_all [Exch.consumed]
  | dropRead =>
    cases st <;> simp_all [call,dropRead,Exchange.dropRead_apply,Exchange.Filled,Exch.isFull]
  | reset => simp [call,reset,Exchange.reset_apply,Exchange.Filled,Exch.isFull]

end IoBytesExchange
end ProcMachines
