import ProcMachines.Waker
import ProcMachines.IoError

/-! The single-slot exchanges. `IoExchange` carries an optional item and
`IoBytesExchange` a byte string; both keep two waker slots and the same lifecycle
state, and what they do alike is written once over the payload type. -/
namespace ProcMachines

/-- The lifecycle constants `EXCH_*`. -/
inductive Exch
  | empty | emptyFlush | emptyFlushed | full | fullFlush | fullClosed | done | dropped
  deriving DecidableEq, Repr

def Exch.isFull : Exch → Bool
  | .full | .fullFlush | .fullClosed => true
  | _ => false

/-- What a slot can hold: a vacant value, a test for it, and the elements in order. -/
class Payload (P : Type) (A : outParam Type) where
  vacant : P
  isVacant : P → Bool
  elems : P → List A
  isVacant_iff : ∀ p, isVacant p = true ↔ p = vacant
  elems_vacant : elems vacant = []

instance (ITEM : Type) : Payload (Option ITEM) ITEM where
  vacant := none
  isVacant := Option.isNone
  elems := Option.toList
  isVacant_iff p := by cases p <;> simp
  elems_vacant := rfl

abbrev Bytes := List UInt8

instance : Payload Bytes UInt8 where
  vacant := []
  isVacant := List.isEmpty
  elems := id
  isVacant_iff p := by cases p <;> simp
  elems_vacant := rfl

structure Exchange (W P : Type) where
  reader : WakerRef W
  writer : WakerRef W
  state : Exch
  slot : P
  deriving DecidableEq, Repr

namespace Exchange

variable {W P A : Type} [DecidableEq W] [Payload P A]

def new : Exchange W P := ⟨.new,.new,.empty,Payload.vacant⟩

def load : Act (Exchange W P) W Exch := fun self => ⟨self,[],self.state⟩

def store (st : Exch) : Act (Exchange W P) W Unit := fun self => ⟨{ self with state := st },[],()⟩

def compareExchange (current new : Exch) : Act (Exchange W P) W Bool := fun self =>
  if self.state = current then ⟨{ self with state := new },[],true⟩ else ⟨self,[],false⟩

/-- Read the slot and leave another payload in it. -/
def replaceSlot (p : P) : Act (Exchange W P) W P := fun self => ⟨{ self with slot := p },[],self.slot⟩

def borrowSlot : Act (Exchange W P) W P := fun self => ⟨self,[],self.slot⟩

def registerReader (cx : W) : Act (Exchange W P) W Unit := fun self =>
  ⟨{ self with reader := self.reader.register cx },[],()⟩

def registerWriter (cx : W) : Act (Exchange W P) W Unit := fun self =>
  ⟨{ self with writer := self.writer.register cx },[],()⟩

def wakeReader : Act (Exchange W P) W Unit := fun self =>
  ⟨{ self with reader := .new },self.reader.fired,()⟩

def wakeWriter : Act (Exchange W P) W Unit := fun self =>
  ⟨{ self with writer := .new },self.writer.fired,()⟩

def reset : Act (Exchange W P) W Unit := do
  store .empty
  let _ ← replaceSlot Payload.vacant
  wakeReader
  wakeWriter

def dropRead : Act (Exchange W P) W Unit := do
  let st ← load
  match st with
  | .dropped | .done => return ()
  | _ =>
    store .dropped
    let _ ← replaceSlot Payload.vacant
    wakeWriter

/-- Wait for the slot, the back-pressure branch of the producer calls. -/
def awaitWriter (st : Exch) (cx : W) {α : Type} : Act (Exchange W P) W (Poll α) := do
  registerWriter cx
  if st ≠ (← load) then Act.wakeByRef cx
  return .pending

/-- The read branches of an empty slot, the same in both exchanges. -/
def awaitReader (st : Exch) (cx : W) {α : Type} : Act (Exchange W P) W (Poll α) := do
  match st with
  | .emptyFlushed =>
    registerReader cx
    if st ≠ (← load) then Act.wakeByRef cx
    return .pending
  | _ =>
    registerReader cx
    if !(← compareExchange st .emptyFlushed) then Act.wakeByRef cx
    wakeWriter
    return .pending

/-- Place a payload in the slot if it is empty. The value carries the payload that
is left to the caller. -/
def place (cx : W) (p : P) {α : Type} (accepted : α) :
    Act (Exchange W P) W (Poll (Except IoError α) × P) := do
  let st ← load
  match st with
  | .empty | .emptyFlush | .emptyFlushed =>
    if ← compareExchange st .full then
      let _ ← replaceSlot p
      wakeReader
      return (.ready (.ok accepted),Payload.vacant)
    else
      Act.wakeByRef cx
      return (.pending,p)
  | .full | .fullFlush | .fullClosed => return (← awaitWriter st cx,p)
  | .dropped => return (.ready (.error .brokenPipe),p)
  | _ => return (.ready (.error .invalidState),p)

def prodPollFlush (cx : W) : Act (Exchange W P) W (Poll (Except IoError Unit)) := do
  let st ← load
  match st with
  | .emptyFlush | .fullFlush | .fullClosed => awaitWriter st cx
  | .emptyFlushed => return .ready (.ok ())
  | .empty =>
    registerWriter cx
    if ← compareExchange st .emptyFlush then wakeReader else Act.wakeByRef cx
    return .pending
  | .full =>
    registerWriter cx
    if ← compareExchange st .fullFlush then wakeReader else Act.wakeByRef cx
    return .pending
  | _ => return .ready (.ok ())

def prodPollClose (cx : W) : Act (Exchange W P) W (Poll (Except IoError Unit)) := do
  let st ← load
  match st with
  | .empty | .emptyFlush | .emptyFlushed =>
    if ← compareExchange st .done then
      wakeReader
      return .ready (.ok ())
    else
      Act.wakeByRef cx
      return .pending
  | .full | .fullFlush =>
    registerWriter cx
    if ← compareExchange st .fullClosed then wakeReader else Act.wakeByRef cx
    return .pending
  | .fullClosed => awaitWriter st cx
  | _ => return .ready (.ok ())

omit [DecidableEq W] in
theorem reset_apply (self : Exchange W P) :
    reset self = ⟨⟨.new,.new,.empty,Payload.vacant⟩,self.reader.fired ++ self.writer.fired,()⟩ := by
  simp [reset,store,replaceSlot,wakeReader,wakeWriter]

omit [DecidableEq W] in
theorem dropRead_apply (self : Exchange W P) :
    dropRead self = match self.state with
      | .dropped | .done => ⟨self,[],()⟩
      | _ => ⟨{ self with writer := .new, state := .dropped, slot := Payload.vacant },
          self.writer.fired,()⟩ := by
  rcases self with ⟨_,_,st,_⟩
  cases st with
  | done | dropped => rfl
  | _ => simp [dropRead,load,store,replaceSlot,wakeWriter]

theorem awaitWriter_apply (cx : W) {α : Type} {st : Exch} {self : Exchange W P}
    (h : self.state = st) :
    awaitWriter (α := α) st cx self = ⟨{ self with writer := ⟨some cx⟩ },[],.pending⟩ := by
  simp [awaitWriter,registerWriter,load,h]

theorem awaitReader_flushed (cx : W) {α : Type} {self : Exchange W P}
    (h : self.state = .emptyFlushed) :
    awaitReader (α := α) .emptyFlushed cx self =
      ⟨{ self with reader := ⟨some cx⟩ },[],.pending⟩ := by
  simp [awaitReader,registerReader,load,h]

theorem awaitReader_acknowledges (cx : W) {α : Type} {st : Exch} {self : Exchange W P}
    (hst : st ≠ .emptyFlushed) (h : self.state = st) :
    awaitReader (α := α) st cx self =
      ⟨{ self with reader := ⟨some cx⟩, writer := .new, state := .emptyFlushed },
        self.writer.fired,.pending⟩ := by
  cases st <;> simp [awaitReader,registerReader,compareExchange,wakeWriter,h] at hst ⊢

theorem place_apply (cx : W) (p : P) {α : Type} (a : α) (self : Exchange W P) :
    place cx p a self = match self.state with
      | .empty | .emptyFlush | .emptyFlushed =>
        ⟨{ self with reader := .new, state := .full, slot := p },self.reader.fired,
          (.ready (.ok a),Payload.vacant)⟩
      | .full | .fullFlush | .fullClosed =>
        ⟨{ self with writer := ⟨some cx⟩ },[],(.pending,p)⟩
      | .dropped => ⟨self,[],(.ready (.error .brokenPipe),p)⟩
      | .done => ⟨self,[],(.ready (.error .invalidState),p)⟩ := by
  rcases self with ⟨_,_,st,_⟩
  cases st with
  | empty | emptyFlush | emptyFlushed =>
    simp [place,load,compareExchange,replaceSlot,wakeReader]
  | full | fullFlush | fullClosed => simp [place,load,awaitWriter_apply]
  | done | dropped => rfl

theorem prodPollFlush_apply (cx : W) (self : Exchange W P) :
    prodPollFlush cx self = match self.state with
      | .emptyFlush | .fullFlush | .fullClosed =>
        ⟨{ self with writer := ⟨some cx⟩ },[],.pending⟩
      | .empty => ⟨{ self with reader := .new, writer := ⟨some cx⟩, state := .emptyFlush },
          self.reader.fired,.pending⟩
      | .full => ⟨{ self with reader := .new, writer := ⟨some cx⟩, state := .fullFlush },
          self.reader.fired,.pending⟩
      | .emptyFlushed | .done | .dropped => ⟨self,[],.ready (.ok ())⟩ := by
  rcases self with ⟨_,_,st,_⟩
  cases st with
  | empty | full => simp [prodPollFlush,load,compareExchange,wakeReader,registerWriter]
  | emptyFlush | fullFlush | fullClosed => simp [prodPollFlush,load,awaitWriter_apply]
  | emptyFlushed | done | dropped => rfl

theorem prodPollClose_apply (cx : W) (self : Exchange W P) :
    prodPollClose cx self = match self.state with
      | .empty | .emptyFlush | .emptyFlushed =>
        ⟨{ self with reader := .new, state := .done },self.reader.fired,.ready (.ok ())⟩
      | .full | .fullFlush =>
        ⟨{ self with reader := .new, writer := ⟨some cx⟩, state := .fullClosed },
          self.reader.fired,.pending⟩
      | .fullClosed => ⟨{ self with writer := ⟨some cx⟩ },[],.pending⟩
      | .done | .dropped => ⟨self,[],.ready (.ok ())⟩ := by
  rcases self with ⟨_,_,st,_⟩
  cases st with
  | empty | emptyFlush | emptyFlushed => simp [prodPollClose,load,compareExchange,wakeReader]
  | full | fullFlush => simp [prodPollClose,load,compareExchange,wakeReader,registerWriter]
  | fullClosed => simp [prodPollClose,load,awaitWriter_apply]
  | done | dropped => rfl

end Exchange

/-- The state after the payload of a `FULL*` state is consumed. -/
def Exch.consumed : Exch → Exch
  | .full => .empty
  | .fullFlush => .emptyFlush
  | .fullClosed => .done
  | st => st

abbrev IoExchange (W ITEM : Type) := Exchange W (Option ITEM)

namespace IoExchange

variable {W ITEM : Type} [DecidableEq W]

open Exchange

def new : IoExchange W ITEM := Exchange.new

def reset : Act (IoExchange W ITEM) W Unit := Exchange.reset

def conPollRead (cx : W) : Act (IoExchange W ITEM) W (Poll (Except IoError (Option ITEM))) := do
  let st ← load
  match st with
  | .empty | .emptyFlush | .emptyFlushed => awaitReader st cx
  | .done => return .ready (.ok none)
  | .dropped => return .ready (.error .invalidState)
  | .full | .fullFlush | .fullClosed =>
    let nextst := st.consumed
    if !(← compareExchange st nextst) then
      Act.wakeByRef cx
      return .pending
    let item ← replaceSlot none
    wakeWriter
    match item with
    | some item =>
      Act.wakeByRef cx
      return .ready (.ok (some item))
    | none =>
      if nextst = .done then return .ready (.ok none)
      else
        Act.wakeByRef cx
        return .pending

def dropRead : Act (IoExchange W ITEM) W Unit := Exchange.dropRead

def prodPollReady (cx : W) : Act (IoExchange W ITEM) W (Poll (Except IoError Unit)) := do
  let st ← load
  match st with
  | .empty | .emptyFlush | .emptyFlushed => return .ready (.ok ())
  | .full | .fullFlush | .fullClosed => awaitWriter st cx
  | .dropped => return .ready (.error .brokenPipe)
  | _ => return .ready (.error .invalidState)

theorem prodPollReady_apply (cx : W) (self : IoExchange W ITEM) :
    prodPollReady cx self = match self.state with
      | .empty | .emptyFlush | .emptyFlushed => ⟨self,[],.ready (.ok ())⟩
      | .full | .fullFlush | .fullClosed => ⟨{ self with writer := ⟨some cx⟩ },[],.pending⟩
      | .dropped => ⟨self,[],.ready (.error .brokenPipe)⟩
      | .done => ⟨self,[],.ready (.error .invalidState)⟩ := by
  rcases self with ⟨_,_,st,_⟩
  cases st with
  | full | fullFlush | fullClosed => simp [prodPollReady,load,awaitWriter_apply]
  | empty | emptyFlush | emptyFlushed | done | dropped => rfl

/-- The value carries what is left in `*item`. -/
def prodPollSend (cx : W) (item : Option ITEM) :
    Act (IoExchange W ITEM) W (Poll (Except IoError Unit) × Option ITEM) :=
  if item.isNone then return (.ready (.ok ()),item) else place cx item ()

def prodPollFlush (cx : W) : Act (IoExchange W ITEM) W (Poll (Except IoError Unit)) :=
  Exchange.prodPollFlush cx

def prodPollClose (cx : W) : Act (IoExchange W ITEM) W (Poll (Except IoError Unit)) :=
  Exchange.prodPollClose cx

theorem conPollRead_apply (cx : W) (self : IoExchange W ITEM) :
    conPollRead cx self = match self.state with
      | .emptyFlushed => ⟨{ self with reader := ⟨some cx⟩ },[],.pending⟩
      | .empty | .emptyFlush =>
        ⟨{ self with reader := ⟨some cx⟩, writer := .new, state := .emptyFlushed },
          self.writer.fired,.pending⟩
      | .done => ⟨self,[],.ready (.ok none)⟩
      | .dropped => ⟨self,[],.ready (.error .invalidState)⟩
      | .full | .fullFlush | .fullClosed =>
        let left := { self with writer := .new, state := self.state.consumed, slot := none }
        match self.slot with
        | some item => ⟨left,self.writer.fired ++ [cx],.ready (.ok (some item))⟩
        | none =>
          if self.state = .fullClosed then ⟨left,self.writer.fired,.ready (.ok none)⟩
          else ⟨left,self.writer.fired ++ [cx],.pending⟩ := by
  rcases self with ⟨_,_,st,slot⟩
  cases st with
  | empty | emptyFlush => simp [conPollRead,load,awaitReader_acknowledges]
  | emptyFlushed => simp [conPollRead,load,awaitReader_flushed]
  | done | dropped => rfl
  | full | fullFlush | fullClosed =>
    cases slot <;>
      simp [conPollRead,load,compareExchange,wakeWriter,replaceSlot,Exch.consumed,Act.wakeByRef]

end IoExchange

abbrev IoBytesExchange (W : Type) := Exchange W Bytes

namespace IoBytesExchange

variable {W : Type} [DecidableEq W]

open Exchange

def new : IoBytesExchange W := Exchange.new

def reset : Act (IoBytesExchange W) W Unit := Exchange.reset

def conPollRead (cx : W) (maxLen : ℕ) :
    Act (IoBytesExchange W) W (Poll (Except IoError (Option Bytes))) := do
  let st ← load
  match st with
  | .empty | .emptyFlush | .emptyFlushed => awaitReader st cx
  | .done | .dropped => return .ready (.ok none)
  | .full | .fullFlush | .fullClosed =>
    let nextst := st.consumed
    if (← borrowSlot).isEmpty then
      let _ ← compareExchange st nextst
      wakeWriter
      Act.wakeByRef cx
      return .pending
    if maxLen = 0 then return .ready (.ok (some []))
    let data ← replaceSlot []
    if maxLen < data.length then
      let _ ← replaceSlot (data.drop maxLen)
      wakeWriter
      Act.wakeByRef cx
      return .ready (.ok (some (data.take maxLen)))
    else
      store nextst
      wakeWriter
      Act.wakeByRef cx
      return .ready (.ok (some data))

def dropRead : Act (IoBytesExchange W) W Unit := Exchange.dropRead

/-- The value carries what is left in `*data`. -/
def prodPollWrite (cx : W) (data : Bytes) :
    Act (IoBytesExchange W) W (Poll (Except IoError ℕ) × Bytes) :=
  if data.isEmpty then return (.ready (.ok 0),data) else place cx data data.length

def prodPollFlush (cx : W) : Act (IoBytesExchange W) W (Poll (Except IoError Unit)) :=
  Exchange.prodPollFlush cx

def prodPollClose (cx : W) : Act (IoBytesExchange W) W (Poll (Except IoError Unit)) :=
  Exchange.prodPollClose cx

theorem conPollRead_apply (cx : W) (maxLen : ℕ) (self : IoBytesExchange W) :
    conPollRead cx maxLen self = match self.state with
      | .emptyFlushed => ⟨{ self with reader := ⟨some cx⟩ },[],.pending⟩
      | .empty | .emptyFlush =>
        ⟨{ self with reader := ⟨some cx⟩, writer := .new, state := .emptyFlushed },
          self.writer.fired,.pending⟩
      | .done | .dropped => ⟨self,[],.ready (.ok none)⟩
      | .full | .fullFlush | .fullClosed =>
        if self.slot = [] then
          ⟨{ self with writer := .new, state := self.state.consumed },self.writer.fired ++ [cx],
            .pending⟩
        else if maxLen = 0 then ⟨self,[],.ready (.ok (some []))⟩
        else if maxLen < self.slot.length then
          ⟨{ self with writer := .new, slot := self.slot.drop maxLen },self.writer.fired ++ [cx],
            .ready (.ok (some (self.slot.take maxLen)))⟩
        else
          ⟨{ self with writer := .new, state := self.state.consumed, slot := [] },
            self.writer.fired ++ [cx],.ready (.ok (some self.slot))⟩ := by
  rcases self with ⟨_,_,st,slot⟩
  cases st with
  | empty | emptyFlush => simp [conPollRead,load,awaitReader_acknowledges]
  | emptyFlushed => simp [conPollRead,load,awaitReader_flushed]
  | done | dropped => rfl
  | full | fullFlush | fullClosed =>
    by_cases hslot : slot = []
    · simp [conPollRead,load,borrowSlot,compareExchange,wakeWriter,Act.wakeByRef,Exch.consumed,
        hslot]
    by_cases hzero : maxLen = 0
    · simp [conPollRead,load,borrowSlot,hslot,hzero]
    by_cases hpart : maxLen < slot.length <;>
      simp [conPollRead,load,borrowSlot,replaceSlot,store,wakeWriter,Act.wakeByRef,Exch.consumed,
        hslot,hzero,hpart]

end IoBytesExchange
end ProcMachines
