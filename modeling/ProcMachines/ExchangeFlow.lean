import ProcMachines.Exchange

/-! An item exchange on which only reads and sends are made: it is empty, or it is full. -/
namespace ProcMachines
namespace IoExchange

variable {W ITEM : Type}

/-- The states that reads and sends lead to from a new exchange. -/
def Flowing (self : IoExchange W ITEM) : Prop :=
  match self.state with
  | .empty | .emptyFlushed => self.slot = none
  | .full => self.slot.isSome
  | _ => False

theorem flowing_new : (new : IoExchange W ITEM).Flowing := rfl

theorem Flowing.full {self : IoExchange W ITEM} (h : self.Flowing) {item : ITEM}
    (hslot : self.slot = some item) : self.state = .full := by
  obtain ⟨reader,writer,st,slot⟩ := self
  cases hslot
  cases st <;> first | rfl | cases h

theorem Flowing.empty {self : IoExchange W ITEM} (h : self.Flowing) (hslot : self.slot = none) :
    self.state = .empty ∨ self.state = .emptyFlushed := by
  obtain ⟨reader,writer,st,slot⟩ := self
  cases hslot
  cases st <;> first | exact Or.inl rfl | exact Or.inr rfl | cases h

variable [DecidableEq W]

theorem Flowing.read {self : IoExchange W ITEM} (h : self.Flowing) {item : ITEM}
    (hslot : self.slot = some item) (cx : W) : conPollRead cx self =
      ⟨{ self with writer := .new, state := .empty, slot := none },self.writer.fired ++ [cx],
        .ready (.ok (some item))⟩ := by
  rw [conPollRead_apply]
  simp [h.full hslot,hslot,Exch.consumed]

theorem Flowing.await {self : IoExchange W ITEM} (h : self.Flowing) (hslot : self.slot = none)
    (cx : W) : (conPollRead cx self).ret = .pending ∧
      (conPollRead cx self).self.reader = ⟨some cx⟩ ∧ (conPollRead cx self).self.slot = none ∧
        (conPollRead cx self).self.Flowing := by
  rw [conPollRead_apply]
  rcases h.empty hslot with hst | hst <;> simp [hst,hslot,Flowing]

theorem Flowing.send {self : IoExchange W ITEM} (h : self.Flowing) (hslot : self.slot = none)
    (cx : W) (item : ITEM) : prodPollSend cx (some item) self =
      ⟨{ self with reader := .new, state := .full, slot := some item },self.reader.fired,
        (.ready (.ok ()),none)⟩ := by
  simp only [prodPollSend,Option.isNone_some,Bool.false_eq_true,if_false,Exchange.place_apply]
  rcases h.empty hslot with hst | hst <;> simp [hst,Payload.vacant]

theorem Flowing.blocked {self : IoExchange W ITEM} (h : self.Flowing) {old : ITEM}
    (hslot : self.slot = some old) (cx : W) (item : ITEM) : prodPollSend cx (some item) self =
      ⟨{ self with writer := ⟨some cx⟩ },[],(.pending,some item)⟩ := by
  simp [prodPollSend,Exchange.place_apply,h.full hslot]

end IoExchange
end ProcMachines
