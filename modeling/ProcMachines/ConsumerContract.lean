import ProcMachines.ExchangeDelivery
import ProcMachines.ReaderCalls
import ProcMachines.StreamIoStream

/-! The consumers of the library keep one contract: both exchanges, the reading adapter
and the adapter of streams. -/
namespace ProcMachines

def Outcome.verdict {A : Type} : Outcome A → Verdict
  | .delivered xs => if xs.isEmpty then .probed else .consumed
  | .endOfStream => .ended
  | _ => .other

/-- Whom a read with this verdict wakes, and that after the end the object is finished. -/
def Verdict.Keeps {W : Type} (cx : W) (woken : List W) (finished : Prop) : Verdict → Prop
  | .consumed => cx ∈ woken
  | .ended => woken = [] ∧ finished
  | .probed => woken = []
  | .other => True

namespace Verdict.Keeps

variable {W : Type} {cx : W} {woken : List W} {finished : Prop} {v : Verdict}

theorem consumed (h : v.Keeps cx woken finished) (hv : v = .consumed) : cx ∈ woken := by
  subst hv
  exact h

theorem silent (h : v.Keeps cx woken finished) (hv : v = .ended ∨ v = .probed) : woken = [] := by
  rcases hv with rfl | rfl
  · exact h.1
  · exact h

theorem ended (h : v.Keeps cx woken finished) (hv : v = .ended) : finished := by
  subst hv
  exact h.2

end Verdict.Keeps

namespace IoExchange

variable {W ITEM : Type} [DecidableEq W]

def consumer : Consumer (IoExchange W ITEM) W W (Op W ITEM) where
  exec op := do return (← call op).verdict
  reader
    | .pollRead cx => some cx
    | _ => none
  woke cx e := e = cx
  resets
    | .reset => true
    | _ => false

theorem done_stays (op : Op W ITEM) (ex : IoExchange W ITEM) (hop : consumer.resets op = false)
    (h : ex.state = .done) : (call op ex).self.state = .done := by
  rcases ex with ⟨_,_,st,slot⟩
  obtain rfl : st = .done := h
  cases op with
  | pollReady cx => rfl
  | pollSend cx item => cases item <;> rfl
  | pollFlush cx => rfl
  | pollClose cx => rfl
  | pollRead cx => rfl
  | dropRead => rfl
  | reset => simp [consumer] at hop

theorem pollRead_keeps (cx : W) (ex : IoExchange W ITEM) (hf : ex.Filled) :
    (consumer.exec (.pollRead cx) ex).ret.Keeps cx (consumer.exec (.pollRead cx) ex).woken
      ((consumer.exec (.pollRead cx) ex).self.state = .done) := by
  rcases ex with ⟨_,_,st,slot⟩
  simp only [consumer,call,Act.bind_apply,Act.pure_apply,conPollRead_apply]
  cases st with
  | empty | emptyFlush | emptyFlushed | dropped => trivial
  | done => exact ⟨rfl,rfl⟩
  | full | fullFlush | fullClosed =>
    cases slot with
    | none => simp [Exchange.Filled,Exch.isFull,Payload.vacant] at hf
    | some item => simp [Outcome.ofRead,Outcome.verdict,Verdict.Keeps,Payload.elems]

def rules : (consumer : Consumer (IoExchange W ITEM) W W _).Rules where
  inv := Exchange.Filled
  finished ex := ex.state = .done
  inv_step op ex h := call_filled op ex h
  wakes op ex cx hf hread h := by
    cases op <;> simp only [consumer,reduceCtorEq,Option.some.injEq] at hread
    subst hread
    exact ⟨_,(pollRead_keeps _ ex hf).consumed h,rfl⟩
  silent op ex cx hf hread h := by
    cases op <;> simp only [consumer,reduceCtorEq,Option.some.injEq] at hread
    rw [(pollRead_keeps _ ex hf).silent h]
    simp
  ends op ex hf hread h := by
    cases op <;> simp only [consumer,ne_eq,not_true_eq_false] at hread
    exact (pollRead_keeps _ ex hf).ended h
  stays := done_stays
  again op ex hread h := by
    cases op <;> simp only [consumer,ne_eq,not_true_eq_false] at hread
    simp [consumer,call,conPollRead_apply,h,Outcome.ofRead,Outcome.verdict]

end IoExchange

namespace IoBytesExchange

variable {W : Type} [DecidableEq W]

def consumer : Consumer (IoBytesExchange W) W W (Op W) where
  exec op := do return (← call op).verdict
  reader
    | .pollRead cx _ => some cx
    | _ => none
  woke cx e := e = cx
  resets
    | .reset => true
    | _ => false

theorem pollRead_keeps (cx : W) (maxLen : ℕ) (ex : IoBytesExchange W) :
    (consumer.exec (.pollRead cx maxLen) ex).ret.Keeps cx
      (consumer.exec (.pollRead cx maxLen) ex).woken
      ((consumer.exec (.pollRead cx maxLen) ex).self.state ∈ terminal) := by
  rcases ex with ⟨_,_,st,slot⟩
  simp only [consumer,call,Act.bind_apply,Act.pure_apply,conPollRead_apply]
  cases st with
  | empty | emptyFlush | emptyFlushed => trivial
  | done | dropped => exact ⟨rfl,by simp [terminal]⟩
  | full | fullFlush | fullClosed =>
    split_ifs with hslot hzero hpart
    · trivial
    · rfl
    · have htake : slot.take maxLen ≠ [] := by simp [hzero,hslot]
      simp [Outcome.ofRead,Outcome.verdict,Verdict.Keeps,Payload.elems,htake]
    · simp [Outcome.ofRead,Outcome.verdict,Verdict.Keeps,Payload.elems,hslot]

def rules : (consumer : Consumer (IoBytesExchange W) W W _).Rules where
  inv _ := True
  finished ex := ex.state ∈ terminal
  inv_step _ _ h := h
  wakes op ex cx _ hread h := by
    cases op <;> simp only [consumer,reduceCtorEq,Option.some.injEq] at hread
    subst hread
    exact ⟨_,(pollRead_keeps _ _ ex).consumed h,rfl⟩
  silent op ex cx _ hread h := by
    cases op <;> simp only [consumer,reduceCtorEq,Option.some.injEq] at hread
    rw [(pollRead_keeps _ _ ex).silent h]
    simp
  ends op ex _ hread h := by
    cases op <;> simp only [consumer,ne_eq,not_true_eq_false] at hread
    exact (pollRead_keeps _ _ ex).ended h
  stays op ex hop h := by
    have hreset : op.kind ≠ .reset := by
      cases op <;> simp [consumer] at hop <;> simp [Op.kind]
    exact ((call_lifecycle op ex).2.2.1 hreset h).1
  again op ex hread h := by
    rcases ex with ⟨_,_,st,_⟩
    cases op <;> simp only [consumer,ne_eq,not_true_eq_false] at hread
    simp only [terminal,List.mem_cons,List.not_mem_nil,or_false] at h
    rcases h with rfl | rfl <;> rfl

end IoBytesExchange

namespace ReaderIoReader

variable {ρ BP W : Type}

def consumer (R : AsyncRead ρ W) (P : AsyncBufProvider BP) (bits : ℕ) :
    Consumer (ReaderIoReader ρ BP) (Event W) W (Op W) where
  exec op := fun self =>
    let r := call R P bits op self
    ⟨r.self,r.woken,(r.ret.map (verdict r.woken)).getD .other⟩
  reader
    | .pollRead cx _ => some cx
    | .dropRead => none
  woke cx e := e = .woke cx
  resets _ := false

theorem verdict_ended {events : List (Event W)} {ret : Poll (Except IoError (Option Bytes))} :
    verdict events ret = .ended ↔ ret = .ready (.ok none) := by
  match ret with
  | .pending => simp [verdict]
  | .ready (.ok none) => simp [verdict]
  | .ready (.ok (some chunk)) =>
    simp only [verdict,Poll.ready.injEq,Except.ok.injEq,reduceCtorEq,iff_false]
    split <;> simp
  | .ready (.error e) =>
    simp only [verdict,Poll.ready.injEq,reduceCtorEq,iff_false]
    split <;> simp

def rules (R : AsyncRead ρ W) (P : AsyncBufProvider BP) (bits : ℕ) : (consumer R P bits).Rules where
  inv _ := True
  finished self := self.reader = none
  inv_step _ _ h := h
  wakes op self cx _ hread h := by
    cases op <;> simp [consumer] at hread
    subst hread
    exact ⟨_,by simpa [consumer,call] using (conPollRead_woke _ _ self).mpr (by
      simpa [consumer,call] using h),rfl⟩
  silent op self cx _ hread h e he hwoke := by
    cases op <;> simp [consumer] at hread
    subst hread hwoke
    have hconsumed := (conPollRead_woke _ _ self).mp (by simpa [consumer,call] using he)
    simp only [consumer,call,Act.bind_apply,Act.pure_apply,List.append_nil,Option.map_some,
      Option.getD_some,hconsumed] at h
    simp at h
  ends op self _ hread h := by
    cases op <;> simp [consumer] at hread
    have hret := verdict_ended.mp (by simpa [consumer,call] using h)
    simpa [consumer,call] using conPollRead_ended _ _ self hret
  stays op self _ h := by
    cases op with
    | pollRead cx maxLen => simpa [consumer,call,conPollRead_closed h] using h
    | dropRead => rfl
  again op self hread h := by
    cases op <;> simp [consumer] at hread
    simp [consumer,call,conPollRead_closed h,verdict]

end ReaderIoReader

namespace StreamIoStream

variable {ρ W ITEM ERR : Type}

inductive Op (W : Type)
  | pollRead (cx : W)
  | dropRead
  deriving DecidableEq, Repr

/-- What a finished read says: an item and an error are consumed. -/
def verdict : Poll (Except ERR (Option ITEM)) → Verdict
  | .pending => .other
  | .ready (.ok none) => .ended
  | .ready (.ok (some _)) | .ready (.error _) => .consumed

def consumer (S : Stream ρ W ITEM ERR) : Consumer (StreamIoStream ρ) (Event W) W (Op W) where
  exec
    | .pollRead cx => do return verdict (← conPollRead S cx)
    | .dropRead => do dropRead; return .other
  reader
    | .pollRead cx => some cx
    | .dropRead => none
  woke cx e := e = .woke cx
  resets _ := false

/-- The four answers of the wrapped stream, and the end once it is gone. -/
theorem conPollRead_cases (S : Stream ρ W ITEM ERR) (cx : W) (self : StreamIoStream ρ) :
    (self.inner = none ∧ conPollRead S cx self = ⟨self,[],.ready (.ok none)⟩) ∨
    ∃ stream woken, self.inner = some stream ∧ Event.woke cx ∉ woken ∧
      (conPollRead S cx self = ⟨⟨none⟩,woken,.ready (.ok none)⟩ ∨
        conPollRead S cx self = ⟨⟨some (S.pollNext cx stream).self⟩,woken,.pending⟩ ∨
        (∃ item, conPollRead S cx self =
          ⟨⟨some (S.pollNext cx stream).self⟩,woken ++ [.woke cx],.ready (.ok (some item))⟩) ∨
        ∃ e, conPollRead S cx self = ⟨⟨none⟩,woken ++ [.woke cx],.ready (.error e)⟩) := by
  rcases self with ⟨_ | stream⟩
  · exact Or.inl ⟨rfl,rfl⟩
  · refine Or.inr ⟨stream,(S.pollNext cx stream).woken.map .inner,rfl,by simp,?_⟩
    rcases hr : S.pollNext cx stream with ⟨next,woken,(_ | (e | item)) | _⟩
    · exact Or.inl (by simp [conPollRead,hr])
    · exact Or.inr (Or.inr (Or.inr ⟨e,by simp [conPollRead,hr]⟩))
    · exact Or.inr (Or.inr (Or.inl ⟨item,by simp [conPollRead,hr]⟩))
    · exact Or.inr (Or.inl (by simp [conPollRead,hr]))

theorem conPollRead_woke (S : Stream ρ W ITEM ERR) (cx : W) (self : StreamIoStream ρ) :
    Event.woke cx ∈ (conPollRead S cx self).woken ↔
      verdict (conPollRead S cx self).ret = .consumed := by
  rcases conPollRead_cases S cx self with ⟨_,hc⟩ | ⟨_,_,_,hsilent,hc | hc | ⟨item,hc⟩ | ⟨e,hc⟩⟩
  · simp [hc,verdict]
  · simp [hc,verdict,hsilent]
  · simp [hc,verdict,hsilent]
  · simp [hc,verdict]
  · simp [hc,verdict]

theorem conPollRead_ended (S : Stream ρ W ITEM ERR) (cx : W) (self : StreamIoStream ρ)
    (h : verdict (conPollRead S cx self).ret = .ended) :
    (conPollRead S cx self).self.inner = none := by
  rcases conPollRead_cases S cx self with ⟨hnone,hc⟩ | ⟨_,_,_,_,hc | hc | ⟨item,hc⟩ | ⟨e,hc⟩⟩
  · rw [hc]
    exact hnone
  · rw [hc]
  · simp [hc,verdict] at h
  · simp [hc,verdict] at h
  · simp [hc,verdict] at h

theorem conPollRead_closed (S : Stream ρ W ITEM ERR) (cx : W) {self : StreamIoStream ρ}
    (h : self.inner = none) : conPollRead S cx self = ⟨self,[],.ready (.ok none)⟩ := by
  simp [conPollRead,h]

def rules (S : Stream ρ W ITEM ERR) : (consumer S).Rules where
  inv _ := True
  finished self := self.inner = none
  inv_step _ _ h := h
  wakes op self cx _ hread h := by
    cases op with
    | pollRead cx' =>
      obtain rfl : cx' = cx := by simpa [consumer] using hread
      exact ⟨_,by simpa [consumer] using (conPollRead_woke S cx' self).mpr h,rfl⟩
    | dropRead => simp [consumer] at hread
  silent op self cx _ hread h e he hwoke := by
    cases op with
    | pollRead cx' =>
      obtain rfl : cx' = cx := by simpa [consumer] using hread
      subst hwoke
      have hconsumed := (conPollRead_woke S cx' self).mp (by simpa [consumer] using he)
      simp [consumer,hconsumed] at h
    | dropRead => simp [consumer] at hread
  ends op self _ hread h := by
    cases op with
    | pollRead cx => exact conPollRead_ended S cx self h
    | dropRead => simp [consumer] at hread
  stays op self _ h := by
    cases op with
    | pollRead cx => simpa [consumer,conPollRead_closed S cx h] using h
    | dropRead => rfl
  again op self hread h := by
    cases op with
    | pollRead cx => simp [consumer,conPollRead_closed S cx h,verdict]
    | dropRead => simp [consumer] at hread

end StreamIoStream

/-- Over every run of calls, a read of any consumer that consumes something wakes its
caller, one that finds the end or only probes does not, and after the end has been
returned every read returns it until a reset. -/
theorem consumers_keep_contract (W ITEM ERR ρ BP : Type) [DecidableEq W] :
    (∀ ops : List (IoExchange.Op W ITEM), IoExchange.consumer.Contract IoExchange.new ops) ∧
    (∀ ops : List (IoBytesExchange.Op W),
      IoBytesExchange.consumer.Contract IoBytesExchange.new ops) ∧
    (∀ (R : AsyncRead ρ W) (P : AsyncBufProvider BP) bits inner bufProvider
      (ops : List (ReaderIoReader.Op W)), (ReaderIoReader.consumer R P bits).Contract
        (ReaderIoReader.new inner bufProvider) ops) ∧
    ∀ (S : Stream ρ W ITEM ERR) inner (ops : List (StreamIoStream.Op W)),
      (StreamIoStream.consumer S).Contract (StreamIoStream.new inner) ops :=
  ⟨fun ops => IoExchange.rules.contract Exchange.new_filled ops,
    fun ops => IoBytesExchange.rules.contract trivial ops,
    fun R P bits _ _ ops => (ReaderIoReader.rules R P bits).contract trivial ops,
    fun S _ ops => (StreamIoStream.rules S).contract trivial ops⟩

end ProcMachines
