import ProcMachines.ExchangeDelivery
import ProcMachines.Transition

/-! The flush handshake of an exchange: what its acknowledgement says about the history
of calls, and that flushing leaves the data alone. -/
namespace ProcMachines

open Transition

/-- The states in which a flush is done. -/
def flushed : List Exch := [.emptyFlushed,.done,.dropped]

/-- The state without what flushes leave in it. -/
def Exch.untagged : Exch → Exch
  | .emptyFlush | .emptyFlushed => .empty
  | .fullFlush => .full
  | st => st

namespace Exchange

variable {W P A α β : Type} [DecidableEq W] [Payload P A] {call : Act (Exchange W P) W α}
  {ex ex' : Exchange W P}

/-- The exchange without its wakers and without what flushes leave in it. -/
def bare (ex : Exchange W P) : Exchange W P := ⟨.new,.new,ex.state.untagged,ex.slot⟩

/-- A call that sees neither the wakers nor what flushes leave. -/
def Blind (call : Act (Exchange W P) W α) : Prop :=
  ∀ ex, (call ex).ret = (call ex.bare).ret ∧ (call ex).self.bare = (call ex.bare).self.bare

omit [DecidableEq W] [Payload P A] in
theorem pure_blind (a : α) : Blind (pure a : Act (Exchange W P) W α) := by
  intro ex
  rcases ex with ⟨_,_,st,_⟩
  cases st <;> exact ⟨rfl,rfl⟩

omit [DecidableEq W] [Payload P A] in
theorem Blind.map (h : Blind call) (k : α → β) : Blind (call >>= fun a => pure (k a)) :=
  fun ex => ⟨congrArg k (h ex).1,(h ex).2⟩

omit [DecidableEq W] [Payload P A] in
theorem Blind.alike (h : Blind call) (hslot : ex.slot = ex'.slot)
    (hst : ex.state.untagged = ex'.state.untagged) : (call ex).ret = (call ex').ret ∧
      (call ex).self.slot = (call ex').self.slot ∧
      (call ex).self.state.untagged = (call ex').self.state.untagged := by
  have hbare : ex.bare = ex'.bare := by simp only [bare,hslot,hst]
  have hret : (call ex).ret = (call ex').ret := by rw [(h ex).1,hbare,← (h ex').1]
  have hself : (call ex).self.bare = (call ex').self.bare := by
    rw [(h ex).2,hbare,← (h ex').2]
  obtain ⟨-,-,hst',hslot'⟩ := Exchange.mk.inj hself
  exact ⟨hret,hslot',hst'⟩

theorem place_blind (cx : W) (p : P) (a : α) : Blind (place cx p a) := by
  intro ex
  rcases ex with ⟨_,_,st,_⟩
  rw [place_apply,place_apply]
  cases st <;> exact ⟨rfl,rfl⟩

theorem prodPollClose_blind (cx : W) : Blind (prodPollClose cx : Act (Exchange W P) W _) := by
  intro ex
  rcases ex with ⟨_,_,st,_⟩
  rw [prodPollClose_apply,prodPollClose_apply]
  cases st <;> exact ⟨rfl,rfl⟩

omit [DecidableEq W] in
theorem dropRead_blind : Blind (dropRead : Act (Exchange W P) W Unit) := by
  intro ex
  rcases ex with ⟨_,_,st,_⟩
  rw [dropRead_apply,dropRead_apply]
  cases st <;> exact ⟨rfl,rfl⟩

omit [DecidableEq W] in
theorem reset_blind : Blind (reset : Act (Exchange W P) W Unit) := by
  intro ex
  rw [reset_apply,reset_apply]
  exact ⟨rfl,rfl⟩

theorem prodPollFlush_ret (cx : W) (ex : Exchange W P) : (prodPollFlush cx ex).ret =
    if ex.state ∈ flushed then .ready (.ok ()) else .pending := by
  rcases ex with ⟨_,_,st,_⟩
  rw [prodPollFlush_apply]
  cases st <;> rfl

theorem prodPollFlush_bare (cx : W) (ex : Exchange W P) :
    (prodPollFlush cx ex).self.bare = ex.bare := by
  rcases ex with ⟨_,_,st,_⟩
  rw [prodPollFlush_apply]
  cases st <;> rfl

end Exchange

namespace Delivery

variable {W P A Op : Type} [DecidableEq W] [Payload P A] {C : Channel W P A Op}

def trace (D : Delivery C) (ops : List Op) : List (Exchange W P × Op) :=
  (ops.foldl (fun (t : Traced W P A × List (Exchange W P × Op)) op =>
    (D.next t.1 op,t.2 ++ [(t.1.obj,op)])) (⟨.new,.empty⟩,[])).2

@[simp] theorem trace_nil (D : Delivery C) : D.trace [] = [] := rfl

theorem run_snoc (D : Delivery C) (ops : List Op) (op : Op) :
    D.run (ops ++ [op]) = D.next (D.run ops) op := by
  simp [run]

theorem trace_snoc (D : Delivery C) (ops : List Op) (op : Op) :
    D.trace (ops ++ [op]) = D.trace ops ++ [((D.run ops).obj,op)] := by
  have hfst : ∀ t : Traced W P A × List (Exchange W P × Op), (ops.foldl
      (fun (t : Traced W P A × List (Exchange W P × Op)) op =>
        (D.next t.1 op,t.2 ++ [(t.1.obj,op)])) t).1 = ops.foldl D.next t.1 := by
    induction ops with
    | nil => intro t; rfl
    | cons o ops ih => intro t; exact ih _
  simp only [trace,run,List.foldl_append,List.foldl_cons,List.foldl_nil,hfst]

def Looked (D : Delivery C) (e : Exchange W P × Op) : Prop :=
  D.kind e.2 = .read ∧ e.1.slot = Payload.vacant ∧ (C.call e.2 e.1).ret = .pending

/-- A call that had some payload accepted, or a reset. -/
def Refilled (D : Delivery C) (e : Exchange W P × Op) : Prop :=
  D.kind e.2 = .reset ∨ (C.call e.2 e.1).ret.acceptedElems ≠ []

/-- The reader has dropped; or everything accepted was consumed, and the stream was closed
or the reader has looked at the empty slot since the last payload was accepted. -/
def Acknowledged (D : Delivery C) (ops : List Op) : Prop :=
  (D.run ops).hist.dropped = true ∨
  ((D.run ops).hist.closed = true ∧ (D.run ops).hist.delivered = (D.run ops).hist.accepted) ∨
  ((D.run ops).hist.closed = false ∧ (D.run ops).hist.delivered = (D.run ops).hist.accepted ∧
    Unanswered D.Looked D.Refilled (D.trace ops))

/-- What single calls do to the flush handshake. -/
structure Handshake (D : Delivery C) where
  isFlush : Op → Bool
  nonempty : ∀ p : P, Payload.elems p = [] → p = Payload.vacant
  kind : ∀ op, isFlush op = true → D.kind op = .other
  answers : ∀ op ex, isFlush op = true →
    (C.call op ex).ret = if ex.state ∈ flushed then .ok else .pending
  frames : ∀ op ex, isFlush op = true → (C.call op ex).self.slot = ex.slot ∧
    (C.call op ex).self.state.untagged = ex.state.untagged
  looks : ∀ op ex, ex.Filled → D.kind op = .read ∨ D.kind op = .other →
    ((C.call op ex).self.state = .emptyFlushed ↔
      D.Looked (ex,op) ∨ (ex.state = .emptyFlushed ∧ ¬ D.Refilled (ex,op)))
  blind : ∀ op ex ex', isFlush op = false → ex.slot = ex'.slot →
    ex.state.untagged = ex'.state.untagged →
    (C.call op ex).ret = (C.call op ex').ret ∧ (C.call op ex).self.slot = (C.call op ex').self.slot ∧
      (C.call op ex).self.state.untagged = (C.call op ex').self.state.untagged

namespace Handshake

variable {D : Delivery C}

/-- While the stream is open the exchange is flushed exactly when the reader has looked
at the empty slot since the last payload was accepted. -/
theorem flushed_run (H : Handshake D) (ops : List Op) (hd : (D.run ops).hist.dropped = false)
    (hc : (D.run ops).hist.closed = false) : (D.run ops).obj.state = .emptyFlushed ↔
      Unanswered D.Looked D.Refilled (D.trace ops) := by
  induction ops using List.reverseRecOn with
  | nil => simp [run,Exchange.new]
  | append_singleton ops op ih =>
    rw [trace_snoc,unanswered_snoc]
    rw [run_snoc] at hd hc ⊢
    have hfill := (D.law_run ops).filled
    have hopen : D.kind op = .read ∨ D.kind op = .other → (D.run ops).hist.dropped = false ∧
        (D.run ops).hist.closed = false := by
      intro hk
      rcases hk with hk | hk <;> simp_all [next,History.record]
    cases hk : D.kind op with
    | reset =>
      obtain ⟨hst,-⟩ := D.reset op (D.run ops).obj hk
      simp [next,hst,Looked,Refilled,hk]
    | dropRead => simp [next,History.record,hk] at hd
    | close => simp [next,History.record,hk] at hc
    | read =>
      rw [← ih (hopen (Or.inl hk)).1 (hopen (Or.inl hk)).2]
      exact H.looks op _ hfill (Or.inl hk)
    | other =>
      rw [← ih (hopen (Or.inr hk)).1 (hopen (Or.inr hk)).2]
      exact H.looks op _ hfill (Or.inr hk)

/-- Before a drop everything accepted was consumed exactly when the slot is vacant. -/
theorem consumed_iff (H : Handshake D) (ops : List Op) (hd : (D.run ops).hist.dropped = false) :
    (D.run ops).hist.delivered = (D.run ops).hist.accepted ↔
      (D.run ops).obj.slot = Payload.vacant := by
  rw [(D.law_run ops).conserved hd,List.self_eq_append_right]
  exact ⟨H.nonempty _,fun h => h ▸ Payload.elems_vacant⟩

theorem acknowledged_iff (H : Handshake D) (ops : List Op) :
    D.Acknowledged ops ↔ (D.run ops).obj.state ∈ flushed := by
  have hlaw := D.law_run ops
  cases hd : (D.run ops).hist.dropped with
  | true =>
    have hterm := hlaw.dropped hd
    simp only [terminal,List.mem_cons,List.not_mem_nil,or_false] at hterm
    simp only [Acknowledged,hd,true_or,flushed,List.mem_cons,List.not_mem_nil,or_false,true_iff]
    exact Or.inr hterm
  | false =>
    have hnot := hlaw.undropped hd
    have hvacant : (D.run ops).obj.slot = Payload.vacant ↔ (D.run ops).obj.state.isFull = false := by
      rw [← Bool.not_eq_true,show (D.run ops).obj.state.isFull = true ↔ _ from hlaw.filled,not_not]
    simp only [Acknowledged,hd,H.consumed_iff ops hd,hvacant,Bool.false_eq_true,false_or]
    cases hc : (D.run ops).hist.closed with
    | true =>
      have hst := hlaw.closed hc
      cases hs : (D.run ops).obj.state <;> simp_all [closing,flushed,Exch.isFull]
    | false =>
      have hst : (D.run ops).obj.state ∉ closing := fun h => by
        simp [hlaw.unclosed hd h] at hc
      rw [← H.flushed_run ops hd hc]
      cases hs : (D.run ops).obj.state <;> simp_all [closing,flushed,Exch.isFull]

def answersOf (D : Delivery C) (ops : List Op) : List (Op × Outcome A) :=
  (D.trace ops).map fun e => (e.2,(C.call e.2 e.1).ret)

/-- Without its flushes a run has the same history and payload, and its other calls the
same results. -/
theorem unflushed_run (H : Handshake D) (ops : List Op) :
    (D.run ops).hist = (D.run (ops.filter fun op => !H.isFlush op)).hist ∧
    (D.run ops).obj.slot = (D.run (ops.filter fun op => !H.isFlush op)).obj.slot ∧
    (D.run ops).obj.state.untagged =
      (D.run (ops.filter fun op => !H.isFlush op)).obj.state.untagged ∧
    (answersOf D ops).filter (fun e => !H.isFlush e.1) =
      answersOf D (ops.filter fun op => !H.isFlush op) := by
  induction ops using List.reverseRecOn with
  | nil => simp [answersOf]
  | append_singleton ops op ih =>
    obtain ⟨hhist,hslot,hst,hans⟩ := ih
    have hlast : answersOf D (ops ++ [op]) =
        answersOf D ops ++ [(op,(C.call op (D.run ops).obj).ret)] := by
      simp [answersOf,trace_snoc]
    rw [hlast,List.filter_append,List.filter_append,run_snoc]
    cases hop : H.isFlush op with
    | true =>
      obtain ⟨hs,ht⟩ := H.frames op (D.run ops).obj hop
      have hret := H.answers op (D.run ops).obj hop
      have hempty : (C.call op (D.run ops).obj).ret.acceptedElems = [] ∧
          (C.call op (D.run ops).obj).ret.deliveredElems = [] := by
        rw [hret]
        split <;> exact ⟨rfl,rfl⟩
      simp only [hop,Bool.not_true,Bool.false_eq_true,not_false_eq_true,List.filter_cons_of_neg,
        List.filter_nil,List.append_nil]
      refine ⟨?_,hs.trans hslot,ht.trans hst,hans⟩
      rw [← hhist]
      have hclose : (OpKind.other == OpKind.close) = false := rfl
      have hdrop : (OpKind.other == OpKind.dropRead) = false := rfl
      simp [next,History.record,H.kind op hop,hempty.1,hempty.2,hclose,hdrop]
    | false =>
      obtain ⟨hret,hs,ht⟩ := H.blind op _ _ hop hslot hst
      simp only [hop,Bool.not_false,List.filter_cons_of_pos,List.filter_nil,run_snoc]
      refine ⟨?_,hs,ht,?_⟩
      · simp only [next,hhist,hret]
      · rw [hans,hret]
        simp [answersOf,trace_snoc]

/-- What a run promises of a flush made after it: it is done exactly when acknowledged and
otherwise pending, and with or without the flushes of the run the same payloads have gone
in and out, the same payload is in the slot and the other calls had the same results. -/
structure Flushes (H : Handshake D) (ops : List Op) : Prop where
  ready_iff : ∀ op, H.isFlush op = true →
    ((C.call op (D.run ops).obj).ret = .ok ↔ D.Acknowledged ops)
  pending : ∀ op, H.isFlush op = true → ¬ D.Acknowledged ops →
    (C.call op (D.run ops).obj).ret = .pending
  history : (D.run ops).hist = (D.run (ops.filter fun op => !H.isFlush op)).hist
  slot : (D.run ops).obj.slot = (D.run (ops.filter fun op => !H.isFlush op)).obj.slot
  results : (answersOf D ops).filter (fun e => !H.isFlush e.1) =
    answersOf D (ops.filter fun op => !H.isFlush op)

theorem flushes (H : Handshake D) (ops : List Op) : H.Flushes ops where
  ready_iff op hop := by
    rw [H.acknowledged_iff,H.answers op _ hop]
    split <;> simp_all
  pending op hop hack := by
    rw [H.acknowledged_iff] at hack
    rw [H.answers op _ hop,if_neg hack]
  history := (H.unflushed_run ops).1
  slot := (H.unflushed_run ops).2.1
  results := (H.unflushed_run ops).2.2.2

end Handshake
end Delivery

namespace IoExchange

variable {W ITEM : Type} [DecidableEq W]

def Op.isFlush : Op W ITEM → Bool
  | .pollFlush _ => true
  | _ => false

theorem call_looks (op : Op W ITEM) (ex : IoExchange W ITEM) (hf : ex.Filled)
    (hk : op.kind = .read ∨ op.kind = .other) : (call op ex).self.state = .emptyFlushed ↔
      delivery.Looked (ex,op) ∨ (ex.state = .emptyFlushed ∧ ¬ delivery.Refilled (ex,op)) := by
  rcases ex with ⟨_,_,st,slot⟩
  cases op with
  | pollReady cx =>
    cases st <;> simp [Delivery.Looked,Delivery.Refilled,delivery,channel,Op.kind,call,
      prodPollReady_apply,Outcome.ofProd,Outcome.acceptedElems]
  | pollSend cx item =>
    cases item <;> cases st <;> simp [Delivery.Looked,Delivery.Refilled,delivery,channel,Op.kind,
      call,prodPollSend,Exchange.place_apply,Outcome.ofProd,Outcome.acceptedElems]
  | pollFlush cx =>
    cases st <;> simp [Delivery.Looked,Delivery.Refilled,delivery,channel,Op.kind,call,
      prodPollFlush,Exchange.prodPollFlush_apply,Outcome.ofProd,Outcome.acceptedElems]
  | pollClose cx => simp [Op.kind] at hk
  | pollRead cx =>
    cases slot <;> cases st <;> simp_all [Delivery.Looked,Delivery.Refilled,delivery,channel,
      Op.kind,call,conPollRead_apply,Outcome.ofRead,Outcome.acceptedElems,Exch.consumed,
      Exchange.Filled,Exch.isFull,Payload.vacant]
  | dropRead => simp [Op.kind] at hk
  | reset => simp [Op.kind] at hk

theorem call_blind (op : Op W ITEM) (hop : op.isFlush = false) :
    Exchange.Blind (call op : Act (IoExchange W ITEM) W _) := by
  cases op with
  | pollReady cx =>
    intro ex
    rcases ex with ⟨_,_,st,_⟩
    simp only [call,Act.bind_apply,Act.pure_apply,prodPollReady_apply]
    cases st <;> exact ⟨rfl,rfl⟩
  | pollSend cx item =>
    cases item with
    | none => exact Exchange.pure_blind _
    | some item => exact (Exchange.place_blind cx (some item) ()).map fun r => Outcome.ofProd _ r.1
  | pollFlush cx => simp [Op.isFlush] at hop
  | pollClose cx => exact (Exchange.prodPollClose_blind cx).map (Outcome.ofProd .ok)
  | pollRead cx =>
    intro ex
    rcases ex with ⟨_,_,st,slot⟩
    simp only [call,Act.bind_apply,Act.pure_apply,conPollRead_apply]
    cases slot <;> cases st <;> exact ⟨rfl,rfl⟩
  | dropRead => exact Exchange.dropRead_blind.map fun _ => Outcome.unit
  | reset => exact Exchange.reset_blind.map fun _ => Outcome.unit

def handshake : (delivery : Delivery (channel : Channel W (Option ITEM) ITEM _)).Handshake where
  isFlush := Op.isFlush
  nonempty p h := by cases p <;> simp_all [Payload.elems,Payload.vacant]
  kind op h := by cases op <;> simp [Op.isFlush] at h; rfl
  answers op ex h := by
    cases op <;> simp [Op.isFlush] at h
    simp only [channel,call,prodPollFlush,Act.bind_apply,Act.pure_apply,Exchange.prodPollFlush_ret]
    split <;> rfl
  frames op ex h := by
    cases op with
    | pollFlush cx =>
      obtain ⟨-,-,hst,hslot⟩ := Exchange.mk.inj (Exchange.prodPollFlush_bare cx ex)
      exact ⟨hslot,hst⟩
    | _ => simp [Op.isFlush] at h
  looks := call_looks
  blind op ex ex' hop hslot hst := (call_blind op hop).alike hslot hst

end IoExchange

namespace IoBytesExchange

variable {W : Type} [DecidableEq W]

def Op.isFlush : Op W → Bool
  | .pollFlush _ => true
  | _ => false

theorem call_looks (op : Op W) (ex : IoBytesExchange W) (hf : ex.Filled)
    (hk : op.kind = .read ∨ op.kind = .other) : (call op ex).self.state = .emptyFlushed ↔
      delivery.Looked (ex,op) ∨ (ex.state = .emptyFlushed ∧ ¬ delivery.Refilled (ex,op)) := by
  rcases ex with ⟨_,_,st,slot⟩
  cases op with
  | pollWrite cx data =>
    cases data <;> cases st <;> simp [Delivery.Looked,Delivery.Refilled,delivery,channel,Op.kind,
      call,prodPollWrite,Exchange.place_apply,Outcome.ofProd,Outcome.acceptedElems]
  | pollFlush cx =>
    cases st <;> simp [Delivery.Looked,Delivery.Refilled,delivery,channel,Op.kind,call,
      prodPollFlush,Exchange.prodPollFlush_apply,Outcome.ofProd,Outcome.acceptedElems]
  | pollClose cx => simp [Op.kind] at hk
  | pollRead cx maxLen =>
    have hslot : st.isFull = true ↔ slot ≠ [] := hf
    simp only [Delivery.Looked,Delivery.Refilled,delivery,channel,Op.kind,call,Act.bind_apply,
      Act.pure_apply,conPollRead_apply]
    cases st <;> simp_all [Exch.isFull,Outcome.ofRead,Outcome.acceptedElems,Payload.vacant]
    all_goals split_ifs <;> simp [Exch.consumed]
  | dropRead => simp [Op.kind] at hk
  | reset => simp [Op.kind] at hk

theorem call_blind (op : Op W) (hop : op.isFlush = false) :
    Exchange.Blind (call op : Act (IoBytesExchange W) W _) := by
  cases op with
  | pollWrite cx data =>
    cases data with
    | nil => exact Exchange.pure_blind _
    | cons b data => exact (Exchange.place_blind cx (b :: data) _).map fun r => Outcome.ofProd _ r.1
  | pollFlush cx => simp [Op.isFlush] at hop
  | pollClose cx => exact (Exchange.prodPollClose_blind cx).map (Outcome.ofProd .ok)
  | pollRead cx maxLen =>
    intro ex
    rcases ex with ⟨_,_,st,slot⟩
    simp only [call,Act.bind_apply,Act.pure_apply,conPollRead_apply]
    cases st with
    | full | fullFlush | fullClosed =>
      by_cases hslot : slot = []
      · simp [Exchange.bare,Exch.untagged,Exch.consumed,hslot]
      by_cases hzero : maxLen = 0
      · simp [Exchange.bare,Exch.untagged,hslot,hzero]
      by_cases hpart : maxLen < slot.length <;>
        simp [Exchange.bare,Exch.untagged,Exch.consumed,hslot,hzero,hpart]
    | _ => exact ⟨rfl,rfl⟩
  | dropRead => exact Exchange.dropRead_blind.map fun _ => Outcome.unit
  | reset => exact Exchange.reset_blind.map fun _ => Outcome.unit

def handshake : (delivery : Delivery (channel : Channel W Bytes UInt8 _)).Handshake where
  isFlush := Op.isFlush
  nonempty _ h := h
  kind op h := by cases op <;> simp [Op.isFlush] at h; rfl
  answers op ex h := by
    cases op <;> simp [Op.isFlush] at h
    simp only [channel,call,prodPollFlush,Act.bind_apply,Act.pure_apply,Exchange.prodPollFlush_ret]
    split <;> rfl
  frames op ex h := by
    cases op with
    | pollFlush cx =>
      obtain ⟨-,-,hst,hslot⟩ := Exchange.mk.inj (Exchange.prodPollFlush_bare cx ex)
      exact ⟨hslot,hst⟩
    | _ => simp [Op.isFlush] at h
  looks := call_looks
  blind op ex ex' hop hslot hst := (call_blind op hop).alike hslot hst

end IoBytesExchange

/-- Over every run of calls on either exchange, a flush is done exactly when the reader
has dropped, or everything accepted was consumed and the stream was closed or the reader
has looked at the empty slot since; it is pending otherwise and leaves the data alone. -/
theorem flush_acknowledges (W ITEM : Type) [DecidableEq W] :
    (∀ ops : List (IoExchange.Op W ITEM), IoExchange.handshake.Flushes ops) ∧
    ∀ ops : List (IoBytesExchange.Op W), IoBytesExchange.handshake.Flushes ops :=
  ⟨fun ops => IoExchange.handshake.flushes ops,fun ops => IoBytesExchange.handshake.flushes ops⟩

/-- A flush requested before the item is read is done after the read that finds the slot
empty, and not before. -/
example : (fun n => (IoExchange.call (.pollFlush 1) ((IoExchange.delivery.run
      ([.pollSend 1 (some 5),.pollFlush 1,.pollRead 2,.pollRead 2].take n)).obj)).ret) <$> [2,3,4] =
    ([.pending,.pending,.ok] : List (Outcome ℕ)) := by decide

end ProcMachines
