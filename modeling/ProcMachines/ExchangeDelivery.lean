import ProcMachines.ExchangeWakeup

/-! Exchanges deliver everything accepted, once, in order. A run carries the
history of its exchange since the last reset; one law relates it to the slot. -/
namespace ProcMachines

inductive OpKind
  | reset | dropRead | close | read | other
  deriving DecidableEq, Repr

/-- What has gone in and out since `new` or the last reset. -/
structure History (A : Type) where
  accepted : List A
  delivered : List A
  closed : Bool
  dropped : Bool
  deriving DecidableEq, Repr

namespace Outcome

variable {A : Type}

def acceptedElems : Outcome A → List A
  | .accepted xs => xs
  | _ => []

def deliveredElems : Outcome A → List A
  | .delivered xs => xs
  | _ => []

end Outcome

namespace History

variable {A : Type}

def empty : History A := ⟨[],[],false,false⟩

def record (h : History A) (kind : OpKind) (out : Outcome A) : History A :=
  match kind with
  | .reset => empty
  | _ => ⟨h.accepted ++ out.acceptedElems,h.delivered ++ out.deliveredElems,
      h.closed || kind == .close,h.dropped || kind == .dropRead⟩

theorem record_of_ne_reset (h : History A) {kind : OpKind} (hk : kind ≠ .reset) (out : Outcome A) :
    h.record kind out = ⟨h.accepted ++ out.acceptedElems,h.delivered ++ out.deliveredElems,
      h.closed || kind == .close,h.dropped || kind == .dropRead⟩ := by
  cases kind with
  | reset => exact absurd rfl hk
  | dropRead | close | read | other => rfl

end History

/-- The states after a close, and after the reader is gone or the stream has ended. -/
def closing : List Exch := [.fullClosed,.done,.dropped]
def terminal : List Exch := [.done,.dropped]

/-- What single calls of a channel do to the payload; a read takes at most the size asked for. -/
structure Delivery {W P A Op : Type} [DecidableEq W] [Payload P A] (C : Channel W P A Op) where
  kind : Op → OpKind
  size : Op → ℕ
  reset : ∀ op ex, kind op = .reset → (C.call op ex).self.state = .empty ∧
    (C.call op ex).self.slot = Payload.vacant
  drops : ∀ op ex, kind op = .dropRead → (C.call op ex).self.state ∈ terminal ∧
    (C.call op ex).ret = .unit
  conserves : ∀ op ex, ex.Filled → kind op ≠ .reset → kind op ≠ .dropRead →
    Payload.elems ex.slot ++ (C.call op ex).ret.acceptedElems =
      (C.call op ex).ret.deliveredElems ++ Payload.elems (C.call op ex).self.slot
  closes : ∀ op ex, kind op = .close → (C.call op ex).self.state ∈ closing
  shut : ∀ op ex, kind op ≠ .reset → ex.state ∈ closing →
    (C.call op ex).self.state ∈ closing ∧ (C.call op ex).ret.acceptedElems = []
  ended : ∀ op ex, kind op ≠ .reset → ex.state ∈ terminal →
    (C.call op ex).self.state ∈ terminal ∧ (C.call op ex).ret.deliveredElems = []
  opened : ∀ op ex, kind op ≠ .close → kind op ≠ .dropRead →
    (C.call op ex).self.state ∈ closing → ex.state ∈ closing
  live : ∀ op ex, kind op ≠ .dropRead → (C.call op ex).self.state = .dropped →
    ex.state = .dropped
  eof : ∀ op ex, ex.Filled → (C.call op ex).ret = .endOfStream → ex.state ∈ terminal
  reads : ∀ op ex, kind op = .read → ex.Filled → ex.state.isFull = true →
    (C.call op ex).ret = .delivered ((Payload.elems ex.slot).take (size op))

/-- An exchange with the history of its run. -/
structure Traced (W P A : Type) where
  obj : Exchange W P
  hist : History A

namespace Delivery

variable {W P A Op : Type} [DecidableEq W] [Payload P A] {C : Channel W P A Op}

def next (D : Delivery C) (t : Traced W P A) (op : Op) : Traced W P A :=
  let out := C.call op t.obj
  ⟨out.self,t.hist.record (D.kind op) out.ret⟩

def run (D : Delivery C) (ops : List Op) : Traced W P A :=
  ops.foldl D.next ⟨.new,.empty⟩

theorem run_append (D : Delivery C) (pre post : List Op) :
    D.run (pre ++ post) = post.foldl D.next (D.run pre) := by
  simp [run]

/-- The law of an exchange: nothing lost, nothing twice, nothing reordered, and the
lifecycle state tells whether the stream was closed or dropped. -/
structure Law (t : Traced W P A) : Prop where
  filled : t.obj.Filled
  conserved : t.hist.dropped = false →
    t.hist.accepted = t.hist.delivered ++ Payload.elems t.obj.slot
  closed : t.hist.closed = true → t.obj.state ∈ closing
  dropped : t.hist.dropped = true → t.obj.state ∈ terminal
  unclosed : t.hist.dropped = false → t.obj.state ∈ closing → t.hist.closed = true
  undropped : t.hist.dropped = false → t.obj.state ≠ .dropped

omit [DecidableEq W] in
theorem law_new : Law (⟨.new,.empty⟩ : Traced W P A) where
  filled := Exchange.new_filled
  conserved := by simp [History.empty,Exchange.new,Payload.elems_vacant]
  closed := by simp [History.empty]
  dropped := by simp [History.empty]
  unclosed := by simp [Exchange.new,closing]
  undropped := by simp [Exchange.new]

theorem law_next (D : Delivery C) {t : Traced W P A} (h : Law t) (op : Op) : Law (D.next t op) := by
  have hfill := C.filled op t.obj h.filled
  by_cases hreset : D.kind op = .reset
  · obtain ⟨hst,hslot⟩ := D.reset op t.obj hreset
    refine ⟨hfill,?_,?_,?_,?_,?_⟩ <;>
      simp [next,History.record,hreset,History.empty,hst,hslot,closing,Payload.elems_vacant]
  have hrec : (D.next t op).hist = ⟨t.hist.accepted ++ (C.call op t.obj).ret.acceptedElems,
      t.hist.delivered ++ (C.call op t.obj).ret.deliveredElems,
      t.hist.closed || D.kind op == .close,t.hist.dropped || D.kind op == .dropRead⟩ :=
    History.record_of_ne_reset _ hreset _
  refine ⟨hfill,?_,?_,?_,?_,?_⟩
  · intro hd
    simp only [hrec,Bool.or_eq_false_iff,beq_eq_false_iff_ne] at hd ⊢
    rw [h.conserved hd.1,List.append_assoc,D.conserves op t.obj h.filled hreset hd.2,
      ← List.append_assoc]
    rfl
  · intro hc
    simp only [hrec,Bool.or_eq_true,beq_iff_eq] at hc
    rcases hc with hc | hc
    · exact (D.shut op t.obj hreset (h.closed hc)).1
    · exact D.closes op t.obj hc
  · intro hd
    simp only [hrec,Bool.or_eq_true,beq_iff_eq] at hd
    rcases hd with hd | hd
    · exact (D.ended op t.obj hreset (h.dropped hd)).1
    · exact (D.drops op t.obj hd).1
  · intro hd hst
    simp only [hrec,Bool.or_eq_false_iff,beq_eq_false_iff_ne,Bool.or_eq_true,beq_iff_eq] at hd ⊢
    by_cases hk : D.kind op = .close
    · exact Or.inr hk
    · exact Or.inl (h.unclosed hd.1 (D.opened op t.obj hk hd.2 hst))
  · intro hd hst
    simp only [hrec,Bool.or_eq_false_iff,beq_eq_false_iff_ne] at hd
    exact h.undropped hd.1 (D.live op t.obj hd.2 hst)

theorem law_run (D : Delivery C) (ops : List Op) : Law (D.run ops) := by
  unfold run
  exact List.foldlRecOn ops D.next law_new fun t ht op _ => D.law_next ht op

theorem terminal_run (D : Delivery C) (post : List Op) (hpost : ∀ op ∈ post, D.kind op ≠ .reset)
    {t : Traced W P A} (ht : t.obj.state ∈ terminal) :
    (post.foldl D.next t).obj.state ∈ terminal ∧
      (post.foldl D.next t).hist.accepted = t.hist.accepted ∧
      (post.foldl D.next t).hist.delivered = t.hist.delivered := by
  induction post generalizing t with
  | nil => exact ⟨ht,rfl,rfl⟩
  | cons op post ih =>
    have hop : D.kind op ≠ .reset := hpost op (by simp)
    have hterm := D.ended op t.obj hop ht
    have hshut := D.shut op t.obj hop (by simp [terminal,closing] at ht ⊢; tauto)
    obtain ⟨hst,ha,hd⟩ := ih (fun o ho => hpost o (by simp [ho])) (t := D.next t op) hterm.1
    refine ⟨hst,ha.trans ?_,hd.trans ?_⟩
    · simp only [next,History.record_of_ne_reset _ hop,hshut.2,List.append_nil]
    · simp only [next,History.record_of_ne_reset _ hop,hterm.2,List.append_nil]

/-- What a run promises: until the reader drops, what was delivered followed by the
slot is what was accepted; the end of the stream is reported only after a close and
when everything was delivered; after a close nothing more is accepted; a drop discards
the slot and nothing moves afterwards; an occupied slot is read from its front. -/
structure Delivers (D : Delivery C) (ops : List Op) : Prop where
  conserved : (D.run ops).hist.dropped = false →
    (D.run ops).hist.delivered ++ Payload.elems (D.run ops).obj.slot = (D.run ops).hist.accepted
  ended : (D.run ops).hist.dropped = false →
    ∀ op, (C.call op (D.run ops).obj).ret = .endOfStream →
      (D.run ops).hist.closed = true ∧ (D.run ops).hist.delivered = (D.run ops).hist.accepted
  closed : (D.run ops).hist.closed = true →
    ∀ op, D.kind op ≠ .reset → (C.call op (D.run ops).obj).ret.acceptedElems = []
  dropped : ∀ op post, D.kind op = .dropRead → (∀ o ∈ post, D.kind o ≠ .reset) →
    (D.run (ops ++ op :: post)).obj.slot = Payload.vacant ∧
    (D.run (ops ++ op :: post)).hist.accepted = (D.run ops).hist.accepted ∧
    (D.run (ops ++ op :: post)).hist.delivered = (D.run ops).hist.delivered
  full_iff : (D.run ops).obj.state.isFull = true ↔ (D.run ops).obj.slot ≠ Payload.vacant
  reads : (D.run ops).obj.state.isFull = true →
    ∀ op, D.kind op = .read → (C.call op (D.run ops).obj).ret =
      .delivered ((Payload.elems (D.run ops).obj.slot).take (D.size op))

omit [DecidableEq W] in
theorem Law.vacant {t : Traced W P A} (h : Law t) (ht : t.obj.state ∈ terminal) :
    t.obj.slot = Payload.vacant := by
  by_contra hne
  have hfull := h.filled.mpr hne
  rcases (by simpa [terminal] using ht : t.obj.state = .done ∨ t.obj.state = .dropped) with hs | hs
  · simp [hs,Exch.isFull] at hfull
  · simp [hs,Exch.isFull] at hfull

omit [DecidableEq W] in
theorem Law.ended {t : Traced W P A} (h : Law t) (hd : t.hist.dropped = false)
    (ht : t.obj.state ∈ terminal) : t.hist.closed = true ∧ t.hist.delivered = t.hist.accepted := by
  refine ⟨h.unclosed hd ?_,?_⟩
  · simp only [terminal,closing,List.mem_cons,List.not_mem_nil,or_false] at ht ⊢
    exact Or.inr ht
  · rw [h.conserved hd,h.vacant ht,Payload.elems_vacant,List.append_nil]

theorem delivers (D : Delivery C) (ops : List Op) : D.Delivers ops where
  conserved hd := ((D.law_run ops).conserved hd).symm
  ended hd op he := (D.law_run ops).ended hd (D.eof op _ (D.law_run ops).filled he)
  closed hc op hk := (D.shut op _ hk ((D.law_run ops).closed hc)).2
  dropped op post hk hpost := by
    have hlaw := D.law_run (ops ++ op :: post)
    obtain ⟨hterm,hret⟩ := D.drops op (D.run ops).obj hk
    have hrun : D.run (ops ++ op :: post) = post.foldl D.next (D.next (D.run ops) op) := by
      simp [run_append]
    obtain ⟨hst,ha,hd⟩ := D.terminal_run post hpost (t := D.next (D.run ops) op) hterm
    rw [← hrun] at hst ha hd
    refine ⟨hlaw.vacant hst,ha.trans ?_,hd.trans ?_⟩
    · simp [next,History.record,hk,hret,Outcome.acceptedElems]
    · simp [next,History.record,hk,hret,Outcome.deliveredElems]
  full_iff := (D.law_run ops).filled
  reads hfull op hk := D.reads op _ hk (D.law_run ops).filled hfull

end Delivery

namespace IoExchange

variable {W ITEM : Type} [DecidableEq W]

def Op.kind : Op W ITEM → OpKind
  | .pollClose _ => .close
  | .pollRead _ => .read
  | .dropRead => .dropRead
  | .reset => .reset
  | _ => .other

theorem call_conserves (op : Op W ITEM) (ex : IoExchange W ITEM) (hf : ex.Filled)
    (hreset : op.kind ≠ .reset) (hdrop : op.kind ≠ .dropRead) :
    ex.slot.toList ++ (call op ex).ret.acceptedElems =
      (call op ex).ret.deliveredElems ++ (call op ex).self.slot.toList := by
  rcases ex with ⟨_,_,st,slot⟩
  cases op with
  | pollReady cx =>
    cases st <;> simp [call,prodPollReady_apply,Outcome.ofProd,Outcome.acceptedElems,
      Outcome.deliveredElems]
  | pollSend cx item =>
    cases item <;> cases st <;> simp_all [call,prodPollSend,Exchange.place_apply,Outcome.ofProd,
      Outcome.acceptedElems,Outcome.deliveredElems,Exchange.Filled,Exch.isFull,Payload.vacant]
  | pollFlush cx =>
    cases st <;> simp [call,prodPollFlush,Exchange.prodPollFlush_apply,Outcome.ofProd,
      Outcome.acceptedElems,Outcome.deliveredElems]
  | pollClose cx =>
    cases st <;> simp [call,prodPollClose,Exchange.prodPollClose_apply,Outcome.ofProd,
      Outcome.acceptedElems,Outcome.deliveredElems]
  | pollRead cx =>
    cases slot <;> cases st <;> simp_all [call,conPollRead_apply,Outcome.ofRead,
      Outcome.acceptedElems,Outcome.deliveredElems,Exchange.Filled,Exch.isFull,Payload.vacant,
      Payload.elems]
  | dropRead => exact absurd rfl hdrop
  | reset => exact absurd rfl hreset

theorem call_lifecycle (op : Op W ITEM) (ex : IoExchange W ITEM) :
    (op.kind = .close → (call op ex).self.state ∈ closing) ∧
    (op.kind ≠ .reset → ex.state ∈ closing →
      (call op ex).self.state ∈ closing ∧ (call op ex).ret.acceptedElems = []) ∧
    (op.kind ≠ .reset → ex.state ∈ terminal →
      (call op ex).self.state ∈ terminal ∧ (call op ex).ret.deliveredElems = []) ∧
    (op.kind ≠ .close → op.kind ≠ .dropRead → (call op ex).self.state ∈ closing →
      ex.state ∈ closing) ∧
    (op.kind ≠ .dropRead → (call op ex).self.state = .dropped → ex.state = .dropped) := by
  rcases ex with ⟨_,_,st,slot⟩
  cases op with
  | pollReady cx =>
    cases st <;> simp [call,prodPollReady_apply,Op.kind,closing,terminal,Outcome.ofProd,
      Outcome.acceptedElems,Outcome.deliveredElems]
  | pollSend cx item =>
    cases item <;> cases st <;> simp [call,prodPollSend,Exchange.place_apply,Op.kind,closing,
      terminal,Outcome.ofProd,Outcome.acceptedElems,Outcome.deliveredElems]
  | pollFlush cx =>
    cases st <;> simp [call,prodPollFlush,Exchange.prodPollFlush_apply,Op.kind,closing,terminal,
      Outcome.ofProd,Outcome.acceptedElems,Outcome.deliveredElems]
  | pollClose cx =>
    cases st <;> simp [call,prodPollClose,Exchange.prodPollClose_apply,Op.kind,closing,terminal,
      Outcome.ofProd,Outcome.acceptedElems,Outcome.deliveredElems]
  | pollRead cx =>
    cases slot <;> cases st <;> simp [call,conPollRead_apply,Op.kind,closing,terminal,
      Outcome.ofRead,Exch.consumed,Outcome.acceptedElems,Outcome.deliveredElems]
  | dropRead =>
    cases st <;> simp [call,dropRead,Exchange.dropRead_apply,Op.kind,closing,terminal,
      Outcome.acceptedElems,Outcome.deliveredElems]
  | reset => simp [call,reset,Exchange.reset_apply,Op.kind,closing]

theorem call_eof (op : Op W ITEM) (ex : IoExchange W ITEM) (hf : ex.Filled)
    (h : (call op ex).ret = .endOfStream) : ex.state ∈ terminal := by
  rcases ex with ⟨_,_,st,slot⟩
  cases op with
  | pollReady cx => cases st <;> simp [call,prodPollReady_apply,Outcome.ofProd] at h
  | pollSend cx item =>
    cases item <;> cases st <;> simp [call,prodPollSend,Exchange.place_apply,Outcome.ofProd] at h
  | pollFlush cx =>
    cases st <;> simp [call,prodPollFlush,Exchange.prodPollFlush_apply,Outcome.ofProd] at h
  | pollClose cx =>
    cases st <;> simp [call,prodPollClose,Exchange.prodPollClose_apply,Outcome.ofProd] at h
  | pollRead cx =>
    cases slot <;> cases st <;> simp_all [call,conPollRead_apply,Outcome.ofRead,terminal,
      Exchange.Filled,Exch.isFull,Payload.vacant]
  | dropRead => simp [call] at h
  | reset => simp [call] at h

theorem read_full (cx : W) (ex : IoExchange W ITEM) (hf : ex.Filled)
    (h : ex.state.isFull = true) :
    ∃ item, ex.slot = some item ∧ (call (.pollRead cx) ex).ret = .delivered [item] := by
  rcases ex with ⟨_,_,st,slot⟩
  cases slot <;> cases st <;> simp_all [call,conPollRead_apply,Outcome.ofRead,Exchange.Filled,
    Exch.isFull,Payload.vacant,Payload.elems]

theorem read_chunk (cx : W) (ex : IoExchange W ITEM) (xs : List ITEM)
    (h : (call (.pollRead cx) ex).ret = .delivered xs) : xs.length = 1 := by
  rcases ex with ⟨_,_,st,slot⟩
  cases slot <;> cases st <;>
    simp [call,conPollRead_apply,Outcome.ofRead,Payload.elems] at h <;> simp [← h]

def delivery : Delivery (channel : Channel W (Option ITEM) ITEM (Op W ITEM)) where
  kind := Op.kind
  size _ := 1
  reset op ex h := by
    cases op <;> simp_all [Op.kind,channel,call,reset,Exchange.reset_apply]
  drops op ex h := by
    rcases ex with ⟨_,_,st,_⟩
    cases op <;> simp [Op.kind] at h
    cases st <;> simp [channel,call,dropRead,Exchange.dropRead_apply,terminal]
  conserves := call_conserves
  closes op ex := (call_lifecycle op ex).1
  shut op ex := (call_lifecycle op ex).2.1
  ended op ex := (call_lifecycle op ex).2.2.1
  opened op ex := (call_lifecycle op ex).2.2.2.1
  live op ex := (call_lifecycle op ex).2.2.2.2
  eof := call_eof
  reads op ex hk hf h := by
    cases op <;> simp [Op.kind] at hk
    obtain ⟨item,hslot,hd⟩ := read_full _ ex hf h
    rw [hslot]
    exact hd

end IoExchange

namespace IoBytesExchange

variable {W : Type} [DecidableEq W]

def Op.kind : Op W → OpKind
  | .pollClose _ => .close
  | .pollRead _ _ => .read
  | .dropRead => .dropRead
  | .reset => .reset
  | _ => .other

def Op.size : Op W → ℕ
  | .pollRead _ maxLen => maxLen
  | _ => 0

theorem call_conserves (op : Op W) (ex : IoBytesExchange W) (hf : ex.Filled)
    (hreset : op.kind ≠ .reset) (hdrop : op.kind ≠ .dropRead) :
    ex.slot ++ (call op ex).ret.acceptedElems =
      (call op ex).ret.deliveredElems ++ (call op ex).self.slot := by
  rcases ex with ⟨_,_,st,slot⟩
  cases op with
  | pollWrite cx data =>
    cases data <;> cases st <;> simp_all [call,prodPollWrite,Exchange.place_apply,Outcome.ofProd,
      Outcome.acceptedElems,Outcome.deliveredElems,Exchange.Filled,Exch.isFull,Payload.vacant]
  | pollFlush cx =>
    cases st <;> simp [call,prodPollFlush,Exchange.prodPollFlush_apply,Outcome.ofProd,
      Outcome.acceptedElems,Outcome.deliveredElems]
  | pollClose cx =>
    cases st <;> simp [call,prodPollClose,Exchange.prodPollClose_apply,Outcome.ofProd,
      Outcome.acceptedElems,Outcome.deliveredElems]
  | pollRead cx maxLen =>
    simp only [call,Act.bind_apply,Act.pure_apply,conPollRead_apply]
    cases st <;> simp only
    all_goals try split_ifs
    all_goals simp_all [Outcome.ofRead,Outcome.acceptedElems,Outcome.deliveredElems,Payload.elems]
  | dropRead => exact absurd rfl hdrop
  | reset => exact absurd rfl hreset

theorem call_lifecycle (op : Op W) (ex : IoBytesExchange W) :
    (op.kind = .close → (call op ex).self.state ∈ closing) ∧
    (op.kind ≠ .reset → ex.state ∈ closing →
      (call op ex).self.state ∈ closing ∧ (call op ex).ret.acceptedElems = []) ∧
    (op.kind ≠ .reset → ex.state ∈ terminal →
      (call op ex).self.state ∈ terminal ∧ (call op ex).ret.deliveredElems = []) ∧
    (op.kind ≠ .close → op.kind ≠ .dropRead → (call op ex).self.state ∈ closing →
      ex.state ∈ closing) ∧
    (op.kind ≠ .dropRead → (call op ex).self.state = .dropped → ex.state = .dropped) := by
  rcases ex with ⟨_,_,st,slot⟩
  cases op with
  | pollWrite cx data =>
    cases data <;> cases st <;> simp [call,prodPollWrite,Exchange.place_apply,Op.kind,closing,
      terminal,Outcome.ofProd,Outcome.acceptedElems,Outcome.deliveredElems]
  | pollFlush cx =>
    cases st <;> simp [call,prodPollFlush,Exchange.prodPollFlush_apply,Op.kind,closing,terminal,
      Outcome.ofProd,Outcome.acceptedElems,Outcome.deliveredElems]
  | pollClose cx =>
    cases st <;> simp [call,prodPollClose,Exchange.prodPollClose_apply,Op.kind,closing,terminal,
      Outcome.ofProd,Outcome.acceptedElems,Outcome.deliveredElems]
  | pollRead cx maxLen =>
    simp only [call,Act.bind_apply,Act.pure_apply,conPollRead_apply]
    cases st <;> simp only
    all_goals try split_ifs
    all_goals simp [Op.kind,closing,terminal,Outcome.ofRead,Exch.consumed,Outcome.acceptedElems,
      Outcome.deliveredElems]
  | dropRead =>
    cases st <;> simp [call,dropRead,Exchange.dropRead_apply,Op.kind,closing,terminal,
      Outcome.acceptedElems,Outcome.deliveredElems]
  | reset => simp [call,reset,Exchange.reset_apply,Op.kind,closing]

theorem call_eof (op : Op W) (ex : IoBytesExchange W) (hf : ex.Filled)
    (h : (call op ex).ret = .endOfStream) : ex.state ∈ terminal := by
  rcases ex with ⟨_,_,st,slot⟩
  cases op with
  | pollWrite cx data =>
    cases data <;> cases st <;> simp [call,prodPollWrite,Exchange.place_apply,Outcome.ofProd] at h
  | pollFlush cx =>
    cases st <;> simp [call,prodPollFlush,Exchange.prodPollFlush_apply,Outcome.ofProd] at h
  | pollClose cx =>
    cases st <;> simp [call,prodPollClose,Exchange.prodPollClose_apply,Outcome.ofProd] at h
  | pollRead cx maxLen =>
    simp only [call,Act.bind_apply,Act.pure_apply,conPollRead_apply] at h
    cases st <;> simp only at h
    all_goals try split_ifs at h
    all_goals simp_all [Outcome.ofRead,terminal]
  | dropRead => simp [call] at h
  | reset => simp [call] at h

theorem read_full (cx : W) (maxLen : ℕ) (ex : IoBytesExchange W) (hf : ex.Filled)
    (h : ex.state.isFull = true) :
    ex.slot ≠ [] ∧ (call (.pollRead cx maxLen) ex).ret = .delivered (ex.slot.take maxLen) := by
  rcases ex with ⟨_,_,st,slot⟩
  have hslot : slot ≠ [] := hf.mp h
  refine ⟨hslot,?_⟩
  simp only [call,Act.bind_apply,Act.pure_apply,conPollRead_apply]
  cases st <;> simp only [Exch.isFull,Bool.false_eq_true] at h ⊢
  all_goals split_ifs <;> simp_all [Outcome.ofRead,Payload.elems]

theorem read_chunk (cx : W) (maxLen : ℕ) (ex : IoBytesExchange W) (xs : Bytes)
    (h : (call (.pollRead cx maxLen) ex).ret = .delivered xs) :
    (maxLen = 0 → xs.length = 0) ∧ (0 < maxLen → 1 ≤ xs.length ∧ xs.length ≤ maxLen) := by
  rcases ex with ⟨_,_,st,slot⟩
  simp only [call,Act.bind_apply,Act.pure_apply,conPollRead_apply] at h
  cases st <;> simp only at h
  all_goals try split_ifs at h with hslot hzero hpart
  all_goals simp only [Outcome.ofRead,Payload.elems,id,Outcome.delivered.injEq,reduceCtorEq] at h
  all_goals
    have hpos : 0 < slot.length := List.length_pos_of_ne_nil hslot
    subst h
    constructor <;> intro hz <;> grind

def delivery : Delivery (channel : Channel W Bytes UInt8 (Op W)) where
  kind := Op.kind
  size := Op.size
  reset op ex h := by
    cases op <;> simp_all [Op.kind,channel,call,reset,Exchange.reset_apply]
  drops op ex h := by
    rcases ex with ⟨_,_,st,_⟩
    cases op <;> simp [Op.kind] at h
    cases st <;> simp [channel,call,dropRead,Exchange.dropRead_apply,terminal]
  conserves := call_conserves
  closes op ex := (call_lifecycle op ex).1
  shut op ex := (call_lifecycle op ex).2.1
  ended op ex := (call_lifecycle op ex).2.2.1
  opened op ex := (call_lifecycle op ex).2.2.2.1
  live op ex := (call_lifecycle op ex).2.2.2.2
  eof := call_eof
  reads op ex hk hf h := by
    cases op <;> simp [Op.kind] at hk
    exact (read_full _ _ ex hf h).2

end IoBytesExchange

/-- Over every run of calls, both exchanges deliver what they accepted, once and in
order: byte chunks within the length asked for, items one at a time. -/
theorem exchange_delivers_accepted (W ITEM : Type) [DecidableEq W] :
    (∀ ops : List (IoBytesExchange.Op W),
      IoBytesExchange.delivery.Delivers ops ∧
      ∀ cx maxLen xs, (IoBytesExchange.call (.pollRead cx maxLen)
          (IoBytesExchange.delivery.run ops).obj).ret = .delivered xs →
        (maxLen = 0 → xs.length = 0) ∧ (0 < maxLen → 1 ≤ xs.length ∧ xs.length ≤ maxLen)) ∧
    (∀ ops : List (IoExchange.Op W ITEM),
      IoExchange.delivery.Delivers ops ∧
      ∀ cx xs, (IoExchange.call (.pollRead cx) (IoExchange.delivery.run ops).obj).ret =
        .delivered xs → xs.length = 1) := by
  constructor
  · intro ops
    exact ⟨Delivery.delivers _ ops,fun cx maxLen xs h => IoBytesExchange.read_chunk cx maxLen _ xs h⟩
  · intro ops
    exact ⟨Delivery.delivers _ ops,fun cx xs h => IoExchange.read_chunk cx _ xs h⟩

/-- The law at two accepted bytes, of which a read of at most one takes the first. -/
theorem exchange_delivers_accepted_two_bytes :
    (IoBytesExchange.delivery : Delivery (IoBytesExchange.channel : Channel ℕ _ _ _)).Delivers [.pollWrite 0 [104,105]] ∧
      1 ≤ ([104] : Bytes).length ∧ ([104] : Bytes).length ≤ 1 := by
  have h := (exchange_delivers_accepted ℕ ℕ).1 [.pollWrite 0 [104,105]]
  exact ⟨h.1,(h.2 1 1 [104] (by decide)).2 (by decide)⟩

end ProcMachines
