import ProcMachines.ExchangeDelivery
import ProcMachines.IoPortConnected

/-! An exchange behind a port delivers what was accepted through the port, whether the calls come
before the connection or after it. -/
namespace ProcMachines

open IoPort (through forward conPollConnected prodPollConnected)

/-- A channel through a port: before the connection a call waits, or is answered for a port that
was pre-dropped, and afterwards it is the exchange's. -/
structure Ported {W P A Op : Type} [DecidableEq W] [Payload P A] {C : Channel W P A Op}
    (D : Delivery C) where
  call : Op → Act (IoPort W (Exchange W P)) W (Outcome A)
  resets : ∀ op self, D.kind op = .reset → (call op self).ret = .unit ∧
    ∃ con prod, (call op self).self = ⟨.disconnected con prod,false⟩
  waits : ∀ op con prod, D.kind op ≠ .reset → D.kind op ≠ .dropRead →
    (call op ⟨.disconnected con prod,false⟩).ret = .pending ∧ ∃ con' prod',
      (call op ⟨.disconnected con prod,false⟩).self = ⟨.disconnected con' prod',false⟩
  drops : ∀ op con prod b, D.kind op = .dropRead →
    call op ⟨.disconnected con prod,b⟩ = ⟨⟨.disconnected con prod,true⟩,[],.unit⟩
  ended : ∀ op con prod, D.kind op ≠ .reset →
    (call op ⟨.disconnected con prod,true⟩).self = ⟨.disconnected con prod,true⟩ ∧
      (call op ⟨.disconnected con prod,true⟩).ret.deliveredElems = []
  forwards : ∀ op ex b, D.kind op ≠ .reset → call op ⟨.connected ex,b⟩ =
    ⟨⟨.connected (C.call op ex).self,b⟩,(C.call op ex).woken,(C.call op ex).ret⟩

/-- What happens to a port. The exchange it is connected to may have been used before, and others
that refer to it may use it directly. -/
inductive PortMove (W P Op : Type) {A : Type} [Payload P A]
  | connect (value : {ex : Exchange W P // ex.Filled})
  | tryPredrop
  | call (op : Op)
  | direct (op : Op)

/-- A port with the history of what went through it. -/
structure TracedPort (W P A : Type) where
  port : IoPort W (Exchange W P)
  hist : History A

/-- What an exchange holds counts as accepted when it is connected. -/
def History.ofExchange {W P A : Type} [Payload P A] (ex : Exchange W P) : History A :=
  ⟨Payload.elems ex.slot,[],decide (ex.state ∈ closing),decide (ex.state = .dropped)⟩

namespace Ported

variable {W P A Op : Type} [DecidableEq W] [Payload P A] {C : Channel W P A Op} {D : Delivery C}

/-- A call that waits for the connection has not begun. -/
def next (R : Ported D) (t : TracedPort W P A) : PortMove W P Op → TracedPort W P A
  | .connect value =>
    let out := IoPort.connect (fun _ => []) value.1 t.port
    ⟨out.self,if out.ret.isOk then .ofExchange value.1 else t.hist⟩
  | .tryPredrop =>
    let out := IoPort.tryPredrop t.port
    ⟨out.self,{ t.hist with dropped := t.hist.dropped || out.ret }⟩
  | .call op =>
    let out := R.call op t.port
    ⟨out.self,if t.port.isDisconnected && out.ret.isPending then t.hist
      else t.hist.record (D.kind op) out.ret⟩
  | .direct op =>
    match t.port.state with
    | .disconnected _ _ => t
    | .connected ex =>
      let out := D.next ⟨ex,t.hist⟩ op
      ⟨{ t.port with state := .connected out.obj },out.hist⟩

def run (R : Ported D) (moves : List (PortMove W P Op)) : TracedPort W P A :=
  moves.foldl R.next ⟨.new,.empty⟩

def held (port : IoPort W (Exchange W P)) : List A :=
  match port.state with
  | .disconnected _ _ => []
  | .connected ex => Payload.elems ex.slot

/-- Nothing has gone through a port that waits for its connection, nothing is delivered through
one that was pre-dropped, and a connected one keeps the law of its exchange. -/
inductive Kept : TracedPort W P A → Prop
  | waiting (con prod : WakerRef W) : Kept ⟨⟨.disconnected con prod,false⟩,.empty⟩
  | predropped (con prod : WakerRef W) (hist : History A) (hdropped : hist.dropped = true)
      (hnone : hist.delivered = []) : Kept ⟨⟨.disconnected con prod,true⟩,hist⟩
  | connected (ex : Exchange W P) (b : Bool) (hist : History A) (hlaw : Delivery.Law ⟨ex,hist⟩)
      (hordered : hist.delivered <+: hist.accepted) : Kept ⟨⟨.connected ex,b⟩,hist⟩

omit [DecidableEq W] in
theorem law_ofExchange (value : {ex : Exchange W P // ex.Filled}) :
    Delivery.Law ⟨value.1,.ofExchange value.1⟩ where
  filled := value.2
  conserved _ := rfl
  closed h := of_decide_eq_true h
  dropped h := by
    have hdropped : value.1.state = .dropped := of_decide_eq_true h
    simp [hdropped,terminal]
  unclosed _ h := decide_eq_true h
  undropped h := of_decide_eq_false h

/-- What was delivered was accepted before, in the same order, also after a drop. -/
theorem ordered_next {t : Traced W P A} (h : Delivery.Law t)
    (hordered : t.hist.delivered <+: t.hist.accepted) (op : Op) :
    (D.next t op).hist.delivered <+: (D.next t op).hist.accepted := by
  by_cases hd : (D.next t op).hist.dropped = false
  · rw [(D.law_next h op).conserved hd]
    exact List.prefix_append _ _
  · cases hk : D.kind op with
    | reset => simp [Delivery.next,History.record,hk,History.empty] at hd
    | dropRead =>
      have hret := (D.drops op t.obj hk).2
      simpa [Delivery.next,History.record,hk,hret,Outcome.acceptedElems,Outcome.deliveredElems]
        using hordered
    | close | read | other =>
      have hdropped : t.hist.dropped = true := by
        simpa [Delivery.next,History.record,hk] using hd
      have hnone := (D.ended op t.obj (by simp [hk]) (h.dropped hdropped)).2
      simp only [Delivery.next,History.record,hk,hnone,List.append_nil]
      exact hordered.trans (List.prefix_append _ _)

variable {R : Ported D} {t : TracedPort W P A} {op : Op}

theorem kept_predropped (hop : D.kind op ≠ .reset) (con prod : WakerRef W) {hist : History A}
    (hdropped : hist.dropped = true) (hnone : hist.delivered = []) :
    Kept (R.next ⟨⟨.disconnected con prod,true⟩,hist⟩ (.call op)) := by
  obtain ⟨hself,hret⟩ := R.ended op con prod hop
  simp only [next,hself]
  split
  · exact .predropped con prod hist hdropped hnone
  · rw [History.record_of_ne_reset _ hop]
    exact .predropped con prod _ (by simp [hdropped]) (by simp [hnone,hret])

theorem Kept.call (h : Kept t) (op : Op) : Kept (R.next t (.call op)) := by
  by_cases hreset : D.kind op = .reset
  · obtain ⟨hret,con,prod,hself⟩ := R.resets op t.port hreset
    simp only [next,hself,hret,hreset,Outcome.isPending,Bool.and_false,Bool.false_eq_true,if_false,
      History.record]
    exact .waiting con prod
  cases h with
  | waiting con prod =>
    by_cases hdrop : D.kind op = .dropRead
    · simp only [next,R.drops op con prod false hdrop,hdrop]
      exact .predropped con prod _ rfl rfl
    · obtain ⟨hret,con',prod',hself⟩ := R.waits op con prod hreset hdrop
      simp only [next,hself,hret,IoPort.isDisconnected,Outcome.isPending,Bool.and_self,if_true]
      exact .waiting con' prod'
  | predropped con prod hist hdropped hnone => exact kept_predropped hreset con prod hdropped hnone
  | connected ex b hist hlaw hordered =>
    have hnext : R.next ⟨⟨.connected ex,b⟩,hist⟩ (.call op) =
        ⟨⟨.connected (D.next ⟨ex,hist⟩ op).obj,b⟩,(D.next ⟨ex,hist⟩ op).hist⟩ := by
      simp only [next,R.forwards op ex b hreset,IoPort.isDisconnected,Bool.false_and,Bool.false_eq_true,
        if_false,Delivery.next]
    rw [hnext]
    exact .connected _ b _ (D.law_next hlaw op) (ordered_next hlaw hordered op)

theorem Kept.next (h : Kept t) (m : PortMove W P Op) : Kept (R.next t m) := by
  cases m with
  | call op => exact h.call op
  | connect value =>
    cases h with
    | waiting con prod => exact .connected value.1 false _ (law_ofExchange value) List.nil_prefix
    | predropped con prod hist hdropped hnone => exact .predropped con prod hist hdropped hnone
    | connected ex b hist hlaw hordered => exact .connected ex b hist hlaw hordered
  | tryPredrop =>
    cases h with
    | waiting con prod => exact .predropped con prod _ rfl rfl
    | predropped con prod hist hdropped hnone => exact .predropped con prod _ (Bool.or_true _) hnone
    | connected ex b hist hlaw hordered =>
      simp only [Ported.next,IoPort.tryPredrop,Bool.or_false]
      exact .connected ex b hist hlaw hordered
  | direct op =>
    cases h with
    | waiting con prod => exact .waiting con prod
    | predropped con prod hist hdropped hnone => exact .predropped con prod hist hdropped hnone
    | connected ex b hist hlaw hordered =>
      exact .connected _ b _ (D.law_next hlaw op) (ordered_next hlaw hordered op)

theorem kept_run (R : Ported D) (moves : List (PortMove W P Op)) : Kept (R.run moves) := by
  unfold run
  exact List.foldlRecOn moves R.next (.waiting .new .new) fun t ht m _ => ht.next m

/-- What a port promises. What was delivered was accepted before, in the same order, and what is
held is delivered next, from its front and as much as is asked for. Until the reader drops or the
port is pre-dropped, what was delivered and what is held is what was accepted, the stream ends only
after a close and with everything delivered, nothing is accepted after a close, and nothing before
the connection. Afterwards nothing is delivered. -/
structure Delivers (R : Ported D) (t : TracedPort W P A) : Prop where
  ordered : t.hist.delivered <+: t.hist.accepted
  conserved : t.hist.dropped = false → t.hist.delivered ++ held t.port = t.hist.accepted
  ended : t.hist.dropped = false → ∀ op, (R.call op t.port).ret = .endOfStream →
    t.hist.closed = true ∧ t.hist.delivered = t.hist.accepted
  closed : t.hist.dropped = false → t.hist.closed = true →
    ∀ op, D.kind op ≠ .reset → (R.call op t.port).ret.acceptedElems = []
  dropped : t.hist.dropped = true →
    ∀ op, D.kind op ≠ .reset → (R.call op t.port).ret.deliveredElems = []
  reads : held t.port ≠ [] → ∀ op, D.kind op = .read →
    (R.call op t.port).ret = .delivered ((held t.port).take (D.size op))
  waits : t.port.isDisconnected = true → t.hist.dropped = false →
    ∀ op, (R.call op t.port).ret = .pending ∨ (R.call op t.port).ret = .unit

theorem waiting_ret (R : Ported D) (op : Op) (con prod : WakerRef W) :
    (R.call op ⟨.disconnected con prod,false⟩).ret = .pending ∨
      (R.call op ⟨.disconnected con prod,false⟩).ret = .unit := by
  by_cases hreset : D.kind op = .reset
  · exact Or.inr (R.resets op _ hreset).1
  by_cases hdrop : D.kind op = .dropRead
  · rw [R.drops op con prod false hdrop]
    exact Or.inr rfl
  · exact Or.inl (R.waits op con prod hreset hdrop).1

/-- A connected port promises what its exchange does. -/
theorem delivers_connected (R : Ported D) {ex : Exchange W P} {hist : History A}
    (hlaw : Delivery.Law ⟨ex,hist⟩) (hordered : hist.delivered <+: hist.accepted) (b : Bool) :
    Delivers R ⟨⟨.connected ex,b⟩,hist⟩ := by
  constructor
  · exact hordered
  · exact fun hd => (hlaw.conserved hd).symm
  · intro hd op hret
    by_cases hreset : D.kind op = .reset
    · rw [(R.resets op _ hreset).1] at hret
      cases hret
    · rw [R.forwards op ex b hreset] at hret
      exact hlaw.ended hd (D.eof op ex hlaw.filled hret)
  · intro _ hc op hreset
    rw [R.forwards op ex b hreset]
    exact (D.shut op ex hreset (hlaw.closed hc)).2
  · intro hd op hreset
    rw [R.forwards op ex b hreset]
    exact (D.ended op ex hreset (hlaw.dropped hd)).2
  · intro hheld op hread
    have hfull : ex.state.isFull = true := by
      apply hlaw.filled.mpr
      intro hslot
      have hslot : ex.slot = Payload.vacant := hslot
      exact hheld (by simp only [held,hslot,Payload.elems_vacant])
    rw [R.forwards op ex b (by simp [hread])]
    exact D.reads op ex hread hlaw.filled hfull
  · intro hdisc
    cases hdisc

theorem Kept.delivers (h : Kept t) : Delivers R t := by
  cases h with
  | waiting con prod =>
    refine ⟨List.nil_prefix,fun _ => rfl,?_,?_,?_,fun hheld => absurd rfl hheld,
      fun _ _ op => waiting_ret R op con prod⟩
    · intro _ op hret
      rcases waiting_ret R op con prod with hpending | hunit
      · rw [hpending] at hret
        cases hret
      · rw [hunit] at hret
        cases hret
    · intro _ hclosed
      cases hclosed
    · intro hdropped
      cases hdropped
  | predropped con prod hist hdropped hnone =>
    have hlive : hist.dropped ≠ false := by simp [hdropped]
    have hordered : hist.delivered <+: hist.accepted := by
      rw [hnone]
      exact List.nil_prefix
    exact ⟨hordered,fun hd => absurd hd hlive,fun hd => absurd hd hlive,fun hd => absurd hd hlive,
      fun _ op hop => (R.ended op con prod hop).2,fun hheld => absurd rfl hheld,
      fun _ hd => absurd hd hlive⟩
  | connected ex b hist hlaw hordered => exact delivers_connected R hlaw hordered b

end Ported

namespace IoExchange

variable {W ITEM : Type} [DecidableEq W]

def portCall (noop : W) : Op W ITEM → Act (IoPort W (IoExchange W ITEM)) W (Outcome ITEM)
  | .pollReady cx => do return .ofProd .ok (← (IoPort.ioSink ioSink).prodPollReady cx)
  | .pollSend cx item => do
    return .ofProd (.accepted item.toList) (← (IoPort.ioSink ioSink).prodPollSend cx item).1
  | .pollFlush cx => do return .ofProd .ok (← (IoPort.ioSink ioSink).prodPollFlush cx)
  | .pollClose cx => do return .ofProd .ok (← (IoPort.ioSink ioSink).prodPollClose cx)
  | .pollRead cx => do return .ofRead some (← (IoPort.ioStream noop ioStream).conPollRead cx)
  | .dropRead => do (IoPort.ioStream noop ioStream).dropRead; return .unit
  | .reset => do IoPort.reset (fun _ => []); return .unit

def ported (noop : W) : Ported (delivery : Delivery (channel : Channel W _ ITEM (Op W ITEM))) where
  call := portCall noop
  resets op self h := by
    cases op <;> simp [delivery,Op.kind] at h
    rcases self with ⟨_ | _,_⟩ <;> simp [portCall,IoPort.reset]
  waits op con prod h hd := by
    cases op <;> simp [delivery,Op.kind] at h hd <;>
      simp [portCall,IoPort.ioSink,IoPort.ioStream,through,conPollConnected,prodPollConnected,
        Outcome.ofProd,Outcome.ofRead]
  drops op con prod b h := by
    cases op <;> simp [delivery,Op.kind] at h
    simp [portCall,IoPort.ioStream,IoPort.dropRead,IoPort.tryPredrop]
  ended op con prod h := by
    cases op <;> simp [delivery,Op.kind] at h <;>
      simp [portCall,IoPort.ioSink,IoPort.ioStream,IoPort.dropRead,IoPort.tryPredrop,through,
        conPollConnected,prodPollConnected,Outcome.ofProd,Outcome.ofRead,Outcome.deliveredElems]
  forwards op ex b h := by
    cases op <;> simp [delivery,Op.kind] at h <;>
      simp [portCall,channel,call,IoPort.ioSink,IoPort.ioStream,ioSink,ioStream,IoPort.dropRead,
        IoPort.tryPredrop,through,forward,conPollConnected,prodPollConnected]

end IoExchange

namespace IoBytesExchange

variable {W : Type} [DecidableEq W]

def portCall (noop : W) : Op W → Act (IoPort W (IoBytesExchange W)) W (Outcome UInt8)
  | .pollWrite cx data => do
    return .ofProd (.accepted data) (← (IoPort.ioWriter ioWriter).prodPollWrite cx data).1
  | .pollFlush cx => do return .ofProd .ok (← (IoPort.ioWriter ioWriter).prodPollFlush cx)
  | .pollClose cx => do return .ofProd .ok (← (IoPort.ioWriter ioWriter).prodPollClose cx)
  | .pollRead cx maxLen => do
    return .ofRead (fun data : Bytes => data) (← (IoPort.ioReader noop ioReader).conPollRead cx maxLen)
  | .dropRead => do (IoPort.ioReader noop ioReader).dropRead; return .unit
  | .reset => do IoPort.reset (fun _ => []); return .unit

def ported (noop : W) : Ported (delivery : Delivery (channel : Channel W _ _ (Op W))) where
  call := portCall noop
  resets op self h := by
    cases op <;> simp [delivery,Op.kind] at h
    rcases self with ⟨_ | _,_⟩ <;> simp [portCall,IoPort.reset]
  waits op con prod h hd := by
    cases op <;> simp [delivery,Op.kind] at h hd <;>
      simp [portCall,IoPort.ioWriter,IoPort.ioReader,through,conPollConnected,prodPollConnected,
        Outcome.ofProd,Outcome.ofRead]
  drops op con prod b h := by
    cases op <;> simp [delivery,Op.kind] at h
    simp [portCall,IoPort.ioReader,IoPort.dropRead,IoPort.tryPredrop]
  ended op con prod h := by
    cases op <;> simp [delivery,Op.kind] at h <;>
      simp [portCall,IoPort.ioWriter,IoPort.ioReader,IoPort.dropRead,IoPort.tryPredrop,through,
        conPollConnected,prodPollConnected,Outcome.ofProd,Outcome.ofRead,Outcome.deliveredElems]
  forwards op ex b h := by
    cases op <;> simp [delivery,Op.kind] at h <;>
      simp [portCall,channel,call,IoPort.ioWriter,IoPort.ioReader,ioWriter,ioReader,IoPort.dropRead,
        IoPort.tryPredrop,through,forward,conPollConnected,prodPollConnected]

end IoBytesExchange

/-- In every run of a port and the exchanges it is connected to, wherever the port is connected,
pre-dropped or reset, nothing is delivered twice or out of order, and until the reader is gone
nothing is lost that was accepted. -/
theorem port_delivers_accepted (W ITEM : Type) [DecidableEq W] (noop : W) :
    (∀ moves : List (PortMove W (Option ITEM) (IoExchange.Op W ITEM)),
      Ported.Delivers (IoExchange.ported noop) ((IoExchange.ported noop).run moves)) ∧
    ∀ moves : List (PortMove W Bytes (IoBytesExchange.Op W)),
      Ported.Delivers (IoBytesExchange.ported noop) ((IoBytesExchange.ported noop).run moves) :=
  ⟨fun moves => (Ported.kept_run _ moves).delivers,fun moves => (Ported.kept_run _ moves).delivers⟩

/-- The first send finds no connection; a drop through the connected port is the exchange's. -/
example : ((IoExchange.ported 0).run [.call (.pollSend 9 (some 5)),.connect ⟨.new,Exchange.new_filled⟩,
    .call (.pollSend 9 (some 6)),.tryPredrop,.call (.pollRead 7),.call (.pollClose 9),
    .call .dropRead] : TracedPort ℕ (Option ℕ) ℕ).hist = ⟨[6],[6],true,true⟩ := rfl

end ProcMachines
