import ProcMachines.ExchangeWakeup
import ProcMachines.IoPort

/-! A port and the value it is connected to, as one object: whoever waits, first for the
connection and then on the value, waits until woken, if the value itself keeps that rule. -/
namespace ProcMachines
namespace IoPort

open Wakeup

variable {W T ITEM ERR : Type} [DecidableEq W]

def inner (E : Endpoint T W ITEM ERR) : Op W T ITEM → Act T W Bool
  | .dropStream => do E.stream.dropRead; return false
  | .dropReader => do E.reader.dropRead; return false
  | .conPollItem cx => do return (← E.stream.conPollRead cx).isPending
  | .conPollBytes cx maxLen => do return (← E.reader.conPollRead cx maxLen).isPending
  | .prodPollReady cx => do return (← E.sink.prodPollReady cx).isPending
  | .prodPollSend cx item => do return (← E.sink.prodPollSend cx item).1.isPending
  | .prodPollFlushItems cx => do return (← E.sink.prodPollFlush cx).isPending
  | .prodPollCloseItems cx => do return (← E.sink.prodPollClose cx).isPending
  | .prodPollWrite cx bytes => do return (← E.writer.prodPollWrite cx bytes).1.isPending
  | .prodPollFlushBytes cx => do return (← E.writer.prodPollFlush cx).isPending
  | .prodPollCloseBytes cx => do return (← E.writer.prodPollClose cx).isPending
  | .connect _ | .reset | .tryPredrop | .conPollConnected _ | .prodPollConnected _ => return false

/-- Who makes a call; it is the consumer that drops the reading end. -/
def Op.actor : Op W T ITEM → Option Role
  | .dropStream | .dropReader => some .consumer
  | op => op.poller.map Prod.fst

omit [DecidableEq W] in
theorem Op.actor_of_poller {op : Op W T ITEM} {r : Role} {cx : W} (h : op.poller = some (r,cx)) :
    op.actor = some r := by
  cases op <;> simp_all [Op.actor,Op.poller]

/-- The calls on the value, and those on the port over it. -/
def valuePolled (E : Endpoint T W ITEM ERR) : Polled T W (Op W T ITEM) Role where
  exec := inner E
  role := Op.actor
  waker op := op.poller.map Prod.snd

def portPolled (E : Endpoint T W ITEM ERR) : Polled (IoPort W T) W (Op W T ITEM) Role where
  exec := call E
  role := Op.actor
  waker op := op.poller.map Prod.snd

theorem call_connected (E : Endpoint T W ITEM ERR) (op : Op W T ITEM) :
    (∃ value, op = .connect value) ∨ op = .reset ∨ ∀ v b, call E op ⟨.connected v,b⟩ =
      ⟨⟨.connected (inner E op v).self,b⟩,(inner E op v).woken,(inner E op v).ret⟩ := by
  cases op with
  | connect value => exact Or.inl ⟨value,rfl⟩
  | reset => exact Or.inr (Or.inl rfl)
  | _ =>
    refine Or.inr (Or.inr fun v b => ?_)
    simp [call,inner,tryPredrop,dropRead,ioStream,ioReader,ioSink,ioWriter,through,forward,
      conPollConnected,prodPollConnected]

/-- Two calls go behind the back of a waiting poll that another side has made: a pre-drop before
the port is connected, and a reset of a connected port. -/
def Disturbs (op o : Op W T ITEM) (self : IoPort W T) : Prop :=
  op.actor ≠ o.actor ∧ ((op.preDrops = true ∧ self.isDisconnected = true) ∨
    (op = .reset ∧ self.isDisconnected = false))

theorem call_disconnected_state (E : Endpoint T W ITEM ERR) (op : Op W T ITEM)
    (conWaker prodWaker : WakerRef W) (b : Bool) {v : T}
    (h : (call E op ⟨.disconnected conWaker prodWaker,b⟩).self.state = .connected v) :
    op = .connect v := by
  cases op with
  | connect value =>
    cases b <;> simp_all [call,connect]
  | _ =>
    cases b <;> simp_all [call,reset,tryPredrop,dropRead,ioStream,ioReader,ioSink,ioWriter,through,
      conPollConnected,prodPollConnected]

section Discipline

variable {E : Endpoint T W ITEM ERR} {p : Op W T ITEM → Prop}

/-- The port holds the waker of a waiting poll, or its value does. -/
def Holds (K : Discipline ((valuePolled E).restrict p)) (op : {op : Op W T ITEM // p op})
    (self : IoPort W T) : Prop :=
  Armed op.1 self ∨ ∃ v b, self = ⟨.connected v,b⟩ ∧ K.armed op v

variable {K : Discipline ((valuePolled E).restrict p)}

theorem holds_of_pending (op : {op : Op W T ITEM // p op}) (self : IoPort W T)
    (hinv : ∀ v, self.state = .connected v → K.inv v) (h : (call E op.1 self).ret = true) :
    Holds K op (call E op.1 self).self := by
  rcases self with ⟨⟨conWaker,prodWaker⟩ | v,b⟩
  · have harm := arms E op.1 ⟨.disconnected conWaker prodWaker,b⟩
      (by simpa [polled,isDisconnected] using h)
    exact Or.inl (by simpa [polled] using harm)
  · rcases call_connected E op.1 with ⟨value,heq⟩ | heq | heq
    · simp [heq,call,connect] at h
    · simp [heq,call] at h
    · rw [heq] at h ⊢
      exact Or.inr ⟨_,b,rfl,K.arms op v (hinv v rfl) h⟩

theorem pending_of_holds (op : {op : Op W T ITEM // p op}) (self : IoPort W T)
    (hinv : ∀ v, self.state = .connected v → K.inv v) (h : Holds K op self) :
    (call E op.1 self).ret = true := by
  rcases h with harm | ⟨v,b,rfl,harm⟩
  · exact (Bool.and_eq_true_iff.mp (waits E op.1 self harm)).2
  · have hpending : (inner E op.1 v).ret = true := K.waits op v (hinv v rfl) harm
    rcases call_connected E op.1 with ⟨value,heq⟩ | heq | heq
    · simp [heq,inner] at hpending
    · simp [heq,inner] at hpending
    · rw [heq]
      exact hpending

/-- A call by somebody else keeps a waiting poll waiting or fires its waker, unless it disturbs
the wait. -/
theorem holds_or_fired (hallowed : ∀ op c, K.allowed op c) (o op : {op : Op W T ITEM // p op})
    (self : IoPort W T) (hinv : ∀ v, self.state = .connected v → K.inv v) (h : Holds K o self) (r : Role)
    (hne : op.1.actor ≠ o.1.actor) (hcalm : ¬ Disturbs op.1 o.1 self) :
    ((portPolled E).restrict p).Fired o (call E op.1 self).woken ∨ Holds K o (call E op.1 self).self := by
  rcases h with harm | ⟨v,b,rfl,harm⟩
  · have hdrops : op.1.preDrops = false := by
      obtain ⟨conWaker,prodWaker,r',cx,-,rfl,-⟩ := harm
      cases hd : op.1.preDrops with
      | false => rfl
      | true => exact absurd ⟨hne,Or.inl ⟨hd,rfl⟩⟩ hcalm
    have hrole : (polled E).role op.1 ≠ (polled E).role o.1 := by
      obtain ⟨conWaker,prodWaker,r',cx,hp,-,-⟩ := harm
      have hr' := Op.actor_of_poller hp
      intro heq
      cases hq : op.1.poller with
      | none => simp [polled,hp,hq] at heq
      | some rc =>
        obtain ⟨r'',cx''⟩ := rc
        have hsame : r'' = r' := by simpa [polled,hp,hq] using heq
        rw [Op.actor_of_poller hq,hr',hsame] at hne
        exact hne rfl
    rcases keeps E o.1 op.1 self harm hdrops hrole with hfired | hkept
    · exact Or.inl (by simpa [polled,portPolled,Polled.Fired,Polled.restrict] using hfired)
    · exact Or.inr (Or.inl (by simpa [polled] using hkept))
  · rcases call_connected E op.1 with ⟨value,heq⟩ | heq | heq
    · rw [heq]
      exact Or.inr (Or.inr ⟨v,b,rfl,harm⟩)
    · exact absurd ⟨hne,Or.inr ⟨heq,rfl⟩⟩ hcalm
    · rw [heq]
      rcases K.keeps o op ⟨v,fun _ => some o⟩ (hinv v rfl) harm (hallowed _ _) ⟨r,rfl⟩ hne with
        ⟨w,hw,hfired⟩ | hkept
      · exact Or.inl ⟨w,hw,hfired⟩
      · exact Or.inr (Or.inr ⟨_,b,rfl,hkept⟩)

/-- The rule of the value carries over to the port. -/
def connectedDiscipline (hallowed : ∀ op c, K.allowed op c) (hconnect : ∀ v, p (.connect v) → K.inv v) :
    Discipline ((portPolled E).restrict p) where
  inv self := ∀ v, self.state = .connected v → K.inv v
  armed := Holds K
  allowed op c := ∀ r o, c.waiting r = some o → ¬ Disturbs op.1 o.1 c.obj
  inv_step op self h v hv := by
    rcases self with ⟨⟨conWaker,prodWaker⟩ | v₀,b⟩
    · have hop := call_disconnected_state E op.1 conWaker prodWaker b hv
      exact hconnect v (hop ▸ op.2)
    · change (call E op.1 ⟨.connected v₀,b⟩).self.state = _ at hv
      rcases call_connected E op.1 with ⟨value,heq⟩ | heq | heq
      · rw [heq] at hv
        cases hv
        exact h _ rfl
      · rw [heq] at hv
        cases hv
      · rw [heq] at hv
        cases hv
        exact K.inv_step op v₀ (h v₀ rfl)
  arms op self h hret := holds_of_pending op self h hret
  keeps o op c h ho hallow hwait hr := by
    obtain ⟨r,hw⟩ := hwait
    exact holds_or_fired hallowed o op c.obj h ho r hr (hallow r o hw)
  waits op self h ho := pending_of_holds op self h ho

end Discipline

section Exchange

/-- An exchange of items behind a port; such a port has no byte calls. -/
def items (noop : W) : Endpoint (IoExchange W ITEM) W ITEM IoError where
  stream := IoExchange.ioStream
  sink := IoExchange.ioSink
  reader := ⟨fun _ _ => return .ready (.ok none),return ()⟩
  writer := ⟨fun _ bytes => return (.ready (.ok bytes.length),[]),fun _ => return .ready (.ok ()),
    fun _ => return .ready (.ok ())⟩
  dropValue _ := []
  noop := noop

/-- An exchange of bytes behind a port; such a port has no item calls. -/
def bytes (noop : W) : Endpoint (IoBytesExchange W) W Unit IoError where
  stream := ⟨fun _ => return .ready (.ok none),return ()⟩
  sink := ⟨fun _ => return .ready (.ok ()),fun _ _ => return (.ready (.ok ()),none),
    fun _ => return .ready (.ok ()),fun _ => return .ready (.ok ())⟩
  reader := IoBytesExchange.ioReader
  writer := IoBytesExchange.ioWriter
  dropValue _ := []
  noop := noop

/-- The calls on a port of an exchange of items, which may have been used before it is connected. -/
def ItemCall : Op W (IoExchange W ITEM) ITEM → Prop
  | .dropReader | .conPollBytes _ _ | .prodPollWrite _ _ | .prodPollFlushBytes _
  | .prodPollCloseBytes _ => False
  | .connect ex => ex.Filled
  | _ => True

def ByteCall : Op W (IoBytesExchange W) Unit → Prop
  | .dropStream | .conPollItem _ | .prodPollReady _ | .prodPollSend _ _ | .prodPollFlushItems _
  | .prodPollCloseItems _ => False
  | .connect ex => ex.Filled
  | _ => True

def toExchange : Op W (IoExchange W ITEM) ITEM → Option (IoExchange.Op W ITEM)
  | .conPollItem cx => some (.pollRead cx)
  | .prodPollReady cx => some (.pollReady cx)
  | .prodPollSend cx item => some (.pollSend cx item)
  | .prodPollFlushItems cx => some (.pollFlush cx)
  | .prodPollCloseItems cx => some (.pollClose cx)
  | .dropStream => some .dropRead
  | _ => none

def toBytesExchange : Op W (IoBytesExchange W) Unit → Option (IoBytesExchange.Op W)
  | .conPollBytes cx maxLen => some (.pollRead cx maxLen)
  | .prodPollWrite cx bytes => some (.pollWrite cx bytes)
  | .prodPollFlushBytes cx => some (.pollFlush cx)
  | .prodPollCloseBytes cx => some (.pollClose cx)
  | .dropReader => some .dropRead
  | _ => none

theorem isPending_ofProd_ok {A α : Type} (res : Poll (Except IoError α)) :
    (Outcome.ofProd (A := A) .ok res).isPending = res.isPending := by
  rcases res with ⟨_ | _⟩ | _ <;> rfl

theorem isPending_ofProd_accepted {A α : Type} (xs : List A) (res : Poll (Except IoError α)) :
    (Outcome.ofProd (.accepted xs) res).isPending = res.isPending := by
  rcases res with ⟨_ | _⟩ | _ <;> rfl

theorem isPending_unit {A : Type} : (Outcome.unit : Outcome A).isPending = false := rfl

theorem isPending_ofRead {P A α : Type} [Payload P A] (payload : α → P)
    (res : Poll (Except IoError (Option α))) :
    (Outcome.ofRead (A := A) payload res).isPending = res.isPending := by
  rcases res with ⟨_ | _ | _⟩ | _ <;> rfl

theorem inner_items (noop : W) {op : Op W (IoExchange W ITEM) ITEM} {o : IoExchange.Op W ITEM}
    (h : toExchange op = some o) : inner (items noop) op = IoExchange.channel.polled.exec o ∧
      op.actor = o.role ∧ op.poller.map Prod.snd = o.waker := by
  cases op <;> simp only [toExchange,Option.some.injEq,reduceCtorEq] at h <;> subst h <;>
    refine ⟨?_,rfl,rfl⟩ <;> funext ex <;>
    simp [inner,items,IoExchange.ioStream,IoExchange.ioSink,IoExchange.channel,Channel.polled,
      IoExchange.call,isPending_ofProd_ok,isPending_ofProd_accepted,isPending_ofRead,isPending_unit]

theorem inner_bytes (noop : W) {op : Op W (IoBytesExchange W) Unit} {o : IoBytesExchange.Op W}
    (h : toBytesExchange op = some o) : inner (bytes noop) op = IoBytesExchange.channel.polled.exec o ∧
      op.actor = o.role ∧ op.poller.map Prod.snd = o.waker := by
  cases op <;> simp only [toBytesExchange,Option.some.injEq,reduceCtorEq] at h <;> subst h <;>
    refine ⟨?_,rfl,rfl⟩ <;> funext ex <;>
    simp [inner,bytes,IoBytesExchange.ioReader,IoBytesExchange.ioWriter,IoBytesExchange.channel,
      Channel.polled,IoBytesExchange.call,isPending_ofProd_ok,isPending_ofProd_accepted,
      isPending_ofRead,isPending_unit]

/-- Behind the port each exchange keeps its own rule. -/
def itemsDiscipline (noop : W) :
    Discipline ((valuePolled (items noop : Endpoint _ W ITEM _)).restrict ItemCall) :=
  IoExchange.channel.discipline.comap (fun op => toExchange op.1) (fun _ _ => trivial)
    (fun _ _ h => inner_items noop h) (by
      rintro ⟨op,hop⟩ h
      cases op <;> first | rfl | cases h)

def bytesDiscipline (noop : W) : Discipline ((valuePolled (bytes noop)).restrict ByteCall) :=
  IoBytesExchange.channel.discipline.comap (fun op => toBytesExchange op.1) (fun _ _ => trivial)
    (fun _ _ h => inner_bytes noop h) (by
      rintro ⟨op,hop⟩ h
      cases op <;> first | rfl | cases h)

/-- In this order of calls nobody's wait is disturbed. -/
def Calm (E : Endpoint T W ITEM ERR) (p : Op W T ITEM → Prop) (ops : List {op : Op W T ITEM // p op}) : Prop :=
  ∀ pre op, pre ++ [op] <+: ops → ∀ r o, (((portPolled E).restrict p).run new pre).waiting r = some o →
    ¬ Disturbs op.1 o.1 (((portPolled E).restrict p).run new pre).obj

theorem calm_of_calls {E : Endpoint T W ITEM ERR} {p : Op W T ITEM → Prop}
    {ops : List {op : Op W T ITEM // p op}} (h : ∀ op ∈ ops, op.1.preDrops = false ∧ op.1 ≠ .reset) :
    Calm E p ops := by
  rintro pre op hpre r o - ⟨-,⟨hdrops,-⟩ | ⟨hreset,-⟩⟩
  · have hcall := h op (hpre.subset (List.mem_append_right _ (List.mem_singleton_self op)))
    rw [hcall.1] at hdrops
    cases hdrops
  · exact (h op (hpre.subset (List.mem_append_right _ (List.mem_singleton_self op)))).2 hreset

/-- Over a port and the exchange it is connected to, and connected again after a reset: a poll
told `Pending`, whether it waits for the connection or on the exchange, stays pending until its
waker is fired, in every order of calls in which nobody pre-drops the port behind the back of
another side that waits for the connection, or resets it behind the back of one that waits on
the exchange. -/
theorem connected_blocked_until_woken (W ITEM : Type) [DecidableEq W] (noop : W) :
    (∀ ops : List {op : Op W (IoExchange W ITEM) ITEM // ItemCall op}, Calm (items noop) ItemCall ops →
      ∀ r o, (((portPolled (items noop)).restrict ItemCall).run new ops).waiting r = some o →
        (call (items noop) o.1 (((portPolled (items noop)).restrict ItemCall).run new ops).obj).ret =
          true) ∧
    (∀ ops : List {op : Op W (IoBytesExchange W) Unit // ByteCall op}, Calm (bytes noop) ByteCall ops →
      ∀ r o, (((portPolled (bytes noop)).restrict ByteCall).run new ops).waiting r = some o →
        (call (bytes noop) o.1 (((portPolled (bytes noop)).restrict ByteCall).run new ops).obj).ret =
          true) := by
  constructor
  · intro ops hcalm r o ho
    let K := connectedDiscipline (K := @itemsDiscipline W ITEM _ noop) (fun _ _ => trivial) fun _ h => h
    have hnew : K.inv new := fun v hv => by cases hv
    exact (K.sound_run hnew ops hcalm).repeats ho
  · intro ops hcalm r o ho
    let K := connectedDiscipline (K := bytesDiscipline noop) (fun _ _ => trivial) fun _ h => h
    have hnew : K.inv new := fun v hv => by cases hv
    exact (K.sound_run hnew ops hcalm).repeats ho

/-- The rule at a consumer that waits for the connection, is woken, and waits on the exchange. -/
theorem connected_blocked_until_woken_second_wait :
    (call (items 0 : Endpoint (IoExchange ℕ ℕ) ℕ ℕ IoError) (.conPollItem 7)
      (((portPolled (items 0)).restrict ItemCall).run new [⟨.conPollItem 7,trivial⟩,
        ⟨.connect Exchange.new,Exchange.new_filled⟩,⟨.conPollItem 7,trivial⟩]).obj).ret = true := by
  refine (connected_blocked_until_woken ℕ ℕ 0).1 _ (calm_of_calls ?_) .consumer
    ⟨.conPollItem 7,trivial⟩ rfl
  intro op hop
  simp only [List.mem_cons,List.not_mem_nil,or_false] at hop
  rcases hop with rfl | rfl | rfl <;> exact ⟨rfl,by simp⟩

def resetOps : List {op : Op ℕ (IoExchange ℕ ℕ) ℕ // ItemCall op} :=
  [⟨.connect Exchange.new,Exchange.new_filled⟩,⟨.conPollItem 7,trivial⟩,⟨.reset,trivial⟩,
    ⟨.connect Exchange.new,Exchange.new_filled⟩,⟨.prodPollSend 9 (some 5),trivial⟩]

/-- Its waker is not fired any more, though there is an item for it. -/
example : (((portPolled (items 0)).restrict ItemCall).run new resetOps).waiting .consumer =
      some ⟨.conPollItem 7,trivial⟩ ∧
    (call (items 0) (.conPollItem 7)
      (((portPolled (items 0)).restrict ItemCall).run new resetOps).obj).ret = false := ⟨rfl,rfl⟩

end Exchange

end IoPort
end ProcMachines
