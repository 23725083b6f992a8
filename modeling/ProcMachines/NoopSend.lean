import ProcMachines.IoPort
import ProcMachines.SinkIoSink
import ProcMachines.WriterIoWriter

/-! Sending nothing: a send without an item and a write without bytes are answered at once
and leave no trace, unless a port that is not connected yet stands in their way. -/
namespace ProcMachines

/-- The call is answered at once, fires no waker and leaves the object as it is. -/
def Noop {σ W α : Type} (call : Act σ W α) (answer : α) (s : σ) : Prop := call s = ⟨s,[],answer⟩

namespace IoPort

variable {W T : Type}

/-- A producer's call meets a port, this one or one it is connected to, that is neither
connected nor pre-dropped. -/
def Unconnected (inner : T → Prop) (self : IoPort W T) : Prop :=
  match self.state with
  | .disconnected _ _ => self.isPredropped = false
  | .connected connected => inner connected

variable [DecidableEq W]

theorem through_noop_iff {α : Type} {call : Act T W α} {answer waiting : α} (hne : waiting ≠ answer)
    {inner : T → Prop} (hcall : ∀ connected, Noop call answer connected ↔ ¬ inner connected) (cx : W)
    (self : IoPort W T) :
    Noop (through (prodPollConnected cx) answer waiting call) answer self ↔
      ¬ self.Unconnected inner := by
  rcases self with ⟨⟨conWaker,prodWaker⟩ | connected,predropped⟩
  · cases predropped with
    | true => simp [Noop,Unconnected,through,prodPollConnected]
    | false => simp [Noop,Unconnected,through,prodPollConnected,hne]
  · rw [Unconnected,← hcall connected]
    rcases hr : call connected with ⟨next,woken,ret⟩
    simp [Noop,through,prodPollConnected,forward,hr]

end IoPort

variable {W ITEM : Type} [DecidableEq W]

/-- The sinks of the library, each with the states in which a call meets an unconnected
port: the exchange, the adapter of any `Sink`, and a port over any of these. -/
inductive IoSink.Producer : {σ ERR : Type} → IoSink σ W ITEM ERR → (σ → Prop) → Prop
  | exchange : Producer IoExchange.ioSink fun _ => False
  | sink {ω ERR : Type} (S : Sink ω W ITEM ERR) : Producer (SinkIoSink.ioSink S) fun _ => False
  | port {σ ERR : Type} {w : IoSink σ W ITEM ERR} {unconnected : σ → Prop}
      (h : Producer w unconnected) : Producer (IoPort.ioSink w) (IoPort.Unconnected unconnected)

/-- The same for the writers: the exchange, the adapter of any `AsyncWrite`, and a port over
any of these. -/
inductive IoWriter.Producer : {σ ERR : Type} → IoWriter σ W ERR → (σ → Prop) → Prop
  | exchange : Producer IoBytesExchange.ioWriter fun _ => False
  | writer {ω : Type} (A : AsyncWrite ω W) : Producer (WriterIoWriter.ioWriter A) fun _ => False
  | port {σ ERR : Type} {w : IoWriter σ W ERR} {unconnected : σ → Prop}
      (h : Producer w unconnected) : Producer (IoPort.ioWriter w) (IoPort.Unconnected unconnected)

theorem IoSink.Producer.noop_iff {σ ERR : Type} {w : IoSink σ W ITEM ERR} {unconnected : σ → Prop}
    (h : Producer w unconnected) (cx : W) (s : σ) :
    Noop (w.prodPollSend cx none) (.ready (.ok ()),none) s ↔ ¬ unconnected s := by
  induction h with
  | exchange => exact iff_of_true rfl id
  | sink S => exact iff_of_true rfl id
  | port h ih => exact IoPort.through_noop_iff (by simp) ih cx s

theorem IoWriter.Producer.noop_iff {σ ERR : Type} {w : IoWriter σ W ERR} {unconnected : σ → Prop}
    (h : Producer w unconnected) (cx : W) (s : σ) :
    Noop (w.prodPollWrite cx []) (.ready (.ok 0),[]) s ↔ ¬ unconnected s := by
  induction h with
  | exchange => exact iff_of_true rfl id
  | writer A => exact iff_of_true rfl id
  | port h ih => exact IoPort.through_noop_iff (by simp) ih cx s

/-- Every sink and every writer of the library, in every state: sending nothing is answered
at once, with no waker registered or fired and no state changed, exactly when the call does
not meet a port that is neither connected nor pre-dropped. -/
theorem noop_send_iff (cx : W) :
    (∀ {σ ERR : Type} {w : IoSink σ W ITEM ERR} {unconnected : σ → Prop},
      IoSink.Producer w unconnected → ∀ s,
        (w.prodPollSend cx none s = ⟨s,[],(.ready (.ok ()),none)⟩ ↔ ¬ unconnected s)) ∧
    (∀ {σ ERR : Type} {w : IoWriter σ W ERR} {unconnected : σ → Prop},
      IoWriter.Producer w unconnected → ∀ s,
        (w.prodPollWrite cx [] s = ⟨s,[],(.ready (.ok 0),[])⟩ ↔ ¬ unconnected s)) :=
  ⟨fun h s => h.noop_iff cx s,fun h s => h.noop_iff cx s⟩

def fullSink : Sink ℕ ℕ ℕ Unit where
  pollReady _ := fun s => ⟨s+1,[],.pending⟩
  startSend _ := fun s => ⟨s+1,[],.ok ()⟩
  pollFlush _ := fun s => ⟨s+1,[],.pending⟩
  pollClose _ := fun s => ⟨s+1,[],.pending⟩

/-- A port connected to a port connected to a sink that never has room. -/
theorem noop_send_iff_nested :
    (IoPort.ioSink (IoPort.ioSink (SinkIoSink.ioSink fullSink))).prodPollSend 7 none
        ⟨.connected ⟨.connected ⟨0⟩,false⟩,false⟩ =
      ⟨⟨.connected ⟨.connected ⟨0⟩,false⟩,false⟩,[],(.ready (.ok ()),none)⟩ :=
  ((noop_send_iff 7).1 (IoSink.Producer.port (IoSink.Producer.port (IoSink.Producer.sink fullSink)))
    _).mpr id

/-- A new port answers a send without an item and a write without bytes with `Pending`. -/
theorem noop_send_waits :
    ¬ ((∀ {σ ERR : Type} (w : IoSink σ ℕ ℕ ERR) (unconnected : σ → Prop),
        IoSink.Producer w unconnected → ∀ cx s,
          w.prodPollSend cx none s = ⟨s,[],(.ready (.ok ()),none)⟩) ∨
      ∀ {σ ERR : Type} (w : IoWriter σ ℕ ERR) (unconnected : σ → Prop),
        IoWriter.Producer w unconnected → ∀ cx s,
          w.prodPollWrite cx [] s = ⟨s,[],(.ready (.ok 0),[])⟩) := by
  rintro (hsend | hwrite)
  · have h := hsend _ _ (.port .exchange) 7 IoPort.new
    cases congrArg (fun r => r.ret.1) h
  · have h := hwrite _ _ (.port .exchange) 7 IoPort.new
    cases congrArg (fun r => r.ret.1) h

end ProcMachines
