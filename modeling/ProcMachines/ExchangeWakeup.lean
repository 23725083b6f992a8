import ProcMachines.ExchangeCalls
import ProcMachines.Wakeup

/-! No lost wakeup on an exchange: a side told `Pending` stays blocked until its
waker is fired, and the two sides are never blocked at once. -/
namespace ProcMachines

open Wakeup

namespace Exchange

variable {W P A α β : Type}

def wakerOf (ex : Exchange W P) : Role → WakerRef W
  | .producer => ex.writer
  | .consumer => ex.reader

/-- The call fires the waker stored for a side, or leaves that slot and the state alone. -/
def WakesOrFrames (r : Role) (ex : Exchange W P) (out : Call (Exchange W P) W α) : Prop :=
  (∀ w, ex.wakerOf r = ⟨some w⟩ → w ∈ out.woken) ∨
    (out.self.wakerOf r = ex.wakerOf r ∧ out.self.state = ex.state)

theorem WakesOrFrames.map {r : Role} {ex : Exchange W P} {m : Act (Exchange W P) W α}
    (h : WakesOrFrames r ex (m ex)) (f : α → β) :
    WakesOrFrames r ex ((do return f (← m) : Act (Exchange W P) W β) ex) := by
  simpa [WakesOrFrames] using h

variable [DecidableEq W] [Payload P A]

omit [DecidableEq W] in
theorem reset_wakes (r : Role) (ex : Exchange W P) : WakesOrFrames r ex (reset ex) := by
  left
  cases r <;> simp_all [reset_apply,wakerOf]

omit [DecidableEq W] in
theorem dropRead_wakes (ex : Exchange W P) : WakesOrFrames .producer ex (dropRead ex) := by
  rcases ex with ⟨_,_,st,_⟩
  cases st <;> simp_all [dropRead_apply,WakesOrFrames,wakerOf]

theorem place_wakes (cx : W) (p : P) (a : α) (ex : Exchange W P) :
    WakesOrFrames .consumer ex (place cx p a ex) := by
  rcases ex with ⟨_,_,st,_⟩
  cases st <;> simp_all [place_apply,WakesOrFrames,wakerOf]

theorem prodPollFlush_wakes (cx : W) (ex : Exchange W P) :
    WakesOrFrames .consumer ex (prodPollFlush cx ex) := by
  rcases ex with ⟨_,_,st,_⟩
  cases st <;> simp_all [prodPollFlush_apply,WakesOrFrames,wakerOf]

theorem prodPollClose_wakes (cx : W) (ex : Exchange W P) :
    WakesOrFrames .consumer ex (prodPollClose cx ex) := by
  rcases ex with ⟨_,_,st,_⟩
  cases st <;> simp_all [prodPollClose_apply,WakesOrFrames,wakerOf]

end Exchange

/-- The states in which a call for a free slot, a flush, a close and a read are pending. -/
def occupied : List Exch := [.full,.fullFlush,.fullClosed]
def unflushed : List Exch := [.emptyFlush,.fullFlush,.fullClosed]
def unclosed : List Exch := [.fullClosed]
def unfilled : List Exch := [.emptyFlushed]

/-- One exchange with the calls made on it, and what its calls keep. `blockedIn`
lists the states in which a pending call can leave it. -/
structure Channel (W P A Op : Type) [DecidableEq W] [Payload P A] where
  call : Op → Act (Exchange W P) W (Outcome A)
  role : Op → Option Role
  waker : Op → Option W
  blockedIn : Op → List Exch
  filled : ∀ op ex, ex.Filled → (call op ex).self.Filled
  wakes : ∀ op ex r, role op ≠ some r → Exchange.WakesOrFrames r ex (call op ex)
  arms : ∀ op ex, ex.Filled → (call op ex).ret = .pending → ∃ r cx, role op = some r ∧
    waker op = some cx ∧ (call op ex).self.wakerOf r = ⟨some cx⟩ ∧
      (call op ex).self.state ∈ blockedIn op
  waits : ∀ op ex, ex.state ∈ blockedIn op → (call op ex).ret = .pending
  apart : ∀ op op', role op = some .producer → role op' = some .consumer →
    ∀ st ∈ blockedIn op, st ∉ blockedIn op'

namespace Channel

variable {W P A Op : Type} [DecidableEq W] [Payload P A]

def polled (C : Channel W P A Op) : Polled (Exchange W P) W Op Role where
  exec op := do return (← C.call op).isPending
  role := C.role
  waker := C.waker

/-- The exchange is blocked for the call, with the call's waker stored. -/
def Armed (C : Channel W P A Op) (op : Op) (ex : Exchange W P) : Prop :=
  ∃ r cx, C.role op = some r ∧ C.waker op = some cx ∧ ex.wakerOf r = ⟨some cx⟩ ∧
    ex.state ∈ C.blockedIn op

theorem armed_or_fired (C : Channel W P A Op) {o op : Op} {ex : Exchange W P} (h : C.Armed o ex)
    (hr : C.role op ≠ C.role o) :
    C.polled.Fired o (C.polled.exec op ex).woken ∨ C.Armed o (C.polled.exec op ex).self := by
  obtain ⟨r,cx,hrole,hcx,hslot,hstate⟩ := h
  have hw := (C.wakes op ex r (by rwa [← hrole])).map Outcome.isPending
  rcases hw with hfire | ⟨hs,hst⟩
  · exact Or.inl ⟨cx,hcx,hfire cx hslot⟩
  · exact Or.inr ⟨r,cx,hrole,hcx,hs.trans hslot,by rw [polled,hst]; exact hstate⟩

def discipline (C : Channel W P A Op) : Discipline C.polled where
  inv := Exchange.Filled
  armed := C.Armed
  allowed _ _ := True
  inv_step op ex h := C.filled op ex h
  arms op ex h hp := C.arms op ex h (Outcome.isPending_iff.mp hp)
  keeps _ _ _ _ ho _ _ hr := C.armed_or_fired ho hr
  waits o ex _ := fun ⟨_,_,_,_,_,hst⟩ => Outcome.isPending_iff.mpr (C.waits o ex hst)

theorem sound_run (C : Channel W P A Op) (ops : List Op) :
    C.discipline.Sound (C.polled.run Exchange.new ops) :=
  C.discipline.sound_run Exchange.new_filled ops fun _ _ _ => trivial

/-- After any calls from a new exchange, a call remembered as waiting is pending if it
is repeated, and the two sides never wait at once. -/
theorem waiting_run (C : Channel W P A Op) (ops : List Op) :
    (∀ r o, (C.polled.run Exchange.new ops).waiting r = some o →
      (C.call o (C.polled.run Exchange.new ops).obj).ret = .pending) ∧
    ((C.polled.run Exchange.new ops).waiting .producer = none ∨
      (C.polled.run Exchange.new ops).waiting .consumer = none) := by
  have hs := C.sound_run ops
  refine ⟨fun r o ho => Outcome.isPending_iff.mp (hs.repeats ho),?_⟩
  by_contra hne
  obtain ⟨hp,hc⟩ := not_or.mp hne
  obtain ⟨p,hp⟩ := Option.ne_none_iff_exists'.mp hp
  obtain ⟨c,hc⟩ := Option.ne_none_iff_exists'.mp hc
  obtain ⟨_,_,_,_,_,hstp⟩ := hs.armed _ _ hp
  obtain ⟨_,_,_,_,_,hstc⟩ := hs.armed _ _ hc
  exact C.apart p c (hs.role _ _ hp) (hs.role _ _ hc) _ hstp hstc

end Channel

namespace IoExchange

variable {W ITEM : Type} [DecidableEq W]

theorem conPollRead_wakes (cx : W) (ex : IoExchange W ITEM) :
    Exchange.WakesOrFrames .producer ex (conPollRead cx ex) := by
  rcases ex with ⟨_,_,st,slot⟩
  cases slot <;> cases st <;>
    simp_all [conPollRead_apply,Exchange.WakesOrFrames,Exchange.wakerOf]

theorem prodPollReady_wakes (cx : W) (ex : IoExchange W ITEM) :
    Exchange.WakesOrFrames .consumer ex (prodPollReady cx ex) := by
  rcases ex with ⟨_,_,st,_⟩
  cases st <;> simp_all [prodPollReady_apply,Exchange.WakesOrFrames,Exchange.wakerOf]

def Op.blockedIn : Op W ITEM → List Exch
  | .pollReady _ => occupied
  | .pollSend _ item => if item.isSome then occupied else []
  | .pollFlush _ => unflushed
  | .pollClose _ => unclosed
  | .pollRead _ => unfilled
  | .dropRead | .reset => []

theorem call_wakes (op : Op W ITEM) (ex : IoExchange W ITEM) (r : Role) (hr : op.role ≠ some r) :
    Exchange.WakesOrFrames r ex (call op ex) := by
  cases op with
  | pollReady cx =>
    cases r with
    | producer => exact absurd rfl hr
    | consumer => exact (prodPollReady_wakes cx ex).map _
  | pollSend cx item =>
    cases r with
    | producer => exact absurd rfl hr
    | consumer =>
      cases item with
      | none => simp [call,prodPollSend,Exchange.WakesOrFrames]
      | some item => exact (Exchange.place_wakes cx (some item) () ex).map _
  | pollFlush cx =>
    cases r with
    | producer => exact absurd rfl hr
    | consumer => exact (Exchange.prodPollFlush_wakes cx ex).map _
  | pollClose cx =>
    cases r with
    | producer => exact absurd rfl hr
    | consumer => exact (Exchange.prodPollClose_wakes cx ex).map _
  | pollRead cx =>
    cases r with
    | producer => exact (conPollRead_wakes cx ex).map _
    | consumer => exact absurd rfl hr
  | dropRead =>
    cases r with
    | producer => exact (Exchange.dropRead_wakes ex).map _
    | consumer => exact absurd rfl hr
  | reset => exact (Exchange.reset_wakes r ex).map _

theorem call_arms (op : Op W ITEM) (ex : IoExchange W ITEM) (hf : ex.Filled)
    (h : (call op ex).ret = .pending) : ∃ r cx, op.role = some r ∧ op.waker = some cx ∧
      (call op ex).self.wakerOf r = ⟨some cx⟩ ∧ (call op ex).self.state ∈ op.blockedIn := by
  rcases ex with ⟨_,_,st,slot⟩
  cases op with
  | pollReady cx =>
    refine ⟨.producer,cx,rfl,rfl,?_⟩
    cases st <;> simp_all [call,prodPollReady_apply,Outcome.ofProd,Exchange.wakerOf,
      Op.blockedIn,occupied]
  | pollSend cx item =>
    refine ⟨.producer,cx,rfl,rfl,?_⟩
    cases item <;> cases st <;> simp_all [call,prodPollSend,Exchange.place_apply,Outcome.ofProd,
      Exchange.wakerOf,Op.blockedIn,occupied]
  | pollFlush cx =>
    refine ⟨.producer,cx,rfl,rfl,?_⟩
    cases st <;> simp_all [call,prodPollFlush,Exchange.prodPollFlush_apply,Outcome.ofProd,
      Exchange.wakerOf,Op.blockedIn,unflushed]
  | pollClose cx =>
    refine ⟨.producer,cx,rfl,rfl,?_⟩
    cases st <;> simp_all [call,prodPollClose,Exchange.prodPollClose_apply,Outcome.ofProd,
      Exchange.wakerOf,Op.blockedIn,unclosed]
  | pollRead cx =>
    refine ⟨.consumer,cx,rfl,rfl,?_⟩
    cases slot <;> cases st <;> simp_all [call,conPollRead_apply,Outcome.ofRead,Exchange.wakerOf,
      Op.blockedIn,unfilled,Exchange.Filled,Exch.isFull,Payload.vacant]
  | dropRead => simp [call] at h
  | reset => simp [call] at h

theorem call_waits (op : Op W ITEM) (ex : IoExchange W ITEM) (h : ex.state ∈ op.blockedIn) :
    (call op ex).ret = .pending := by
  rcases ex with ⟨_,_,st,slot⟩
  cases op with
  | pollReady cx =>
    cases st <;> simp_all [call,prodPollReady_apply,Outcome.ofProd,Op.blockedIn,occupied]
  | pollSend cx item =>
    cases item <;> cases st <;>
      simp_all [call,prodPollSend,Exchange.place_apply,Outcome.ofProd,Op.blockedIn,occupied]
  | pollFlush cx =>
    cases st <;> simp_all [call,prodPollFlush,Exchange.prodPollFlush_apply,Outcome.ofProd,
      Op.blockedIn,unflushed]
  | pollClose cx =>
    cases st <;> simp_all [call,prodPollClose,Exchange.prodPollClose_apply,Outcome.ofProd,
      Op.blockedIn,unclosed]
  | pollRead cx =>
    cases st <;> simp_all [call,conPollRead_apply,Outcome.ofRead,Op.blockedIn,unfilled]
  | dropRead => simp [Op.blockedIn] at h
  | reset => simp [Op.blockedIn] at h

omit [DecidableEq W] in
theorem blocked_apart (op op' : Op W ITEM) (h : op.role = some .producer)
    (h' : op'.role = some .consumer) : ∀ st ∈ op.blockedIn, st ∉ op'.blockedIn := by
  cases op with
  | pollReady cx => cases op' <;> simp_all [Op.role,Op.blockedIn,occupied,unfilled]
  | pollSend cx item => cases item <;> cases op' <;> simp_all [Op.role,Op.blockedIn,occupied,unfilled]
  | pollFlush cx => cases op' <;> simp_all [Op.role,Op.blockedIn,unflushed,unfilled]
  | pollClose cx => cases op' <;> simp_all [Op.role,Op.blockedIn,unclosed,unfilled]
  | pollRead cx => simp [Op.role] at h
  | dropRead => simp [Op.role] at h
  | reset => simp [Op.role] at h

def channel : Channel W (Option ITEM) ITEM (Op W ITEM) where
  call := call
  role := Op.role
  waker := Op.waker
  blockedIn := Op.blockedIn
  filled := call_filled
  wakes := call_wakes
  arms := call_arms
  waits := call_waits
  apart := blocked_apart

end IoExchange

namespace IoBytesExchange

variable {W : Type} [DecidableEq W]

theorem conPollRead_wakes (cx : W) (maxLen : ℕ) (ex : IoBytesExchange W) :
    Exchange.WakesOrFrames .producer ex (conPollRead cx maxLen ex) := by
  rcases ex with ⟨_,_,st,slot⟩
  rw [conPollRead_apply]
  cases st <;> simp only
  all_goals try split_ifs
  all_goals simp_all [Exchange.WakesOrFrames,Exchange.wakerOf]

def Op.blockedIn : Op W → List Exch
  | .pollWrite _ data => if data.isEmpty then [] else occupied
  | .pollFlush _ => unflushed
  | .pollClose _ => unclosed
  | .pollRead _ _ => unfilled
  | .dropRead | .reset => []

theorem call_wakes (op : Op W) (ex : IoBytesExchange W) (r : Role) (hr : op.role ≠ some r) :
    Exchange.WakesOrFrames r ex (call op ex) := by
  cases op with
  | pollWrite cx data =>
    cases r with
    | producer => exact absurd rfl hr
    | consumer =>
      cases data with
      | nil => simp [call,prodPollWrite,Exchange.WakesOrFrames]
      | cons b data => exact (Exchange.place_wakes cx (b :: data) (data.length + 1) ex).map _
  | pollFlush cx =>
    cases r with
    | producer => exact absurd rfl hr
    | consumer => exact (Exchange.prodPollFlush_wakes cx ex).map _
  | pollClose cx =>
    cases r with
    | producer => exact absurd rfl hr
    | consumer => exact (Exchange.prodPollClose_wakes cx ex).map _
  | pollRead cx maxLen =>
    cases r with
    | producer => exact (conPollRead_wakes cx maxLen ex).map _
    | consumer => exact absurd rfl hr
  | dropRead =>
    cases r with
    | producer => exact (Exchange.dropRead_wakes ex).map _
    | consumer => exact absurd rfl hr
  | reset => exact (Exchange.reset_wakes r ex).map _

theorem call_arms (op : Op W) (ex : IoBytesExchange W) (hf : ex.Filled)
    (h : (call op ex).ret = .pending) : ∃ r cx, op.role = some r ∧ op.waker = some cx ∧
      (call op ex).self.wakerOf r = ⟨some cx⟩ ∧ (call op ex).self.state ∈ op.blockedIn := by
  rcases ex with ⟨_,_,st,slot⟩
  cases op with
  | pollWrite cx data =>
    refine ⟨.producer,cx,rfl,rfl,?_⟩
    cases data <;> cases st <;> simp_all [call,prodPollWrite,Exchange.place_apply,Outcome.ofProd,
      Exchange.wakerOf,Op.blockedIn,occupied]
  | pollFlush cx =>
    refine ⟨.producer,cx,rfl,rfl,?_⟩
    cases st <;> simp_all [call,prodPollFlush,Exchange.prodPollFlush_apply,Outcome.ofProd,
      Exchange.wakerOf,Op.blockedIn,unflushed]
  | pollClose cx =>
    refine ⟨.producer,cx,rfl,rfl,?_⟩
    cases st <;> simp_all [call,prodPollClose,Exchange.prodPollClose_apply,Outcome.ofProd,
      Exchange.wakerOf,Op.blockedIn,unclosed]
  | pollRead cx maxLen =>
    refine ⟨.consumer,cx,rfl,rfl,?_⟩
    simp only [call,Act.bind_apply,Act.pure_apply,conPollRead_apply] at h ⊢
    cases st <;> simp_all [Outcome.ofRead,Exchange.wakerOf,Op.blockedIn,unfilled,Exchange.Filled,
      Exch.isFull,Payload.vacant]
    all_goals split_ifs at h
  | dropRead => simp [call] at h
  | reset => simp [call] at h

theorem call_waits (op : Op W) (ex : IoBytesExchange W) (h : ex.state ∈ op.blockedIn) :
    (call op ex).ret = .pending := by
  rcases ex with ⟨_,_,st,slot⟩
  cases op with
  | pollWrite cx data =>
    cases data <;> cases st <;>
      simp_all [call,prodPollWrite,Exchange.place_apply,Outcome.ofProd,Op.blockedIn,occupied]
  | pollFlush cx =>
    cases st <;> simp_all [call,prodPollFlush,Exchange.prodPollFlush_apply,Outcome.ofProd,
      Op.blockedIn,unflushed]
  | pollClose cx =>
    cases st <;> simp_all [call,prodPollClose,Exchange.prodPollClose_apply,Outcome.ofProd,
      Op.blockedIn,unclosed]
  | pollRead cx maxLen =>
    cases st <;> simp_all [call,conPollRead_apply,Outcome.ofRead,Op.blockedIn,unfilled]
  | dropRead => simp [Op.blockedIn] at h
  | reset => simp [Op.blockedIn] at h

omit [DecidableEq W] in
theorem blocked_apart (op op' : Op W) (h : op.role = some .producer)
    (h' : op'.role = some .consumer) : ∀ st ∈ op.blockedIn, st ∉ op'.blockedIn := by
  cases op with
  | pollWrite cx data => cases data <;> cases op' <;> simp_all [Op.role,Op.blockedIn,occupied,unfilled]
  | pollFlush cx => cases op' <;> simp_all [Op.role,Op.blockedIn,unflushed,unfilled]
  | pollClose cx => cases op' <;> simp_all [Op.role,Op.blockedIn,unclosed,unfilled]
  | pollRead cx maxLen => simp [Op.role] at h
  | dropRead => simp [Op.role] at h
  | reset => simp [Op.role] at h

def channel : Channel W Bytes UInt8 (Op W) where
  call := call
  role := Op.role
  waker := Op.waker
  blockedIn := Op.blockedIn
  filled := call_filled
  wakes := call_wakes
  arms := call_arms
  waits := call_waits
  apart := blocked_apart

end IoBytesExchange

/-- No lost wakeup and no mutual blocking, over every interleaving of one producer,
one consumer and resets: a side whose last call returned `Pending`, with its waker
not fired since, would be told `Pending` again, and never both sides at once. -/
theorem exchange_blocked_until_woken (W ITEM : Type) [DecidableEq W] :
    (∀ ops : List (IoExchange.Op W ITEM),
      let c := IoExchange.channel.polled.run IoExchange.new ops
      (∀ o, c.waiting .producer = some o → (IoExchange.call o c.obj).ret = .pending) ∧
      (∀ o, c.waiting .consumer = some o → (IoExchange.call o c.obj).ret = .pending) ∧
      ¬ (c.waiting .producer ≠ none ∧ c.waiting .consumer ≠ none)) ∧
    (∀ ops : List (IoBytesExchange.Op W),
      let c := IoBytesExchange.channel.polled.run IoBytesExchange.new ops
      (∀ o, c.waiting .producer = some o → (IoBytesExchange.call o c.obj).ret = .pending) ∧
      (∀ o, c.waiting .consumer = some o → (IoBytesExchange.call o c.obj).ret = .pending) ∧
      ¬ (c.waiting .producer ≠ none ∧ c.waiting .consumer ≠ none)) := by
  constructor
  · intro ops c
    obtain ⟨hrep,hone⟩ := IoExchange.channel.waiting_run ops
    refine ⟨fun o ho => hrep _ o ho,fun o ho => hrep _ o ho,?_⟩
    rintro ⟨hp,hc⟩
    exact hone.elim hp hc
  · intro ops c
    obtain ⟨hrep,hone⟩ := IoBytesExchange.channel.waiting_run ops
    refine ⟨fun o ho => hrep _ o ho,fun o ho => hrep _ o ho,?_⟩
    rintro ⟨hp,hc⟩
    exact hone.elim hp hc

/-- The rule at a second send into an occupied slot. -/
theorem exchange_blocked_until_woken_second_send :
    (IoExchange.call (.pollSend 1 (some 6)) (IoExchange.channel.polled.run IoExchange.new
      [.pollSend 1 (some (5 : ℕ)),.pollSend 1 (some 6)]).obj).ret = .pending :=
  ((exchange_blocked_until_woken ℕ ℕ).1 [.pollSend 1 (some 5),.pollSend 1 (some 6)]).1
    (.pollSend 1 (some 6)) (by decide)

end ProcMachines
