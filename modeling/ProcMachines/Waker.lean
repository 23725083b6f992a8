import Mathlib.Tactic

/-! Polls, the calls that make them, and the single-waker slot `WakerRef`. A call
on a shared object is a function from the object to what it leaves behind, the
wakers it fires in order, and its value. A waker is identified with the task it
wakes, so `will_wake` is equality. -/
namespace ProcMachines

inductive Poll (α : Type)
  | ready (val : α)
  | pending
  deriving DecidableEq, Repr

namespace Poll

def isPending {α : Type} : Poll α → Bool
  | .ready _ => false
  | .pending => true

@[simp] theorem isPending_ready {α : Type} (a : α) : (Poll.ready a).isPending = false := rfl
@[simp] theorem isPending_pending {α : Type} : (Poll.pending : Poll α).isPending = true := rfl

def mapErr {α E F : Type} (op : E → F) : Poll (Except E α) → Poll (Except F α)
  | .ready (.ok a) => .ready (.ok a)
  | .ready (.error e) => .ready (.error (op e))
  | .pending => .pending

theorem isPending_iff {α : Type} (p : Poll α) : p.isPending = true ↔ p = .pending := by
  cases p <;> simp

end Poll

/-- The roles of the tasks that poll an I/O object, `prod_poll_*` and `con_poll_*`. -/
inductive Role
  | producer | consumer
  deriving DecidableEq, Repr

structure Call (σ W α : Type) where
  self : σ
  woken : List W
  ret : α
  deriving DecidableEq, Repr

/-- Calls in sequence: the object is threaded, the fired wakers accumulate. -/
def Act (σ W α : Type) := σ → Call σ W α

namespace Act

variable {σ W α β : Type}

instance : Monad (Act σ W) where
  pure a := fun s => ⟨s,[],a⟩
  bind m k := fun s =>
    let r := m s
    let t := k r.ret r.self
    ⟨t.self,r.woken ++ t.woken,t.ret⟩

@[simp] theorem pure_apply (a : α) (s : σ) : (pure a : Act σ W α) s = ⟨s,[],a⟩ := rfl

@[simp] theorem bind_apply (m : Act σ W α) (k : α → Act σ W β) (s : σ) :
    (m >>= k) s = ⟨(k (m s).ret (m s).self).self,
      (m s).woken ++ (k (m s).ret (m s).self).woken,(k (m s).ret (m s).self).ret⟩ := rfl

def wakeByRef (cx : W) : Act σ W Unit := fun s => ⟨s,[cx],()⟩

end Act

/-- A slot for at most one waker. -/
structure WakerRef (W : Type) where
  waker : Option W
  deriving DecidableEq, Repr

namespace WakerRef

variable {W : Type}

def new : WakerRef W := ⟨none⟩

/-- Keep the stored waker when it wakes the same task, otherwise store the new one. -/
def register [DecidableEq W] (self : WakerRef W) (waker : W) : WakerRef W :=
  match self.waker with
  | some prev => if prev = waker then ⟨some prev⟩ else ⟨some waker⟩
  | none => ⟨some waker⟩

/-- The wakers that `wake` fires; the slot itself is left as `new`. -/
def fired (self : WakerRef W) : List W := self.waker.toList

@[simp] theorem register_eq [DecidableEq W] (self : WakerRef W) (w : W) :
    self.register w = ⟨some w⟩ := by
  rcases self with ⟨_ | prev⟩
  · rfl
  · by_cases h : prev = w <;> simp [register,h]

@[simp] theorem fired_some (w : W) : (⟨some w⟩ : WakerRef W).fired = [w] := rfl
@[simp] theorem fired_new : (new : WakerRef W).fired = [] := rfl

end WakerRef
end ProcMachines
