import ProcMachines.Waker

/-! Objects that are read until they end, and what a reader may rely on over runs of
calls. Rules on single calls make the contract hold in every state a run reaches. -/
namespace ProcMachines

/-- What a read tells its caller: something was consumed, the end, an empty probe, or
none of these. -/
inductive Verdict
  | consumed | ended | probed | other
  deriving DecidableEq, Repr

/-- An object with its operations. `reader` is the waker a read hands over, and `woke`
says which events are wakes by the object itself. -/
structure Consumer (σ Ev W Op : Type) where
  exec : Op → Act σ Ev Verdict
  reader : Op → Option W
  woke : W → Ev → Prop
  resets : Op → Bool

namespace Consumer

variable {σ Ev W Op : Type}

def run (K : Consumer σ Ev W Op) (s : σ) (ops : List Op) : σ :=
  ops.foldl (fun s op => (K.exec op s).self) s

theorem run_append (K : Consumer σ Ev W Op) (s : σ) (pre post : List Op) :
    K.run s (pre ++ post) = K.run (K.run s pre) post := by
  simp [run]

/-- What a reader may rely on after a run: a read that consumes wakes it, the end and an
empty probe do not, and a read that found the end finds it again until a reset. -/
structure Contract (K : Consumer σ Ev W Op) (s : σ) (ops : List Op) : Prop where
  wakes : ∀ op cx, K.reader op = some cx → (K.exec op (K.run s ops)).ret = .consumed →
    ∃ e ∈ (K.exec op (K.run s ops)).woken, K.woke cx e
  silent : ∀ op cx, K.reader op = some cx →
    (K.exec op (K.run s ops)).ret = .ended ∨ (K.exec op (K.run s ops)).ret = .probed →
    ∀ e ∈ (K.exec op (K.run s ops)).woken, ¬ K.woke cx e
  ended : ∀ pre op post, ops = pre ++ op :: post → K.reader op ≠ none →
    (K.exec op (K.run s pre)).ret = .ended → (∀ o ∈ post, K.resets o = false) →
    ∀ op', K.reader op' ≠ none → (K.exec op' (K.run s ops)).ret = .ended

/-- What single calls must do. -/
structure Rules (K : Consumer σ Ev W Op) where
  inv : σ → Prop
  finished : σ → Prop
  inv_step : ∀ op s, inv s → inv (K.exec op s).self
  wakes : ∀ op s cx, inv s → K.reader op = some cx → (K.exec op s).ret = .consumed →
    ∃ e ∈ (K.exec op s).woken, K.woke cx e
  silent : ∀ op s cx, inv s → K.reader op = some cx →
    (K.exec op s).ret = .ended ∨ (K.exec op s).ret = .probed →
    ∀ e ∈ (K.exec op s).woken, ¬ K.woke cx e
  ends : ∀ op s, inv s → K.reader op ≠ none → (K.exec op s).ret = .ended →
    finished (K.exec op s).self
  stays : ∀ op s, K.resets op = false → finished s → finished (K.exec op s).self
  again : ∀ op s, K.reader op ≠ none → finished s → (K.exec op s).ret = .ended

namespace Rules

variable {K : Consumer σ Ev W Op} {s : σ}

theorem inv_run (R : Rules K) (hs : R.inv s) (ops : List Op) : R.inv (K.run s ops) := by
  induction ops generalizing s with
  | nil => exact hs
  | cons op ops ih => exact ih (R.inv_step op s hs)

theorem finished_run (R : Rules K) (hs : R.finished s) {ops : List Op}
    (hops : ∀ op ∈ ops, K.resets op = false) : R.finished (K.run s ops) := by
  induction ops generalizing s with
  | nil => exact hs
  | cons op ops ih =>
    exact ih (R.stays op s (hops op (by simp)) hs) fun o ho => hops o (List.mem_cons_of_mem _ ho)

theorem contract (R : Rules K) (hs : R.inv s) (ops : List Op) : K.Contract s ops where
  wakes op cx := R.wakes op _ cx (R.inv_run hs ops)
  silent op cx := R.silent op _ cx (R.inv_run hs ops)
  ended := by
    rintro pre op post rfl hread hend hpost op' hread'
    have hfinished := R.ends op _ (R.inv_run hs pre) hread hend
    refine R.again op' _ hread' ?_
    rw [run_append]
    exact R.finished_run hfinished hpost

end Rules
end Consumer
end ProcMachines
