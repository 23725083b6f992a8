import ProcMachines.InputValue
import ProcMachines.WaitLoop

/-! The machine of the example `fizz_buzz_minimal`: one task that answers each input. -/
namespace ProcMachines
namespace FizzBuzzMinimal

open ProcMachine Transition WaitLoop

structure FizzBuzzIO where
  input : InputValue (Handle Empty) UInt32
  output : Option String
  deriving DecidableEq

def FizzBuzzIO.new : FizzBuzzIO := ⟨.new 0,none⟩

def setInput (value : UInt32) : Act FizzBuzzIO (Handle Empty) Unit := fun self =>
  let r := InputValue.set value self.input
  ⟨{ self with input := r.self },r.woken,()⟩

def getOutput (self : FizzBuzzIO) : Option String := self.output

def answer (input : UInt32) : Option String :=
  match (input % 15).toNat with
  | 0 => some "FizzBuzz"
  | 3 | 6 | 9 | 12 => some "Fizz"
  | 5 | 10 => some "Buzz"
  | _ => none

theorem answer_eq (input : UInt32) : answer input =
    if 3 ∣ input.toNat then if 5 ∣ input.toNat then some "FizzBuzz" else some "Fizz"
    else if 5 ∣ input.toNat then some "Buzz" else none := by
  have hmod : (input % 15).toNat = input.toNat % 15 := by simp
  rw [answer,hmod]
  have hlt := Nat.mod_lt input.toNat (show 15 > 0 by decide)
  have h3 : 3 ∣ input.toNat ↔ 3 ∣ input.toNat % 15 := by omega
  have h5 : 5 ∣ input.toNat ↔ 5 ∣ input.toNat % 15 := by omega
  simp only [h3,h5]
  generalize input.toNat % 15 = r at hlt ⊢
  revert r
  decide

/-- The closure of `fizz_buzz_task`, whose `poll_fn` never becomes ready. -/
def fizzBuzzTask (_ : Unit) : Act FizzBuzzIO (Handle Empty) (Loop Unit × Unit) := fun io =>
  let r := InputValue.conPollRef (.task 1) io.input
  ⟨⟨r.self,answer r.ret⟩,r.woken,(.wait,())⟩

/-- The critical sections set the input; `get_output` changes nothing. -/
def machine : Jobs (WaitLoop Unit Unit) FizzBuzzIO (Loop Unit) UInt32 :=
  jobs (single fizzBuzzTask) setInput

def Answered (io : FizzBuzzIO) : Prop :=
  io.input.Watching (.task 1) io.input.value ∧ io.output = answer io.input.value

theorem waits : SingleWaits fizzBuzzTask setInput (fun _ => True) (fun _ => Answered) where
  keeps _ _ _ := trivial
  wait _ _ _ _ := ⟨InputValue.watching_conPollRef _ _,rfl⟩
  access value _ _ := ⟨trivial,fun _ hsleep => Or.inr (hsleep.1.woken_set value)⟩

theorem preserves : SinglePreserves fizzBuzzTask setInput (fun _ _ => True)
    (fun fut _ => ∀ val, fut.answer ≠ .done val) (fun _ => False) where
  call _ _ _ := by simp [fizzBuzzTask]
  again _ _ _ := by simp [waitLoop]
  done _ val _ h := h val rfl
  critical _ _ _ h _ := h
  after _ _ h := h

variable {W Tid : Type} [DecidableEq Tid]

/-- Whoever takes the mutex finds in the output the answer to the last input, whatever the
threads have set and in whatever order they have run. -/
theorem output_answers_input (poller builder : Tid)
    (es : List (Tid × ProcMachine.Event W (Loop Unit))) (s : State Tid W (WaitLoop Unit Unit) FizzBuzzIO)
    (h : Run (Step machine poller) (ProcMachine.new (singleFutures ()) .new builder) es s)
    (hfree : s.machine.locked = false) :
    getOutput s.machine.inner.io =
      if 3 ∣ s.machine.inner.io.input.value.toNat then
        if 5 ∣ s.machine.inner.io.input.value.toNat then some "FizzBuzz" else some "Fizz"
      else if 5 ∣ s.machine.inner.io.input.value.toNat then some "Buzz" else none := by
  have hkept := single_kept preserves (f := ()) (by simp [waitLoop]) h
  cases hfut : taskOf s.machine.inner.futures 1 with
  | some fut =>
    have hsleep := single_asleep waits trivial h hfree fut hfut
    rw [getOutput,hsleep.2,answer_eq]
  | none =>
    simp only [Lasts,hfut] at hkept

def nineMoves : List (Bool × Choice Unit UInt32) :=
  List.replicate 7 (false,.go) ++ [(true,.call .lockRef),(true,.go),(true,.access 9)] ++
    List.replicate 3 (true,.go) ++ [(true,.drop)] ++ List.replicate 8 (true,.go)

def nineRun : State Bool Unit (WaitLoop Unit Unit) FizzBuzzIO ×
    List (Bool × ProcMachine.Event Unit (Loop Unit)) :=
  (exec machine true (ProcMachine.new (singleFutures ()) .new false) nineMoves).get
    (by decide +kernel)

theorem output_answers_input_nine : nineRun.1.machine.inner.io.input.value = 9 ∧
    getOutput nineRun.1.machine.inner.io = some "Fizz" :=
  ⟨by decide +kernel,(output_answers_input true false nineRun.2 nineRun.1 (exec_get _)
    (by decide +kernel)).trans (by decide +kernel)⟩

end FizzBuzzMinimal
end ProcMachines
