import ProcMachines.WaitLoop

/-! The task `fizz_buzz_task` that the examples `fizz_buzz_sans_io` and `fizz_buzz_io` share,
over what it reads from and what it sends to, and the lines the examples have to print. -/
namespace ProcMachines
namespace FizzBuzz

/-- What the closure of the task captures. -/
structure Sends where
  send1 : Option String
  send2 : Option String
  deriving DecidableEq, Repr

def Sends.none : Sends := ⟨Option.none,Option.none⟩

def Sends.left (self : Sends) : List String := self.send1.toList ++ self.send2.toList

section Closure

variable {σ W RERR SERR : Type}

def sent : Poll (Except SERR Unit) → Loop Unit
  | .ready (.ok _) => .again
  | .ready (.error _) => .done ()
  | .pending => .wait

def fizzBuzzTask (read : Act σ W (Poll (Except RERR (Option ℕ))))
    (send : Option String → Act σ W (Poll (Except SERR Unit) × Option String)) (self : Sends) :
    Act σ W (Loop Unit × Sends) := do
  if self.send1.isSome then
    let (res,send1) ← send self.send1
    return (sent res,{ self with send1 := send1 })
  if self.send2.isSome then
    let (res,send2) ← send self.send2
    return (sent res,{ self with send2 := send2 })
  match ← read with
  | .ready (.ok (some val)) =>
    return (.again,⟨if val % 3 = 0 then some "Fizz" else self.send1,
      if val % 5 = 0 then some "Buzz" else self.send2⟩)
  | .ready (.ok none) | .ready (.error _) => return (.done (),self)
  | .pending => return (.wait,self)

variable {read : Act σ W (Poll (Except RERR (Option ℕ)))}
  {send : Option String → Act σ W (Poll (Except SERR Unit) × Option String)} {w : σ}

theorem task_send1 (line : String) (send2 : Option String) :
    fizzBuzzTask read send ⟨some line,send2⟩ w = ⟨(send (some line) w).self,
      (send (some line) w).woken,sent (send (some line) w).ret.1,⟨(send (some line) w).ret.2,send2⟩⟩ := by
  simp [fizzBuzzTask]

theorem task_send2 (line : String) :
    fizzBuzzTask read send ⟨none,some line⟩ w = ⟨(send (some line) w).self,
      (send (some line) w).woken,sent (send (some line) w).ret.1,⟨none,(send (some line) w).ret.2⟩⟩ := by
  simp [fizzBuzzTask]

theorem task_read (val : ℕ) (h : (read w).ret = .ready (.ok (some val))) :
    fizzBuzzTask read send .none w = ⟨(read w).self,(read w).woken,.again,
      ⟨if val % 3 = 0 then some "Fizz" else none,if val % 5 = 0 then some "Buzz" else none⟩⟩ := by
  simp [fizzBuzzTask,Sends.none,h]

theorem task_wait (h : (read w).ret = .pending) :
    fizzBuzzTask read send .none w = ⟨(read w).self,(read w).woken,.wait,.none⟩ := by
  simp [fizzBuzzTask,Sends.none,h]

theorem task_end (h : (read w).ret = .ready (.ok none)) :
    fizzBuzzTask read send .none w = ⟨(read w).self,(read w).woken,.done (),.none⟩ := by
  simp [fizzBuzzTask,Sends.none,h]

end Closure

def words (n : ℕ) : List String :=
  (if 3 ∣ n then ["Fizz"] else []) ++ if 5 ∣ n then ["Buzz"] else []

/-- The lines for the numbers from 1 on: each number, and its words. -/
def text : ℕ → List String
  | 0 => []
  | n+1 => text n ++ toString (n+1) :: words (n+1)

theorem text_mono {m n : ℕ} (h : m ≤ n) : text m <+: text n := by
  induction n, h using Nat.le_induction with
  | base => exact List.prefix_refl _
  | succ n _ ih => exact ih.trans (List.prefix_append _ _)

theorem left_read (val : ℕ) : Sends.left ⟨if val % 3 = 0 then some "Fizz" else none,
    if val % 5 = 0 then some "Buzz" else none⟩ = words val := by
  simp only [Sends.left,words,Nat.dvd_iff_mod_eq_zero]
  split <;> split <;> rfl

end FizzBuzz
end ProcMachines
