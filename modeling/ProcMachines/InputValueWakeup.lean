import ProcMachines.InputValue
import ProcMachines.Wakeup

/-! The observable input as an object that a task polls: a consumer that has read a value it does
not go on with waits until its waker is fired. -/
namespace ProcMachines
namespace InputValue

open Wakeup

variable {W T : Type} [DecidableEq W]

/-- A call, with the values on which a consumer that reads them returns `Pending`. -/
abbrev Look (W T : Type) := Op W T × (T → Bool)

omit [DecidableEq W] in
def Op.waker : Op W T → Option W
  | .conPollRef cx => some cx
  | _ => none

def polled : Polled (InputValue W T) W (Look W T) Unit where
  exec look := do return (← call look.1).any look.2
  role look := look.1.waker.map fun _ => ()
  waker look := look.1.waker

/-- The consumer has seen the value, and its waker is stored. -/
def Armed (look : Look W T) (self : InputValue W T) : Prop :=
  ∃ cx value, look.1 = .conPollRef cx ∧ Watching cx value self ∧ look.2 value = true

theorem arms (look : Look W T) (self : InputValue W T) (h : (polled.exec look self).ret = true) :
    Armed look (polled.exec look self).self := by
  rcases look with ⟨op,wait⟩
  cases op with
  | conPollRef cx =>
    exact ⟨cx,self.value,rfl,watching_conPollRef cx self,by simpa [polled,call,conPollRef] using h⟩
  | set new => simp [polled,call] at h
  | asMut change => simp [polled,call] at h

theorem keeps (o look : Look W T) (self : InputValue W T) (h : Armed o self)
    (hne : polled.role look ≠ polled.role o) : polled.Fired o (polled.exec look self).woken := by
  obtain ⟨cx,value,ho,hwatch,-⟩ := h
  rcases look with ⟨op,wait⟩
  refine ⟨cx,by simp [polled,ho,Op.waker],?_⟩
  cases op with
  | conPollRef w => simp [polled,ho,Op.waker] at hne
  | set new => simpa [polled,call] using hwatch.woken_set new
  | asMut change => simpa [polled,call] using hwatch.woken_asMut change

theorem waits (o : Look W T) (self : InputValue W T) (h : Armed o self) :
    (polled.exec o self).ret = true := by
  obtain ⟨cx,value,ho,rfl,hwait⟩ := h
  simpa [polled,ho,call,conPollRef] using hwait

def discipline : Discipline (polled (W := W) (T := T)) where
  inv _ := True
  armed := Armed
  allowed _ _ := True
  inv_step _ _ _ := trivial
  arms look self _ h := arms look self h
  keeps o look c _ ho _ _ hne := Or.inl (keeps o look c.obj ho hne)
  waits o self _ ho := waits o self ho

end InputValue
end ProcMachines
