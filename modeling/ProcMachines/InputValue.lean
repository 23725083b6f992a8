import ProcMachines.Waker

/-! The observable input `InputValue`: reading it registers the single consumer, and every
write wakes the consumer. -/
namespace ProcMachines

structure InputValue (W T : Type) where
  consumer : WakerRef W
  value : T
  deriving DecidableEq, Repr

namespace InputValue

variable {W T : Type}

def new (value : T) : InputValue W T := ⟨.new,value⟩

def conPollRef [DecidableEq W] (cx : W) : Act (InputValue W T) W T := fun self =>
  ⟨{ self with consumer := self.consumer.register cx },[],self.value⟩

def set (value : T) : Act (InputValue W T) W Unit := fun self => ⟨⟨.new,value⟩,self.consumer.fired,()⟩

def asRef (self : InputValue W T) : T := self.value

/-- The consumer is woken before the caller gets at the value, and whether or not the caller
changes it. -/
def asMut (change : T → T) : Act (InputValue W T) W Unit := fun self =>
  ⟨⟨.new,change self.value⟩,self.consumer.fired,()⟩

inductive Op (W T : Type)
  | conPollRef (cx : W)
  | set (value : T)
  | asMut (change : T → T)

variable [DecidableEq W]

def call : Op W T → Act (InputValue W T) W (Option T)
  | .conPollRef cx => do return some (← conPollRef cx)
  | .set value => do set value; return none
  | .asMut change => do asMut change; return none

/-- What the consumer has last read, as long as it has not been woken since. -/
def noted (cx : W) (seen : Option T) (out : Call (InputValue W T) W (Option T)) : Option T :=
  match out.ret with
  | some value => some value
  | none => if cx ∈ out.woken then none else seen

def run (cx : W) (self : InputValue W T) (ops : List (Op W T)) : InputValue W T × Option T :=
  ops.foldl (fun r op => ((call op r.1).self,noted cx r.2 (call op r.1))) (self,none)

def Watching (cx : W) (value : T) (self : InputValue W T) : Prop := self = ⟨⟨some cx⟩,value⟩

theorem watching_conPollRef (cx : W) (self : InputValue W T) :
    Watching cx (conPollRef cx self).ret (conPollRef cx self).self := by
  simp [Watching,conPollRef]

omit [DecidableEq W] in
theorem Watching.woken_set {cx : W} {value : T} {self : InputValue W T}
    (h : Watching cx value self) (new : T) : cx ∈ (set new self).woken := by
  subst h
  simp [set]

omit [DecidableEq W] in
theorem Watching.woken_asMut {cx : W} {value : T} {self : InputValue W T}
    (h : Watching cx value self) (change : T → T) : cx ∈ (asMut change self).woken := by
  subst h
  simp [asMut]

theorem noted_write {cx : W} {seen : Option T} {out : Call (InputValue W T) W (Option T)}
    (hret : out.ret = none) (hwoken : ∀ value, seen = some value → cx ∈ out.woken) :
    noted cx seen out = none := by
  cases seen with
  | none => simp [noted,hret]
  | some value => simp [noted,hret,hwoken value rfl]

theorem watching_call {cx : W} {self : InputValue W T} {seen : Option T} {op : Op W T}
    (hop : ∀ w, op = .conPollRef w → w = cx) (h : ∀ value, seen = some value → Watching cx value self)
    (value : T) (hseen : noted cx seen (call op self) = some value) :
    Watching cx value (call op self).self := by
  cases op with
  | conPollRef w =>
    obtain rfl := hop w rfl
    cases hseen
    exact watching_conPollRef w self
  | set new =>
    rw [noted_write rfl fun v hv => by simpa [call] using (h v hv).woken_set new] at hseen
    cases hseen
  | asMut change =>
    rw [noted_write rfl fun v hv => by
      simpa [call] using (h v hv).woken_asMut change] at hseen
    cases hseen

theorem watching_run {cx : W} {self : InputValue W T} {ops : List (Op W T)}
    (hops : ∀ w, Op.conPollRef w ∈ ops → w = cx) {value : T}
    (h : (run cx self ops).2 = some value) : Watching cx value (run cx self ops).1 := by
  induction ops using List.reverseRecOn generalizing value with
  | nil => cases h
  | append_singleton ops op ih =>
    simp only [run,List.foldl_append,List.foldl_cons,List.foldl_nil] at h ⊢
    refine watching_call (fun w hw => hops w (by simp [hw])) (fun v hv => ?_) value h
    exact ih (fun w hw => hops w (List.mem_append_left _ hw)) hv

/-- After any calls, a single consumer that has not been woken since it last read has seen the
current value, and the next write wakes it. -/
theorem seen_or_woken (cx : W) (self : InputValue W T) (ops : List (Op W T))
    (hops : ∀ w, Op.conPollRef w ∈ ops → w = cx) (value : T) (h : (run cx self ops).2 = some value) :
    (run cx self ops).1.asRef = value ∧ (∀ new, (set new (run cx self ops).1).woken = [cx]) ∧
      ∀ change, (asMut change (run cx self ops).1).woken = [cx] := by
  have hw : (run cx self ops).1 = ⟨⟨some cx⟩,value⟩ := watching_run hops h
  rw [hw]
  exact ⟨rfl,fun _ => rfl,fun _ => rfl⟩

example : (run 7 (new 0) [.conPollRef 7,.set 3,.conPollRef 7]).2 = some 3 ∧
    (set 4 (run 7 (new 0) [.conPollRef 7,.set 3,.conPollRef 7]).1).woken = [7] := ⟨rfl,rfl⟩

end InputValue
end ProcMachines
