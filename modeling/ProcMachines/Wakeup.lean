import ProcMachines.Waker

/-! Objects that tasks poll in fixed roles, and when a poll left pending can be
trusted. A run remembers for each role its last call, as long as that call is
pending and its waker has not been fired since; a discipline on single calls
makes every remembered call still pending. -/
namespace ProcMachines
namespace Wakeup

/-- An object with its operations. The value of `exec` says whether the operation
is a poll that returned `Pending`. -/
structure Polled (σ W Op Role : Type) where
  exec : Op → Act σ W Bool
  role : Op → Option Role
  waker : Op → Option W

variable {σ W Op Role : Type} [DecidableEq W] [DecidableEq Role]

namespace Polled

def Fired (D : Polled σ W Op Role) (op : Op) (woken : List W) : Prop :=
  ∃ w, D.waker op = some w ∧ w ∈ woken

instance (D : Polled σ W Op Role) (op : Op) (woken : List W) : Decidable (D.Fired op woken) :=
  match h : D.waker op with
  | none => isFalse (by simp [Fired,h])
  | some w => if hw : w ∈ woken then isTrue ⟨w,h,hw⟩ else isFalse (by simp [Fired,h,hw])

/-- The object together with what each role waits for. -/
structure Watched (σ Op Role : Type) where
  obj : σ
  waiting : Role → Option Op

/-- A role's entry after an operation: its own call replaces it, anybody else's call
clears it by firing the waker it stands for. -/
def note (D : Polled σ W Op Role) (op : Op) (out : Call σ W Bool) (r : Role)
    (old : Option Op) : Option Op :=
  if D.role op = some r then if out.ret then some op else none
  else old.filter fun o => ¬ D.Fired o out.woken

def next (D : Polled σ W Op Role) (c : Watched σ Op Role) (op : Op) : Watched σ Op Role :=
  let out := D.exec op c.obj
  ⟨out.self,fun r => D.note op out r (c.waiting r)⟩

def run (D : Polled σ W Op Role) (s : σ) (ops : List Op) : Watched σ Op Role :=
  ops.foldl D.next ⟨s,fun _ => none⟩

def restrict (D : Polled σ W Op Role) (p : Op → Prop) : Polled σ W {op : Op // p op} Role where
  exec op := D.exec op.1
  role op := D.role op.1
  waker op := D.waker op.1

@[simp] theorem run_nil (D : Polled σ W Op Role) (s : σ) : D.run s [] = ⟨s,fun _ => none⟩ := rfl

@[simp] theorem run_snoc (D : Polled σ W Op Role) (s : σ) (ops : List Op) (op : Op) :
    D.run s (ops ++ [op]) = D.next (D.run s ops) op := by
  simp [run]

theorem note_eq_some {D : Polled σ W Op Role} {op o : Op} {out : Call σ W Bool} {r : Role}
    {old : Option Op} (h : D.note op out r old = some o) :
    (D.role op = some r ∧ out.ret = true ∧ o = op) ∨
      (D.role op ≠ some r ∧ old = some o ∧ ¬ D.Fired o out.woken) := by
  unfold note at h
  split at h
  · rename_i hr
    split at h
    · rename_i hp
      exact Or.inl ⟨hr,hp,(Option.some.inj h).symm⟩
    · cases h
  · rename_i hr
    have hf := Option.filter_eq_some_iff.mp h
    exact Or.inr ⟨hr,hf.1,by simpa using hf.2⟩

theorem role_of_waiting (D : Polled σ W Op Role) (s : σ) (ops : List Op) {r : Role} {o : Op}
    (h : (D.run s ops).waiting r = some o) : D.role o = some r := by
  induction ops using List.reverseRecOn with
  | nil => simp at h
  | append_singleton ops op ih =>
    rw [run_snoc] at h
    rcases note_eq_some h with ⟨hr,_,rfl⟩ | ⟨_,hw,_⟩
    · exact hr
    · exact ih hw

end Polled

/-- What single calls must do so that no wakeup is lost: a pending call leaves the
object armed for it, any other call keeps it armed or fires its waker, and an armed
call would be pending again. `allowed` restricts the calls the rule speaks about. -/
structure Discipline (D : Polled σ W Op Role) where
  inv : σ → Prop
  armed : Op → σ → Prop
  allowed : Op → Polled.Watched σ Op Role → Prop
  inv_step : ∀ op s, inv s → inv (D.exec op s).self
  arms : ∀ op s, inv s → (D.exec op s).ret = true → armed op (D.exec op s).self
  keeps : ∀ o op c, inv c.obj → armed o c.obj → allowed op c →
    (∃ r, c.waiting r = some o) → D.role op ≠ D.role o →
    D.Fired o (D.exec op c.obj).woken ∨ armed o (D.exec op c.obj).self
  waits : ∀ o s, inv s → armed o s → (D.exec o s).ret = true

namespace Discipline

variable {D : Polled σ W Op Role}

/-- What a watched run keeps: each entry belongs to its role and is armed. -/
structure Sound (K : Discipline D) (c : Polled.Watched σ Op Role) : Prop where
  inv : K.inv c.obj
  role : ∀ r o, c.waiting r = some o → D.role o = some r
  armed : ∀ r o, c.waiting r = some o → K.armed o c.obj

theorem Sound.next {K : Discipline D} {c : Polled.Watched σ Op Role} (h : K.Sound c) {op : Op}
    (ha : K.allowed op c) : K.Sound (D.next c op) where
  inv := K.inv_step op _ h.inv
  role r o ho := by
    rcases Polled.note_eq_some ho with ⟨hr,_,rfl⟩ | ⟨_,hw,_⟩
    · exact hr
    · exact h.role r o hw
  armed r o ho := by
    rcases Polled.note_eq_some ho with ⟨_,hp,rfl⟩ | ⟨hr,hw,hf⟩
    · exact K.arms _ _ h.inv hp
    · have hne : D.role op ≠ D.role o := by rw [h.role r o hw]; exact hr
      exact (K.keeps o op c h.inv (h.armed r o hw) ha ⟨r,hw⟩ hne).resolve_left hf

theorem sound_run (K : Discipline D) {s : σ} (hs : K.inv s) (ops : List Op)
    (ha : ∀ pre op, pre ++ [op] <+: ops → K.allowed op (D.run s pre)) : K.Sound (D.run s ops) := by
  induction ops using List.reverseRecOn with
  | nil => exact ⟨hs,by simp,by simp⟩
  | append_singleton ops op ih =>
    rw [Polled.run_snoc]
    refine Sound.next (ih fun pre e h => ha pre e (h.trans (List.prefix_append _ _))) ?_
    exact ha ops op (List.prefix_refl _)

omit [DecidableEq W] [DecidableEq Role] in
theorem Sound.repeats {K : Discipline D} {c : Polled.Watched σ Op Role} (h : K.Sound c)
    {r : Role} {o : Op} (ho : c.waiting r = some o) : (D.exec o c.obj).ret = true :=
  K.waits o _ h.inv (h.armed r o ho)

/-- The rule speaks about fewer calls as well. -/
def narrow {p q : Op → Prop} (K : Discipline (D.restrict p)) (hpq : ∀ op, q op → p op) :
    Discipline (D.restrict q) where
  inv := K.inv
  armed op := K.armed ⟨op.1,hpq op.1 op.2⟩
  allowed op c := K.allowed ⟨op.1,hpq op.1 op.2⟩
    ⟨c.obj,fun r => (c.waiting r).map fun o => ⟨o.1,hpq o.1 o.2⟩⟩
  inv_step op s h := K.inv_step ⟨op.1,hpq op.1 op.2⟩ s h
  arms op s h hret := K.arms ⟨op.1,hpq op.1 op.2⟩ s h hret
  keeps o op c h ho hallow hwait hr := by
    obtain ⟨r,hw⟩ := hwait
    exact K.keeps ⟨o.1,hpq o.1 o.2⟩ ⟨op.1,hpq op.1 op.2⟩ _ h ho hallow ⟨r,by simp [hw]⟩ hr
  waits o s h ho := K.waits ⟨o.1,hpq o.1 o.2⟩ s h ho

/-- A discipline without conditions on the calls, for an object whose calls are calls on the
disciplined one, or nothing at all and never pending. -/
def comap {Op' : Type} {D' : Polled σ W Op' Role} (K : Discipline D) (f : Op' → Option Op)
    (hallowed : ∀ op c, K.allowed op c)
    (hsome : ∀ op o, f op = some o → D'.exec op = D.exec o ∧ D'.role op = D.role o ∧
      D'.waker op = D.waker o)
    (hnone : ∀ op, f op = none → D'.exec op = fun s => ⟨s,[],false⟩) : Discipline D' where
  inv := K.inv
  armed op s := ∃ o, f op = some o ∧ K.armed o s
  allowed _ _ := True
  inv_step op s h := by
    cases hf : f op with
    | none =>
      rw [hnone op hf]
      exact h
    | some o =>
      rw [(hsome op o hf).1]
      exact K.inv_step o s h
  arms op s h hret := by
    cases hf : f op with
    | none =>
      rw [hnone op hf] at hret
      cases hret
    | some o =>
      rw [(hsome op o hf).1] at hret ⊢
      exact ⟨o,rfl,K.arms o s h hret⟩
  keeps p op c h hp _ hwait hr := by
    obtain ⟨o,hfo,ho⟩ := hp
    obtain ⟨r,-⟩ := hwait
    obtain ⟨-,hrole,hwaker⟩ := hsome p o hfo
    cases hf : f op with
    | none =>
      rw [hnone op hf]
      exact Or.inr ⟨o,hfo,ho⟩
    | some q =>
      obtain ⟨hexec,hrole',-⟩ := hsome op q hf
      rw [hrole,hrole'] at hr
      rw [hexec]
      rcases K.keeps o q ⟨c.obj,fun _ => some o⟩ h ho (hallowed _ _) ⟨r,rfl⟩ hr with
        ⟨w,hw,hfired⟩ | harmed
      · exact Or.inl ⟨w,hwaker.trans hw,hfired⟩
      · exact Or.inr ⟨o,hfo,harmed⟩
  waits p s h hp := by
    obtain ⟨o,hfo,ho⟩ := hp
    rw [(hsome p o hfo).1]
    exact K.waits o s h ho

end Discipline

/-- An object that keeps its rule in whatever order it is called, with a state to begin in. -/
structure Waitable (W : Type) [DecidableEq W] where
  {σ Op Role : Type}
  [roles : DecidableEq Role]
  polled : Polled σ W Op Role
  rule : Discipline polled
  allows : ∀ op c, rule.allowed op c
  new : σ
  inv_new : rule.inv new

attribute [instance] Waitable.roles

namespace Waitable

variable {W : Type} [DecidableEq W] (O : Waitable W)

theorem inv_run (ops : List O.Op) : O.rule.inv (O.polled.run O.new ops).obj :=
  (O.rule.sound_run O.inv_new ops fun _ _ _ => O.allows _ _).inv

/-- A call in another role keeps an armed poll armed or fires its waker. -/
theorem armed_or_fired {s : O.σ} {o op : O.Op} {r : O.Role} (hs : O.rule.inv s) (ho : O.rule.armed o s)
    (hr : O.polled.role o = some r) (hne : O.polled.role op ≠ some r) :
    O.polled.Fired o (O.polled.exec op s).woken ∨ O.rule.armed o (O.polled.exec op s).self :=
  O.rule.keeps o op ⟨s,fun _ => some o⟩ hs ho (O.allows _ _) ⟨r,rfl⟩ (hr ▸ hne)

end Waitable
end Wakeup
end ProcMachines
