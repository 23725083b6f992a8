import ProcMachines.Wakeup
import ProcMachines.WatchableValueVersions

/-! The watchable value as an object that tasks poll, each in the role of a watch: a poll told
`Pending` stays pending until its waker is fired. -/
namespace ProcMachines
namespace WatchableValue

open IntrusiveList Wakeup

variable {N T W : Type}

def Op.watch : Op N T W → Option N
  | .new watch | .watchPoll watch _ | .poll watch _ | .watchCheck watch _ | .drop watch => some watch
  | .set _ | .get => none

def Op.waker : Op N T W → Option W
  | .watchPoll _ cx | .poll _ cx | .watchCheck _ cx => some cx
  | _ => none

def isPending : Reply T → Bool
  | .poll p => p.isPending
  | _ => false

variable [DecidableEq N]

instance (head : N) (s : Versions N T W) (op : Op N T W) : Decidable (s.Valid head op) :=
  match op with
  | .new watch => inferInstanceAs (Decidable (watch ≠ head ∧ s.seen watch = none))
  | .watchPoll watch _ | .poll watch _ | .watchCheck watch _ | .drop watch =>
    inferInstanceAs (Decidable (s.seen watch ≠ none))
  | .set _ | .get => isTrue trivial

/-- A value in use, with the versions its watches have seen. The list is never longer than the
calls made so far are many, so their number is fuel enough for the next one. -/
structure Used (N T W : Type) where
  value : WatchableValue N T W
  versions : Versions N T W
  calls : ℕ

variable [DecidableEq W]

namespace Used

def start (head : N) (val : T) : Used N T W := ⟨.new head val,.start val,0⟩

/-- A call on a watch that is not alive is none, and neither is a second creation. -/
def exec (op : Op N T W) : Act (Used N T W) W Bool := fun u =>
  if u.versions.Valid u.value.head op then
    match call (u.calls + 1) op u.value with
    | .ok r => ⟨⟨r.self,(u.versions.step op).1,u.calls + 1⟩,r.woken.map Prod.snd,isPending r.ret⟩
    | .error _ => ⟨u,[],false⟩
  else ⟨u,[],false⟩

def Kept (u : Used N T W) : Prop :=
  ∃ F, Simulates u.value F u.versions ∧ (F.row u.value.head).length ≤ u.calls

/-- The poll's watch has seen the current version, with the poll's waker. -/
def Armed (op : Op N T W) (u : Used N T W) : Prop :=
  ∃ a cx, (op = .watchPoll a cx ∨ op = .poll a cx) ∧
    u.versions.seen a = some (some (u.versions.version,cx))

variable {u : Used N T W} {op o : Op N T W}

theorem exec_valid (hu : u.Kept) (hv : u.versions.Valid u.value.head op) :
    ∃ r : After N T W (Reply T), Matches (r.ret,r.woken) ((u.versions.step op).2,u.versions.Wakes op) ∧
      exec op u = ⟨⟨r.self,(u.versions.step op).1,u.calls + 1⟩,r.woken.map Prod.snd,isPending r.ret⟩ ∧
      (exec op u).self.Kept := by
  obtain ⟨F,hs,hlen⟩ := hu
  obtain ⟨r,F',hcall,hmatches,hs',hhead,hlen'⟩ := goes hs hv (Nat.lt_succ_of_le hlen)
  have hexec : exec op u =
      ⟨⟨r.self,(u.versions.step op).1,u.calls + 1⟩,r.woken.map Prod.snd,isPending r.ret⟩ := by
    simp only [exec,if_pos hv,hcall]
  refine ⟨r,hmatches,hexec,?_⟩
  rw [hexec]
  refine ⟨F',hs',?_⟩
  change (F'.row r.self.head).length ≤ u.calls + 1
  rw [hhead]
  omega

theorem exec_invalid (hv : ¬ u.versions.Valid u.value.head op) : exec op u = ⟨u,[],false⟩ := if_neg hv

theorem kept_exec (hu : u.Kept) (op : Op N T W) : (exec op u).self.Kept := by
  by_cases hv : u.versions.Valid u.value.head op
  · obtain ⟨-,-,-,hk⟩ := exec_valid hu hv
    exact hk
  · rw [exec_invalid hv]
    exact hu

theorem arms (hu : u.Kept) (h : (exec op u).ret = true) : Armed op (exec op u).self := by
  by_cases hv : u.versions.Valid u.value.head op
  · obtain ⟨r,⟨hret,-⟩,hexec,-⟩ := exec_valid hu hv
    rw [hexec] at h ⊢
    have hpending : isPending (u.versions.step op).2 = true := by
      rw [← show r.ret = (u.versions.step op).2 from hret]
      exact h
    cases op with
    | watchPoll a cx => exact ⟨a,cx,Or.inl rfl,by simp [Versions.step,Versions.look]⟩
    | poll a cx => exact ⟨a,cx,Or.inr rfl,by simp [Versions.step,Versions.look]⟩
    | _ => cases hpending
  · rw [exec_invalid hv] at h
    cases h

omit [DecidableEq W] in
/-- What a watch has seen changes only by calls on it, and the version only by a set, which
wakes the watches that have seen the version before. -/
theorem seen_or_wakes (s : Versions N T W) {a : N} {cx : W} (h : op.watch ≠ some a)
    (ha : s.seen a = some (some (s.version,cx))) :
    s.Wakes op (a,cx) ∨ (s.step op).1.seen a = some (some ((s.step op).1.version,cx)) := by
  cases op with
  | set val => exact Or.inl ha
  | get => exact Or.inr ha
  | _ =>
    have hne : a ≠ _ := fun e => h (congrArg some e.symm)
    exact Or.inr (by simp only [Versions.step,Versions.look,Function.update_of_ne hne,ha])

theorem keeps (hu : u.Kept) (ho : Armed o u) (hne : op.watch ≠ o.watch) :
    (∃ w, o.waker = some w ∧ w ∈ (exec op u).woken) ∨ Armed o (exec op u).self := by
  obtain ⟨a,cx,hop,hseen⟩ := ho
  have hpoll : o.watch = some a ∧ o.waker = some cx := by
    rcases hop with rfl | rfl <;> exact ⟨rfl,rfl⟩
  by_cases hv : u.versions.Valid u.value.head op
  · obtain ⟨r,⟨-,-,hwoken⟩,hexec,-⟩ := exec_valid hu hv
    rw [hexec]
    rw [hpoll.1] at hne
    rcases seen_or_wakes u.versions hne hseen with hwakes | hkept
    · exact Or.inl ⟨cx,hpoll.2,List.mem_map.mpr ⟨_,(hwoken _).mpr hwakes,rfl⟩⟩
    · exact Or.inr ⟨a,cx,hop,hkept⟩
  · rw [exec_invalid hv]
    exact Or.inr ⟨a,cx,hop,hseen⟩

theorem waits (hu : u.Kept) (ho : Armed o u) : (exec o u).ret = true := by
  obtain ⟨a,cx,hop,hseen⟩ := ho
  have hv : u.versions.Valid u.value.head o := by
    rcases hop with rfl | rfl <;> simp [Versions.Valid,hseen]
  obtain ⟨r,⟨hret,-⟩,hexec,-⟩ := exec_valid hu hv
  have hstale : u.versions.stale a = false := by simp [Versions.stale,hseen]
  rw [hexec]
  change isPending r.ret = true
  rw [show r.ret = (u.versions.step o).2 from hret]
  rcases hop with rfl | rfl <;> simp [Versions.step,hstale,isPending]

/-- A value in use, polled in the role of each watch by its owner. -/
def polled : Polled (Used N T W) W (Op N T W) N where
  exec := exec
  role := Op.watch
  waker := Op.waker

def discipline : Discipline (polled (N := N) (T := T) (W := W)) where
  inv := Kept
  armed := Armed
  allowed _ _ := True
  inv_step op _ h := kept_exec h op
  arms _ _ h hret := arms h hret
  keeps _ _ _ h ho _ _ hne := keeps h ho hne
  waits _ _ h ho := waits h ho

end Used
end WatchableValue
end ProcMachines
