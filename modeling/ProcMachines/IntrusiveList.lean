import ProcMachines.LinkedRing

/-! The intrusive list on a heap of nodes. Addresses stand for the raw pointers; a
null dereference, a dereference of a dropped node, a failed assertion and a loop that
outlives its fuel are faults. The values nodes carry are kept outside the list; here
a node only has the head it targets. -/
namespace ProcMachines
namespace IntrusiveList

open LinkedRing

inductive Fault
  | nullDeref | dangling | wrongHead | diverged
  deriving DecidableEq, Repr

/-- `target_node` is `None` on a head. -/
structure IntrusiveListNode (N : Type) where
  targetNode : Option N
  prev : Option N
  next : Option N
  deriving DecidableEq, Repr

def IntrusiveListNode.new {N : Type} (targetNode : Option N) : IntrusiveListNode N :=
  ⟨targetNode,none,none⟩

def IntrusiveListNode.isLinked {N : Type} (self : IntrusiveListNode N) : Bool :=
  self.prev.isSome && self.next.isSome

abbrev Heap (N : Type) := N → Option (IntrusiveListNode N)

abbrev Mem (N : Type) := StateT (Heap N) (Except Fault)

variable {N σ : Type}

namespace Heap

def empty : Heap N := fun _ => none

def targets (h : Heap N) : N → Option (Option N) := fun n => (h n).map (·.targetNode)

def links (h : Heap N) : Links N := ⟨fun n => (h n).bind (·.next),fun n => (h n).bind (·.prev)⟩

variable [DecidableEq N]

def setNext (h : Heap N) (n : N) (p : Option N) : Heap N :=
  Function.update h n ((h n).map fun node => { node with next := p })

def setPrev (h : Heap N) (n : N) (p : Option N) : Heap N :=
  Function.update h n ((h n).map fun node => { node with prev := p })

@[simp] theorem targets_setNext (h : Heap N) (n : N) (p : Option N) :
    (h.setNext n p).targets = h.targets := by
  funext m
  by_cases hm : m = n
  · subst hm
    simp [targets,setNext,Function.comp_def]
  · simp [targets,setNext,hm]

@[simp] theorem targets_setPrev (h : Heap N) (n : N) (p : Option N) :
    (h.setPrev n p).targets = h.targets := by
  funext m
  by_cases hm : m = n
  · subst hm
    simp [targets,setPrev,Function.comp_def]
  · simp [targets,setPrev,hm]

theorem links_setNext {h : Heap N} {n : N} (p : Option N) (hn : h.targets n ≠ none) :
    (h.setNext n p).links = ⟨Function.update h.links.next n p,h.links.prev⟩ := by
  have hlive : ∃ node, h n = some node := by simpa [targets,Option.ne_none_iff_exists'] using hn
  obtain ⟨node,hnode⟩ := hlive
  ext m : 2
  · by_cases hm : m = n
    · subst hm
      simp [links,setNext,hnode]
    · simp [links,setNext,hm]
  · by_cases hm : m = n
    · subst hm
      simp [links,setNext,hnode]
    · simp [links,setNext,hm]

theorem links_setPrev {h : Heap N} {n : N} (p : Option N) (hn : h.targets n ≠ none) :
    (h.setPrev n p).links = ⟨h.links.next,Function.update h.links.prev n p⟩ := by
  have hlive : ∃ node, h n = some node := by simpa [targets,Option.ne_none_iff_exists'] using hn
  obtain ⟨node,hnode⟩ := hlive
  ext m : 2
  · by_cases hm : m = n
    · subst hm
      simp [links,setPrev,hnode]
    · simp [links,setPrev,hm]
  · by_cases hm : m = n
    · subst hm
      simp [links,setPrev,hnode]
    · simp [links,setPrev,hm]

def join (h : Heap N) (a b : N) : Heap N := (h.setNext a (some b)).setPrev b (some a)

def clear (h : Heap N) (n : N) : Heap N := (h.setPrev n none).setNext n none

@[simp] theorem targets_join (h : Heap N) (a b : N) : (h.join a b).targets = h.targets := by
  simp [join]

@[simp] theorem targets_clear (h : Heap N) (n : N) : (h.clear n).targets = h.targets := by
  simp [clear]

theorem links_join {h : Heap N} {a b : N} (ha : h.targets a ≠ none) (hb : h.targets b ≠ none) :
    (h.join a b).links = h.links.join a b := by
  rw [join,links_setPrev _ (by simpa using hb),links_setNext _ ha]
  rfl

theorem links_clear {h : Heap N} {n : N} (hn : h.targets n ≠ none) :
    (h.clear n).links = h.links.clear n := by
  rw [clear,links_setNext _ (by simpa using hn),links_setPrev _ hn]
  rfl

end Heap

def read (n : N) : Mem N (IntrusiveListNode N) := do
  match (← get) n with
  | some node => return node
  | none => throw .dangling

/-- The address behind a link, which must not be null. -/
def deref (p : Option N) : Mem N N :=
  match p with
  | some n => return n
  | none => throw .nullDeref

def assertTarget [DecidableEq N] (head : N) (node : IntrusiveListNode N) : Mem N Unit :=
  if node.targetNode = some head then return () else throw .wrongHead

variable [DecidableEq N]

def setNext (n : N) (p : Option N) : Mem N Unit := do
  let _ ← read n
  modify (·.setNext n p)

def setPrev (n : N) (p : Option N) : Mem N Unit := do
  let _ ← read n
  modify (·.setPrev n p)

def link (head node : N) : Mem N Unit := do
  let n ← read node
  assertTarget head n
  if n.isLinked then return ()
  let hd ← read head
  if !hd.isLinked then
    setNext head (some head)
    setPrev head (some head)
  let pn ← deref (← read head).prev
  setNext pn (some node)
  setPrev node (some pn)
  setNext node (some head)
  setPrev head (some node)

def clear (node : N) : Mem N Unit := do
  setPrev node none
  setNext node none

/-- `unlink` on a node other than the guard's head. -/
def unlinkLeaf (head node : N) : Mem N Unit := do
  let n ← read node
  assertTarget head n
  if n.isLinked then
    let pn ← deref n.prev
    let nn ← deref n.next
    setNext pn (some nn)
    setPrev nn (some pn)
    clear node

def unlinkLeaves (head : N) : ℕ → Mem N Unit
  | 0 => throw .diverged
  | fuel+1 => do
    match (← read head).next with
    | none => return ()
    | some next =>
      if next = head then return ()
      -- the recursive call to `unlink`, on a node that is not the head
      unlinkLeaf head next
      unlinkLeaves head fuel

def unlink (fuel : ℕ) (head node : N) : Mem N Unit :=
  if node = head then do
    unlinkLeaves head fuel
    clear node
  else unlinkLeaf head node

/-- The loop of `filter`, with its cursor. The closure may use the list itself. -/
def filterFrom (head : N) (f : N → σ → Mem N (Bool × σ)) : ℕ → Option N → σ → Mem N σ
  | 0, _, _ => throw .diverged
  | fuel+1, pn, s =>
    if pn = some head then return s
    else do
      let n ← deref pn
      let pn := (← read n).next
      let (keep,s) ← f n s
      if !keep then unlinkLeaf head n
      filterFrom head f fuel pn s

def filter (fuel : ℕ) (head : N) (f : N → σ → Mem N (Bool × σ)) (s : σ) : Mem N σ := do
  let hd ← read head
  if hd.isLinked then filterFrom head f fuel hd.next s else return s

/-- The head whose mutex `lock_head` takes. -/
def lockHead (node : N) : Mem N N := do
  let head := (← read node).targetNode.getD node
  let _ ← read head
  return head

def drop (fuel : ℕ) (node : N) : Mem N Unit := do
  let head ← lockHead node
  unlink fuel head node
  modify fun h => Function.update h node none

def create (node : N) (targetNode : Option N) : Mem N Unit :=
  modify fun h => Function.update h node (some (.new targetNode))

/-- The run of `m` from `h` ends without a fault. -/
def Exec {α : Type} (m : Mem N α) (h : Heap N) (a : α) (h' : Heap N) : Prop :=
  m.run h = .ok (a,h')

section Exec

variable {α β : Type} {h h' h'' : Heap N} {head n node p q : N} {t : Option N}

omit [DecidableEq N] in
theorem Exec.bind {m : Mem N α} {k : α → Mem N β} {a : α} {b : β} (hm : Exec m h a h')
    (hk : Exec (k a) h' b h'') : Exec (m >>= k) h b h'' := by
  unfold Exec at *
  rw [StateT.run_bind,hm]
  exact hk

omit [DecidableEq N] in
theorem pure_exec (a : α) (h : Heap N) : Exec (pure a : Mem N α) h a h := rfl

omit [DecidableEq N] in
theorem deref_exec (p : N) (h : Heap N) : Exec (deref (some p)) h p h := rfl

omit [DecidableEq N] in
theorem read_exec (hn : h.targets n = some t) :
    Exec (read n) h ⟨t,h.links.prev n,h.links.next n⟩ h := by
  obtain ⟨node,hnode,rfl⟩ := Option.map_eq_some_iff.mp hn
  simp only [Exec,read,StateT.run_bind,StateT.run_get,pure_bind,hnode,Heap.links]
  rfl

theorem setNext_exec (p : Option N) (hn : h.targets n ≠ none) :
    Exec (setNext n p) h () (h.setNext n p) := by
  obtain ⟨t,ht⟩ := Option.ne_none_iff_exists'.mp hn
  exact (read_exec ht).bind rfl

theorem setPrev_exec (p : Option N) (hn : h.targets n ≠ none) :
    Exec (setPrev n p) h () (h.setPrev n p) := by
  obtain ⟨t,ht⟩ := Option.ne_none_iff_exists'.mp hn
  exact (read_exec ht).bind rfl

theorem clear_exec (hn : h.targets n ≠ none) : Exec (clear n) h () (h.clear n) :=
  (setPrev_exec none hn).bind (setNext_exec none (by simpa using hn))

theorem assertTarget_exec (prev next : Option N) :
    Exec (assertTarget head ⟨some head,prev,next⟩) h () h := by
  simp [assertTarget,pure_exec]

theorem link_exec_linked (hn : h.targets node = some (some head))
    (hprev : h.links.prev node ≠ none) (hnext : h.links.next node ≠ none) :
    Exec (link head node) h () h := by
  refine (read_exec hn).bind ((assertTarget_exec _ _).bind ?_)
  obtain ⟨p,hp⟩ := Option.ne_none_iff_exists'.mp hprev
  obtain ⟨q,hq⟩ := Option.ne_none_iff_exists'.mp hnext
  simp [IntrusiveListNode.isLinked,hp,hq,pure_exec]

theorem append_exec (hn : h.targets node ≠ none) (hhead : h.targets head = some t)
    (hp : h.links.prev head = some p) (hpl : h.targets p ≠ none) :
    Exec (do
      let pn ← deref (← read head).prev
      setNext pn (some node)
      setPrev node (some pn)
      setNext node (some head)
      setPrev head (some node)) h () ((h.join p node).join node head) := by
  refine (read_exec hhead).bind ?_
  rw [hp]
  refine (deref_exec p h).bind ((setNext_exec _ hpl).bind ?_)
  refine (setPrev_exec _ (by simpa using hn)).bind ?_
  exact (setNext_exec _ (by simpa using hn)).bind (setPrev_exec _ (by simp [hhead]))

theorem link_exec (hn : h.targets node = some (some head)) (hnull : h.links.next node = none)
    (hhead : h.targets head = some t) (hp : h.links.prev head = some p)
    (hnext : h.links.next head ≠ none) (hpl : h.targets p ≠ none) :
    Exec (link head node) h () ((h.join p node).join node head) := by
  obtain ⟨q,hq⟩ := Option.ne_none_iff_exists'.mp hnext
  have happ := append_exec (by simp [hn] : h.targets node ≠ none) hhead hp hpl
  refine (read_exec hn).bind ((assertTarget_exec _ _).bind ?_)
  simp only [IntrusiveListNode.isLinked,hnull,Option.isSome_none,Bool.and_false]
  refine (read_exec hhead).bind ?_
  simp only [hp,hq,Option.isSome_some,Bool.and_self]
  exact happ

/-- The first node linked makes the head link to itself first. -/
theorem link_exec_first (hn : h.targets node = some (some head)) (hnull : h.links.next node = none)
    (hhead : h.targets head = some t) (hnext : h.links.next head = none) :
    Exec (link head node) h () (((h.join head head).join head node).join node head) := by
  have hself : (h.join head head).links.prev head = some head := by
    rw [Heap.links_join (by simp [hhead]) (by simp [hhead])]
    simp [Links.join]
  have happ := append_exec (by simp [hn] : (h.join head head).targets node ≠ none)
    (by simpa using hhead) hself (by simp [hhead])
  refine (read_exec hn).bind ((assertTarget_exec _ _).bind ?_)
  simp only [IntrusiveListNode.isLinked,hnull,Option.isSome_none,Bool.and_false]
  refine (read_exec hhead).bind ?_
  simp only [hnext,Option.isSome_none,Bool.and_false]
  refine (setNext_exec _ (by simp [hhead])).bind ?_
  exact (setPrev_exec _ (by simp [hhead])).bind happ

theorem unlinkLeaf_exec_unlinked (hn : h.targets node = some (some head))
    (hnull : h.links.next node = none) : Exec (unlinkLeaf head node) h () h := by
  refine (read_exec hn).bind ((assertTarget_exec _ _).bind ?_)
  simp [IntrusiveListNode.isLinked,hnull,pure_exec]

theorem unlinkLeaf_exec (hn : h.targets node = some (some head))
    (hp : h.links.prev node = some p) (hq : h.links.next node = some q)
    (hpl : h.targets p ≠ none) (hql : h.targets q ≠ none) :
    Exec (unlinkLeaf head node) h () ((h.join p q).clear node) := by
  refine (read_exec hn).bind ((assertTarget_exec _ _).bind ?_)
  simp only [IntrusiveListNode.isLinked,hp,hq,Option.isSome_some,Bool.and_self,if_true]
  refine (deref_exec p h).bind ((deref_exec q h).bind ?_)
  refine (setNext_exec _ hpl).bind ((setPrev_exec _ (by simpa using hql)).bind ?_)
  exact clear_exec (by simp [hn])

end Exec
end IntrusiveList
end ProcMachines
