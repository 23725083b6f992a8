import ProcMachines.IntrusiveListRows

/-! Runs of operations on any number of heads and leaves refine the sequences the
heads stand for. -/
namespace ProcMachines
namespace IntrusiveList

open LinkedRing

/-- The abstract state: the nodes alive with their targets, and each head's sequence. -/
structure Rows (N : Type) where
  target : N → Option (Option N)
  row : N → List N

inductive Op (N σ : Type)
  | create (node : N) (targetNode : Option N)
  | link (head node : N)
  | unlink (head node : N)
  | filter (head : N) (f : N → σ → Bool × σ) (s : σ)
  | drop (node : N)

variable {N σ : Type} [DecidableEq N]

/-- One call; a filter returns the last state of its closure. -/
def call (fuel : ℕ) : Op N σ → Mem N (Option σ)
  | .create node targetNode => do create node targetNode; return none
  | .link head node => do link head node; return none
  | .unlink head node => do unlink fuel head node; return none
  | .filter head f s => do return some (← filter fuel head (quiet f) s)
  | .drop node => do drop fuel node; return none

def run (fuel : ℕ) : List (Op N σ) → Mem N (List (Option σ))
  | [] => return []
  | op :: ops => do
    let r ← call fuel op
    let rs ← run fuel ops
    return r :: rs

namespace Rows

omit [DecidableEq N] in
@[ext] theorem ext' {F F' : Rows N} (ht : F.target = F'.target) (hr : F.row = F'.row) : F = F' := by
  cases F
  cases F'
  simp_all

def empty : Rows N := ⟨fun _ => none,fun _ => []⟩

def setRow (F : Rows N) (head : N) (l : List N) : Rows N :=
  { F with row := Function.update F.row head l }

theorem setRow_setRow (F : Rows N) (g : N) (l l' : List N) :
    (F.setRow g l).setRow g l' = F.setRow g l' := by
  simp [setRow]

theorem setRow_row_self (F : Rows N) (g : N) (l : List N) : (F.setRow g l).row g = l := by
  simp [setRow]

theorem setRow_self (F : Rows N) (g : N) : F.setRow g (F.row g) = F := by
  simp [setRow]

def unlink (F : Rows N) (head node : N) : Rows N :=
  F.setRow head (if node = head then [] else (F.row head).erase node)

def step (F : Rows N) : Op N σ → Rows N × Option σ
  | .create node targetNode => ({ F with target := Function.update F.target node (some targetNode) },none)
  | .link head node =>
    (F.setRow head (if node ∈ F.row head then F.row head else F.row head ++ [node]),none)
  | .unlink head node => (F.unlink head node,none)
  | .filter head f s =>
    (F.setRow head (sift f (F.row head) s).1,some (sift f (F.row head) s).2)
  | .drop node =>
    let F' := F.unlink (((F.target node).join).getD node) node
    ({ F' with target := Function.update F.target node none },none)

def run (F : Rows N) : List (Op N σ) → Rows N × List (Option σ)
  | [] => (F,[])
  | op :: ops =>
    let (F,r) := F.step op
    let (F,rs) := F.run ops
    (F,r :: rs)

end Rows

/-- Calls a program can make: on live nodes, through the guard of the head they target,
and at a free address for a new node. -/
def Op.Valid (F : Rows N) : Op N σ → Prop
  | .create node _ => F.target node = none
  | .link head node => F.target head = some none ∧ F.target node = some (some head)
  | .unlink head node => F.target head = some none ∧
      (node = head ∨ F.target node = some (some head))
  | .filter head _ _ => F.target head = some none
  | .drop node => F.target node = some none ∨
      ∃ head, F.target node = some (some head) ∧ F.target head = some none

def ValidRun (F : Rows N) : List (Op N σ) → Prop
  | [] => True
  | op :: ops => op.Valid F ∧ ValidRun (F.step op).1 ops

/-- The heap stores the sequences: every head a ring of its leaves or nothing, and a
leaf outside its head's sequence has null links. -/
structure Represents (h : Heap N) (F : Rows N) : Prop where
  targets : h.targets = F.target
  row : ∀ g, F.target g = some none → Row h g (F.row g)
  empty : ∀ g, F.target g ≠ some none → F.row g = []
  null : ∀ g n, F.target n = some (some g) → n ∉ F.row g → Null h n

variable {h h' : Heap N} {F : Rows N} {g n : N} {l s : List N}

omit [DecidableEq N] in
theorem Represents.head_of_mem (hF : Represents h F) (hn : n ∈ F.row g) :
    F.target g = some none := by
  by_contra hg
  rw [hF.empty g hg] at hn
  simp at hn

omit [DecidableEq N] in
theorem Represents.target_of_mem (hF : Represents h F) (hn : n ∈ F.row g) :
    F.target n = some (some g) := by
  rw [← hF.targets]
  exact (hF.row g (hF.head_of_mem hn)).leaf n hn

omit [DecidableEq N] in
theorem Represents.isLinked_iff (hF : Represents h F) {node : IntrusiveListNode N}
    (hn : h n = some node) (ht : node.targetNode = some g) :
    node.isLinked = true ↔ n ∈ F.row g := by
  have htarget : F.target n = some (some g) := by
    rw [← hF.targets,Heap.targets,hn,← ht]
    rfl
  have hnext : h.links.next n = node.next := by simp [Heap.links,hn]
  have hprev : h.links.prev n = node.prev := by simp [Heap.links,hn]
  constructor
  · intro hlinked
    by_contra hrow
    have hnull := hF.null g n htarget hrow
    rw [Null,hnext,hprev] at hnull
    simp [IntrusiveListNode.isLinked,hnull.1] at hlinked
  · intro hrow
    have hlinked := (hF.row g (hF.head_of_mem hrow)).linked hrow
    rw [hnext,hprev] at hlinked
    simp [IntrusiveListNode.isLinked,Option.isSome_iff_ne_none,hlinked.1,hlinked.2]

omit [DecidableEq N] in
theorem heap_ext (ht : h.targets = h'.targets) (hl : h.links = h'.links) : h = h' := by
  funext n
  have htarget : (h n).map (·.targetNode) = (h' n).map (·.targetNode) := congrFun ht n
  have hnext : (h n).bind (·.next) = (h' n).bind (·.next) := congrFun (congrArg Links.next hl) n
  have hprev : (h n).bind (·.prev) = (h' n).bind (·.prev) := congrFun (congrArg Links.prev hl) n
  rcases hn : h n with _ | ⟨t,p,q⟩ <;> rcases hn' : h' n with _ | ⟨t',p',q'⟩ <;>
    simp_all

omit [DecidableEq N] in
/-- The sequences, and which heads are linked to themselves, determine the heap. -/
theorem Represents.unique (hF : Represents h F) (hF' : Represents h' F)
    (hnull : ∀ g, F.target g = some none → (Null h g ↔ Null h' g)) : h = h' := by
  have hlinks : ∀ n, h.links.next n = h'.links.next n ∧ h.links.prev n = h'.links.prev n := by
    intro n
    have both : Null h n → Null h' n →
        h.links.next n = h'.links.next n ∧ h.links.prev n = h'.links.prev n := fun h₁ h₂ =>
      ⟨h₁.1.trans h₂.1.symm,h₁.2.trans h₂.2.symm⟩
    rcases ht : F.target n with _ | _ | g
    · have hdead : h n = none := Option.map_eq_none_iff.mp ((congrFun hF.targets n).trans ht)
      have hdead' : h' n = none := Option.map_eq_none_iff.mp ((congrFun hF'.targets n).trans ht)
      simp [Heap.links,hdead,hdead']
    · rcases (hF.row n ht).ring with ⟨_,hn⟩ | hc
      · exact both hn ((hnull n ht).mp hn)
      · rcases (hF'.row n ht).ring with ⟨_,hn'⟩ | hc'
        · exact absurd ((hnull n ht).mpr hn') (not_null_of_closed hc)
        · exact ⟨hc.seg.next_unique hc'.seg (by simp),hc.seg.prev_unique hc'.seg (by simp)⟩
    · by_cases hmem : n ∈ F.row g
      · have hg := hF.head_of_mem hmem
        have hc := (hF.row g hg).closed hmem
        have hc' := (hF'.row g hg).closed hmem
        exact ⟨hc.seg.next_unique hc'.seg (by simp [hmem]),
          hc.seg.prev_unique hc'.seg (by simp [hmem])⟩
      · exact both (hF.null g n ht hmem) (hF'.null g n ht hmem)
  refine heap_ext (hF.targets.trans hF'.targets.symm) (Links.ext ?_ ?_)
  · funext n
    exact (hlinks n).1
  · funext n
    exact (hlinks n).2

theorem Represents.update (hF : Represents h F) (hg : F.target g = some none)
    (hf : Frame s h h') (hs : ∀ x ∈ s, x = g ∨ F.target x = some (some g)) (hrow : Row h' g l)
    (hnull : ∀ x, F.target x = some (some g) → x ∉ l → Null h' x) :
    Represents h' (F.setRow g l) where
  targets := hf.targets.trans hF.targets
  row k hk := by
    by_cases hkg : k = g
    · subst hkg
      simpa [Rows.setRow] using hrow
    · have hold := (hF.row k hk).frame hf fun x hx hxs => by
        rcases hs x hxs with rfl | hxg
        · rcases List.mem_cons.mp hx with rfl | hx
          · exact hkg rfl
          · have hxk := hF.target_of_mem hx
            rw [hg] at hxk
            simp at hxk
        · rcases List.mem_cons.mp hx with rfl | hx
          · change F.target x = some none at hk
            rw [hk] at hxg
            simp at hxg
          · have hxk := hF.target_of_mem hx
            rw [hxg] at hxk
            simp only [Option.some.injEq] at hxk
            exact hkg hxk.symm
      simpa [Rows.setRow,hkg] using hold
  empty k hk := by
    have hkg : k ≠ g := by
      rintro rfl
      exact hk hg
    simpa [Rows.setRow,hkg] using hF.empty k hk
  null k x hx hxk := by
    by_cases hkg : k = g
    · subst hkg
      exact hnull x hx (by simpa [Rows.setRow] using hxk)
    · refine hf.null ?_ (hF.null k x hx (by simpa [Rows.setRow,hkg] using hxk))
      intro hxs
      have hx' : F.target x = some (some k) := hx
      rcases hs x hxs with rfl | hxg
      · rw [hg] at hx'
        simp at hx'
      · rw [hxg] at hx'
        simp only [Option.some.injEq] at hx'
        exact hkg hx'.symm

theorem Represents.retarget (hF : Represents h F) {t : Option (Option N)}
    (hlinks : h'.links = h.links) (htargets : h'.targets = Function.update h.targets n t)
    (hout : ∀ g, n ∉ F.row g) (hrow : F.row n = []) (hnull : Null h n) :
    Represents h' { F with target := Function.update F.target n t } where
  targets := by rw [htargets,hF.targets]
  row g hg := by
    by_cases hgn : g = n
    · subst hgn
      have hg' : h'.targets g = some none := by
        rw [htargets,hF.targets]
        exact hg
      refine ⟨hg',?_,Or.inl ⟨hrow,?_⟩⟩
      · simp [hrow]
      · rw [Null,hlinks]
        exact hnull
    · have hg' : F.target g = some none := by simpa [hgn] using hg
      have hr := hF.row g hg'
      refine ⟨?_,?_,?_⟩
      · rw [htargets]
        simpa [hgn] using hr.head
      · intro x hx
        have hxn : x ≠ n := fun e => hout g (e ▸ hx)
        rw [htargets]
        simpa [hxn] using hr.leaf x hx
      · rw [Null,hlinks]
        exact hr.ring
  empty g hg := by
    by_cases hgn : g = n
    · rw [hgn]
      exact hrow
    · exact hF.empty g (by simpa [hgn] using hg)
  null g x hx hxg := by
    rw [Null,hlinks]
    by_cases hxn : x = n
    · rw [hxn]
      exact hnull
    · exact hF.null g x (by simpa [hxn] using hx) hxg

omit [DecidableEq N] in
theorem Represents.not_mem (hF : Represents h F) (hn : F.target n = none) (g : N) :
    n ∉ F.row g := by
  intro hmem
  have ht := hF.target_of_mem hmem
  rw [hn] at ht
  cases ht

theorem create_exec (hF : Represents h F) (hn : F.target n = none) (t : Option N) :
    ∃ h', Exec (create n t) h () h' ∧
      Represents h' { F with target := Function.update F.target n (some t) } := by
  have hnone : h n = none := by
    have ht : h.targets n = none := by rw [hF.targets,hn]
    simpa [Heap.targets] using ht
  refine ⟨Function.update h n (some (.new t)),rfl,hF.retarget ?_ ?_ ?_ ?_ ?_⟩
  · ext x : 2
    · by_cases hx : x = n
      · subst hx
        simp [Heap.links,IntrusiveListNode.new,hnone]
      · simp [Heap.links,hx]
    · by_cases hx : x = n
      · subst hx
        simp [Heap.links,IntrusiveListNode.new,hnone]
      · simp [Heap.links,hx]
  · funext x
    by_cases hx : x = n
    · subst hx
      simp [Heap.targets,IntrusiveListNode.new]
    · simp [Heap.targets,hx]
  · exact hF.not_mem hn
  · exact hF.empty n (by simp [hn])
  · simp [Null,Heap.links,hnone]

theorem link_exec_mem (hF : Represents h F) (hn : n ∈ F.row g) : Exec (link g n) h () h := by
  have hr := hF.row g (hF.head_of_mem hn)
  obtain ⟨hnext,hprev⟩ := hr.linked hn
  exact link_exec_linked (hr.leaf n hn) hprev hnext

theorem link_represents (hF : Represents h F) (hg : F.target g = some none)
    (hn : F.target n = some (some g)) : ∃ h', Exec (link g n) h () h' ∧
      Represents h' (F.setRow g (if n ∈ F.row g then F.row g else F.row g ++ [n])) := by
  by_cases hmem : n ∈ F.row g
  · refine ⟨h,link_exec_mem hF hmem,?_⟩
    simpa [hmem,Rows.setRow] using hF
  · have htarget : h.targets n = some (some g) := by rw [hF.targets,hn]
    obtain ⟨h',hexec,hrow,hf⟩ := link_row (hF.row g hg) htarget hmem (hF.null g n hn hmem)
    refine ⟨h',hexec,?_⟩
    rw [if_neg hmem]
    refine hF.update hg hf ?_ hrow ?_
    · intro x hx
      simp only [List.mem_cons] at hx
      rcases hx with rfl | rfl | hx
      · exact Or.inr hn
      · exact Or.inl rfl
      · exact Or.inr (hF.target_of_mem hx)
    · intro x hx hxl
      simp only [List.mem_append,List.mem_singleton,not_or] at hxl
      have hxg : x ≠ g := by
        rintro rfl
        rw [hg] at hx
        simp at hx
      exact hf.null (by simp [hxl,hxg]) (hF.null g x hx hxl.1)

omit [DecidableEq N] in
theorem Represents.touched (hF : Represents h F) {x : N} (hx : x ∈ g :: F.row g) :
    x = g ∨ F.target x = some (some g) := by
  rcases List.mem_cons.mp hx with rfl | hx
  · exact Or.inl rfl
  · exact Or.inr (hF.target_of_mem hx)

omit [DecidableEq N] in
theorem Represents.null_outside (hF : Represents h F) (hg : F.target g = some none)
    (hf : Frame (g :: F.row g) h h') {x : N} (hx : F.target x = some (some g))
    (hxl : x ∉ F.row g) : Null h' x := by
  have hxg : x ≠ g := by
    rintro rfl
    rw [hg] at hx
    simp at hx
  exact hf.null (by simp [hxl,hxg]) (hF.null g x hx hxl)

theorem unlink_represents (hF : Represents h F) (hg : F.target g = some none)
    (hn : n = g ∨ F.target n = some (some g)) {fuel : ℕ} (hfuel : (F.row g).length < fuel) :
    ∃ h', Exec (unlink fuel g n) h () h' ∧ Represents h' (F.unlink g n) ∧ Null h' n := by
  have hr := hF.row g hg
  by_cases hng : n = g
  · subst hng
    obtain ⟨h',hexec,hrow,hf,hnull⟩ := unlink_head_row hr hfuel
    refine ⟨h',hexec,?_,hnull n (by simp)⟩
    rw [Rows.unlink,if_pos rfl]
    refine hF.update hg hf (fun x hx => hF.touched hx) hrow ?_
    intro x hx _
    by_cases hxl : x ∈ F.row n
    · exact hnull x (List.mem_cons_of_mem _ hxl)
    · exact hF.null_outside hg hf hx hxl
  · have hn := hn.resolve_left hng
    have htarget : h.targets n = some (some g) := by rw [hF.targets,hn]
    simp only [unlink,Rows.unlink,if_neg hng]
    by_cases hmem : n ∈ F.row g
    · obtain ⟨l,l',hl⟩ := List.append_of_mem hmem
      have hnd := hr.nodup
      rw [hl] at hr hnd
      have hnl : n ∉ l := by
        rw [List.nodup_middle,List.nodup_cons] at hnd
        exact fun e => hnd.1 (List.mem_append_left _ e)
      obtain ⟨h',hexec,hrow,_,hf,hnull⟩ := unlinkLeaf_row hr
      have herase : (F.row g).erase n = l ++ l' := by
        rw [hl,List.erase_append_right _ hnl,List.erase_cons_head]
      rw [← hl] at hf
      rw [herase]
      refine ⟨h',hexec,hF.update hg hf (fun x hx => hF.touched hx) hrow ?_,hnull⟩
      intro x hx hxl
      by_cases hxn : x = n
      · rw [hxn]
        exact hnull
      · refine hF.null_outside hg hf hx ?_
        rw [hl]
        simpa [hxn] using hxl
    · have hnull := hF.null g n hn hmem
      refine ⟨h,unlinkLeaf_exec_unlinked htarget hnull.1,?_,hnull⟩
      rw [List.erase_of_not_mem hmem]
      simpa [Rows.setRow] using hF

theorem filter_represents (hF : Represents h F) (hg : F.target g = some none)
    (f : N → σ → Bool × σ) (s : σ) {fuel : ℕ} (hfuel : (F.row g).length < fuel) :
    ∃ h', Exec (filter fuel g (quiet f) s) h (sift f (F.row g) s).2 h' ∧
      Represents h' (F.setRow g (sift f (F.row g) s).1) := by
  obtain ⟨h',hexec,hrow,hf,hnull,_⟩ := filter_row f (hF.row g hg) hfuel s
  refine ⟨h',hexec,hF.update hg hf (fun x hx => hF.touched hx) hrow ?_⟩
  intro x hx hxl
  by_cases hmem : x ∈ F.row g
  · exact hnull x hmem hxl
  · exact hF.null_outside hg hf hx hmem

omit [DecidableEq N] in
theorem lockHead_exec {t : Option N} (hn : F.target n = some t) (hg : F.target (t.getD n) = some none)
    (hF : Represents h F) : Exec (lockHead n) h (t.getD n) h := by
  rw [← hF.targets] at hn hg
  exact (read_exec hn).bind ((read_exec hg).bind (pure_exec _ h))

theorem drop_represents (hF : Represents h F) (hv : (Op.drop n : Op N σ).Valid F) {fuel : ℕ}
    (hfuel : ∀ g, (F.row g).length < fuel) : ∃ h', Exec (drop fuel n) h () h' ∧
      Represents h' (F.step (Op.drop n : Op N σ)).1 := by
  obtain ⟨t,hn,hg,hown⟩ : ∃ t, F.target n = some t ∧ F.target (t.getD n) = some none ∧
      (n = t.getD n ∨ F.target n = some (some (t.getD n))) := by
    rcases hv with hn | ⟨g,hn,hg⟩
    · exact ⟨none,hn,hn,Or.inl rfl⟩
    · exact ⟨some g,hn,hg,Or.inr hn⟩
  obtain ⟨h',hexec,hF',hnull⟩ := unlink_represents hF hg hown (hfuel _)
  have hjoin : ((F.target n).join).getD n = t.getD n := by rw [hn,Option.join_some]
  refine ⟨Function.update h' n none,(lockHead_exec hn hg hF).bind (hexec.bind rfl),?_⟩
  simp only [Rows.step,hjoin]
  refine hF'.retarget ?_ ?_ ?_ ?_ hnull
  · ext x : 2
    · by_cases hx : x = n
      · subst hx
        simpa [Heap.links] using hnull.1.symm
      · simp [Heap.links,hx]
    · by_cases hx : x = n
      · subst hx
        simpa [Heap.links] using hnull.2.symm
      · simp [Heap.links,hx]
  · funext x
    by_cases hx : x = n
    · subst hx
      simp [Heap.targets]
    · simp [Heap.targets,hx]
  · intro g hmem
    exact ((hF'.row g (hF'.head_of_mem hmem)).linked hmem).1 hnull.1
  · cases t with
    | none => simp [Rows.unlink,Rows.setRow]
    | some g => exact hF'.empty n (by simp [Rows.unlink,Rows.setRow,hn])

/-- One valid call succeeds and keeps the representation. -/
theorem call_represents (hF : Represents h F) {op : Op N σ} (hv : op.Valid F) {fuel : ℕ}
    (hfuel : ∀ g, (F.row g).length < fuel) : ∃ h', Exec (call fuel op) h (F.step op).2 h' ∧
      Represents h' (F.step op).1 := by
  cases op with
  | create node t =>
    obtain ⟨h',hexec,hF'⟩ := create_exec hF hv t
    exact ⟨h',hexec.bind (pure_exec _ _),hF'⟩
  | link head node =>
    obtain ⟨h',hexec,hF'⟩ := link_represents hF hv.1 hv.2
    exact ⟨h',hexec.bind (pure_exec _ _),hF'⟩
  | unlink head node =>
    obtain ⟨h',hexec,hF',_⟩ := unlink_represents hF hv.1 hv.2 (hfuel head)
    exact ⟨h',hexec.bind (pure_exec _ _),hF'⟩
  | filter head f s =>
    obtain ⟨h',hexec,hF'⟩ := filter_represents hF hv f s (hfuel head)
    exact ⟨h',hexec.bind (pure_exec _ _),hF'⟩
  | drop node =>
    obtain ⟨h',hexec,hF'⟩ := drop_represents hF hv hfuel
    exact ⟨h',hexec.bind (pure_exec _ _),hF'⟩

theorem step_length (F : Rows N) (op : Op N σ) (g : N) :
    ((F.step op).1.row g).length ≤ (F.row g).length + 1 := by
  have hset : ∀ (k : N) (l : List N), l.length ≤ (F.row k).length + 1 →
      ((F.setRow k l).row g).length ≤ (F.row g).length + 1 := by
    intro k l hl
    by_cases hgk : g = k
    · subst hgk
      simpa [Rows.setRow] using hl
    · simp [Rows.setRow,hgk]
  have hunlink : ∀ k n, ((F.unlink k n).row g).length ≤ (F.row g).length + 1 := by
    intro k n
    refine hset k _ ?_
    split
    · simp
    · exact (List.length_erase_le).trans (Nat.le_succ _)
  cases op with
  | create node t => exact Nat.le_succ _
  | link head node =>
    refine hset head _ ?_
    split <;> simp
  | unlink head node => exact hunlink head node
  | filter head f s => exact hset head _ ((sift_sublist f _ s).length_le.trans (Nat.le_succ _))
  | drop node => exact hunlink _ node

theorem run_represents (hF : Represents h F) {ops : List (Op N σ)} (hv : ValidRun F ops)
    {fuel : ℕ} (hfuel : ∀ g, (F.row g).length + ops.length ≤ fuel) (hpos : ops.length < fuel) :
    ∃ h', Exec (run fuel ops) h (F.run ops).2 h' ∧ Represents h' (F.run ops).1 := by
  induction ops generalizing h F with
  | nil => exact ⟨h,pure_exec _ _,hF⟩
  | cons op ops ih =>
    simp only [List.length_cons] at hfuel hpos
    have hlen : ∀ g, (F.row g).length < fuel := by
      intro g
      have hg := hfuel g
      omega
    obtain ⟨h₁,hexec₁,hF₁⟩ := call_represents hF hv.1 hlen
    obtain ⟨h₂,hexec₂,hF₂⟩ := ih hF₁ hv.2 (fun g => by
      have hg := hfuel g
      have hs := step_length F op g
      omega) (by omega)
    exact ⟨h₂,hexec₁.bind (hexec₂.bind (pure_exec _ _)),hF₂⟩

omit [DecidableEq N] in
theorem represents_empty : Represents (Heap.empty : Heap N) Rows.empty where
  targets := rfl
  row g hg := by simp [Rows.empty] at hg
  empty _ _ := rfl
  null g n hn := by simp [Rows.empty] at hn

theorem represents_head (head : N) :
    Represents (Function.update Heap.empty head (some (.new none)))
      ⟨Function.update (fun _ => none) head (some none),fun _ => []⟩ := by
  obtain ⟨h',hexec,hrep⟩ := create_exec represents_empty (n := head) rfl none
  obtain rfl : Function.update Heap.empty head (some (.new none)) = h' :=
    congrArg Prod.snd (Except.ok.inj hexec)
  exact hrep

theorem drop_leaf (hF : Represents h F) (hg : F.target g = some none)
    (hn : F.target n = some (some g)) {fuel : ℕ} (hfuel : ∀ g, (F.row g).length < fuel) :
    ∃ h', Exec (drop fuel n) h () h' ∧ Represents h'
      ⟨Function.update F.target n none,Function.update F.row g ((F.row g).erase n)⟩ := by
  have hne : n ≠ g := by
    rintro rfl
    rw [hn] at hg
    cases hg
  obtain ⟨h',hexec,hrep⟩ := drop_represents (σ := Unit) hF (Or.inr ⟨g,hn,hg⟩) hfuel
  refine ⟨h',hexec,?_⟩
  simpa [Rows.step,hn,Rows.unlink,Rows.setRow,hne] using hrep

theorem mem_linked {a b : N} : b ∈ (if a ∈ l then l else l ++ [a]) ↔ b = a ∨ b ∈ l := by
  split
  · rename_i ha
    constructor
    · exact Or.inr
    · rintro (rfl | hb)
      · exact ha
      · exact hb
  · simp [or_comm]

theorem length_linked {a : N} : (if a ∈ l then l else l ++ [a]).length ≤ l.length + 1 := by
  split <;> simp

omit [DecidableEq N] in
theorem Represents.row_length (hF : Represents h F) (hleaf : ∀ k, k ≠ g → F.target k ≠ some none)
    (k : N) : (F.row k).length ≤ (F.row g).length := by
  by_cases hk : k = g
  · rw [hk]
  · rw [hF.empty k (hleaf k hk)]
    exact Nat.zero_le _

theorem run_length (F : Rows N) (ops : List (Op N σ)) (g : N) :
    ((F.run ops).1.row g).length ≤ (F.row g).length + ops.length := by
  induction ops generalizing F with
  | nil => exact Nat.le_refl _
  | cons op ops ih =>
    have hrest := ih (F.step op).1
    have hstep := step_length F op g
    simp only [Rows.run,List.length_cons]
    omega

/-- Every run of valid calls from an empty heap succeeds without a fault, returns what
the sequences return and stores the sequences it reaches; there a leaf is linked
exactly when it is in its head's sequence, linking it again changes nothing, and a
filter calls its closure once on each leaf of the sequence, in order. -/
theorem intrusive_list_refines_rows (ops : List (Op N σ)) (hv : ValidRun Rows.empty ops)
    (fuel : ℕ) (hfuel : ops.length < fuel) :
    ∃ h, Exec (run fuel ops) Heap.empty (Rows.empty.run ops).2 h ∧
      Represents h (Rows.empty.run ops).1 ∧
      (∀ n node g, h n = some node → node.targetNode = some g →
        (node.isLinked = true ↔ n ∈ (Rows.empty.run ops).1.row g)) ∧
      (∀ g n, n ∈ (Rows.empty.run ops).1.row g → Exec (link g n) h () h) ∧
      ∀ g (f : N → σ → Bool × σ) s, (Rows.empty.run ops).1.target g = some none →
        ∃ h', Exec (filter fuel g (quiet f) s) h
          (((Rows.empty.run ops).1.row g).foldl (fun s n => (f n s).2) s) h' := by
  have hlen : ∀ g, ((Rows.empty.run ops).1.row g).length < fuel := by
    intro g
    have hrun := run_length Rows.empty ops g
    have hzero : ((Rows.empty : Rows N).row g).length = 0 := rfl
    omega
  obtain ⟨h,hexec,hF⟩ := run_represents represents_empty hv
    (fun g => by simp [Rows.empty]; omega) hfuel
  refine ⟨h,hexec,hF,fun n node g hn ht => hF.isLinked_iff hn ht,
    fun g n hn => link_exec_mem hF hn,?_⟩
  intro g f s hg
  obtain ⟨h',hfilter,_⟩ := filter_represents hF hg f s (hlen g)
  rw [sift_state] at hfilter
  exact ⟨h',hfilter⟩

def sampleRun : List (Op ℕ (List ℕ)) :=
  [.create 0 none,.create 1 (some 0),.create 2 (some 0),.link 0 1,.link 0 2,
    .filter 0 (fun n seen => (n = 1,seen ++ [n])) [],.drop 2,.unlink 0 0,.link 0 1]

theorem intrusive_list_refines_rows_sampleRun :
    ∃ h, Exec (run 10 sampleRun) Heap.empty (Rows.empty.run sampleRun).2 h ∧
      (Rows.empty.run sampleRun).2 = [none,none,none,none,none,some [1,2],none,none,none] ∧
      Row h 0 [1] := by
  have hv : ValidRun Rows.empty sampleRun :=
    ⟨rfl,rfl,rfl,⟨rfl,rfl⟩,⟨rfl,rfl⟩,rfl,Or.inr ⟨0,rfl,rfl⟩,⟨rfl,Or.inl rfl⟩,⟨rfl,rfl⟩,trivial⟩
  obtain ⟨h,hexec,hF,_⟩ := intrusive_list_refines_rows sampleRun hv 10 (by decide)
  exact ⟨h,hexec,rfl,hF.row 0 rfl⟩

end IntrusiveList
end ProcMachines
