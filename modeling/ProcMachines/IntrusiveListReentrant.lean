import ProcMachines.IntrusiveListRefinement

/-! A filter whose closure calls `unlink` on the guard it is called through. The loop has
read the successor before it calls the closure: the walk stays on the list exactly when
the closure never unlinks the leaf that comes next. -/
namespace ProcMachines
namespace IntrusiveList

open LinkedRing

variable {N σ : Type}

/-- What a closure does at a leaf: the leaves it unlinks, in order, then its answer. -/
structure Reaction (N σ : Type) where
  unlinked : List N
  keep : Bool
  state : σ
  deriving DecidableEq, Repr

/-- A visit of the filter, with whether the leaf was linked when its visit began. -/
structure Visit (N : Type) where
  leaf : N
  linked : Bool
  unlinked : List N
  keep : Bool
  deriving DecidableEq, Repr

def Visit.removed (v : Visit N) : List N := v.unlinked ++ if v.keep then [] else [v.leaf]

variable [DecidableEq N]

def without (l us : List N) : List N := l.filter (· ∉ us)

theorem without_length_le (l us : List N) : (without l us).length ≤ l.length :=
  List.length_filter_le _ l

@[simp] theorem without_nil (l : List N) : without l [] = l := by
  simp [without]

theorem without_without (l us vs : List N) : without (without l us) vs = without l (us ++ vs) := by
  rw [without,without,without,List.filter_filter]
  apply List.filter_congr
  intro x _
  simp [Bool.and_comm]

theorem without_append (l l' us : List N) : without (l ++ l') us = without l us ++ without l' us :=
  List.filter_append ..

def unlinkAll (fuel : ℕ) (head : N) : List N → Mem N Unit
  | [] => return ()
  | node :: nodes => do
    unlink fuel head node
    unlinkAll fuel head nodes

/-- A closure that uses the list. The log of its visits is kept beside its own state. -/
def reentrant (fuel : ℕ) (head : N) (f : N → σ → Reaction N σ) (n : N) (s : σ × List (Visit N)) :
    Mem N (Bool × σ × List (Visit N)) := do
  let node ← read n
  let r := f n s.1
  unlinkAll fuel head r.unlinked
  return (r.keep,r.state,s.2 ++ [⟨n,node.isLinked,r.unlinked,r.keep⟩])

/-- Along the leaves still ahead, no visit unlinks the leaf that comes next. -/
def Spares (f : N → σ → Reaction N σ) : List N → σ → Prop
  | [], _ => True
  | n :: ahead, s => (∀ next ∈ ahead.head?, next ∉ (f n s).unlinked) ∧
      Spares f (without ahead (f n s).unlinked) (f n s).state
termination_by ahead => ahead.length
decreasing_by exact Nat.lt_succ_of_le (without_length_le ahead _)

/-- The filter meets no fault, visits linked leaves only, and leaves the list without the
leaves that the closure unlinked or answered `false`. -/
def FilterSafe (fuel : ℕ) (h : Heap N) (F : Rows N) (g : N) (f : N → σ → Reaction N σ) (s : σ) :
    Prop :=
  ∃ h' s' log, Exec (filter fuel g (reentrant fuel g f) (s,[])) h (s',log) h' ∧
    (∀ v ∈ log, v.linked = true) ∧
    Represents h' (F.setRow g (without (F.row g) (log.flatMap Visit.removed)))

/-- The run of `m` from `h` ends with a fault. -/
def Faults {α : Type} (m : Mem N α) (h : Heap N) (e : Fault) : Prop := m.run h = .error e

section Faults

variable {α β : Type} {m : Mem N α} {k : α → Mem N β} {h h' : Heap N} {a : α} {e : Fault}

omit [DecidableEq N] in
theorem Exec.run_bind (hm : Exec m h a h') : (m >>= k).run h = (k a).run h' := by
  rw [StateT.run_bind,show m.run h = .ok (a,h') from hm]
  rfl

omit [DecidableEq N] in
theorem Faults.not_exec (hm : Faults m h e) : ¬ Exec m h a h' := by
  intro hexec
  rw [Exec,show m.run h = .error e from hm] at hexec
  cases hexec

end Faults

variable {h h' : Heap N} {F : Rows N} {g n : N} {f : N → σ → Reaction N σ} {s : σ}
  {l ahead us : List N} {log : List (Visit N)} {fuel turns : ℕ}

omit [DecidableEq N] in
theorem Represents.nodup (hF : Represents h F) (hg : F.target g = some none) : (F.row g).Nodup :=
  (hF.row g hg).nodup

omit [DecidableEq N] in
theorem leaf_ne_head (hg : F.target g = some none) (hn : F.target n = some (some g)) : n ≠ g := by
  rintro rfl
  rw [hg] at hn
  cases hn

theorem unlink_without (hF : Represents h F) (hg : F.target g = some none)
    (hn : F.target n = some (some g)) (hfuel : (F.row g).length < fuel) :
    ∃ h', Exec (unlink fuel g n) h () h' ∧
      Represents h' (F.setRow g (without (F.row g) [n])) := by
  obtain ⟨h',hexec,hF',_⟩ := unlink_represents hF hg (Or.inr hn) hfuel
  have herase : (F.row g).erase n = without (F.row g) [n] := by
    rw [(hF.nodup hg).erase_eq_filter,without]
    apply List.filter_congr
    intro x _
    by_cases hx : x = n <;> simp [hx]
  rw [Rows.unlink,if_neg (leaf_ne_head hg hn),herase] at hF'
  exact ⟨h',hexec,hF'⟩

theorem row_without_lt (hfuel : (F.row g).length < fuel) (us : List N) :
    ((F.setRow g (without (F.row g) us)).row g).length < fuel := by
  rw [Rows.setRow_row_self]
  exact (without_length_le _ _).trans_lt hfuel

theorem unlinkAll_represents (hF : Represents h F) (hg : F.target g = some none)
    (hus : ∀ x ∈ us, F.target x = some (some g)) (hfuel : (F.row g).length < fuel) :
    ∃ h', Exec (unlinkAll fuel g us) h () h' ∧
      Represents h' (F.setRow g (without (F.row g) us)) := by
  induction us generalizing h F with
  | nil =>
    refine ⟨h,pure_exec () h,?_⟩
    simpa [Rows.setRow_self] using hF
  | cons x us ih =>
    obtain ⟨h₁,hexec₁,hF₁⟩ := unlink_without hF hg (hus x (by simp)) hfuel
    obtain ⟨h₂,hexec₂,hF₂⟩ := ih hF₁ hg (fun y hy => hus y (List.mem_cons_of_mem _ hy))
      (row_without_lt hfuel [x])
    refine ⟨h₂,hexec₁.bind hexec₂,?_⟩
    rw [Rows.setRow_setRow,Rows.setRow_row_self,without_without] at hF₂
    exact hF₂

def visit (l : List N) (f : N → σ → Reaction N σ) (n : N) (s : σ) : Visit N :=
  ⟨n,n ∈ l,(f n s).unlinked,(f n s).keep⟩

theorem Represents.isLinked_eq (hF : Represents h F) (hn : F.target n = some (some g)) :
    (⟨some g,h.links.prev n,h.links.next n⟩ : IntrusiveListNode N).isLinked =
      decide (n ∈ F.row g) := by
  by_cases hmem : n ∈ F.row g
  · obtain ⟨hnext,hprev⟩ := (hF.row g (hF.head_of_mem hmem)).linked hmem
    simp [IntrusiveListNode.isLinked,Option.isSome_iff_ne_none,hnext,hprev,hmem]
  · obtain ⟨hnext,hprev⟩ := hF.null g n hn hmem
    simp [IntrusiveListNode.isLinked,hnext,hprev,hmem]

def visited (F : Rows N) (g : N) (v : Visit N) : Rows N := F.setRow g (without (F.row g) v.removed)

/-- One turn of the loop on a leaf, linked or not: it goes on from the successor that the
leaf had before the visit. -/
theorem filterFrom_turn (hF : Represents h F) (hg : F.target g = some none)
    (hf : ∀ n s, ∀ x ∈ (f n s).unlinked, F.target x = some (some g))
    (hn : F.target n = some (some g)) (hfuel : (F.row g).length < fuel) (turns : ℕ) (s : σ)
    (log : List (Visit N)) :
    ∃ h', Represents h' (visited F g (visit (F.row g) f n s)) ∧
      (filterFrom g (reentrant fuel g f) (turns+1) (some n) (s,log)).run h =
        (filterFrom g (reentrant fuel g f) turns (h.links.next n)
          ((f n s).state,log ++ [visit (F.row g) f n s])).run h' := by
  have hng := leaf_ne_head hg hn
  have hread := read_exec (show h.targets n = some (some g) by rw [hF.targets,hn])
  obtain ⟨h₁,hexec₁,hF₁⟩ := unlinkAll_represents hF hg (hf n s) hfuel
  have hclosure : Exec (reentrant fuel g f n (s,log)) h
      ((f n s).keep,(f n s).state,log ++ [visit (F.row g) f n s]) h₁ := by
    refine hread.bind (hexec₁.bind ?_)
    rw [hF.isLinked_eq hn]
    exact pure_exec _ h₁
  have hturn : (filterFrom g (reentrant fuel g f) (turns+1) (some n) (s,log)).run h =
      (do
        if !(f n s).keep then unlinkLeaf g n
        filterFrom g (reentrant fuel g f) turns (h.links.next n)
          ((f n s).state,log ++ [visit (F.row g) f n s]) : Mem N _).run h₁ := by
    rw [filterFrom,if_neg (by simpa using hng)]
    exact (deref_exec n h).run_bind.trans (hread.run_bind.trans hclosure.run_bind)
  cases hk : (f n s).keep with
  | true =>
    refine ⟨h₁,?_,?_⟩
    · simpa [visited,visit,Visit.removed,hk] using hF₁
    · rw [hturn,hk]
      rfl
  | false =>
    obtain ⟨h₂,hexec₂,hF₂⟩ := unlink_without hF₁ hg hn (row_without_lt hfuel _)
    rw [unlink,if_neg hng] at hexec₂
    refine ⟨h₂,?_,?_⟩
    · rw [Rows.setRow_setRow,Rows.setRow_row_self,without_without] at hF₂
      simpa [visited,visit,Visit.removed,hk] using hF₂
    · rw [hturn,hk]
      exact hexec₂.run_bind

omit [DecidableEq N] in
theorem Represents.next_eq (hF : Represents h F) (hrow : F.row g = l ++ n :: ahead) :
    h.links.next n = some (ahead.head?.getD g) := by
  have hmem : n ∈ F.row g := by simp [hrow]
  have hc := (hF.row g (hF.head_of_mem hmem)).closed hmem
  rw [hrow] at hc
  exact next_of_closed hc

theorem without_removed (hn : n ∉ ahead) :
    without ahead (visit l f n s).removed = without ahead (f n s).unlinked := by
  apply List.filter_congr
  intro x hx
  have hxn : x ≠ n := fun e => hn (e ▸ hx)
  cases hk : (f n s).keep <;> simp [visit,Visit.removed,hk,hxn]

theorem head_without (h : ∀ x ∈ ahead.head?, x ∉ us) (g : N) :
    (without ahead us).head?.getD g = ahead.head?.getD g := by
  cases ahead with
  | nil => rfl
  | cons x ahead =>
    have hx : x ∉ us := h x rfl
    simp [without,hx]

theorem filterFrom_visit (hF : Represents h F) (hg : F.target g = some none)
    (hf : ∀ n s, ∀ x ∈ (f n s).unlinked, F.target x = some (some g))
    (hrow : F.row g = l ++ n :: ahead) (hfuel : (F.row g).length < fuel) (turns : ℕ) (s : σ)
    (log : List (Visit N)) :
    ∃ h' l', Represents h' (visited F g (visit (F.row g) f n s)) ∧
      (visited F g (visit (F.row g) f n s)).row g =
        l' ++ without ahead (f n s).unlinked ∧
      ((visited F g (visit (F.row g) f n s)).row g).length < fuel ∧
      (filterFrom g (reentrant fuel g f) (turns+1) (some n) (s,log)).run h =
        (filterFrom g (reentrant fuel g f) turns (some (ahead.head?.getD g))
          ((f n s).state,log ++ [visit (F.row g) f n s])).run h' := by
  have hmem : n ∈ F.row g := by simp [hrow]
  have hnodup := hF.nodup hg
  rw [hrow,List.nodup_middle,List.nodup_cons] at hnodup
  have hahead : n ∉ ahead := fun e => hnodup.1 (List.mem_append_right _ e)
  obtain ⟨h',hF',hturn⟩ := filterFrom_turn hF hg hf (hF.target_of_mem hmem) hfuel turns s log
  rw [hF.next_eq hrow] at hturn
  refine ⟨h',without (l ++ [n]) (visit (F.row g) f n s).removed,hF',?_,row_without_lt hfuel _,
    hturn⟩
  rw [visited,Rows.setRow_row_self,← without_removed hahead,← without_append]
  simp [hrow]

/-- A walk with its cursor on the list, where the closure spares each successor. -/
theorem filterFrom_safe (hF : Represents h F) (hg : F.target g = some none)
    (hf : ∀ n s, ∀ x ∈ (f n s).unlinked, F.target x = some (some g))
    (hrow : F.row g = l ++ ahead) (hs : Spares f ahead s) (hfuel : (F.row g).length < fuel)
    (hturns : ahead.length < turns) (log : List (Visit N)) :
    ∃ h' s' visits, Exec (filterFrom g (reentrant fuel g f) turns (some (ahead.head?.getD g)) (s,log))
        h (s',log ++ visits) h' ∧ (∀ v ∈ visits, v.linked = true) ∧
      Represents h' (F.setRow g (without (F.row g) (visits.flatMap Visit.removed))) := by
  induction turns generalizing h F s l ahead log with
  | zero => exact absurd hturns (Nat.not_lt_zero _)
  | succ turns ih =>
    cases ahead with
    | nil =>
      refine ⟨h,s,[],?_,by simp,by simpa [Rows.setRow_self] using hF⟩
      simp [filterFrom,pure_exec]
    | cons n ahead =>
      rw [Spares] at hs
      rw [List.length_cons] at hturns
      obtain ⟨h₁,l₁,hF₁,hrow₁,hfuel₁,hturn⟩ := filterFrom_visit hF hg hf hrow hfuel turns s log
      have hshort := without_length_le ahead (f n s).unlinked
      obtain ⟨h₂,s₂,visits,hexec,hlinked,hF₂⟩ := ih hF₁ hg hf hrow₁ hs.2 hfuel₁ (by omega)
        (log ++ [visit (F.row g) f n s])
      rw [head_without hs.1] at hexec
      refine ⟨h₂,s₂,visit (F.row g) f n s :: visits,?_,?_,?_⟩
      · rw [List.append_cons]
        exact hturn.trans hexec
      · intro v hv
        rcases List.mem_cons.mp hv with rfl | hv
        · have hmem : n ∈ F.row g := by simp [hrow]
          exact decide_eq_true hmem
        · exact hlinked v hv
      · rw [visited,Rows.setRow_setRow,Rows.setRow_row_self,without_without] at hF₂
        exact hF₂

/-- A walk whose closure unlinks a successor: the cursor falls on an unlinked leaf, and the
next turn follows its null link. -/
theorem filterFrom_faults (hF : Represents h F) (hg : F.target g = some none)
    (hf : ∀ n s, ∀ x ∈ (f n s).unlinked, F.target x = some (some g))
    (hrow : F.row g = l ++ ahead) (hs : ¬ Spares f ahead s) (hfuel : (F.row g).length < fuel)
    (hturns : ahead.length < turns) (log : List (Visit N)) :
    Faults (filterFrom g (reentrant fuel g f) turns (some (ahead.head?.getD g)) (s,log)) h
      .nullDeref := by
  induction turns generalizing h F s l ahead log with
  | zero => exact absurd hturns (Nat.not_lt_zero _)
  | succ turns ih =>
    cases ahead with
    | nil => exact absurd (by rw [Spares]; trivial) hs
    | cons n ahead =>
      rw [Spares,not_and_or] at hs
      rw [List.length_cons] at hturns
      obtain ⟨h₁,l₁,hF₁,hrow₁,hfuel₁,hturn⟩ := filterFrom_visit hF hg hf hrow hfuel turns s log
      by_cases hnext : ∀ x ∈ ahead.head?, x ∉ (f n s).unlinked
      · have hshort := without_length_le ahead (f n s).unlinked
        have hrest := ih hF₁ hg hf hrow₁ (hs.resolve_left (not_not_intro hnext)) hfuel₁ (by omega)
          (log ++ [visit (F.row g) f n s])
        rw [head_without hnext] at hrest
        exact hturn.trans hrest
      · cases ahead with
        | nil => exact absurd (by simp) hnext
        | cons x ahead =>
          have hx : x ∈ (f n s).unlinked := by simpa using hnext
          rw [List.length_cons] at hturns
          obtain ⟨turns,rfl⟩ : ∃ k, turns = k + 2 := ⟨turns - 2,by omega⟩
          have hout : x ∉ (visited F g (visit (F.row g) f n s)).row g := by
            simp [visited,Rows.setRow_row_self,without,visit,Visit.removed,hx]
          have htarget : (visited F g (visit (F.row g) f n s)).target x = some (some g) := hf n s x hx
          obtain ⟨h₂,_,hturn₂⟩ := filterFrom_turn hF₁ hg hf htarget hfuel₁ (turns + 1) (f n s).state
            (log ++ [visit (F.row g) f n s])
          rw [(hF₁.null g x htarget hout).1] at hturn₂
          exact hturn.trans (hturn₂.trans rfl)

theorem filter_run (hF : Represents h F) (hg : F.target g = some none)
    (f : N → σ → Mem N (Bool × σ)) (s : σ) (hturns : (F.row g).length < turns) :
    (filter turns g f s).run h =
      (filterFrom g f turns (some ((F.row g).head?.getD g)) s).run h := by
  have hread := read_exec (hF.row g hg).head
  refine hread.run_bind.trans ?_
  rcases (hF.row g hg).ring with ⟨hrow,hnull⟩ | hc
  · obtain ⟨turns,rfl⟩ := Nat.exists_eq_succ_of_ne_zero (by omega : turns ≠ 0)
    simp [IntrusiveListNode.isLinked,hnull.1,hrow,filterFrom]
  · obtain ⟨p,hp⟩ := hc.exists_prev
    simp [IntrusiveListNode.isLinked,hp,hc.next_eq]

/-- For every list and every closure that unlinks leaves of the list during its visits: the
filter is safe exactly when no visit unlinks the leaf that comes next, and where one does the
filter follows a null link. -/
theorem filter_reentrant_iff {h : Heap N} {F : Rows N} (hF : Represents h F) {g : N}
    (hg : F.target g = some none) (f : N → σ → Reaction N σ)
    (hf : ∀ n s, ∀ x ∈ (f n s).unlinked, F.target x = some (some g)) (s : σ) (fuel : ℕ)
    (hfuel : (F.row g).length < fuel) :
    (FilterSafe fuel h F g f s ↔ Spares f (F.row g) s) ∧
      (¬ Spares f (F.row g) s →
        Faults (filter fuel g (reentrant fuel g f) (s,[])) h .nullDeref) := by
  have hfault : ¬ Spares f (F.row g) s →
      Faults (filter fuel g (reentrant fuel g f) (s,[])) h .nullDeref := fun hs =>
    (filter_run hF hg _ _ hfuel).trans
      (filterFrom_faults (l := []) hF hg hf rfl hs hfuel hfuel [])
  refine ⟨⟨?_,?_⟩,hfault⟩
  · rintro ⟨h',s',log,hexec,_⟩
    by_contra hs
    exact (hfault hs).not_exec hexec
  · intro hs
    obtain ⟨h',s',visits,hexec,hlinked,hF'⟩ :=
      filterFrom_safe (l := []) hF hg hf rfl hs hfuel hfuel []
    exact ⟨h',s',visits,(filter_run hF hg _ _ hfuel).trans hexec,hlinked,hF'⟩

def threeLeaves : List (Op ℕ Unit) :=
  [.create 0 none,.create 1 (some 0),.create 2 (some 0),.create 3 (some 0),.link 0 1,.link 0 2,
    .link 0 3]

theorem threeLeaves_represents : ∃ h, Represents h (Rows.empty.run threeLeaves).1 := by
  have hv : ValidRun Rows.empty threeLeaves :=
    ⟨rfl,rfl,rfl,rfl,⟨rfl,rfl⟩,⟨rfl,rfl⟩,⟨rfl,rfl⟩,trivial⟩
  obtain ⟨h,_,hF⟩ := run_represents represents_empty hv
    (fun g => show _ ≤ 9 by simp [Rows.empty,threeLeaves]) (by decide)
  exact ⟨h,hF⟩

/-- The visit of the last of three leaves unlinks it and the first, the second is answered
`false`. -/
theorem filter_reentrant_iff_threeLeaves : ∃ h, FilterSafe 9 h (Rows.empty.run threeLeaves).1 0
    (fun n (_ : Unit) => ⟨if n = 3 then [3,1] else [],n ≠ 2,()⟩) () := by
  obtain ⟨h,hF⟩ := threeLeaves_represents
  refine ⟨h,(filter_reentrant_iff hF rfl _ ?_ () 9 (by decide)).1.mpr ?_⟩
  · intro n _ x hx
    by_cases hn : n = 3
    · simp only [hn,if_true,List.mem_cons,List.not_mem_nil,or_false] at hx
      rcases hx with rfl | rfl <;> rfl
    · simp [hn] at hx
  · have hrow : (Rows.empty.run threeLeaves).1.row 0 = [1,2,3] := rfl
    simp [hrow,Spares,without]

/-- The visit of the first leaf unlinks the second. -/
theorem filter_follows_null : ¬ ∀ (h : Heap ℕ) (F : Rows ℕ), Represents h F → ∀ g,
    F.target g = some none → ∀ f : ℕ → Unit → Reaction ℕ Unit,
    (∀ n s, ∀ x ∈ (f n s).unlinked, F.target x = some (some g)) →
    ∀ fuel, (F.row g).length < fuel → FilterSafe fuel h F g f () := by
  intro hall
  obtain ⟨h,hF⟩ := threeLeaves_represents
  have hf : ∀ (n : ℕ) (s : Unit), ∀ x ∈ (⟨if n = 1 then [2] else [],true,()⟩ : Reaction ℕ Unit).unlinked,
      (Rows.empty.run threeLeaves).1.target x = some (some 0) := by
    intro n _ x hx
    by_cases hn : n = 1
    · simp only [hn,if_true,List.mem_singleton] at hx
      rw [hx]
      rfl
    · simp [hn] at hx
  have hg : (Rows.empty.run threeLeaves).1.target 0 = some none := rfl
  have hrow : (Rows.empty.run threeLeaves).1.row 0 = [1,2,3] := rfl
  have hs : ¬ Spares (fun n (_ : Unit) => ⟨if n = 1 then [2] else [],true,()⟩) [1,2,3] () := by
    simp [Spares]
  obtain ⟨h',s',log,hexec,_⟩ := hall h _ hF 0 hg _ hf 9 (by decide)
  have hfault := filterFrom_faults (l := []) hF hg hf hrow hs (show _ < 9 by decide)
    (show _ < 9 by decide) []
  rw [Exec,filter_run hF hg _ _ (by decide)] at hexec
  exact hfault.not_exec hexec

end IntrusiveList
end ProcMachines
