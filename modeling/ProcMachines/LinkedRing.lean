import Mathlib.Tactic

/-! Circular doubly linked lists around a sentinel, as two nullable pointer fields.
A segment is the chain of mutual neighbours from one node to another; a ring is a
segment from the sentinel back to itself. -/
namespace ProcMachines
namespace LinkedRing

@[ext] structure Links (N : Type) where
  next : N → Option N
  prev : N → Option N

variable {N : Type} {L M : Links N} {a b c g n p q : N} {l l' : List N}

def Adjacent (L : Links N) (a b : N) : Prop := L.next a = some b ∧ L.prev b = some a

/-- The nodes strictly between `a` and `b` are those of the list, in its order. -/
def Seg (L : Links N) : N → List N → N → Prop
  | a, [], b => Adjacent L a b
  | a, x :: l, b => Adjacent L a x ∧ Seg L x l b

theorem seg_append : Seg L a (l ++ n :: l') b ↔ Seg L a l n ∧ Seg L n l' b := by
  induction l generalizing a with
  | nil => rfl
  | cons x l ih => simp only [List.cons_append,Seg,ih,and_assoc]

theorem Seg.prev_mem (h : Seg L a l b) (hp : L.prev b = some p) : p ∈ a :: l := by
  induction l generalizing a with
  | nil =>
    have hpa : some a = some p := h.2.symm.trans hp
    simpa using (Option.some.inj hpa).symm
  | cons x l ih => exact List.mem_cons_of_mem _ (ih h.2)

theorem Seg.congr (hn : ∀ x ∈ a :: l, M.next x = L.next x) (hp : ∀ x ∈ b :: l, M.prev x = L.prev x)
    (h : Seg L a l b) : Seg M a l b := by
  induction l generalizing a with
  | nil => exact ⟨(hn a (by simp)).trans h.1,(hp b (by simp)).trans h.2⟩
  | cons x l ih =>
    refine ⟨⟨(hn a (by simp)).trans h.1.1,(hp x (by simp)).trans h.1.2⟩,ih ?_ ?_ h.2⟩
    · intro y hy
      exact hn y (List.mem_cons_of_mem _ hy)
    · intro y hy
      refine hp y ?_
      rcases List.mem_cons.mp hy with rfl | hy
      · simp
      · simp [hy]

theorem Seg.next_unique (h : Seg L a l b) (h' : Seg M a l b) (hn : n ∈ a :: l) :
    L.next n = M.next n := by
  induction l generalizing a with
  | nil =>
    obtain rfl : n = a := by simpa using hn
    exact h.1.trans h'.1.symm
  | cons x l ih =>
    rcases List.mem_cons.mp hn with rfl | hn
    · exact h.1.1.trans h'.1.1.symm
    · exact ih h.2 h'.2 hn

theorem Seg.prev_unique (h : Seg L a l b) (h' : Seg M a l b) (hn : n ∈ b :: l) :
    L.prev n = M.prev n := by
  induction l generalizing a with
  | nil =>
    obtain rfl : n = b := by simpa using hn
    exact h.2.trans h'.2.symm
  | cons x l ih =>
    by_cases hnx : n = x
    · rw [hnx]
      exact h.1.2.trans h'.1.2.symm
    · refine ih h.2 h'.2 ?_
      simpa [hnx] using hn

theorem Seg.linked (h : Seg L a l b) (hn : n ∈ l) : L.next n ≠ none ∧ L.prev n ≠ none := by
  obtain ⟨s,t,rfl⟩ := List.append_of_mem hn
  obtain ⟨hs,ht⟩ := seg_append.mp h
  constructor
  · cases t with
    | nil => simp [ht.1]
    | cons y t => simp [ht.1.1]
  · rcases List.eq_nil_or_concat s with rfl | ⟨s,y,rfl⟩
    · simp [hs.2]
    · have hy := (seg_append.mp (by simpa using hs) : Seg L a s y ∧ Seg L y [] n)
      simp [hy.2.2]

/-- The sentinel heads a ring through the nodes of the list. -/
structure Closed (L : Links N) (g : N) (l : List N) : Prop where
  nodup : (g :: l).Nodup
  seg : Seg L g l g

theorem Closed.congr (hn : ∀ x ∈ g :: l, M.next x = L.next x)
    (hp : ∀ x ∈ g :: l, M.prev x = L.prev x) (h : Closed L g l) : Closed M g l :=
  ⟨h.nodup,h.seg.congr hn hp⟩

theorem Closed.next_eq (h : Closed L g l) : L.next g = some (l.head?.getD g) := by
  cases l with
  | nil => exact h.seg.1
  | cons x l => exact h.seg.1.1

theorem Closed.exists_prev (h : Closed L g l) : ∃ p, L.prev g = some p := by
  rcases List.eq_nil_or_concat l with rfl | ⟨l,p,rfl⟩
  · exact ⟨g,h.seg.2⟩
  · have hs := (seg_append.mp (by simpa using h.seg) : Seg L g l p ∧ Seg L p [] g)
    exact ⟨p,hs.2.2⟩

theorem Closed.prev_mem (h : Closed L g l) (hn : n ∈ g :: l) (hp : L.prev n = some p) :
    p ∈ g :: l := by
  rcases List.mem_cons.mp hn with rfl | hn
  · exact h.seg.prev_mem hp
  · obtain ⟨s,t,rfl⟩ := List.append_of_mem hn
    have hs := (seg_append.mp h.seg).1
    rw [← List.cons_append]
    exact List.mem_append_left _ (hs.prev_mem hp)

theorem Closed.next_mem (h : Closed L g l) (hn : n ∈ g :: l) (hq : L.next n = some q) :
    q ∈ g :: l := by
  rcases List.mem_cons.mp hn with rfl | hn
  · have hq' : some (l.head?.getD n) = some q := h.next_eq.symm.trans hq
    cases l <;> simp_all
  · obtain ⟨s,t,rfl⟩ := List.append_of_mem hn
    have ht := (seg_append.mp h.seg).2
    cases t with
    | nil =>
      have hqg : some g = some q := ht.1.symm.trans hq
      simp [Option.some.inj hqg]
    | cons y t =>
      have hqy : some y = some q := ht.1.1.symm.trans hq
      simp [Option.some.inj hqy]

variable [DecidableEq N]

def Links.join (L : Links N) (a b : N) : Links N :=
  ⟨Function.update L.next a (some b),Function.update L.prev b (some a)⟩

def Links.clear (L : Links N) (n : N) : Links N :=
  ⟨Function.update L.next n none,Function.update L.prev n none⟩

/-- Joining the last node of a segment to another end moves the segment to that end. -/
theorem Seg.retarget (h : Seg L a l b) (hp : L.prev b = some p) (hl : (a :: l).Nodup)
    (hc : c ∉ l) : Seg (L.join p c) a l c := by
  rcases List.eq_nil_or_concat l with rfl | ⟨l,q,rfl⟩
  · have hpa : p = a := by simpa using h.prev_mem hp
    subst hpa
    exact ⟨by simp [Links.join],by simp [Links.join]⟩
  · rw [List.concat_eq_append] at *
    obtain ⟨hs,hq⟩ := seg_append.mp h
    have hpq : p = q := Option.some.inj (hp.symm.trans hq.2)
    subst hpq
    refine seg_append.mpr ⟨hs.congr ?_ ?_,by simp [Links.join],by simp [Links.join]⟩
    · intro x hx
      have hxp : x ≠ p := by
        rintro rfl
        rw [← List.cons_append] at hl
        exact (List.disjoint_of_nodup_append hl) hx (by simp)
      simp [Links.join,hxp]
    · intro x hx
      have hxc : x ≠ c := by
        rintro rfl
        exact hc (by simpa [or_comm] using hx)
      simp [Links.join,hxc]

theorem Closed.singleton (L : Links N) (g : N) : Closed (L.join g g) g [] :=
  ⟨by simp,by simp [Links.join],by simp [Links.join]⟩

/-- Linking a new node before the sentinel appends it. -/
theorem Closed.push (h : Closed L g l) (hn : n ∉ g :: l) (hp : L.prev g = some p) :
    Closed ((L.join p n).join n g) g (l ++ [n]) := by
  have hg : g ∉ l := (List.nodup_cons.mp h.nodup).1
  have hpl : p ∈ g :: l := h.seg.prev_mem hp
  have hnp : n ≠ p := fun e => hn (e ▸ hpl)
  obtain ⟨hng,hnl⟩ := not_or.mp (mt List.mem_cons.mpr hn)
  have hseg : Seg (L.join p n) g l n := h.seg.retarget hp h.nodup hnl
  refine ⟨?_,seg_append.mpr ⟨hseg.congr ?_ ?_,by simp [Links.join],by simp [Links.join]⟩⟩
  · rw [← List.cons_append]
    exact h.nodup.append (by simp) (by simpa using hn)
  · intro x hx
    have hxn : x ≠ n := fun e => hn (e ▸ hx)
    simp [Links.join,hxn]
  · intro x hx
    have hxg : x ≠ g := by
      rintro rfl
      rcases List.mem_cons.mp hx with hx | hx
      · exact hng hx.symm
      · exact hg hx
    simp [Links.join,hxg]

/-- Joining a node's neighbours and clearing it removes it from the ring. -/
theorem Closed.remove (h : Closed L g (l ++ n :: l')) (hp : L.prev n = some p)
    (hq : L.next n = some q) : Closed ((L.join p q).clear n) g (l ++ l') := by
  obtain ⟨hs,ht⟩ := seg_append.mp h.seg
  have hnodup : (g :: l).Nodup ∧ (n :: l').Nodup ∧ (g :: l).Disjoint (n :: l') := by
    rw [← List.nodup_append']
    simpa using h.nodup
  obtain ⟨hl,hl',hdisj⟩ := hnodup
  have hsub : (g :: (l ++ l')).Sublist (g :: (l ++ n :: l')) := by simp
  have hn : n ∉ g :: (l ++ l') := by
    have hngl : n ∉ g :: l := fun e => hdisj e (by simp)
    have hnl' : n ∉ l' := (List.nodup_cons.mp hl').1
    simp only [List.mem_cons,List.mem_append,not_or] at hngl ⊢
    exact ⟨hngl.1,hngl.2,hnl'⟩
  have hpl : p ∈ g :: l := hs.prev_mem hp
  have hjoin : Closed (L.join p q) g (l ++ l') := by
    refine ⟨h.nodup.sublist hsub,?_⟩
    cases l' with
    | nil =>
      have hqg : q = g := Option.some.inj (hq.symm.trans ht.1)
      subst hqg
      rw [List.append_nil]
      exact hs.retarget hp hl (List.nodup_cons.mp hl).1
    | cons y l' =>
      have hqy : q = y := Option.some.inj (hq.symm.trans ht.1.1)
      subst hqy
      have hql : q ∉ l := fun e => hdisj (List.mem_cons_of_mem _ e) (by simp)
      refine seg_append.mpr ⟨hs.retarget hp hl hql,ht.2.congr ?_ ?_⟩
      · intro x hx
        have hxp : x ≠ p := by
          rintro rfl
          exact hdisj hpl (List.mem_cons_of_mem _ hx)
        simp [Links.join,hxp]
      · intro x hx
        have hxq : x ≠ q := by
          rintro rfl
          rcases List.mem_cons.mp hx with rfl | hx
          · exact hdisj (List.mem_cons_self) (by simp)
          · exact (List.nodup_cons.mp (List.nodup_cons.mp hl').2).1 hx
        simp [Links.join,hxq]
  refine hjoin.congr ?_ ?_
  · intro x hx
    have hxn : x ≠ n := fun e => hn (e ▸ hx)
    simp [Links.clear,hxn]
  · intro x hx
    have hxn : x ≠ n := fun e => hn (e ▸ hx)
    simp [Links.clear,hxn]

end LinkedRing
end ProcMachines
