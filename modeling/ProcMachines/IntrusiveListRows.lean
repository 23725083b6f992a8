import ProcMachines.IntrusiveList

/-! The intrusive list against its purpose: each head stands for a duplicate-free
sequence of its leaves. -/
namespace ProcMachines
namespace IntrusiveList

open LinkedRing

variable {N σ : Type} {h h' h'' : Heap N} {g n : N} {l l' s : List N}

/-- Only links of the listed nodes differ. -/
structure Frame (s : List N) (h h' : Heap N) : Prop where
  targets : h'.targets = h.targets
  next : ∀ x ∉ s, h'.links.next x = h.links.next x
  prev : ∀ x ∉ s, h'.links.prev x = h.links.prev x

theorem Frame.refl (s : List N) (h : Heap N) : Frame s h h := ⟨rfl,fun _ _ => rfl,fun _ _ => rfl⟩

theorem Frame.trans {t u : List N} (hs : Frame s h h') (ht : Frame t h' h'') (hsu : s ⊆ u)
    (htu : t ⊆ u) : Frame u h h'' where
  targets := ht.targets.trans hs.targets
  next x hx := (ht.next x fun e => hx (htu e)).trans (hs.next x fun e => hx (hsu e))
  prev x hx := (ht.prev x fun e => hx (htu e)).trans (hs.prev x fun e => hx (hsu e))

def Null (h : Heap N) (n : N) : Prop := h.links.next n = none ∧ h.links.prev n = none

theorem Frame.null (hf : Frame s h h') (hn : n ∉ s) (hnull : Null h n) : Null h' n :=
  ⟨(hf.next n hn).trans hnull.1,(hf.prev n hn).trans hnull.2⟩

/-- The head is alive and its list holds these leaves in this order. -/
structure Row (h : Heap N) (g : N) (l : List N) : Prop where
  head : h.targets g = some none
  leaf : ∀ n ∈ l, h.targets n = some (some g)
  ring : (l = [] ∧ Null h g) ∨ Closed h.links g l

theorem Row.head_not_mem (hr : Row h g l) : g ∉ l := by
  intro hg
  have hleaf := hr.leaf g hg
  rw [hr.head] at hleaf
  simp at hleaf

theorem Row.closed (hr : Row h g l) (hn : n ∈ l) : Closed h.links g l := by
  rcases hr.ring with ⟨rfl,_⟩ | hc
  · simp at hn
  · exact hc

theorem Row.nodup (hr : Row h g l) : l.Nodup := by
  rcases hr.ring with ⟨rfl,_⟩ | hc
  · exact List.nodup_nil
  · exact (List.nodup_cons.mp hc.nodup).2

theorem Row.linked (hr : Row h g l) (hn : n ∈ l) :
    h.links.next n ≠ none ∧ h.links.prev n ≠ none := (hr.closed hn).seg.linked hn

theorem Row.live (hr : Row h g l) {x : N} (hx : x ∈ g :: l) : h.targets x ≠ none := by
  rcases List.mem_cons.mp hx with rfl | hx
  · simp [hr.head]
  · simp [hr.leaf x hx]

theorem Row.frame (hr : Row h g l) (hf : Frame s h h') (hd : ∀ x ∈ g :: l, x ∉ s) :
    Row h' g l where
  head := by rw [hf.targets]; exact hr.head
  leaf n hn := by rw [hf.targets]; exact hr.leaf n hn
  ring := by
    rcases hr.ring with ⟨hl,hnull⟩ | hc
    · exact Or.inl ⟨hl,hf.null (hd g (by simp)) hnull⟩
    · exact Or.inr (hc.congr (fun x hx => hf.next x (hd x hx)) fun x hx => hf.prev x (hd x hx))

variable [DecidableEq N]

theorem frame_join {a b : N} (ha : h.targets a ≠ none) (hb : h.targets b ≠ none) :
    Frame [a,b] h (h.join a b) where
  targets := h.targets_join a b
  next x hx := by
    have hne : x ≠ a := fun e => hx (by simp [e])
    rw [Heap.links_join ha hb]
    simp [Links.join,hne]
  prev x hx := by
    have hne : x ≠ b := fun e => hx (by simp [e])
    rw [Heap.links_join ha hb]
    simp [Links.join,hne]

theorem frame_clear (hn : h.targets n ≠ none) : Frame [n] h (h.clear n) where
  targets := h.targets_clear n
  next x hx := by
    have hne : x ≠ n := fun e => hx (by simp [e])
    rw [Heap.links_clear hn]
    simp [Links.clear,hne]
  prev x hx := by
    have hne : x ≠ n := fun e => hx (by simp [e])
    rw [Heap.links_clear hn]
    simp [Links.clear,hne]

theorem null_clear (hn : h.targets n ≠ none) : Null (h.clear n) n := by
  rw [Null,Heap.links_clear hn]
  simp [Links.clear]

theorem append_row {p : N} (hc : Closed h.links g l) (hg : h.targets g = some none)
    (hl : ∀ x ∈ l, h.targets x = some (some g)) (hn : h.targets n = some (some g)) (hnl : n ∉ l)
    (hp : h.links.prev g = some p) : Row ((h.join p n).join n g) g (l ++ [n]) ∧
      Frame (n :: g :: l) h ((h.join p n).join n g) := by
  have hpl : p ∈ g :: l := hc.seg.prev_mem hp
  have hplive : h.targets p ≠ none := by
    rcases List.mem_cons.mp hpl with rfl | hpl
    · simp [hg]
    · simp [hl p hpl]
  have hng : n ≠ g := by
    rintro rfl
    rw [hg] at hn
    simp at hn
  have hfresh : n ∉ g :: l := by simp [hng,hnl]
  have hf : Frame (n :: g :: l) h ((h.join p n).join n g) := by
    refine (frame_join hplive (by simp [hn])).trans (frame_join (by simp [hn]) (by simp [hg])) ?_ ?_
    · intro x hx
      rcases List.mem_cons.mp hx with rfl | hx
      · exact List.mem_cons_of_mem _ hpl
      · simp [List.mem_singleton.mp hx]
    · intro x hx
      rcases List.mem_cons.mp hx with rfl | hx
      · simp
      · simp [List.mem_singleton.mp hx]
  refine ⟨⟨by simp [hg],?_,Or.inr ?_⟩,hf⟩
  · intro x hx
    rw [hf.targets]
    rcases List.mem_append.mp hx with hx | hx
    · exact hl x hx
    · rw [List.mem_singleton.mp hx]
      exact hn
  · rw [Heap.links_join (by simp [hn]) (by simp [hg]),Heap.links_join hplive (by simp [hn])]
    exact hc.push hfresh hp

theorem link_row (hr : Row h g l) (hn : h.targets n = some (some g)) (hnl : n ∉ l)
    (hnull : Null h n) : ∃ h', Exec (link g n) h () h' ∧ Row h' g (l ++ [n]) ∧
      Frame (n :: g :: l) h h' := by
  rcases hr.ring with ⟨rfl,hg⟩ | hc
  · have hlive : h.targets g ≠ none := by simp [hr.head]
    have hself := frame_join hlive hlive
    have hc : Closed (h.join g g).links g [] := by
      rw [Heap.links_join hlive hlive]
      exact Closed.singleton _ _
    obtain ⟨hrow,hf⟩ := append_row (n := n) hc (by simp [hr.head]) (by simp) (by simpa using hn)
      hnl hc.seg.2
    refine ⟨_,link_exec_first hn hnull.1 hr.head hg.1,hrow,hself.trans hf ?_ (List.Subset.refl _)⟩
    intro x hx
    have hxg : x = g := by simpa using hx
    simp [hxg]
  · obtain ⟨p,hp⟩ := hc.exists_prev
    obtain ⟨hrow,hf⟩ := append_row hc hr.head hr.leaf hn hnl hp
    exact ⟨_,link_exec hn hnull.1 hr.head hp (by simp [hc.next_eq])
      (hr.live (hc.seg.prev_mem hp)),hrow,hf⟩

theorem unlinkLeaf_row (hr : Row h g (l ++ n :: l')) : ∃ h', Exec (unlinkLeaf g n) h () h' ∧
    Row h' g (l ++ l') ∧ Closed h'.links g (l ++ l') ∧ Frame (g :: (l ++ n :: l')) h h' ∧
      Null h' n := by
  have hn : n ∈ l ++ n :: l' := by simp
  have hc := hr.closed hn
  have htarget := hr.leaf n hn
  obtain ⟨q,hq⟩ := Option.ne_none_iff_exists'.mp (hr.linked hn).1
  obtain ⟨p,hp⟩ := Option.ne_none_iff_exists'.mp (hr.linked hn).2
  have hpm : p ∈ g :: (l ++ n :: l') := hc.prev_mem (List.mem_cons_of_mem _ hn) hp
  have hqm : q ∈ g :: (l ++ n :: l') := hc.next_mem (List.mem_cons_of_mem _ hn) hq
  have hf : Frame (g :: (l ++ n :: l')) h ((h.join p q).clear n) := by
    refine (frame_join (hr.live hpm) (hr.live hqm)).trans (frame_clear (by simp [htarget])) ?_ ?_
    · intro x hx
      rcases List.mem_cons.mp hx with rfl | hx
      · exact hpm
      · rw [List.mem_singleton.mp hx]
        exact hqm
    · intro x hx
      rw [List.mem_singleton.mp hx]
      exact List.mem_cons_of_mem _ hn
  have hring : Closed ((h.join p q).clear n).links g (l ++ l') := by
    rw [Heap.links_clear (by simp [htarget]),Heap.links_join (hr.live hpm) (hr.live hqm)]
    exact hc.remove hp hq
  refine ⟨_,unlinkLeaf_exec htarget hp hq (hr.live hpm) (hr.live hqm),⟨?_,?_,Or.inr hring⟩,hring,
    hf,null_clear (by simp [htarget])⟩
  · rw [hf.targets]
    exact hr.head
  · intro x hx
    rw [hf.targets]
    refine hr.leaf x ?_
    rcases List.mem_append.mp hx with hx | hx <;> simp [hx]

theorem unlinkLeaves_row (hr : Row h g l) {fuel : ℕ} (hfuel : l.length < fuel) :
    ∃ h', Exec (unlinkLeaves g fuel) h () h' ∧ Row h' g [] ∧ Frame (g :: l) h h' ∧
      ∀ n ∈ l, Null h' n := by
  induction l generalizing h fuel with
  | nil =>
    obtain ⟨fuel,rfl⟩ := Nat.exists_eq_succ_of_ne_zero (by omega : fuel ≠ 0)
    refine ⟨h,(read_exec hr.head).bind ?_,hr,Frame.refl _ _,by simp⟩
    rcases hr.ring with ⟨_,hnull⟩ | hc
    · rw [hnull.1]
      exact pure_exec () h
    · have hnext : h.links.next g = some g := hc.next_eq
      simp only [hnext,if_true]
      exact pure_exec () h
  | cons n l ih =>
    obtain ⟨fuel,rfl⟩ := Nat.exists_eq_succ_of_ne_zero (by omega : fuel ≠ 0)
    have hc := hr.closed (n := n) (by simp)
    have hng : n ≠ g := fun e => hr.head_not_mem (by simp [e])
    obtain ⟨h₁,hexec,hrow,_,hf,hnull⟩ := unlinkLeaf_row (l := []) hr
    obtain ⟨h₂,hexec₂,hrow₂,hf₂,hnull₂⟩ := ih hrow (show _ < fuel by simpa using hfuel)
    refine ⟨h₂,(read_exec hr.head).bind ?_,hrow₂,hf.trans hf₂ ?_ ?_,?_⟩
    · have hnext : h.links.next g = some n := hc.next_eq
      simp only [hnext,hng,if_false]
      exact hexec.bind hexec₂
    · exact List.Subset.refl _
    · intro x hx
      rcases List.mem_cons.mp hx with rfl | hx <;> simp_all
    · intro x hx
      rcases List.mem_cons.mp hx with rfl | hx
      · refine hf₂.null ?_ hnull
        have hnl : x ∉ l := (List.nodup_cons.mp hr.nodup).1
        simp [hng,hnl]
      · exact hnull₂ x hx

theorem unlink_head_row (hr : Row h g l) {fuel : ℕ} (hfuel : l.length < fuel) :
    ∃ h', Exec (unlink fuel g g) h () h' ∧ Row h' g [] ∧ Frame (g :: l) h h' ∧
      ∀ n ∈ g :: l, Null h' n := by
  obtain ⟨h₁,hexec,hrow,hf,hnull⟩ := unlinkLeaves_row hr hfuel
  have hg : h₁.targets g ≠ none := by simp [hrow.head]
  have hfc := frame_clear hg
  refine ⟨h₁.clear g,?_,⟨by simp [hrow.head],by simp,Or.inl ⟨rfl,null_clear hg⟩⟩,
    hf.trans hfc (List.Subset.refl _) (by simp),?_⟩
  · rw [unlink,if_pos rfl]
    exact hexec.bind (clear_exec hg)
  · intro x hx
    rcases List.mem_cons.mp hx with rfl | hx
    · exact null_clear hg
    · have hxg : x ≠ g := fun e => hr.head_not_mem (e ▸ hx)
      exact hfc.null (by simpa using hxg) (hnull x hx)

/-- What a closure's answers leave of a list, and the closure's last state. -/
def sift (f : N → σ → Bool × σ) : List N → σ → List N × σ
  | [], s => ([],s)
  | n :: l, s =>
    let (keep,s) := f n s
    let (kept,s) := sift f l s
    (if keep then n :: kept else kept,s)

def quiet (f : N → σ → Bool × σ) (n : N) (s : σ) : Mem N (Bool × σ) := return f n s

omit [DecidableEq N] in
theorem sift_state (f : N → σ → Bool × σ) (l : List N) (s : σ) :
    (sift f l s).2 = l.foldl (fun s n => (f n s).2) s := by
  induction l generalizing s with
  | nil => rfl
  | cons n l ih => simp [sift,ih]

omit [DecidableEq N] in
theorem sift_sublist (f : N → σ → Bool × σ) (l : List N) (s : σ) : (sift f l s).1.Sublist l := by
  induction l generalizing s with
  | nil => simp [sift]
  | cons n l ih =>
    cases hk : (f n s).1 with
    | true => simpa [sift,hk] using ih (f n s).2
    | false => simpa [sift,hk] using (ih (f n s).2).cons n

omit [DecidableEq N] in
theorem next_of_closed {m : List N} (hc : Closed h.links g (l ++ n :: m)) :
    h.links.next n = some (m.head?.getD g) := by
  have hseg := (seg_append.mp hc.seg).2
  cases m with
  | nil => exact hseg.1
  | cons y m => exact hseg.1.1

theorem filterFrom_step (f : N → σ → Bool × σ) {m : List N} {fuel : ℕ} {s r : σ} {cursor : N}
    (hr : Row h g (l ++ cursor :: m)) (hc : Closed h.links g (l ++ cursor :: m))
    (hexec : Exec (do
      if !(f cursor s).1 then unlinkLeaf g cursor
      filterFrom g (quiet f) fuel (some (m.head?.getD g)) (f cursor s).2) h r h') :
    Exec (filterFrom g (quiet f) (fuel+1) (some cursor) s) h r h' := by
  have hn : cursor ∈ l ++ cursor :: m := by simp
  have hng : cursor ≠ g := fun e => hr.head_not_mem (e ▸ hn)
  rw [filterFrom,if_neg (by simpa using hng)]
  refine (deref_exec cursor h).bind ((read_exec (hr.leaf cursor hn)).bind ?_)
  rw [next_of_closed hc]
  exact (pure_exec (f cursor s) h).bind hexec

/-- The loop of `filter` from a cursor with `l` behind it and `m` still to visit. -/
theorem filterFrom_row (f : N → σ → Bool × σ) {m : List N} {fuel : ℕ} {s : σ} {cursor : N}
    (hr : Row h g (l ++ m)) (hc : Closed h.links g (l ++ m)) (hcur : cursor = m.head?.getD g)
    (hfuel : m.length < fuel) :
    ∃ h', Exec (filterFrom g (quiet f) fuel (some cursor) s) h (sift f m s).2 h' ∧
      Row h' g (l ++ (sift f m s).1) ∧ Closed h'.links g (l ++ (sift f m s).1) ∧
      Frame (g :: (l ++ m)) h h' ∧ ∀ n ∈ m, n ∉ (sift f m s).1 → Null h' n := by
  induction m generalizing h fuel s cursor l with
  | nil =>
    obtain ⟨fuel,rfl⟩ := Nat.exists_eq_succ_of_ne_zero (by omega : fuel ≠ 0)
    refine ⟨h,?_,by simpa [sift] using hr,by simpa [sift] using hc,Frame.refl _ _,by simp⟩
    subst hcur
    simp [filterFrom,sift,pure_exec]
  | cons n m ih =>
    obtain ⟨fuel,rfl⟩ := Nat.exists_eq_succ_of_ne_zero (by omega : fuel ≠ 0)
    have hn : n ∈ l ++ n :: m := by simp
    have hng : n ≠ g := fun e => hr.head_not_mem (e ▸ hn)
    have hcn : cursor = n := hcur
    subst hcn
    have hlen : m.length < fuel := by simpa using hfuel
    cases hk : (f cursor s).1 with
    | true =>
      have happ : l ++ cursor :: m = (l ++ [cursor]) ++ m := by simp
      rw [happ] at hr hc
      obtain ⟨h₁,hexec,hrow,hring,hf,hnull⟩ := ih hr hc rfl hlen
      rw [← happ] at hr hc
      refine ⟨h₁,filterFrom_step f hr hc ?_,?_,?_,?_,?_⟩
      · simpa [hk,sift] using hexec
      · simpa [hk,sift] using hrow
      · simpa [hk,sift] using hring
      · simpa using hf
      · intro x hx hkept
        simp only [sift,hk,if_true,List.mem_cons,not_or] at hkept
        exact hnull x ((List.mem_cons.mp hx).resolve_left hkept.1) hkept.2
    | false =>
      obtain ⟨h₁,hexec₁,hrow₁,hc₁,hf₁,hnull₁⟩ := unlinkLeaf_row hr
      obtain ⟨h₂,hexec₂,hrow₂,hring₂,hf₂,hnull₂⟩ := ih hrow₁ hc₁ rfl hlen
      refine ⟨h₂,filterFrom_step f hr hc ?_,?_,?_,hf₁.trans hf₂ (List.Subset.refl _) ?_,?_⟩
      · simpa [hk,sift] using hexec₁.bind hexec₂
      · simpa [hk,sift] using hrow₂
      · simpa [hk,sift] using hring₂
      · intro x hx
        rcases List.mem_cons.mp hx with rfl | hx
        · simp
        · rcases List.mem_append.mp hx with hx | hx <;> simp [hx]
      · intro x hx hkept
        have hkept' : x ∉ (sift f m (f cursor s).2).1 := by simpa [sift,hk] using hkept
        rcases List.mem_cons.mp hx with rfl | hx
        · refine hf₂.null ?_ hnull₁
          have hnd := hr.nodup
          rw [List.nodup_middle,List.nodup_cons] at hnd
          simpa [hng] using hnd.1
        · exact hnull₂ x hx hkept'

omit [DecidableEq N] in
theorem not_null_of_closed (hc : Closed h.links g l) : ¬ Null h g := by
  intro hnull
  rw [Null,hc.next_eq] at hnull
  cases hnull.1

/-- `filter` asks the closure about each leaf in order and keeps those answered `true`; the
head stays linked to itself when they are none. -/
theorem filter_row (f : N → σ → Bool × σ) (hr : Row h g l) {fuel : ℕ} (hfuel : l.length < fuel)
    (s : σ) : ∃ h', Exec (filter fuel g (quiet f) s) h (sift f l s).2 h' ∧
      Row h' g (sift f l s).1 ∧ Frame (g :: l) h h' ∧
      (∀ n ∈ l, n ∉ (sift f l s).1 → Null h' n) ∧ (Null h' g ↔ Null h g) := by
  rcases hr.ring with ⟨rfl,hnull⟩ | hc
  · refine ⟨h,(read_exec hr.head).bind ?_,hr,Frame.refl _ _,by simp,Iff.rfl⟩
    simp only [IntrusiveListNode.isLinked,hnull.1,Option.isSome_none,Bool.and_false]
    exact pure_exec s h
  · obtain ⟨p,hp⟩ := hc.exists_prev
    obtain ⟨h',hexec,hrow,hring,hf,hnull⟩ := filterFrom_row (l := []) (s := s) f hr hc rfl hfuel
    refine ⟨h',(read_exec hr.head).bind ?_,hrow,hf,hnull,
      iff_of_false (not_null_of_closed hring) (not_null_of_closed hc)⟩
    simp only [IntrusiveListNode.isLinked,hp,hc.next_eq,Option.isSome_some,Bool.and_self]
    exact hexec

theorem filterFrom_keeps (f : N → σ → Bool × σ) {m : List N} {fuel : ℕ} {s : σ} {cursor : N}
    (hr : Row h g (l ++ m)) (hc : Closed h.links g (l ++ m)) (hcur : cursor = m.head?.getD g)
    (hfuel : m.length < fuel) (hkeep : ∀ n ∈ m, ∀ s, (f n s).1 = true) :
    Exec (filterFrom g (quiet f) fuel (some cursor) s) h (sift f m s).2 h := by
  induction m generalizing fuel s cursor l with
  | nil =>
    obtain ⟨fuel,rfl⟩ := Nat.exists_eq_succ_of_ne_zero (by omega : fuel ≠ 0)
    subst hcur
    simp [filterFrom,sift,pure_exec]
  | cons n m ih =>
    obtain ⟨fuel,rfl⟩ := Nat.exists_eq_succ_of_ne_zero (by omega : fuel ≠ 0)
    have hcn : cursor = n := hcur
    subst hcn
    have happ : l ++ cursor :: m = (l ++ [cursor]) ++ m := by simp
    have hlen : m.length < fuel := by simpa using hfuel
    have hrest := ih (s := (f cursor s).2) (happ ▸ hr) (happ ▸ hc) rfl hlen
      fun n hn => hkeep n (List.mem_cons_of_mem _ hn)
    apply filterFrom_step f hr hc
    simpa [hkeep cursor (by simp),sift] using hrest

theorem filter_keeps (f : N → σ → Bool × σ) (hr : Row h g l) {fuel : ℕ} (hfuel : l.length < fuel)
    (hkeep : ∀ n ∈ l, ∀ s, (f n s).1 = true) (s : σ) :
    Exec (filter fuel g (quiet f) s) h (sift f l s).2 h := by
  apply (read_exec hr.head).bind
  rcases hr.ring with ⟨rfl,hnull⟩ | hc
  · simp only [IntrusiveListNode.isLinked,hnull.1,Option.isSome_none,Bool.and_false]
    exact pure_exec s h
  · obtain ⟨p,hp⟩ := hc.exists_prev
    simp only [IntrusiveListNode.isLinked,hp,hc.next_eq,Option.isSome_some,Bool.and_self]
    exact filterFrom_keeps (l := []) f hr hc rfl hfuel hkeep

end IntrusiveList
end ProcMachines
