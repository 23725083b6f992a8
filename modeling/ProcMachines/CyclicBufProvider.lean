import ProcMachines.ReaderPending
import ProcMachines.Transition

/-! The provider that cycles through a fixed array of buffers. What the `bytes` crate does to
reclaim a buffer is a parameter, and so is who else holds buffers when the provider is polled. -/
namespace ProcMachines

open Transition

/-- A `BytesMut` as the provider sees it: the storage it refers to, if it has any, and its
length and capacity there. -/
structure BufRef (σ : Type) where
  storage : Option σ
  len : ℕ
  capacity : ℕ
  deriving DecidableEq, Repr

namespace BufRef

variable {σ : Type}

/-- `BytesMut::new()` -/
def new : BufRef σ := ⟨none,0,0⟩

/-- What stays in place after `split_off(at)`, and what it returns. -/
def splitOff (self : BufRef σ) (at_ : ℕ) : BufRef σ × BufRef σ :=
  (⟨self.storage,min self.len at_,at_⟩,⟨self.storage,self.len - at_,self.capacity - at_⟩)

/-- Another reference to the same storage is among the given ones. -/
def Shared (self : BufRef σ) (refs : List (BufRef σ)) : Prop :=
  ∃ s, self.storage = some s ∧ ∃ b ∈ refs, b.storage = some s

theorem Shared.append {self : BufRef σ} {refs refs' : List (BufRef σ)} :
    self.Shared (refs ++ refs') ↔ self.Shared refs ∨ self.Shared refs' := by
  simp only [Shared,List.mem_append]
  constructor
  · rintro ⟨s,hs,b,hb | hb,hbs⟩
    · exact Or.inl ⟨s,hs,b,hb,hbs⟩
    · exact Or.inr ⟨s,hs,b,hb,hbs⟩
  · rintro (⟨s,hs,b,hb,hbs⟩ | ⟨s,hs,b,hb,hbs⟩)
    · exact ⟨s,hs,b,Or.inl hb,hbs⟩
    · exact ⟨s,hs,b,Or.inr hb,hbs⟩

theorem shared_singleton {b b' : BufRef σ} : b.Shared [b'] ↔ b'.Shared [b] := by
  simp only [Shared,List.mem_singleton,exists_eq_left]
  exact ⟨fun ⟨s,h,h'⟩ => ⟨s,h',h⟩,fun ⟨s,h,h'⟩ => ⟨s,h',h⟩⟩

theorem Shared.congr {b b' : BufRef σ} {refs : List (BufRef σ)} (h : b.storage = b'.storage) :
    b.Shared refs ↔ b'.Shared refs := by
  simp only [Shared,h]

end BufRef

/-- `try_reclaim`, as far as it is documented: it is given the other references that are alive.
It fails if the spare capacity is too small, and the storage is too small as well or is still
referred to by others; otherwise the spare capacity becomes large enough. -/
structure BytesCrate (σ : Type) where
  size : σ → ℕ
  tryReclaim : BufRef σ → ℕ → List (BufRef σ) → Option (BufRef σ)
  fails : ∀ self additional refs, self.len = 0 → (tryReclaim self additional refs = none ↔
    self.capacity < additional ∧ (self.storage.elim 0 size < additional ∨ self.Shared refs))
  reclaimed : ∀ self additional refs b, tryReclaim self additional refs = some b →
    b.storage = self.storage ∧ b.len = self.len ∧ additional ≤ b.capacity - b.len

/-- The references held by the provider, one in each place; none of its places is out of range. -/
structure CyclicBufProvider (σ : Type) (count : ℕ) where
  bufs : Fin count → BufRef σ
  sizes : Fin count → ℕ
  nextIdx : Fin count

namespace CyclicBufProvider

variable {σ : Type} {count : ℕ}

/-- None at all is the panic on a `COUNT` of zero. -/
def new (count : ℕ) : Option (CyclicBufProvider σ count) :=
  if h : count < 1 then none
  else some ⟨fun _ => .new,fun _ => 0,⟨0,by omega⟩⟩

def others (self : CyclicBufProvider σ count) (i : Fin count) : List (BufRef σ) :=
  ((List.finRange count).filter (· ≠ i)).map self.bufs

/-- `f_alloc()` yields `fresh`, should it be called, and `held` are the references alive
elsewhere. The value also says whether `f_alloc` was called. -/
def pollGetBuf (C : BytesCrate σ) (fresh : BufRef σ) (held : List (BufRef σ))
    (self : CyclicBufProvider σ count) :
    Poll (BufRef σ) × Bool × CyclicBufProvider σ count :=
  let idx := self.nextIdx
  let nextIdx := ⟨(idx.val + 1) % count,Nat.mod_lt _ (Nat.zero_lt_of_lt idx.isLt)⟩
  let reclaimed := if self.sizes idx < 1 then none
    else C.tryReclaim (self.bufs idx) (self.sizes idx) (self.others idx ++ held)
  let target := reclaimed.getD fresh
  let size := if reclaimed.isNone then fresh.capacity else self.sizes idx
  (.ready (target.splitOff 0).2,reclaimed.isNone,
    ⟨Function.update self.bufs idx (target.splitOff 0).1,Function.update self.sizes idx size,nextIdx⟩)

theorem mem_others {self : CyclicBufProvider σ count} {i : Fin count} {b : BufRef σ} :
    b ∈ self.others i ↔ ∃ j, j ≠ i ∧ self.bufs j = b := by
  simp [others]

structure World (σ : Type) (count : ℕ) where
  provider : CyclicBufProvider σ count
  held : List (BufRef σ)

/-- A buffer handed out, from which place, and whether it was allocated for this poll. -/
structure Given (σ : Type) (count : ℕ) where
  idx : Fin count
  buf : BufRef σ
  allocated : Bool
  deriving DecidableEq, Repr

/-- The provider is polled, by someone who then holds the buffer; or what the others hold
changes. What `f_alloc` yields is in nobody's hands yet. -/
inductive Step (C : BytesCrate σ) : World σ count → Option (Given σ count) → World σ count → Prop
  | poll (w : World σ count) (fresh : BufRef σ) (hheld : ¬ fresh.Shared w.held)
      (hbufs : ∀ i, ¬ fresh.Shared [w.provider.bufs i])
      (hsize : fresh.capacity ≤ fresh.storage.elim 0 C.size) {b : BufRef σ} {allocated : Bool}
      {provider : CyclicBufProvider σ count}
      (h : w.provider.pollGetBuf C fresh w.held = (.ready b,allocated,provider)) :
      Step C w (some ⟨w.provider.nextIdx,b,allocated⟩) ⟨provider,b :: w.held⟩
  | others (w : World σ count) (held : List (BufRef σ)) : Step C w none ⟨w.provider,held⟩

def given (es : List (Option (Given σ count))) : List (Given σ count) := es.filterMap id

@[simp] theorem given_snoc_some (es : List (Option (Given σ count))) (g : Given σ count) :
    given (es ++ [some g]) = given es ++ [g] := by
  simp [given]

@[simp] theorem given_snoc_none (es : List (Option (Given σ count))) :
    given (es ++ [none]) = given es := by
  simp [given]

section Poll

variable {C : BytesCrate σ} {self provider : CyclicBufProvider σ count} {fresh b : BufRef σ}
  {held : List (BufRef σ)} {allocated : Bool}

/-- A poll puts a reference to the buffer it hands out in the place of its turn: the one that
`f_alloc` yields, or the one that is there if it can be reclaimed. -/
theorem pollGetBuf_cases (h : self.pollGetBuf C fresh held = (.ready b,allocated,provider)) :
    provider.nextIdx.val = (self.nextIdx.val + 1) % count ∧
    provider.bufs = Function.update self.bufs self.nextIdx ⟨b.storage,0,0⟩ ∧
    ((allocated = true ∧ b = fresh ∧
        provider.sizes = Function.update self.sizes self.nextIdx fresh.capacity ∧
        (self.sizes self.nextIdx = 0 ∨ C.tryReclaim (self.bufs self.nextIdx)
          (self.sizes self.nextIdx) (self.others self.nextIdx ++ held) = none)) ∨
      (allocated = false ∧ self.sizes self.nextIdx ≠ 0 ∧ provider.sizes = self.sizes ∧
        C.tryReclaim (self.bufs self.nextIdx) (self.sizes self.nextIdx)
          (self.others self.nextIdx ++ held) = some b)) := by
  simp only [pollGetBuf,BufRef.splitOff,Prod.mk.injEq,Poll.ready.injEq] at h
  obtain ⟨rfl,rfl,rfl⟩ := h
  refine ⟨rfl,by simp,?_⟩
  by_cases hsize : self.sizes self.nextIdx < 1
  · exact Or.inl ⟨by simp [hsize],by simp [hsize],by simp [hsize],Or.inl (by omega)⟩
  · cases hreclaim : C.tryReclaim (self.bufs self.nextIdx) (self.sizes self.nextIdx)
        (self.others self.nextIdx ++ held) with
    | none => exact Or.inl ⟨by simp [hsize],by simp [hsize],by simp [hsize],Or.inr rfl⟩
    | some target => exact Or.inr ⟨by simp [hsize],by omega,by simp [hsize],by simp [hsize]⟩

theorem pollGetBuf_ready (C : BytesCrate σ) (fresh : BufRef σ) (held : List (BufRef σ))
    (self : CyclicBufProvider σ count) :
    ∃ b allocated provider, self.pollGetBuf C fresh held = (.ready b,allocated,provider) :=
  ⟨_,_,_,rfl⟩

end Poll

theorem place_ne {count k n : ℕ} (h : k < n) (hturn : n < k + count) : k % count ≠ n % count := by
  intro heq
  have hdvd := (Nat.modEq_iff_dvd' h.le).mp heq
  have hle := Nat.le_of_dvd (by omega) hdvd
  omega

/-- What one place of the provider has to do with the buffers handed out so far. -/
structure Place (C : BytesCrate σ) (gs : List (Given σ count)) (i : Fin count) (buf : BufRef σ)
    (size : ℕ) : Prop where
  empty : buf.len = 0 ∧ buf.capacity = 0
  fits : size ≤ buf.storage.elim 0 C.size
  unused : gs.length ≤ i.val → size = 0
  last : ∀ k p, gs[k]? = some p → gs.length ≤ k + count → k % count = i.val →
    buf.storage = p.buf.storage ∧ (size = 0 ↔ p.buf.capacity = 0)
  origin : size ≠ 0 → ∃ j o, gs[j]? = some o ∧ j % count = i.val ∧ o.allocated = true ∧
    o.buf.storage = buf.storage ∧ o.buf.capacity = size

/-- The places take turns, and no two of them refer to the same storage. -/
structure Recycles (C : BytesCrate σ) (gs : List (Given σ count))
    (provider : CyclicBufProvider σ count) : Prop where
  next : provider.nextIdx.val = gs.length % count
  place : ∀ i, Place C gs i (provider.bufs i) (provider.sizes i)
  distinct : ∀ i j, i ≠ j → ¬ (provider.bufs i).Shared [provider.bufs j]

theorem recycles_new {C : BytesCrate σ} {self : CyclicBufProvider σ count} (h : new count = some self) :
    Recycles C [] self := by
  unfold new at h
  split at h
  · cases h
  · cases h
    refine ⟨(Nat.zero_mod count).symm,fun i => ?_,fun i j _ hshared => ?_⟩
    · exact ⟨⟨rfl,rfl⟩,Nat.zero_le _,fun _ => rfl,by simp,fun h => absurd rfl h⟩
    · obtain ⟨s,hs,-⟩ := hshared
      cases hs

theorem getElem?_snoc {α : Type} {xs : List α} {x a : α} {j : ℕ} (h : xs[j]? = some a) :
    (xs ++ [x])[j]? = some a := by
  rwa [List.getElem?_append_left (List.getElem?_eq_some_iff.mp h).1]

section Turns

variable {C : BytesCrate σ} {gs : List (Given σ count)} {self provider : CyclicBufProvider σ count}
  {fresh b : BufRef σ} {held : List (BufRef σ)} {allocated : Bool}

theorem Place.other {i : Fin count} {buf : BufRef σ} {size : ℕ} (h : Place C gs i buf size)
    {g : Given σ count} (hne : i.val ≠ gs.length % count) : Place C (gs ++ [g]) i buf size where
  empty := h.empty
  fits := h.fits
  unused hi := h.unused (by rw [List.length_append] at hi; omega)
  last k p hk hturn hplace := by
    rw [List.length_append,List.length_singleton] at hturn
    rcases Nat.lt_trichotomy k gs.length with hlt | rfl | hgt
    · rw [List.getElem?_append_left hlt] at hk
      exact h.last k p hk (by omega) hplace
    · exact absurd hplace.symm hne
    · rw [List.getElem?_eq_none (by simpa using hgt)] at hk
      cases hk
  origin hsize := by
    obtain ⟨j,o,hj,hrest⟩ := h.origin hsize
    exact ⟨j,o,getElem?_snoc hj,hrest⟩

theorem last_of_turn {g p : Given σ count} {k : ℕ} (hk : (gs ++ [g])[k]? = some p)
    (hturn : (gs ++ [g]).length ≤ k + count) (hplace : k % count = gs.length % count) : p = g := by
  rw [List.length_append,List.length_singleton] at hturn
  have hlt := (List.getElem?_eq_some_iff.mp hk).1
  rw [List.length_append,List.length_singleton] at hlt
  obtain rfl : k = gs.length := by
    by_contra hne
    exact place_ne (by omega) (by omega) hplace
  simpa using hk.symm

theorem Recycles.poll (h : Recycles C gs self)
    (hpoll : self.pollGetBuf C fresh held = (.ready b,allocated,provider))
    (hbufs : ∀ i, ¬ fresh.Shared [self.bufs i]) (hsize : fresh.capacity ≤ fresh.storage.elim 0 C.size) :
    Recycles C (gs ++ [⟨self.nextIdx,b,allocated⟩]) provider := by
  obtain ⟨hnext,hput,hcase⟩ := pollGetBuf_cases hpoll
  have hidx : self.nextIdx.val ≤ gs.length := h.next.trans_le (Nat.mod_le _ _)
  refine ⟨?_,fun i => ?_,fun i j hij => ?_⟩
  · rw [hnext,h.next,List.length_append,List.length_singleton,Nat.mod_add_mod]
  · by_cases hi : i = self.nextIdx
    · subst hi
      rw [hput,Function.update_self]
      rcases hcase with ⟨rfl,rfl,hsizes,-⟩ | ⟨rfl,hne,hsizes,hreclaim⟩
      · rw [hsizes,Function.update_self]
        refine ⟨⟨rfl,rfl⟩,hsize,fun hle => ?_,fun k p hk hturn hplace => ?_,fun _ => ?_⟩
        · rw [List.length_append,List.length_singleton] at hle
          omega
        · obtain rfl := last_of_turn hk hturn (hplace.trans h.next)
          exact ⟨rfl,Iff.rfl⟩
        · exact ⟨gs.length,⟨self.nextIdx,b,true⟩,by simp,h.next.symm,rfl,rfl,rfl⟩
      · obtain ⟨hstorage,hlen,hroom⟩ := C.reclaimed _ _ _ _ hreclaim
        have hplace := h.place self.nextIdx
        rw [hsizes,hstorage]
        refine ⟨⟨rfl,rfl⟩,hplace.fits,fun hle => ?_,fun k p hk hturn hmod => ?_,fun _ => ?_⟩
        · rw [List.length_append,List.length_singleton] at hle
          omega
        · obtain rfl := last_of_turn hk hturn (hmod.trans h.next)
          refine ⟨hstorage.symm,fun hzero => absurd hzero hne,fun hzero => ?_⟩
          have hzero : b.capacity = 0 := hzero
          omega
        · obtain ⟨j,o,hj,hrest⟩ := hplace.origin hne
          exact ⟨j,o,getElem?_snoc hj,hrest⟩
    · have hother : i.val ≠ gs.length % count := fun heq => hi (Fin.ext (heq.trans h.next.symm))
      have hsizes : provider.sizes i = self.sizes i := by
        rcases hcase with ⟨-,-,hsizes,-⟩ | ⟨-,-,hsizes,-⟩
        · rw [hsizes,Function.update_of_ne hi]
        · rw [hsizes]
      rw [hput,Function.update_of_ne hi,hsizes]
      exact (h.place i).other hother
  · have hnew : ∀ i, i ≠ self.nextIdx → ¬ b.Shared [self.bufs i] := by
      intro i hi
      rcases hcase with ⟨-,rfl,-,-⟩ | ⟨-,-,-,hreclaim⟩
      · exact hbufs i
      · rw [BufRef.Shared.congr (C.reclaimed _ _ _ _ hreclaim).1]
        exact h.distinct _ i (Ne.symm hi)
    rw [hput]
    by_cases hi : i = self.nextIdx
    · subst hi
      rw [Function.update_self,Function.update_of_ne (Ne.symm hij)]
      exact hnew j (Ne.symm hij)
    · rw [Function.update_of_ne hi]
      by_cases hj : j = self.nextIdx
      · subst hj
        rw [Function.update_self]
        intro hshared
        have hback : BufRef.Shared ⟨b.storage,0,0⟩ [self.bufs i] := BufRef.shared_singleton.mp hshared
        exact hnew i hi ((BufRef.Shared.congr rfl).mp hback)
      · rw [Function.update_of_ne hj]
        exact h.distinct i j hij

/-- A place whose turn it is allocates unless it has a buffer of some capacity that nobody
outside refers to. -/
theorem Recycles.allocates (h : Recycles C gs self)
    (hpoll : self.pollGetBuf C fresh held = (.ready b,allocated,provider)) :
    allocated = true ↔ self.sizes self.nextIdx = 0 ∨ (self.bufs self.nextIdx).Shared held := by
  have hplace := h.place self.nextIdx
  have hfails := C.fails (self.bufs self.nextIdx) (self.sizes self.nextIdx)
    (self.others self.nextIdx ++ held) hplace.empty.1
  have hothers : ¬ (self.bufs self.nextIdx).Shared (self.others self.nextIdx) := by
    rintro ⟨s,hs,b,hb,hbs⟩
    obtain ⟨j,hj,rfl⟩ := mem_others.mp hb
    exact h.distinct _ j (Ne.symm hj) ⟨s,hs,_,List.mem_singleton_self _,hbs⟩
  rw [BufRef.Shared.append,or_iff_right hothers,hplace.empty.2,
    or_iff_right (Nat.not_lt.mpr hplace.fits)] at hfails
  obtain ⟨-,-,⟨rfl,-,-,hwhy⟩ | ⟨rfl,hne,-,hreclaim⟩⟩ := pollGetBuf_cases hpoll
  · simp only [true_iff]
    exact hwhy.imp id fun hnone => (hfails.mp hnone).2
  · rw [hreclaim] at hfails
    simp only [Bool.false_eq_true,false_iff,not_or]
    refine ⟨hne,fun hshared => ?_⟩
    exact absurd (hfails.mpr ⟨Nat.pos_of_ne_zero hne,hshared⟩) (by simp)

/-- In the first round a place has nothing to hand out again, and later what it has handed out
a round ago. -/
theorem Recycles.turn (h : Recycles C gs self) :
    (gs.length < count ∧ self.sizes self.nextIdx = 0) ∨
      ∃ p, count ≤ gs.length ∧ gs[gs.length - count]? = some p ∧
        (self.bufs self.nextIdx).storage = p.buf.storage ∧
        (self.sizes self.nextIdx = 0 ↔ p.buf.capacity = 0) := by
  have hplace := h.place self.nextIdx
  rcases Nat.lt_or_ge gs.length count with hlt | hge
  · exact Or.inl ⟨hlt,hplace.unused (by rw [h.next,Nat.mod_eq_of_lt hlt])⟩
  · have hpos : 0 < count := Nat.zero_lt_of_lt self.nextIdx.isLt
    have hbound : gs.length - count < gs.length := by omega
    refine Or.inr ⟨gs[gs.length - count],hge,List.getElem?_eq_getElem hbound,?_⟩
    refine hplace.last _ _ (List.getElem?_eq_getElem hbound) (by omega) ?_
    rw [h.next]
    exact (Nat.mod_eq_sub_mod hge).symm

end Turns

/-- The `k`-th poll hands out the buffer of place `k % COUNT`. It allocates one only in the
first round, or if the buffer that this place has handed out a round ago has no capacity or is
still referred to; otherwise it hands out that buffer again. Nobody else refers to the buffer it
hands out, which is no smaller than it was when it was allocated. -/
theorem recycles_oldest (C : BytesCrate σ) (provider : CyclicBufProvider σ count)
    (hnew : new count = some provider) (held : List (BufRef σ)) {es : List (Option (Given σ count))}
    {w w' : World σ count} {g : Given σ count} (h : Run (Step C) ⟨provider,held⟩ es w)
    (hstep : Step C w (some g) w') :
    let k := (given es).length
    g.idx.val = k % count ∧ ¬ g.buf.Shared w.held ∧
    (g.allocated = true ↔ ∀ p, count ≤ k → (given es)[k - count]? = some p →
      p.buf.capacity = 0 ∨ p.buf.Shared w.held) ∧
    (g.allocated = false → ∃ p, count ≤ k ∧ (given es)[k - count]? = some p ∧
      g.buf.storage = p.buf.storage) ∧
    ∃ j o, (given es ++ [g])[j]? = some o ∧ j % count = k % count ∧ o.allocated = true ∧
      o.buf.storage = g.buf.storage ∧ o.buf.capacity ≤ g.buf.capacity := by
  intro k
  have hrec : Recycles C (given es) w.provider := by
    refine h.history (I := fun es w => Recycles C (given es) w.provider) (recycles_new hnew) ?_
    intro es w e w' hw hk
    cases hk with
    | poll fresh hheld hbufs hsize hpoll =>
      rw [given_snoc_some]
      exact hw.poll hpoll hbufs hsize
    | others => rwa [given_snoc_none]
  cases hstep with
  | poll fresh hheld hbufs hsize hpoll =>
    have halloc := hrec.allocates hpoll
    obtain ⟨-,-,hcase⟩ := pollGetBuf_cases hpoll
    refine ⟨hrec.next,?_,?_,?_,?_⟩
    · rcases hcase with ⟨-,rfl,-,-⟩ | ⟨rfl,-,-,hreclaim⟩
      · exact hheld
      · rw [BufRef.Shared.congr (C.reclaimed _ _ _ _ hreclaim).1]
        exact fun hshared => Bool.false_ne_true (halloc.mpr (Or.inr hshared))
    · rw [halloc]
      rcases hrec.turn with ⟨hlt,hzero⟩ | ⟨p,hge,hp,hstorage,hzero⟩
      · exact ⟨fun _ p hle => absurd hle (Nat.not_le.mpr hlt),fun _ => Or.inl hzero⟩
      · rw [hzero,BufRef.Shared.congr hstorage]
        refine ⟨fun hor q _ hq => ?_,fun hall => hall p hge hp⟩
        cases Option.some.inj (hp.symm.trans hq)
        exact hor
    · intro hfalse
      rcases hcase with ⟨rfl,-,-,-⟩ | ⟨-,hne,-,hreclaim⟩
      · cases hfalse
      · rcases hrec.turn with ⟨-,hzero⟩ | ⟨p,hge,hp,hstorage,-⟩
        · exact absurd hzero hne
        · exact ⟨p,hge,hp,(C.reclaimed _ _ _ _ hreclaim).1.trans hstorage⟩
    · rcases hcase with ⟨rfl,rfl,-,-⟩ | ⟨-,hne,-,hreclaim⟩
      · exact ⟨k,⟨_,_,true⟩,by simp [k],rfl,rfl,rfl,le_rfl⟩
      · obtain ⟨hstorage,-,hroom⟩ := C.reclaimed _ _ _ _ hreclaim
        obtain ⟨j,o,hj,hmod,ho,hsame,hcapacity⟩ := (hrec.place w.provider.nextIdx).origin hne
        refine ⟨j,o,getElem?_snoc hj,hmod.trans hrec.next,ho,hsame.trans hstorage.symm,?_⟩
        rw [hcapacity]
        exact hroom.trans (Nat.sub_le _ _)

instance [DecidableEq σ] (b : BufRef σ) (refs : List (BufRef σ)) : Decidable (b.Shared refs) :=
  match h : b.storage with
  | none => isFalse (by rintro ⟨s,hs,-⟩; cases h.symm.trans hs)
  | some s => decidable_of_iff (∃ a ∈ refs, a.storage = some s) (by simp [BufRef.Shared,h])

def eightBytes : BytesCrate ℕ where
  size _ := 8
  tryReclaim self additional refs :=
    if additional ≤ self.capacity - self.len then some self
    else if additional ≤ self.storage.elim 0 (fun _ => 8) ∧ ¬ self.Shared refs then
      some ⟨self.storage,self.len,self.len + additional⟩
    else none
  fails self additional refs hlen := by
    by_cases hroom : additional ≤ self.capacity
    · simp [hlen,hroom]
    · by_cases hsize : additional ≤ self.storage.elim 0 fun _ => 8
      · by_cases hshared : self.Shared refs
        · simp [hlen,hroom,hsize,hshared,Nat.lt_of_not_le hroom]
        · simp [hlen,hroom,hsize,hshared]
      · simp [hlen,hroom,hsize,Nat.lt_of_not_le hroom,Nat.lt_of_not_le hsize]
  reclaimed self additional refs b h := by
    split_ifs at h with hroom hsize
    · cases h
      exact ⟨rfl,rfl,hroom⟩
    · cases h
      exact ⟨rfl,rfl,by simp⟩

def pair : CyclicBufProvider ℕ 2 := (new 2).get (by decide)

def polled (w : World ℕ 2) (fresh : BufRef ℕ) : World ℕ 2 :=
  ⟨(w.provider.pollGetBuf eightBytes fresh w.held).2.2,fresh :: w.held⟩

def bothOut : World ℕ 2 := polled (polled ⟨pair,[]⟩ ⟨some 0,0,8⟩) ⟨some 1,0,8⟩

/-- The rule at the third poll of two places, when the first buffer has been let go. -/
theorem recycles_oldest_third : ∃ p, 2 ≤ 2 ∧
    ([⟨0,⟨some 0,0,8⟩,true⟩,⟨1,⟨some 1,0,8⟩,true⟩] : List (Given ℕ 2))[2 - 2]? = some p ∧
      some 0 = p.buf.storage := by
  have hfirst : Step eightBytes ⟨pair,[]⟩ (some ⟨0,⟨some 0,0,8⟩,true⟩) (polled ⟨pair,[]⟩ ⟨some 0,0,8⟩) :=
    .poll _ ⟨some 0,0,8⟩ (by decide) (by decide) (by decide) rfl
  have hsecond : Step eightBytes (polled ⟨pair,[]⟩ ⟨some 0,0,8⟩) (some ⟨1,⟨some 1,0,8⟩,true⟩) bothOut :=
    .poll _ ⟨some 1,0,8⟩ (by decide) (by decide) (by decide) rfl
  have hdrop : Step eightBytes bothOut none ⟨bothOut.provider,[⟨some 1,0,8⟩]⟩ := .others _ _
  have hthird : Step eightBytes ⟨bothOut.provider,[⟨some 1,0,8⟩]⟩ (some ⟨0,⟨some 0,0,8⟩,false⟩) _ :=
    .poll _ ⟨some 2,0,8⟩ (by decide) (by decide) (by decide) rfl
  exact (recycles_oldest eightBytes pair (by simp [pair]) []
    (((Run.single hfirst).snoc hsecond).snoc hdrop) hthird).2.2.2.1 rfl

end CyclicBufProvider
end ProcMachines
