import ProcMachines.CyclicBufProvider

/-! A reading adapter that takes its buffers from a cyclic provider: which of them are used
again, given that the adapter still refers to its current buffer while it fetches the next. -/
namespace ProcMachines
namespace CyclicBufProvider

open ReaderIoReader

variable {ρ W : Type} {count : ℕ}

/-- What surrounds the provider: the capacity of the buffer that `f_alloc` would make in each
poll, whose storage bears the number of the poll, and the storages that chunks taken from the
adapter still refer to by then. -/
structure Surroundings where
  capacity : ℕ → ℕ
  chunks : (k : ℕ) → List (Fin k)

namespace Surroundings

def fresh (env : Surroundings) (k : ℕ) : BufRef ℕ := ⟨some k,0,env.capacity k⟩

def refs (env : Surroundings) (k : ℕ) : List (BufRef ℕ) :=
  (env.chunks k).map fun s => ⟨some s.val,0,0⟩

end Surroundings

/-- The provider of an adapter, what the adapter's current buffer refers to, and the buffers
fetched so far. -/
structure Fetching (count : ℕ) where
  provider : CyclicBufProvider ℕ count
  curBuf : BufRef ℕ
  fetched : List (Given ℕ count)

/-- The current buffer refers to its storage, empty as it is, until it is replaced; a buffer
without any capacity is thrown away. -/
def asyncBufProvider (C : BytesCrate ℕ) (env : Surroundings) : AsyncBufProvider (Fetching count) where
  pollGetBuf s :=
    let k := s.fetched.length
    match s.provider.pollGetBuf C (env.fresh k) (s.curBuf :: env.refs k) with
    | (.ready b,allocated,provider) => (.ready b.capacity,⟨provider,
        if b.capacity < 1 then s.curBuf else b,s.fetched ++ [⟨s.provider.nextIdx,b,allocated⟩]⟩)
    | (.pending,_,provider) => (.pending,{ s with provider := provider })

section Reader

variable {BP : Type} {R : AsyncRead ρ W} {P : AsyncBufProvider BP} {bits maxLen : ℕ} {cx : W}
  {I : BP → Prop} {inner : ReaderIoReader ρ BP}

theorem pollReadBuf_bufProvider (R : AsyncRead ρ W) (cx : W) (reader : ρ)
    (inner : ReaderIoReader ρ BP) :
    (pollReadBuf R cx reader inner).self.bufProvider = inner.bufProvider := by
  simp only [pollReadBuf]
  split <;> rfl

theorem surface_bufProvider (cx : W) (maxLen : ℕ) (inner : ReaderIoReader ρ BP) :
    (surface cx maxLen inner).self.bufProvider = inner.bufProvider := by
  simp only [surface]
  split_ifs
  · split <;> rfl
  · rfl
  · rfl

theorem decideRead_provider (hP : ∀ bp, I bp → I (P.pollGetBuf bp).2) (h : I inner.bufProvider) :
    I (decideRead P bits maxLen inner : Call _ (Event W) _).self.bufProvider := by
  have hpoll := hP _ h
  simp only [decideRead]
  split_ifs
  · exact h
  · rcases hbuf : P.pollGetBuf inner.bufProvider with ⟨capacity | _,bp⟩
    · rw [hbuf] at hpoll
      by_cases hcap : capacity < 1 <;> simpa [hcap] using hpoll
    · rw [hbuf] at hpoll
      exact hpoll
  · exact h

theorem readAhead_provider (hP : ∀ bp, I bp → I (P.pollGetBuf bp).2) (h : I inner.bufProvider)
    (reader : ρ) (gotEof : Option (Option IoError)) :
    I (readAhead R P bits cx maxLen reader gotEof inner).self.bufProvider := by
  cases gotEof with
  | some e => exact h
  | none =>
    have hdecide : I (decideRead P bits maxLen inner : Call _ (Event W) _).self.bufProvider :=
      decideRead_provider hP h
    rcases hd : (decideRead P bits maxLen inner : Call _ (Event W) _) with ⟨self,events,ret | doRead⟩
    · rw [hd] at hdecide
      rw [readAhead_stop hd]
      exact hdecide
    · rw [hd] at hdecide
      cases doRead with
      | true =>
        rw [readAhead_go hd]
        exact (pollReadBuf_bufProvider R cx reader self).symm ▸ hdecide
      | false =>
        rw [readAhead_skip hd]
        exact hdecide

theorem conPollRead_provider (hP : ∀ bp, I bp → I (P.pollGetBuf bp).2) (h : I inner.bufProvider) :
    I (conPollRead R P bits cx maxLen inner).self.bufProvider := by
  cases hr : inner.reader with
  | none =>
    rw [conPollRead_closed hr]
    exact h
  | some reader =>
    have hahead : I (readAhead R P bits cx maxLen reader inner.gotEof inner).self.bufProvider :=
      readAhead_provider hP h reader inner.gotEof
    cases hret : (readAhead R P bits cx maxLen reader inner.gotEof inner).ret with
    | some ret =>
      rw [conPollRead_stop hr hret]
      exact hahead
    | none =>
      rw [conPollRead_surface hr hret]
      exact (surface_bufProvider cx maxLen _).symm ▸ hahead

/-- What every poll of a provider keeps is kept by every run of calls on the adapter. -/
theorem after_provider (hP : ∀ bp, I bp → I (P.pollGetBuf bp).2) (h : I inner.bufProvider)
    (ops : List (Op W)) : I (after R P bits inner ops).bufProvider := by
  induction ops using List.reverseRecOn with
  | nil => exact h
  | append_singleton ops op ih =>
    rw [after_snoc]
    cases op with
    | pollRead cx maxLen => exact conPollRead_provider hP ih
    | dropRead => exact ih

theorem surface_isEmptyBuf (cx : W) (maxLen : ℕ) (inner : ReaderIoReader ρ BP) :
    (surface cx maxLen inner).woken.any Event.isEmptyBuf = false := by
  simp only [surface]
  split_ifs
  · split <;> rfl
  · rfl
  · rfl

theorem conPollRead_isEmptyBuf {capacity : ℕ} (hpos : 0 < capacity)
    (h : (P.pollGetBuf inner.bufProvider).1 = .ready capacity) :
    (conPollRead R P bits cx maxLen inner).woken.any Event.isEmptyBuf = false := by
  have hdecide : (decideRead P bits maxLen inner : Call _ (Event W) _).woken.any Event.isEmptyBuf =
      false := by
    simp only [decideRead]
    split_ifs
    · rfl
    · rcases hbuf : P.pollGetBuf inner.bufProvider with ⟨res,bp⟩
      rw [hbuf] at h
      cases h
      have hroom : ¬ capacity < 1 := by omega
      simp [hroom,Event.isEmptyBuf,hpos.ne']
    · rfl
  cases hr : inner.reader with
  | none => simp [conPollRead_closed hr]
  | some reader =>
    have hahead : (readAhead R P bits cx maxLen reader inner.gotEof inner).woken.any
        Event.isEmptyBuf = false := by
      cases inner.gotEof with
      | some e => rfl
      | none =>
        rcases hd : (decideRead P bits maxLen inner : Call _ (Event W) _) with
          ⟨self,events,ret | doRead⟩
        · rw [hd] at hdecide
          rw [readAhead_stop hd]
          exact hdecide
        · rw [hd] at hdecide
          cases doRead with
          | true =>
            rw [readAhead_go hd,List.any_append,pollReadBuf_woken,hdecide]
            rfl
          | false =>
            rw [readAhead_skip hd]
            exact hdecide
    cases hret : (readAhead R P bits cx maxLen reader inner.gotEof inner).ret with
    | some ret =>
      rw [conPollRead_stop hr hret]
      exact hahead
    | none => rw [conPollRead_surface hr hret,List.any_append,hahead,surface_isEmptyBuf,Bool.or_self]

end Reader

/-- What the fetches of an adapter keep. -/
structure Fetches (C : BytesCrate ℕ) (env : Surroundings) (s : Fetching count) : Prop where
  recycles : Recycles C s.fetched s.provider
  room : ∀ g ∈ s.fetched, 0 < g.buf.capacity ∧ g.buf.storage.isSome
  older : ∀ i n, (s.provider.bufs i).storage = some n → n < s.fetched.length
  current : (s.fetched = [] ∧ s.curBuf.storage = none) ∨
    ∃ i, 0 < s.fetched.length ∧ i.val = (s.fetched.length - 1) % count ∧
      s.curBuf.storage = (s.provider.bufs i).storage
  allocates : ∀ k g, s.fetched[k]? = some g → (g.allocated = true ↔ ∀ p, count ≤ k →
    s.fetched[k - count]? = some p → count = 1 ∨ p.buf.Shared (env.refs k))

theorem fetches_new {C : BytesCrate ℕ} {env : Surroundings} {provider : CyclicBufProvider ℕ count}
    (h : new count = some provider) : Fetches C env ⟨provider,.new,[]⟩ where
  recycles := recycles_new h
  room := by simp
  older i n hn := by
    unfold new at h
    split at h
    · cases h
    · cases h
      cases hn
  current := Or.inl ⟨rfl,rfl⟩
  allocates := by simp

section Fetch

variable {C : BytesCrate ℕ} {env : Surroundings} {s : Fetching count} {b : BufRef ℕ} {allocated : Bool}
  {provider : CyclicBufProvider ℕ count}

theorem Fetches.current_shared (h : Fetches C env s) {p : Given ℕ count} (hge : count ≤ s.fetched.length)
    (hp : s.fetched[s.fetched.length - count]? = some p)
    (hstorage : (s.provider.bufs s.provider.nextIdx).storage = p.buf.storage) :
    (s.provider.bufs s.provider.nextIdx).Shared [s.curBuf] ↔ count = 1 := by
  have hpos : 0 < count := Nat.zero_lt_of_lt s.provider.nextIdx.isLt
  rcases h.current with ⟨hnil,-⟩ | ⟨i,hlen,hi,hcur⟩
  · rw [hnil,List.length_nil] at hge
    omega
  · constructor
    · rintro ⟨n,hn,b,hb,hbn⟩
      cases List.mem_singleton.mp hb
      by_contra hone
      have hne : s.provider.nextIdx ≠ i := by
        intro heq
        have hplace : (s.fetched.length - 1) % count ≠ s.fetched.length % count :=
          place_ne (by omega) (by omega)
        exact hplace (hi.symm.trans ((congrArg Fin.val heq).symm.trans h.recycles.next))
      exact h.recycles.distinct _ i hne ⟨n,hn,_,List.mem_singleton_self _,hcur.symm.trans hbn⟩
    · rintro rfl
      obtain rfl : i = s.provider.nextIdx := Subsingleton.elim _ _
      obtain ⟨n,hn⟩ := Option.isSome_iff_exists.mp (h.room p (List.mem_of_getElem? hp)).2
      exact ⟨n,hstorage.trans hn,_,List.mem_singleton_self _,hcur.trans (hstorage.trans hn)⟩

/-- The place of the turn allocates in its first turn, if it is the only one, or if chunks of the
buffer that it has handed out a round ago are left. -/
theorem Fetches.allocates_next (h : Fetches C env s)
    (hpoll : s.provider.pollGetBuf C (env.fresh s.fetched.length)
      (s.curBuf :: env.refs s.fetched.length) = (.ready b,allocated,provider)) :
    allocated = true ↔ ∀ p, count ≤ s.fetched.length →
      s.fetched[s.fetched.length - count]? = some p →
        count = 1 ∨ p.buf.Shared (env.refs s.fetched.length) := by
  rw [h.recycles.allocates hpoll]
  rcases h.recycles.turn with ⟨hlt,hzero⟩ | ⟨p,hge,hp,hstorage,hzero⟩
  · exact ⟨fun _ p hle => absurd hle (Nat.not_le.mpr hlt),fun _ => Or.inl hzero⟩
  · have hsize : ¬ s.provider.sizes s.provider.nextIdx = 0 := by
      rw [hzero]
      exact (h.room p (List.mem_of_getElem? hp)).1.ne'
    have hshared : (s.provider.bufs s.provider.nextIdx).Shared (s.curBuf :: env.refs s.fetched.length) ↔
        (s.provider.bufs s.provider.nextIdx).Shared [s.curBuf] ∨
          (s.provider.bufs s.provider.nextIdx).Shared (env.refs s.fetched.length) := by
      rw [← List.singleton_append,BufRef.Shared.append]
    rw [or_iff_right hsize,hshared,h.current_shared hge hp hstorage,BufRef.Shared.congr hstorage]
    refine ⟨fun hor q _ hq => ?_,fun hall => hall p hge hp⟩
    cases Option.some.inj (hp.symm.trans hq)
    exact hor

theorem Fetches.fetched_room (h : Fetches C env s) (hcap : 0 < env.capacity s.fetched.length)
    (hpoll : s.provider.pollGetBuf C (env.fresh s.fetched.length)
      (s.curBuf :: env.refs s.fetched.length) = (.ready b,allocated,provider)) :
    0 < b.capacity ∧ b.storage.isSome ∧ ∀ n, b.storage = some n → n < s.fetched.length + 1 := by
  obtain ⟨-,-,⟨-,rfl,-,-⟩ | ⟨-,hne,-,hreclaim⟩⟩ := pollGetBuf_cases hpoll
  · refine ⟨hcap,rfl,fun n hn => ?_⟩
    cases hn
    exact Nat.lt_succ_self _
  · obtain ⟨hstorage,-,hroom⟩ := C.reclaimed _ _ _ _ hreclaim
    rw [hstorage]
    refine ⟨by omega,?_,fun n hn => (h.older _ n hn).trans (Nat.lt_succ_self _)⟩
    rcases h.recycles.turn with ⟨-,hzero⟩ | ⟨p,-,hp,hsame,-⟩
    · exact absurd hzero hne
    · rw [hsame]
      exact (h.room p (List.mem_of_getElem? hp)).2

theorem Fetches.fetch (h : Fetches C env s) (hcap : 0 < env.capacity s.fetched.length)
    (hsize : env.capacity s.fetched.length ≤ C.size s.fetched.length)
    (hpoll : s.provider.pollGetBuf C (env.fresh s.fetched.length)
      (s.curBuf :: env.refs s.fetched.length) = (.ready b,allocated,provider)) :
    Fetches C env ⟨provider,if b.capacity < 1 then s.curBuf else b,
      s.fetched ++ [⟨s.provider.nextIdx,b,allocated⟩]⟩ := by
  obtain ⟨hroom,hsome,hold⟩ := h.fetched_room hcap hpoll
  have halloc := h.allocates_next hpoll
  have hbufs : ∀ i, ¬ (env.fresh s.fetched.length).Shared [s.provider.bufs i] := by
    rintro i ⟨n,hn,a,ha,han⟩
    cases List.mem_singleton.mp ha
    cases hn
    exact lt_irrefl _ (h.older i _ han)
  obtain ⟨-,hput,-⟩ := pollGetBuf_cases hpoll
  refine ⟨h.recycles.poll hpoll hbufs hsize,fun g hg => ?_,fun i n hn => ?_,?_,fun k g hk => ?_⟩
  · rcases List.mem_append.mp hg with hg | hg
    · exact h.room g hg
    · cases List.mem_singleton.mp hg
      exact ⟨hroom,hsome⟩
  · rw [List.length_append,List.length_singleton]
    change (provider.bufs i).storage = some n at hn
    rw [hput] at hn
    by_cases hi : i = s.provider.nextIdx
    · subst hi
      rw [Function.update_self] at hn
      exact hold n hn
    · rw [Function.update_of_ne hi] at hn
      exact (h.older i n hn).trans (Nat.lt_succ_self _)
  · refine Or.inr ⟨s.provider.nextIdx,by simp,?_,?_⟩
    · rw [List.length_append,List.length_singleton,Nat.add_sub_cancel]
      exact h.recycles.next
    · change (if b.capacity < 1 then s.curBuf else b).storage = (provider.bufs _).storage
      rw [if_neg (by omega),hput,Function.update_self]
  · have hpos : 0 < count := Nat.zero_lt_of_lt s.provider.nextIdx.isLt
    have hlt := (List.getElem?_eq_some_iff.mp hk).1
    rw [List.length_append,List.length_singleton] at hlt
    have hearlier : ∀ p, count ≤ k → ((s.fetched ++ [⟨s.provider.nextIdx,b,allocated⟩])[k - count]? =
        some p ↔ s.fetched[k - count]? = some p) := by
      intro p hle
      rw [List.getElem?_append_left (by omega)]
    rcases Nat.lt_succ_iff_lt_or_eq.mp hlt with hlt | rfl
    · rw [List.getElem?_append_left hlt] at hk
      rw [h.allocates k g hk]
      exact forall_congr' fun p => forall_congr' fun hle => by rw [hearlier p hle]
    · obtain rfl : g = ⟨s.provider.nextIdx,b,allocated⟩ := by simpa using hk.symm
      rw [halloc]
      exact forall_congr' fun p => forall_congr' fun hle => by rw [hearlier p hle]

end Fetch

/-- Whatever the calls on the adapter: a fetch is served with a buffer that has been used before
exactly when the provider has two places at least, has used all of them, and no chunk of the
buffer of a round ago is left. With a single place the buffer that the adapter is about to give up
is in the way, and every fetch allocates. -/
theorem reader_recycles (C : BytesCrate ℕ) (env : Surroundings) (hcap : ∀ k, 0 < env.capacity k)
    (hsize : ∀ k, env.capacity k ≤ C.size k) (R : AsyncRead ρ W) (bits : ℕ) (reader : ρ)
    (provider : CyclicBufProvider ℕ count) (hnew : new count = some provider) (ops : List (Op W)) :
    let s := after R (asyncBufProvider C env) bits (ReaderIoReader.new reader ⟨provider,.new,[]⟩) ops
    ∀ k g, s.bufProvider.fetched[k]? = some g → (g.allocated = true ↔ ∀ p, count ≤ k →
      s.bufProvider.fetched[k - count]? = some p → count = 1 ∨ p.buf.Shared (env.refs k)) := by
  intro s
  have hall : Fetches C env s.bufProvider := by
    refine after_provider (I := Fetches C env) (fun bp hbp => ?_) (fetches_new hnew) ops
    obtain ⟨b,allocated,provider',hpoll⟩ := pollGetBuf_ready C (env.fresh bp.fetched.length)
      (bp.curBuf :: env.refs bp.fetched.length) bp.provider
    have hnext := hbp.fetch (hcap _) (hsize _) hpoll
    simpa only [asyncBufProvider,hpoll] using hnext
  exact hall.allocates

def filling : AsyncRead Unit ℕ where
  pollRead _ spare s := (.ready (.ok (List.replicate spare 0)),s)
  fits := by
    rintro cx spare s bytes h
    cases h
    simp

def onePlace : CyclicBufProvider ℕ 1 := (new 1).get (by decide)

def eights : Surroundings := ⟨fun _ => 8,fun _ => []⟩

def readFully {count : ℕ} (provider : CyclicBufProvider ℕ count) (n : ℕ) :
    ReaderIoReader Unit (Fetching count) :=
  after filling (asyncBufProvider eightBytes eights) 64 (ReaderIoReader.new () ⟨provider,.new,[]⟩)
    (List.replicate n (.pollRead 7 8))

/-- The rule at the second fetch of one place and at the third of two, when no chunk is left. -/
theorem reader_recycles_rounds :
    ((readFully onePlace 2).bufProvider.fetched[1]?.map Given.allocated) = some true ∧
      ((readFully pair 3).bufProvider.fetched[2]?.map Given.allocated) = some false := by
  have hfilled : ∀ k, 0 < eights.capacity k := fun _ => Nat.succ_pos 7
  constructor
  · have hfetch : (readFully onePlace 2).bufProvider.fetched[1]? = some ⟨0,⟨some 1,0,8⟩,true⟩ := by
      decide +kernel
    have hrule := reader_recycles eightBytes eights hfilled (fun _ => le_rfl) filling 64 () onePlace
      (by simp [onePlace]) (List.replicate 2 (.pollRead 7 8)) 1 _ hfetch
    rw [hfetch]
    exact congrArg some (hrule.mpr fun _ _ _ => Or.inl rfl)
  · have hfirst : (readFully pair 3).bufProvider.fetched[0]? = some ⟨0,⟨some 0,0,8⟩,true⟩ := by
      decide +kernel
    obtain ⟨g,hfetch⟩ : ∃ g, (readFully pair 3).bufProvider.fetched[2]? = some g :=
      Option.isSome_iff_exists.mp (by decide +kernel)
    have hrule := reader_recycles eightBytes eights hfilled (fun _ => le_rfl) filling 64 () pair
      (by simp [pair]) (List.replicate 3 (.pollRead 7 8)) 2 _ hfetch
    rw [hfetch]
    refine congrArg some (Bool.eq_false_iff.mpr fun hallocated => ?_)
    rcases hrule.mp hallocated _ le_rfl hfirst with hone | ⟨n,-,b,hb,-⟩
    · cases hone
    · cases hb

/-- Nor does an adapter ever lack a buffer: a pending read waits for the inner reader, which
holds the caller's waker, and no buffer is without capacity. -/
theorem reader_never_starves (C : BytesCrate ℕ) (env : Surroundings) (hcap : ∀ k, 0 < env.capacity k)
    (R : AsyncRead ρ W) (bits : ℕ) (inner : ReaderIoReader ρ (Fetching count)) (cx : W) (maxLen : ℕ) :
    ((conPollRead R (asyncBufProvider C env) bits cx maxLen inner).ret = .pending →
      Arranged cx (conPollRead R (asyncBufProvider C env) bits cx maxLen inner).woken) ∧
    (conPollRead R (asyncBufProvider C env) bits cx maxLen inner).woken.any Event.isEmptyBuf = false := by
  have hserved : ∃ capacity, 0 < capacity ∧
      ((asyncBufProvider C env).pollGetBuf inner.bufProvider).1 = .ready capacity := by
    obtain ⟨b,allocated,provider,hpoll⟩ := pollGetBuf_ready C (env.fresh inner.bufProvider.fetched.length)
      (inner.bufProvider.curBuf :: env.refs inner.bufProvider.fetched.length) inner.bufProvider.provider
    refine ⟨b.capacity,?_,by simp only [asyncBufProvider,hpoll]⟩
    obtain ⟨-,-,⟨-,rfl,-,-⟩ | ⟨-,hne,-,hreclaim⟩⟩ := pollGetBuf_cases hpoll
    · exact hcap _
    · have hroom := (C.reclaimed _ _ _ _ hreclaim).2.2
      omega
  obtain ⟨capacity,hpos,hready⟩ := hserved
  constructor
  · refine conPollRead_arranged ?_
    rintro ⟨-,hpending⟩
    rw [hready] at hpending
    cases hpending
  · exact conPollRead_isEmptyBuf hpos hready

/-- The rule at a first read whose inner reader has nothing yet. -/
theorem reader_never_starves_pending :
    Arranged 7 (conPollRead silent (asyncBufProvider eightBytes eights) 64 7 8
      (ReaderIoReader.new () ⟨onePlace,.new,[]⟩)).woken :=
  (reader_never_starves eightBytes eights (fun _ => Nat.succ_pos 7) silent 64 _ 7 8).1
    (by decide +kernel)

end CyclicBufProvider
end ProcMachines
