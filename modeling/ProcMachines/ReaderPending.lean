import ProcMachines.ReaderCalls

/-! When a pending read has arranged to be woken: somebody who answered pending during the
call holds the caller's waker. A buffer provider is never given one. -/
namespace ProcMachines
namespace ReaderIoReader

variable {ρ BP W : Type}

/-- During the call `cx` was handed to the inner reader, which answered pending. -/
def Arranged (cx : W) (events : List (Event W)) : Prop :=
  ∃ spare, Event.read cx spare .pending ∈ events

/-- An empty buffer with too little room left has to be replaced. -/
def NeedsBuf (inner : ReaderIoReader ρ BP) : Prop :=
  inner.reader.isSome ∧ inner.gotEof = none ∧ inner.curBuf.data = [] ∧
    ¬ (0 < inner.curBuf.capacity ∧ inner.bufCapacity >>> 2 < inner.curBuf.capacity)

/-- The provider has no buffer for a read that needs one. -/
def Starves (P : AsyncBufProvider BP) (inner : ReaderIoReader ρ BP) : Prop :=
  NeedsBuf inner ∧ (P.pollGetBuf inner.bufProvider).1 = .pending

variable {R : AsyncRead ρ W} {P : AsyncBufProvider BP} {bits maxLen : ℕ} {cx : W} {reader : ρ}
  {inner : ReaderIoReader ρ BP}

theorem decideRead_pending (P : AsyncBufProvider BP) (bits maxLen : ℕ)
    (hr : inner.reader.isSome) (hg : inner.gotEof = none) :
    (decideRead P bits maxLen inner : Call _ (Event W) _).ret = .error .pending ↔
      Starves P inner := by
  rcases inner with ⟨r,bp,⟨data,capacity,fits⟩,bufCapacity,eof⟩
  simp only [decideRead,Starves,NeedsBuf]
  by_cases hspace : 0 < capacity - data.length ∧ bufCapacity >>> 2 < capacity - data.length
  · rw [if_pos hspace]
    cases data with
    | nil =>
      have hroom : 0 < capacity ∧ bufCapacity >>> 2 < capacity := by simpa using hspace
      simp [hroom]
    | cons b data => simp
  · rw [if_neg hspace]
    cases data with
    | cons b data => simp
    | nil =>
      have hroom : ¬ (0 < capacity ∧ bufCapacity >>> 2 < capacity) := by simpa using hspace
      rcases hbuf : P.pollGetBuf bp with ⟨capacity' | _,bp'⟩
      · by_cases hcap : capacity' < 1 <;> simp [hcap]
      · simp only [List.length_nil,if_true,and_true,true_iff]
        exact ⟨hr,hg,trivial,hroom⟩

theorem decideRead_idle
    (h : (decideRead P bits maxLen inner : Call _ (Event W) _) = ⟨inner,[],.ok false⟩) :
    inner.curBuf.data ≠ [] := by
  intro hd
  rcases inner with ⟨r,bp,⟨data,capacity,fits⟩,bufCapacity,eof⟩
  obtain rfl : data = [] := hd
  simp only [decideRead,List.length_nil,wantsMore] at h
  split at h
  · simp at h
  · rcases hbuf : P.pollGetBuf bp with ⟨capacity' | _,bp'⟩
    · by_cases hcap : capacity' < 1 <;> simp [hbuf,hcap] at h
    · simp [hbuf] at h

/-- Reading ahead on an open stream stops the call as pending exactly when it starves. -/
theorem readAhead_pending (hr : inner.reader.isSome) (hg : inner.gotEof = none) :
    (readAhead R P bits cx maxLen reader none inner).ret = some .pending ↔ Starves P inner := by
  rw [← decideRead_pending (W := W) P bits maxLen hr hg]
  rcases decideRead_cases (W := W) P bits maxLen inner with
    ⟨doRead,hd,_⟩ | ⟨bp,hd⟩ | ⟨bp,hd⟩ | ⟨_,bp,capacity,_,hd⟩
  · cases doRead with
    | true => simp [readAhead_go hd,hd]
    | false => simp [readAhead_skip hd,hd]
  · simp [readAhead_stop hd,hd]
  · simp [readAhead_stop hd,hd]
  · simp [readAhead_go hd,hd]

theorem pending_of_nothing {spare : ℕ} {res : Poll (Except StdIoError Bytes)} (he : ending res = none)
    (hp : Event.produced (.read cx spare res) = []) : res = .pending := by
  match res with
  | .pending => rfl
  | .ready (.error e) => simp [ending] at he
  | .ready (.ok []) => simp [ending] at he
  | .ready (.ok (b :: bytes)) => simp [Event.produced] at hp

theorem go_arranged {self : ReaderIoReader ρ BP} {events : List (Event W)}
    (hr : inner.reader = some reader) (hg : inner.gotEof = none)
    (hd : decideRead P bits maxLen inner = ⟨self,events,.ok true⟩) (hself : self.gotEof = none)
    (h : (conPollRead R P bits cx maxLen inner).ret = .pending) :
    Arranged cx (conPollRead R P bits cx maxLen inner).woken := by
  obtain ⟨res,reader',curBuf,hcall,hdata⟩ := pollReadBuf_apply R cx reader self hself
  let next : ReaderIoReader ρ BP := { self with reader := some reader', curBuf := curBuf,
                                                gotEof := ending res }
  have hra : readAhead R P bits cx maxLen reader inner.gotEof inner = ⟨next,events ++
      [.read cx (self.curBuf.capacity - self.curBuf.data.length) res],none⟩ := by
    rw [hg,readAhead_go hd,hcall]
  have hret : (readAhead R P bits cx maxLen reader inner.gotEof inner).ret = none := by rw [hra]
  rw [conPollRead_surface hr hret,hra] at h ⊢
  have hpending : res = .pending := by
    by_cases hempty : next.curBuf.data = []
    · cases he : next.gotEof with
      | some e =>
        rw [surface_end hempty he] at h
        cases e <;> cases h
      | none =>
        apply pending_of_nothing he
        exact (List.append_eq_nil_iff.mp (hdata.symm.trans hempty)).2
    · obtain ⟨chunk,rest,events',hchunk,_⟩ := surface_chunk cx maxLen hempty
      rw [hchunk] at h
      cases h
  subst hpending
  exact ⟨self.curBuf.capacity - self.curBuf.data.length,by simp⟩

theorem starves_woken (R : AsyncRead ρ W) (bits maxLen : ℕ) (cx : W) (h : Starves P inner) :
    (conPollRead R P bits cx maxLen inner).ret = .pending ∧
      (conPollRead R P bits cx maxLen inner).woken = [.buf .pending] := by
  obtain ⟨⟨hsome,hg,hdata,hroom⟩,hbuf⟩ := h
  obtain ⟨reader,hr⟩ := Option.isSome_iff_exists.mp hsome
  have hret : (readAhead R P bits cx maxLen reader inner.gotEof inner).ret = some .pending := by
    rw [hg]
    exact (readAhead_pending hsome hg).mpr ⟨⟨hsome,hg,hdata,hroom⟩,hbuf⟩
  rw [conPollRead_stop hr hret]
  refine ⟨rfl,?_⟩
  show (readAhead R P bits cx maxLen reader inner.gotEof inner).woken = _
  rw [hg] at hret ⊢
  rcases decideRead_cases (W := W) P bits maxLen inner with
    ⟨doRead,hd,_⟩ | ⟨bp,hd⟩ | ⟨bp,hd⟩ | ⟨_,bp,capacity,_,hd⟩
  · cases doRead with
    | true => simp [readAhead_go hd] at hret
    | false => simp [readAhead_skip hd] at hret
  · rw [readAhead_stop hd]
  · simp [readAhead_stop hd] at hret
  · simp [readAhead_go hd] at hret

/-- A read is answered or has arranged a wake, unless it starves. -/
theorem conPollRead_arranged (hstarve : ¬ Starves P inner)
    (h : (conPollRead R P bits cx maxLen inner).ret = .pending) :
    Arranged cx (conPollRead R P bits cx maxLen inner).woken := by
  cases hr : inner.reader with
  | none => simp [conPollRead_closed hr] at h
  | some reader =>
    have hsome : inner.reader.isSome := by simp [hr]
    cases hg : inner.gotEof with
    | some e =>
      have hret : (readAhead R P bits cx maxLen reader inner.gotEof inner).ret = none := by
        rw [hg]
        rfl
      rw [conPollRead_surface hr hret,hg] at h
      by_cases hempty : inner.curBuf.data = []
      · change (surface cx maxLen inner).ret = _ at h
        rw [surface_end hempty hg] at h
        cases e <;> cases h
      · obtain ⟨chunk,rest,events,hchunk,_⟩ := surface_chunk cx maxLen hempty
        change (surface cx maxLen inner).ret = _ at h
        rw [hchunk] at h
        cases h
    | none =>
      rcases decideRead_cases (W := W) P bits maxLen inner with
        ⟨doRead,hd,_⟩ | ⟨bp,hd⟩ | ⟨bp,hd⟩ | ⟨_,bp,capacity,_,hd⟩
      · cases doRead with
        | true => exact go_arranged hr hg hd hg h
        | false =>
          have hret : (readAhead R P bits cx maxLen reader inner.gotEof inner).ret = none := by
            rw [hg,readAhead_skip hd]
          rw [conPollRead_surface hr hret,hg,readAhead_skip hd] at h
          obtain ⟨chunk,rest,events,hchunk,_⟩ := surface_chunk cx maxLen (decideRead_idle hd)
          rw [hchunk] at h
          cases h
      · exact absurd ((decideRead_pending (W := W) P bits maxLen hsome hg).mp (by rw [hd])) hstarve
      · have hret : (readAhead R P bits cx maxLen reader inner.gotEof inner).ret =
            some (.ready (.error .outOfMemory)) := by rw [hg,readAhead_stop hd]
        rw [conPollRead_stop hr hret] at h
        cases h
      · exact go_arranged hr hg hd hg h

/-- A pending read in any run of calls has arranged a wake, whoever the inner reader and the
provider are, exactly when the read did not starve. -/
theorem pending_arranged_iff (R : AsyncRead ρ W) (P : AsyncBufProvider BP) (bits : ℕ) (reader : ρ)
    (bufProvider : BP) (ops : List (Op W)) (cx : W) (maxLen : ℕ) :
    ((conPollRead R P bits cx maxLen (after R P bits (new reader bufProvider) ops)).ret = .pending →
      Arranged cx (conPollRead R P bits cx maxLen
        (after R P bits (new reader bufProvider) ops)).woken) ↔
      ¬ Starves P (after R P bits (new reader bufProvider) ops) := by
  constructor
  · intro h hstarve
    obtain ⟨hret,hwoken⟩ := starves_woken R bits maxLen cx hstarve
    obtain ⟨spare,hmem⟩ := h hret
    simp [hwoken] at hmem
  · exact fun hstarve h => conPollRead_arranged hstarve h

def silent : AsyncRead Unit ℕ where
  pollRead _ _ s := (.pending,s)
  fits := by simp

def exhausted : AsyncBufProvider Unit where
  pollGetBuf s := (.pending,s)

/-- The first read is pending on a provider without buffers, and nothing has the waker. -/
theorem pending_unarranged : ¬ ∀ {ρ BP : Type} (R : AsyncRead ρ ℕ) (P : AsyncBufProvider BP)
    (bits : ℕ) (reader : ρ) (bufProvider : BP) (ops : List (Op ℕ)) (cx maxLen : ℕ),
    (conPollRead R P bits cx maxLen (after R P bits (new reader bufProvider) ops)).ret = .pending →
      Arranged cx (conPollRead R P bits cx maxLen
        (after R P bits (new reader bufProvider) ops)).woken := by
  intro hall
  have hstarve : Starves exhausted (new () () : ReaderIoReader Unit Unit) :=
    ⟨⟨rfl,rfl,rfl,by decide⟩,rfl⟩
  obtain ⟨hret,hwoken⟩ := starves_woken silent 64 8 7 hstarve
  obtain ⟨spare,hmem⟩ := hall silent exhausted 64 () () [] 7 8 hret
  change Event.read 7 spare .pending ∈ (conPollRead silent exhausted 64 7 8 (new () ())).woken at hmem
  simp [hwoken] at hmem

end ReaderIoReader
end ProcMachines
