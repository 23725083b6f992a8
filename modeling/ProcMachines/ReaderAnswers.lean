import ProcMachines.ReaderPending

/-! What a read of the adapter brings: a chunk of what is buffered, and if nothing is buffered, the
inner reader or the provider is asked for more. -/
namespace ProcMachines
namespace ReaderIoReader

variable {ρ BP W : Type} {R : AsyncRead ρ W} {P : AsyncBufProvider BP} {bits maxLen : ℕ} {cx : W}
  {inner : ReaderIoReader ρ BP}

/-- What a read can return from: the buffer, with what the inner reader adds to it. -/
def available (R : AsyncRead ρ W) (P : AsyncBufProvider BP) (bits : ℕ) (cx : W) (maxLen : ℕ)
    (inner : ReaderIoReader ρ BP) : Bytes :=
  inner.curBuf.data ++ (conPollRead R P bits cx maxLen inner).woken.flatMap Event.produced

/-- The inner reader is polled, or the provider has no buffer to poll it with. -/
def Asks (cx : W) (out : Call (ReaderIoReader ρ BP) (Event W) (Poll (Except IoError (Option Bytes)))) :
    Prop :=
  (∃ spare res, Event.read cx spare res ∈ out.woken) ∨
    (out.woken = [.buf .pending] ∧ out.ret = .pending) ∨
    (out.woken = [.buf (.ready 0)] ∧ out.ret = .ready (.error .outOfMemory))

theorem surface_produced (cx : W) (maxLen : ℕ) (inner : ReaderIoReader ρ BP) :
    (surface cx maxLen inner).woken.flatMap Event.produced = [] := by
  by_cases hd : inner.curBuf.data = []
  · cases hg : inner.gotEof with
    | none => rw [surface_empty hd hg]; rfl
    | some e =>
      rw [surface_end hd hg]
      cases e <;> rfl
  · obtain ⟨chunk,curBuf,events,hcall,-,hquiet,-⟩ := surface_chunk cx maxLen hd
    rw [hcall]
    exact hquiet.produced

theorem surface_ret (cx : W) (maxLen : ℕ) (hd : inner.curBuf.data ≠ []) :
    (surface cx maxLen inner).ret = .ready (.ok (some (inner.curBuf.data.take maxLen))) := by
  have hlen : inner.curBuf.data.length ≠ 0 := mt List.length_eq_zero_iff.mp hd
  by_cases hmax : maxLen = 0
  · simp [surface,hlen,hmax]
  · simp only [surface,if_neg hlen,if_neg hmax]
    simp

theorem decideRead_error {self : ReaderIoReader ρ BP} {events : List (Event W)}
    {ret : Poll (Except IoError (Option Bytes))}
    (h : decideRead P bits maxLen inner = ⟨self,events,.error ret⟩) : inner.curBuf.data = [] := by
  simp only [decideRead] at h
  split at h
  · cases h
  · split at h
    · exact List.length_eq_zero_iff.mp ‹_›
    · cases h

theorem conPollRead_returns (hr : inner.reader.isSome) (h : available R P bits cx maxLen inner ≠ []) :
    (conPollRead R P bits cx maxLen inner).ret =
      .ready (.ok (some ((available R P bits cx maxLen inner).take maxLen))) := by
  obtain ⟨reader,hreader⟩ := Option.isSome_iff_exists.mp hr
  have hra : ReadsAhead inner (readAhead R P bits cx maxLen reader inner.gotEof inner) :=
    readAhead_readsAhead hr
  cases hret : (readAhead R P bits cx maxLen reader inner.gotEof inner).ret with
  | some ret =>
    obtain ⟨-,hproduced,-⟩ := hra.stop ret hret
    simp only [available,conPollRead_stop hreader hret,hproduced,List.append_nil] at h
    refine absurd ?_ h
    cases hg : inner.gotEof with
    | some e =>
      rw [hg] at hret
      cases hret
    | none =>
      rw [hg] at hret
      rcases hd : decideRead (W := W) P bits maxLen inner with ⟨self,events,ret' | doRead⟩
      · exact decideRead_error hd
      · cases doRead with
        | true => simp [readAhead_go hd] at hret
        | false => simp [readAhead_skip hd] at hret
  | none =>
    have havail : available R P bits cx maxLen inner =
        (readAhead R P bits cx maxLen reader inner.gotEof inner).self.curBuf.data := by
      rw [hra.bytes,available,conPollRead_surface hreader hret]
      simp only [List.flatMap_append,surface_produced,List.append_nil]
    rw [havail] at h ⊢
    rw [conPollRead_surface hreader hret]
    exact surface_ret cx maxLen h

/-- A read with nothing buffered and no end seen asks for more. -/
theorem conPollRead_asks (hr : inner.reader.isSome) (hg : inner.gotEof = none)
    (hd : inner.curBuf.data = []) : Asks cx (conPollRead R P bits cx maxLen inner) := by
  obtain ⟨reader,hreader⟩ := Option.isSome_iff_exists.mp hr
  have hgo : ∀ {self : ReaderIoReader ρ BP} {events : List (Event W)},
      decideRead P bits maxLen inner = ⟨self,events,.ok true⟩ →
        Asks cx (conPollRead R P bits cx maxLen inner) := by
    intro self events hdecided
    have hret : (readAhead R P bits cx maxLen reader inner.gotEof inner).ret = none := by
      rw [hg,readAhead_go hdecided]
    rw [conPollRead_surface hreader hret,hg,readAhead_go hdecided,pollReadBuf_woken]
    exact Or.inl ⟨_,_,List.mem_append_left _ (List.mem_append_right _ (List.mem_singleton_self _))⟩
  rcases decideRead_cases (W := W) P bits maxLen inner with
    ⟨doRead,hdecided,-⟩ | ⟨bp,hdecided⟩ | ⟨bp,hdecided⟩ | ⟨-,bp,capacity,-,hdecided⟩
  · cases doRead with
    | true => exact hgo hdecided
    | false => exact absurd hd (decideRead_idle hdecided)
  · have hret : (readAhead R P bits cx maxLen reader inner.gotEof inner).ret = some .pending := by
      rw [hg,readAhead_stop hdecided]
    rw [conPollRead_stop hreader hret,hg,readAhead_stop hdecided]
    exact Or.inr (Or.inl ⟨rfl,rfl⟩)
  · have hret : (readAhead R P bits cx maxLen reader inner.gotEof inner).ret =
        some (.ready (.error .outOfMemory)) := by
      rw [hg,readAhead_stop hdecided]
    rw [conPollRead_stop hreader hret,hg,readAhead_stop hdecided]
    exact Or.inr (Or.inr ⟨rfl,rfl⟩)
  · exact hgo hdecided

section Runs

variable {s : ReaderIoReader ρ BP} {steps : List (Step W)}

theorem Faithful.open_of_data (h : Faithful steps s) (hd : s.curBuf.data ≠ []) : s.reader.isSome := by
  cases h.phase with
  | reading reader | ended _ reader => exact reader
  | closed _ _ _ data => exact absurd data hd

theorem run_append (self : ReaderIoReader ρ BP) (calls more : List (W × ℕ)) :
    (run R P bits self (calls ++ more)).1 = (run R P bits self calls).1 ++
        (run R P bits (run R P bits self calls).2 more).1 ∧
      (run R P bits self (calls ++ more)).2 = (run R P bits (run R P bits self calls).2 more).2 := by
  induction more using List.reverseRecOn with
  | nil => simp [run]
  | append_singleton more call ih =>
    rw [← List.append_assoc,run_snoc,run_snoc,ih.1,ih.2]
    simp

/-- Every read takes something from what is buffered, until all of it has been returned. -/
theorem drains (R : AsyncRead ρ W) (P : AsyncBufProvider BP) (bits : ℕ) (reader : ρ) (bufProvider : BP)
    (calls more : List (W × ℕ)) (hmore : ∀ call ∈ more, 0 < call.2) :
    let s := (run R P bits (new reader bufProvider) calls).2
    min more.length s.curBuf.data.length ≤ (returned (run R P bits s more).1).length := by
  intro s
  induction more using List.reverseRecOn with
  | nil => simp
  | append_singleton more call ih =>
    have hle := ih fun c hc => hmore c (by simp [hc])
    have hpos : 0 < call.2 := hmore call (by simp)
    have hs : Faithful (run R P bits (new reader bufProvider) calls).1 s :=
      run_faithful reader bufProvider calls
    have hs' : Faithful ((run R P bits (new reader bufProvider) calls).1 ++ (run R P bits s more).1)
        (run R P bits s more).2 := by
      rw [← (run_append _ _ _).1,← (run_append _ _ _).2]
      exact run_faithful reader bufProvider (calls ++ more)
    have hbytes := congrArg List.length hs.bytes
    have hbytes' := congrArg List.length hs'.bytes
    simp only [returned,produced,List.flatMap_append,List.length_append] at hbytes hbytes'
    rw [run_snoc,returned_snoc,List.length_append,List.length_append,List.length_singleton]
    by_cases hd : (run R P bits s more).2.curBuf.data = []
    · have hall : s.curBuf.data.length ≤ (returned (run R P bits s more).1).length := by
        have hzero : (run R P bits s more).2.curBuf.data.length = 0 := by simp [hd]
        simp only [returned] at hzero ⊢
        omega
      omega
    · have havail : available R P bits call.1 call.2 (run R P bits s more).2 ≠ [] :=
        fun hnil => hd (List.append_eq_nil_iff.mp hnil).1
      have hopen : (run R P bits s more).2.reader.isSome := hs'.open_of_data hd
      have hret := conPollRead_returns hopen havail
      have hchunk : 0 < ((available R P bits call.1 call.2 (run R P bits s more).2).take call.2).length := by
        rw [List.length_take]
        exact lt_min hpos (List.length_pos_of_ne_nil havail)
      simp only [Step.returned,hret]
      omega

/-- After any reads: a read with something buffered returns as much of it as is asked for, with
what it reads ahead; a read with nothing buffered and no end seen asks the inner reader or the
provider for more; and every further read takes something from what is buffered, until all of it
has been returned. -/
theorem reader_answers (R : AsyncRead ρ W) (P : AsyncBufProvider BP) (bits : ℕ) (reader : ρ)
    (bufProvider : BP) (calls : List (W × ℕ)) :
    let s := (run R P bits (new reader bufProvider) calls).2
    (∀ cx maxLen, s.curBuf.data ≠ [] → (conPollRead R P bits cx maxLen s).ret =
      .ready (.ok (some ((available R P bits cx maxLen s).take maxLen)))) ∧
    (∀ cx maxLen, s.reader.isSome → s.gotEof = none → s.curBuf.data = [] →
      Asks cx (conPollRead R P bits cx maxLen s)) ∧
    ∀ more : List (W × ℕ), (∀ call ∈ more, 0 < call.2) →
      min more.length s.curBuf.data.length ≤ (returned (run R P bits s more).1).length := by
  intro s
  have hs : Faithful (run R P bits (new reader bufProvider) calls).1 s :=
    run_faithful reader bufProvider calls
  refine ⟨fun cx maxLen hd => ?_,fun cx maxLen hr hg hd => conPollRead_asks hr hg hd,
    drains R P bits reader bufProvider calls⟩
  exact conPollRead_returns (hs.open_of_data hd) fun hnil => hd (List.append_eq_nil_iff.mp hnil).1

def readOne : ReaderIoReader (List (Except StdIoError Bytes)) Unit :=
  (run scripted sixteen 64 (new [.ok [1,2,3],.error (.simple .connectionReset)] ()) [(7,1)]).2

theorem reader_answers_three :
    (conPollRead scripted sixteen 64 7 8 readOne).ret = .ready (.ok (some [2,3])) ∧
      2 ≤ (returned (run scripted sixteen 64 readOne [(7,1),(7,1)]).1).length := by
  obtain ⟨hchunk,-,hdrains⟩ := reader_answers scripted sixteen 64
    [.ok [1,2,3],.error (.simple .connectionReset)] () [(7,1)]
  refine ⟨(hchunk 7 8 (by decide +kernel)).trans ?_,hdrains [(7,1),(7,1)] (by decide)⟩
  decide +kernel

end Runs

end ReaderIoReader
end ProcMachines
