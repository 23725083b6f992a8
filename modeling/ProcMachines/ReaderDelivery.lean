import ProcMachines.ReaderIoReader

/-! What a consumer of the reading adapter sees, over runs of reads. -/
namespace ProcMachines
namespace ReaderIoReader

variable {ρ BP W : Type}

structure Step (W : Type) where
  maxLen : ℕ
  events : List (Event W)
  ret : Poll (Except IoError (Option Bytes))

def run (R : AsyncRead ρ W) (P : AsyncBufProvider BP) (bits : ℕ) (self : ReaderIoReader ρ BP)
    (calls : List (W × ℕ)) : List (Step W) × ReaderIoReader ρ BP :=
  calls.foldl (fun st call =>
    let r := conPollRead R P bits call.1 call.2 st.2
    (st.1 ++ [⟨call.2,r.woken,r.ret⟩],r.self)) ([],self)

def Event.produced : Event W → Bytes
  | .read _ _ (.ready (.ok bytes)) => bytes
  | _ => []

def Event.poll : Event W → Option (Poll (Except StdIoError Bytes))
  | .read _ _ res => some res
  | _ => none

/-- The end or the error that a poll of the inner reader reports. -/
def ending : Poll (Except StdIoError Bytes) → Option (Option IoError)
  | .ready (.ok []) => some none
  | .ready (.error e) => some (some (.ofStdIoError e))
  | _ => none

def Event.isEmptyBuf : Event W → Bool
  | .buf (.ready 0) => true
  | _ => false

namespace Step

def produced (s : Step W) : Bytes := s.events.flatMap Event.produced

def polls (s : Step W) : List (Poll (Except StdIoError Bytes)) := s.events.filterMap Event.poll

def returned (s : Step W) : Bytes :=
  match s.ret with
  | .ready (.ok (some chunk)) => chunk
  | _ => []

/-- The end of the stream or an error of the inner reader, as the call returns it. A
buffer without capacity is the provider's error. -/
def surfaces (s : Step W) : Option (Option IoError) :=
  match s.ret with
  | .ready (.ok none) => some none
  | .ready (.error e) => if s.events.any Event.isEmptyBuf then none else some (some e)
  | _ => none

def WellSized (s : Step W) : Prop :=
  ∀ chunk, s.ret = .ready (.ok (some chunk)) →
    if s.maxLen = 0 then chunk = [] else 1 ≤ chunk.length ∧ chunk.length ≤ s.maxLen

end Step

def produced (steps : List (Step W)) : Bytes := steps.flatMap Step.produced
def returned (steps : List (Step W)) : Bytes := steps.flatMap Step.returned
def polls (steps : List (Step W)) : List (Poll (Except StdIoError Bytes)) := steps.flatMap Step.polls

def surfaced (steps : List (Step W)) : List (Option IoError) := steps.filterMap Step.surfaces

section Calls

variable {R : AsyncRead ρ W} {P : AsyncBufProvider BP} {bits maxLen : ℕ} {cx : W} {reader : ρ}

/-- What reading ahead may do: it appends what it reads, reads only into spare capacity
and at most once, and keeps an end or an error it sees. -/
structure ReadsAhead (inner : ReaderIoReader ρ BP)
    (out : Call (ReaderIoReader ρ BP) (Event W) (Option (Poll (Except IoError (Option Bytes))))) :
    Prop where
  bytes : out.self.curBuf.data = inner.curBuf.data ++ out.woken.flatMap Event.produced
  spare : ∀ cx spare res, Event.read cx spare res ∈ out.woken → 1 ≤ spare
  reader : out.self.reader.isSome = true
  polls : (out.woken.filterMap Event.poll = [] ∧ out.self.gotEof = inner.gotEof) ∨
    ∃ p, out.woken.filterMap Event.poll = [p] ∧ inner.gotEof = none ∧ out.self.gotEof = ending p
  go : out.ret = none → out.woken.any Event.isEmptyBuf = false
  stop : ∀ ret, out.ret = some ret → out.self.gotEof = none ∧ out.woken.flatMap Event.produced = [] ∧
    ((ret = .pending ∧ out.woken.any Event.isEmptyBuf = false) ∨
      (ret = .ready (.error .outOfMemory) ∧ out.woken.any Event.isEmptyBuf = true))

theorem pollReadBuf_apply (R : AsyncRead ρ W) (cx : W) (reader : ρ) (inner : ReaderIoReader ρ BP) (hg : inner.gotEof = none) :
    ∃ res reader' curBuf, pollReadBuf R cx reader inner =
        ⟨{ inner with reader := some reader', curBuf := curBuf, gotEof := ending res },
          [.read cx (inner.curBuf.capacity - inner.curBuf.data.length) res],()⟩ ∧
      curBuf.data = inner.curBuf.data ++
        Event.produced (.read cx (inner.curBuf.capacity - inner.curBuf.data.length) res) := by
  rcases hres : R.pollRead cx (inner.curBuf.capacity - inner.curBuf.data.length) reader with
    ⟨res,reader'⟩
  simp only [pollReadBuf,hres]
  match res with
  | .ready (.error e) =>
    exact ⟨.ready (.error e),reader',inner.curBuf,rfl,by simp [Event.produced]⟩
  | .ready (.ok []) =>
    exact ⟨.ready (.ok []),reader',inner.curBuf,rfl,by simp [Event.produced]⟩
  | .ready (.ok (b :: bytes)) =>
    refine ⟨.ready (.ok (b :: bytes)),reader',inner.curBuf.append (b :: bytes),?_,rfl⟩
    simp [ending,hg]
  | .pending =>
    refine ⟨.pending,reader',inner.curBuf,?_,by simp [Event.produced]⟩
    simp [ending,hg]

theorem pollReadBuf_readsAhead {inner : ReaderIoReader ρ BP} (hg : inner.gotEof = none)
    (hspare : inner.curBuf.data.length < inner.curBuf.capacity) :
    ReadsAhead inner ⟨(pollReadBuf R cx reader inner).self,
      (pollReadBuf R cx reader inner).woken,none⟩ := by
  obtain ⟨res,reader',curBuf,hcall,hdata⟩ := pollReadBuf_apply R cx reader inner hg
  rw [hcall]
  exact {
    bytes := by simpa using hdata
    spare := by
      intro cx spare res hmem
      simp at hmem
      omega
    reader := rfl
    polls := Or.inr ⟨res,rfl,hg,rfl⟩
    go := by simp [Event.isEmptyBuf]
    stop := by simp }

theorem idle_readsAhead {inner : ReaderIoReader ρ BP} (hr : inner.reader.isSome = true) :
    ReadsAhead inner (⟨inner,[],none⟩ : Call (ReaderIoReader ρ BP) (Event W) _) where
  bytes := by simp
  spare := by simp
  reader := hr
  polls := Or.inl ⟨rfl,rfl⟩
  go := by simp
  stop := by simp

section Decided

variable {inner self : ReaderIoReader ρ BP} {events : List (Event W)}

theorem readAhead_stop {ret : Poll (Except IoError (Option Bytes))}
    (h : decideRead P bits maxLen inner = ⟨self,events,.error ret⟩) :
    readAhead R P bits cx maxLen reader none inner = ⟨self,events,some ret⟩ := by
  simp only [readAhead,Act.bind_apply,h]
  simp

theorem readAhead_skip (h : decideRead P bits maxLen inner = ⟨self,events,.ok false⟩) :
    readAhead R P bits cx maxLen reader none inner = ⟨self,events,none⟩ := by
  simp only [readAhead,Act.bind_apply,h]
  simp

theorem readAhead_go (h : decideRead P bits maxLen inner = ⟨self,events,.ok true⟩) :
    readAhead R P bits cx maxLen reader none inner =
      ⟨(pollReadBuf R cx reader self).self,events ++ (pollReadBuf R cx reader self).woken,none⟩ := by
  simp only [readAhead,Act.bind_apply,h]
  simp

end Decided

/-- Decide on the current buffer, or fetch one when it is empty and too small. -/
theorem decideRead_cases (P : AsyncBufProvider BP) (bits maxLen : ℕ) (inner : ReaderIoReader ρ BP) :
    (∃ doRead, (decideRead P bits maxLen inner : Call _ (Event W) _) = ⟨inner,[],.ok doRead⟩ ∧
      (doRead = true → inner.curBuf.data.length < inner.curBuf.capacity)) ∨
    (∃ bp, (decideRead P bits maxLen inner : Call _ (Event W) _) =
      ⟨{ inner with bufProvider := bp },[.buf .pending],.error .pending⟩) ∨
    (∃ bp, (decideRead P bits maxLen inner : Call _ (Event W) _) =
      ⟨{ inner with bufProvider := bp },[.buf (.ready 0)],.error (.ready (.error .outOfMemory))⟩) ∨
    (inner.curBuf.data = [] ∧ ∃ bp capacity, 0 < capacity ∧
      (decideRead P bits maxLen inner : Call _ (Event W) _) =
        ⟨{ inner with bufProvider := bp, curBuf := .withCapacity capacity,
                      bufCapacity := capacity },[.buf (.ready capacity)],.ok true⟩) := by
  simp only [decideRead]
  by_cases hspace : 0 < inner.curBuf.capacity - inner.curBuf.data.length ∧
      inner.bufCapacity >>> 2 < inner.curBuf.capacity - inner.curBuf.data.length
  · rw [if_pos hspace]
    exact Or.inl ⟨_,rfl,fun _ => by omega⟩
  · rw [if_neg hspace]
    by_cases hlen : inner.curBuf.data.length = 0
    · rw [if_pos hlen]
      rcases P.pollGetBuf inner.bufProvider with ⟨capacity | _,bp⟩
      · by_cases hcap : capacity < 1
        · have hzero : capacity = 0 := by omega
          subst hzero
          exact Or.inr (Or.inr (Or.inl ⟨bp,rfl⟩))
        · refine Or.inr (Or.inr (Or.inr ⟨List.length_eq_zero_iff.mp hlen,bp,capacity,by omega,?_⟩))
          simp only [hcap,if_false]
      · exact Or.inr (Or.inl ⟨bp,rfl⟩)
    · rw [if_neg hlen]
      exact Or.inl ⟨false,rfl,by simp⟩

theorem readAhead_readsAhead {inner : ReaderIoReader ρ BP} (hr : inner.reader.isSome = true) :
    ReadsAhead inner (readAhead R P bits cx maxLen reader inner.gotEof inner) := by
  cases hg : inner.gotEof with
  | some e => exact idle_readsAhead hr
  | none =>
    rcases decideRead_cases P bits maxLen inner with
      ⟨doRead,hd,hroom⟩ | ⟨bp,hd⟩ | ⟨bp,hd⟩ | ⟨hempty,bp,capacity,hcap,hd⟩
    · cases doRead with
      | true =>
        rw [readAhead_go hd]
        exact pollReadBuf_readsAhead hg (hroom rfl)
      | false =>
        rw [readAhead_skip hd]
        exact idle_readsAhead hr
    · rw [readAhead_stop hd]
      refine ⟨?_,?_,hr,Or.inl ⟨rfl,rfl⟩,?_,?_⟩ <;>
        simp [Event.produced,Event.isEmptyBuf,hg]
    · rw [readAhead_stop hd]
      refine ⟨?_,?_,hr,Or.inl ⟨rfl,rfl⟩,?_,?_⟩ <;>
        simp [Event.produced,Event.isEmptyBuf,hg]
    · rw [readAhead_go hd]
      let next : ReaderIoReader ρ BP := { inner with bufProvider := bp,
                                                     curBuf := .withCapacity capacity,
                                                     bufCapacity := capacity }
      have hread : ReadsAhead next ⟨(pollReadBuf R cx reader next).self,
          (pollReadBuf R cx reader next).woken,none⟩ := pollReadBuf_readsAhead hg hcap
      have hdata : (BytesMut.withCapacity capacity).data = inner.curBuf.data := by rw [hempty]; rfl
      refine ⟨?_,?_,hread.reader,?_,?_,?_⟩
      · rw [← hdata]
        simpa [Event.produced] using hread.bytes
      · intro cx spare res hmem
        exact hread.spare cx spare res (by simpa using hmem)
      · exact hread.polls
      · intro _
        have hcap' : Event.isEmptyBuf (.buf (.ready capacity) : Event W) = false := by
          cases capacity with
          | zero => omega
          | succ n => rfl
        simpa [hcap'] using hread.go rfl
      · simp

/-- Events that only wake the caller. -/
def Quiet (events : List (Event W)) : Prop := ∀ e ∈ events, ∃ cx, e = .woke cx

theorem Quiet.produced {events : List (Event W)} (h : Quiet events) :
    events.flatMap Event.produced = [] := by
  refine List.flatMap_eq_nil_iff.mpr fun e he => ?_
  obtain ⟨cx,rfl⟩ := h e he
  rfl

theorem Quiet.polls {events : List (Event W)} (h : Quiet events) :
    events.filterMap Event.poll = [] := by
  refine List.filterMap_eq_nil_iff.mpr fun e he => ?_
  obtain ⟨cx,rfl⟩ := h e he
  rfl

theorem Quiet.isEmptyBuf {events : List (Event W)} (h : Quiet events) :
    events.any Event.isEmptyBuf = false := by
  refine List.any_eq_false.mpr fun e he => ?_
  obtain ⟨cx,rfl⟩ := h e he
  simp [Event.isEmptyBuf]

theorem Quiet.spare {events quiet : List (Event W)} (h : Quiet quiet)
    (hspare : ∀ cx spare res, Event.read cx spare res ∈ events → 1 ≤ spare) :
    ∀ cx spare res, Event.read cx spare res ∈ events ++ quiet → 1 ≤ spare := by
  intro cx spare res hmem
  refine hspare cx spare res ((List.mem_append.mp hmem).resolve_right fun hwoke => ?_)
  obtain ⟨_,hwoke⟩ := h _ hwoke
  cases hwoke

def answer : Option IoError → Poll (Except IoError (Option Bytes))
  | none => .ready (.ok none)
  | some e => .ready (.error e)

theorem surface_empty {inner : ReaderIoReader ρ BP} (hd : inner.curBuf.data = [])
    (hg : inner.gotEof = none) : surface cx maxLen inner = ⟨inner,[],.pending⟩ := by
  simp [surface,hd,hg]

theorem surface_end {inner : ReaderIoReader ρ BP} {e : Option IoError}
    (hd : inner.curBuf.data = []) (hg : inner.gotEof = some e) :
    surface cx maxLen inner = ⟨{ inner with reader := none, gotEof := none },
      e.toList.map fun _ => .woke cx,answer e⟩ := by
  cases e <;> simp [surface,hd,hg,answer]

theorem surface_chunk (cx : W) (maxLen : ℕ) {inner : ReaderIoReader ρ BP}
    (hd : inner.curBuf.data ≠ []) :
    ∃ chunk curBuf events, surface cx maxLen inner =
        ⟨{ inner with curBuf := curBuf },events,.ready (.ok (some chunk))⟩ ∧
      chunk ++ curBuf.data = inner.curBuf.data ∧ Quiet events ∧
      if maxLen = 0 then chunk = [] else 1 ≤ chunk.length ∧ chunk.length ≤ maxLen := by
  have hlen : inner.curBuf.data.length ≠ 0 := mt List.length_eq_zero_iff.mp hd
  by_cases hmax : maxLen = 0
  · exact ⟨[],inner.curBuf,[],by simp [surface,hd,hmax],rfl,by simp [Quiet],by simp [hmax]⟩
  · refine ⟨inner.curBuf.data.take (min maxLen inner.curBuf.data.length),
      inner.curBuf.dropFront (min maxLen inner.curBuf.data.length),[.woke cx],
      by simp only [surface,hlen,hmax,if_false],List.take_append_drop _ _,by simp [Quiet],?_⟩
    rw [if_neg hmax,List.length_take]
    omega

theorem conPollRead_closed {inner : ReaderIoReader ρ BP} (hr : inner.reader = none) :
    conPollRead R P bits cx maxLen inner = ⟨inner,[],.ready (.ok none)⟩ := by
  simp [conPollRead,hr]

theorem conPollRead_stop {inner : ReaderIoReader ρ BP} {ret : Poll (Except IoError (Option Bytes))}
    (hr : inner.reader = some reader)
    (h : (readAhead R P bits cx maxLen reader inner.gotEof inner).ret = some ret) :
    conPollRead R P bits cx maxLen inner =
      ⟨(readAhead R P bits cx maxLen reader inner.gotEof inner).self,
        (readAhead R P bits cx maxLen reader inner.gotEof inner).woken,ret⟩ := by
  simp only [conPollRead,hr,Act.bind_apply,h]
  simp

theorem conPollRead_surface {inner : ReaderIoReader ρ BP} (hr : inner.reader = some reader)
    (h : (readAhead R P bits cx maxLen reader inner.gotEof inner).ret = none) :
    conPollRead R P bits cx maxLen inner =
      ⟨(surface cx maxLen (readAhead R P bits cx maxLen reader inner.gotEof inner).self).self,
        (readAhead R P bits cx maxLen reader inner.gotEof inner).woken ++
          (surface cx maxLen (readAhead R P bits cx maxLen reader inner.gotEof inner).self).woken,
        (surface cx maxLen (readAhead R P bits cx maxLen reader inner.gotEof inner).self).ret⟩ := by
  simp only [conPollRead,hr,Act.bind_apply,h]

end Calls

/-- The polls end with the report of `e`, the only one. -/
def Ends (polls : List (Poll (Except StdIoError Bytes))) (e : Option IoError) : Prop :=
  ∃ pre p, polls = pre ++ [p] ∧ (∀ q ∈ pre, ending q = none) ∧ ending p = some e

/-- Where the adapter is: the inner reader goes on, it has ended, or that is returned. -/
inductive Phase (polls : List (Poll (Except StdIoError Bytes))) (surfaced : List (Option IoError))
    (s : ReaderIoReader ρ BP) : Prop
  | reading (reader : s.reader.isSome = true) (gotEof : s.gotEof = none)
      (polls : ∀ p ∈ polls, ending p = none) (surfaced : surfaced = [])
  | ended (e : Option IoError) (reader : s.reader.isSome = true) (gotEof : s.gotEof = some e)
      (polls : Ends polls e) (surfaced : surfaced = [])
  | closed (e : Option IoError) (k : ℕ) (reader : s.reader = none) (data : s.curBuf.data = [])
      (polls : Ends polls e) (surfaced : surfaced = e :: List.replicate k none)

/-- The history agrees with the adapter's state. -/
structure Faithful (steps : List (Step W)) (s : ReaderIoReader ρ BP) : Prop where
  bytes : returned steps ++ s.curBuf.data = produced steps
  sized : ∀ step ∈ steps, step.WellSized
  spare : ∀ step ∈ steps, ∀ cx spare res, Event.read cx spare res ∈ step.events → 1 ≤ spare
  memory : ∀ step ∈ steps, step.events.any Event.isEmptyBuf = true →
    step.ret = .ready (.error .outOfMemory)
  phase : Phase (polls steps) (surfaced steps) s
  after : ∀ pre step post, steps = pre ++ step :: post → step.surfaces ≠ none →
    returned (pre ++ [step]) = produced (pre ++ [step]) ∧
      ∀ later ∈ post, later.ret = .ready (.ok none)

section Histories

variable {steps : List (Step W)} {new : Step W} {s s' : ReaderIoReader ρ BP}

@[simp] theorem produced_snoc : produced (steps ++ [new]) = produced steps ++ new.produced := by
  simp [produced]

@[simp] theorem returned_snoc : returned (steps ++ [new]) = returned steps ++ new.returned := by
  simp [returned]

@[simp] theorem polls_snoc : polls (steps ++ [new]) = polls steps ++ new.polls := by
  simp [polls]

@[simp] theorem surfaced_snoc :
    surfaced (steps ++ [new]) = surfaced steps ++ new.surfaces.toList := by
  cases h : new.surfaces <;> simp [surfaced,h]

/-- A call extends a faithful history when it hands over its bytes and its phase. -/
theorem Faithful.snoc (h : Faithful steps s)
    (bytes : s.curBuf.data ++ new.produced = new.returned ++ s'.curBuf.data)
    (sized : new.WellSized)
    (spare : ∀ cx spare res, Event.read cx spare res ∈ new.events → 1 ≤ spare)
    (memory : new.events.any Event.isEmptyBuf = true → new.ret = .ready (.error .outOfMemory))
    (phase : Phase (polls steps ++ new.polls) (surfaced steps ++ new.surfaces.toList) s')
    (empty : new.surfaces ≠ none → s'.curBuf.data = [])
    (last : surfaced steps ≠ [] → new.ret = .ready (.ok none)) :
    Faithful (steps ++ [new]) s' := by
  have hbytes : returned (steps ++ [new]) ++ s'.curBuf.data = produced (steps ++ [new]) := by
    rw [returned_snoc,produced_snoc,List.append_assoc,← bytes,← List.append_assoc,h.bytes]
  refine ⟨hbytes,?_,?_,?_,by simpa using phase,?_⟩
  · intro step hstep
    rcases List.mem_append.mp hstep with hold | hnew
    · exact h.sized step hold
    · rw [List.mem_singleton.mp hnew]
      exact sized
  · intro step hstep
    rcases List.mem_append.mp hstep with hold | hnew
    · exact h.spare step hold
    · rw [List.mem_singleton.mp hnew]
      exact spare
  · intro step hstep
    rcases List.mem_append.mp hstep with hold | hnew
    · exact h.memory step hold
    · rw [List.mem_singleton.mp hnew]
      exact memory
  · intro pre step post hsplit hsurf
    rcases List.eq_nil_or_concat post with rfl | ⟨post,last',rfl⟩
    · have heq : pre = steps ∧ step = new := by
        simpa [eq_comm] using List.append_inj' hsplit rfl
      obtain ⟨rfl,rfl⟩ := heq
      rw [empty hsurf,List.append_nil] at hbytes
      exact ⟨hbytes,by simp⟩
    · have heq : steps = pre ++ step :: post ∧ new = last' := by
        have hassoc : steps ++ [new] = (pre ++ step :: post) ++ [last'] := by simpa using hsplit
        simpa using List.append_inj' hassoc rfl
      obtain ⟨rfl,rfl⟩ := heq
      obtain ⟨hall,hlater⟩ := h.after pre step post rfl hsurf
      refine ⟨hall,fun later hmem => ?_⟩
      rcases List.mem_append.mp (by simpa using hmem : later ∈ post ++ [new]) with hold | hnew
      · exact hlater later hold
      · rw [List.mem_singleton.mp hnew]
        refine last fun hnil => hsurf ?_
        have hall := List.filterMap_eq_nil_iff.mp hnil
        exact hall step (by simp)

end Histories

section Runs

variable {R : AsyncRead ρ W} {P : AsyncBufProvider BP} {bits maxLen : ℕ} {cx : W}
  {steps : List (Step W)} {s : ReaderIoReader ρ BP}

theorem Phase.readsAhead {out : Call (ReaderIoReader ρ BP) (Event W)
      (Option (Poll (Except IoError (Option Bytes))))} (hp : Phase (polls steps) (surfaced steps) s)
    (h : ReadsAhead s out) (hr : s.reader.isSome = true) :
    surfaced steps = [] ∧ Phase (polls steps ++ out.woken.filterMap Event.poll) [] out.self := by
  cases hp with
  | reading reader gotEof hpolls hsurf =>
    refine ⟨hsurf,?_⟩
    rcases h.polls with ⟨hnil,hg⟩ | ⟨p,hone,_,hg⟩
    · rw [hnil,List.append_nil]
      exact .reading h.reader (hg.trans gotEof) hpolls rfl
    · rw [hone]
      cases he : ending p with
      | none =>
        refine .reading h.reader (hg.trans he) ?_ rfl
        intro q hq
        rcases List.mem_append.mp hq with hq | hq
        · exact hpolls q hq
        · rw [List.mem_singleton.mp hq,he]
      | some e => exact .ended e h.reader (hg.trans he) ⟨_,p,rfl,hpolls,he⟩ rfl
  | ended e reader gotEof hpolls hsurf =>
    refine ⟨hsurf,?_⟩
    rcases h.polls with ⟨hnil,hg⟩ | ⟨p,_,hnone,_⟩
    · rw [hnil,List.append_nil]
      exact .ended e h.reader (hg.trans gotEof) hpolls rfl
    · rw [gotEof] at hnone
      simp at hnone
  | closed e k reader => simp [reader] at hr

theorem Faithful.stop (h : Faithful steps s) {out : Call (ReaderIoReader ρ BP) (Event W)
      (Option (Poll (Except IoError (Option Bytes))))} (hra : ReadsAhead s out)
    (hr : s.reader.isSome = true) {ret : Poll (Except IoError (Option Bytes))}
    (hstop : out.ret = some ret) : Faithful (steps ++ [⟨maxLen,out.woken,ret⟩]) out.self := by
  obtain ⟨hnone,hphase⟩ := h.phase.readsAhead hra hr
  obtain ⟨_,hproduced,hret⟩ := hra.stop ret hstop
  have hbytes : out.self.curBuf.data = s.curBuf.data := by
    rw [hra.bytes,hproduced,List.append_nil]
  have hsurf : Step.surfaces (⟨maxLen,out.woken,ret⟩ : Step W) = none := by
    rcases hret with ⟨rfl,_⟩ | ⟨rfl,hempty⟩
    · rfl
    · simp [Step.surfaces,hempty]
  have hreturned : Step.returned (⟨maxLen,out.woken,ret⟩ : Step W) = [] := by
    rcases hret with ⟨rfl,_⟩ | ⟨rfl,_⟩ <;> rfl
  refine h.snoc ?_ ?_ hra.spare ?_ ?_ ?_ ?_
  · rw [hreturned,hbytes]
    simpa [Step.produced] using hproduced
  · rcases hret with ⟨rfl,_⟩ | ⟨rfl,_⟩ <;> simp [Step.WellSized]
  · intro hempty
    rcases hret with ⟨_,hfull⟩ | ⟨rfl,_⟩
    · rw [hfull] at hempty
      exact Bool.noConfusion hempty
    · rfl
  · rw [hsurf,hnone]
    exact hphase
  · exact fun hne => absurd hsurf hne
  · exact fun hne => absurd hnone hne

section GoesOn

variable {out : Call (ReaderIoReader ρ BP) (Event W)
  (Option (Poll (Except IoError (Option Bytes))))}

theorem Faithful.goOn_empty (h : Faithful steps s) (hra : ReadsAhead s out)
    (hr : s.reader.isSome = true) (hgo : out.ret = none) (hd : out.self.curBuf.data = []) :
    Faithful (steps ++ [⟨maxLen,out.woken,.pending⟩]) out.self := by
  obtain ⟨hnone,hphase⟩ := h.phase.readsAhead hra hr
  have hproduced : s.curBuf.data = [] ∧ out.woken.flatMap Event.produced = [] := by
    rw [← List.append_eq_nil_iff,← hra.bytes,hd]
  refine h.snoc ?_ ?_ hra.spare ?_ ?_ ?_ ?_
  · simp [Step.produced,Step.returned,hproduced.1,hproduced.2,hd]
  · simp [Step.WellSized]
  · simp [hra.go hgo]
  · simpa [Step.surfaces,Step.polls,hnone] using hphase
  · simp [Step.surfaces]
  · exact fun hne => absurd hnone hne

theorem Faithful.goOn_end (h : Faithful steps s) (hra : ReadsAhead s out)
    (hr : s.reader.isSome = true) (hgo : out.ret = none) (hd : out.self.curBuf.data = [])
    {e : Option IoError} (hg : out.self.gotEof = some e) (cx : W) :
    Faithful (steps ++ [⟨maxLen,out.woken ++ e.toList.map fun _ => .woke cx,answer e⟩])
      ({ out.self with reader := none, gotEof := none } : ReaderIoReader ρ BP) := by
  obtain ⟨hnone,hphase⟩ := h.phase.readsAhead hra hr
  have hfull := hra.go hgo
  have hproduced : s.curBuf.data = [] ∧ out.woken.flatMap Event.produced = [] := by
    rw [← List.append_eq_nil_iff,← hra.bytes,hd]
  have hq : Quiet (e.toList.map fun _ => Event.woke cx) := by simp [Quiet]
  have hsurf : Step.surfaces (⟨maxLen,out.woken ++ e.toList.map fun _ => .woke cx,answer e⟩ :
      Step W) = some e := by
    cases e <;> simp [Step.surfaces,answer,List.any_append,hfull,Event.isEmptyBuf]
  refine h.snoc ?_ ?_ (hq.spare hra.spare) ?_ ?_ (fun _ => hd) fun hne => absurd hnone hne
  · cases e <;> simp [Step.produced,Step.returned,answer,hproduced.1,hproduced.2,hd,Event.produced]
  · cases e <;> simp [Step.WellSized,answer]
  · simp only [List.any_append,hfull,hq.isEmptyBuf,Bool.or_self]
    simp
  · rw [hsurf,hnone]
    have hends : Ends (polls steps ++ out.woken.filterMap Event.poll) e := by
      cases hphase with
      | reading _ gotEof =>
        rw [hg] at gotEof
        simp at gotEof
      | ended e' _ gotEof hpolls =>
        rw [hg] at gotEof
        rwa [Option.some.inj gotEof]
      | closed e' k reader =>
        have hreader := hra.reader
        simp [reader] at hreader
    refine .closed e 0 rfl hd ?_ rfl
    simpa only [Step.polls,List.filterMap_append,hq.polls,List.append_nil] using hends

theorem Faithful.goOn_chunk (h : Faithful steps s) (hra : ReadsAhead s out)
    (hr : s.reader.isSome = true) (hgo : out.ret = none) (hd : out.self.curBuf.data ≠ [])
    {chunk : Bytes} {curBuf : BytesMut} {events : List (Event W)}
    (hchunk : chunk ++ curBuf.data = out.self.curBuf.data) (hq : Quiet events)
    (hsized : if maxLen = 0 then chunk = [] else 1 ≤ chunk.length ∧ chunk.length ≤ maxLen) :
    Faithful (steps ++ [⟨maxLen,out.woken ++ events,.ready (.ok (some chunk))⟩])
      { out.self with curBuf := curBuf } := by
  obtain ⟨hnone,hphase⟩ := h.phase.readsAhead hra hr
  refine h.snoc ?_ ?_ (hq.spare hra.spare) ?_ ?_ ?_ fun hne => absurd hnone hne
  · simp only [Step.produced,Step.returned,List.flatMap_append,hq.produced,List.append_nil]
    rw [hchunk,hra.bytes]
  · intro c hc
    obtain rfl : chunk = c := by simpa using hc
    exact hsized
  · simp only [List.any_append,hra.go hgo,hq.isEmptyBuf,Bool.or_self]
    simp
  · have hpolls : Step.polls (⟨maxLen,out.woken ++ events,.ready (.ok (some chunk))⟩ : Step W) =
        out.woken.filterMap Event.poll := by
      rw [Step.polls,List.filterMap_append,hq.polls,List.append_nil]
    rw [hpolls,hnone]
    cases hphase with
    | reading reader gotEof hp _ => exact .reading reader gotEof hp rfl
    | ended e reader gotEof hp _ => exact .ended e reader gotEof hp rfl
    | closed e k reader data => exact absurd data hd
  · simp [Step.surfaces]

theorem Faithful.goOn (h : Faithful steps s) (hra : ReadsAhead s out)
    (hr : s.reader.isSome = true) (hgo : out.ret = none) :
    Faithful (steps ++ [⟨maxLen,out.woken ++ (surface cx maxLen out.self).woken,
      (surface cx maxLen out.self).ret⟩]) (surface cx maxLen out.self).self := by
  by_cases hd : out.self.curBuf.data = []
  · cases hg : out.self.gotEof with
    | none =>
      rw [surface_empty hd hg,List.append_nil]
      exact h.goOn_empty hra hr hgo hd
    | some e =>
      rw [surface_end hd hg]
      exact h.goOn_end hra hr hgo hd hg cx
  · obtain ⟨chunk,curBuf,events,hcall,hchunk,hq,hsized⟩ := surface_chunk cx maxLen hd
    rw [hcall]
    exact h.goOn_chunk hra hr hgo hd hchunk hq hsized

end GoesOn

theorem conPollRead_faithful (h : Faithful steps s) (cx : W) (maxLen : ℕ) :
    Faithful (steps ++ [⟨maxLen,(conPollRead R P bits cx maxLen s).woken,
      (conPollRead R P bits cx maxLen s).ret⟩]) (conPollRead R P bits cx maxLen s).self := by
  cases hr : s.reader with
  | none =>
    rw [conPollRead_closed hr]
    cases h.phase with
    | reading reader => simp [hr] at reader
    | ended e reader => simp [hr] at reader
    | closed e k reader data hpolls hsurf =>
      refine h.snoc ?_ ?_ ?_ ?_ ?_ ?_ ?_
      · simp [Step.produced,Step.returned]
      · simp [Step.WellSized]
      · simp
      · simp
      · refine .closed e (k + 1) reader data (by simpa [Step.polls] using hpolls) ?_
        rw [hsurf]
        simp [Step.surfaces,List.replicate_succ']
      · exact fun _ => data
      · exact fun _ => rfl
  | some reader =>
    have hsome : s.reader.isSome = true := by simp [hr]
    have hra : ReadsAhead s (readAhead R P bits cx maxLen reader s.gotEof s) :=
      readAhead_readsAhead hsome
    cases hret : (readAhead R P bits cx maxLen reader s.gotEof s).ret with
    | some ret =>
      rw [conPollRead_stop hr hret]
      exact h.stop hra hsome hret
    | none =>
      rw [conPollRead_surface hr hret]
      exact h.goOn hra hsome hret

theorem run_snoc (s : ReaderIoReader ρ BP) (calls : List (W × ℕ)) (call : W × ℕ) :
    run R P bits s (calls ++ [call]) =
      ((run R P bits s calls).1 ++ [⟨call.2,
        (conPollRead R P bits call.1 call.2 (run R P bits s calls).2).woken,
        (conPollRead R P bits call.1 call.2 (run R P bits s calls).2).ret⟩],
        (conPollRead R P bits call.1 call.2 (run R P bits s calls).2).self) := by
  simp [run]

theorem run_faithful (inner : ρ) (bufProvider : BP) (calls : List (W × ℕ)) :
    Faithful (run R P bits (new inner bufProvider) calls).1
      (run R P bits (new inner bufProvider) calls).2 := by
  induction calls using List.reverseRecOn with
  | nil =>
    refine ⟨rfl,by simp [run],by simp [run],by simp [run],?_,by simp [run]⟩
    exact .reading rfl rfl (by simp [run,polls]) rfl
  | append_singleton calls call ih =>
    rw [run_snoc]
    exact conPollRead_faithful ih call.1 call.2

theorem Ends.unique {polls : List (Poll (Except StdIoError Bytes))} {e e' : Option IoError}
    (h : Ends polls e) (h' : Ends polls e') : e = e' := by
  obtain ⟨pre,p,rfl,_,hp⟩ := h
  obtain ⟨pre',p',heq,_,hp'⟩ := h'
  have hlast := (List.append_inj' heq rfl).2
  rw [(List.cons.inj hlast).1] at hp
  exact Option.some.inj (hp.symm.trans hp')

theorem Ends.last {polls : List (Poll (Except StdIoError Bytes))} {e : Option IoError}
    (h : Ends polls e) {pre post : List (Poll (Except StdIoError Bytes))}
    {p : Poll (Except StdIoError Bytes)} (hsplit : polls = pre ++ p :: post) (hp : ending p ≠ none) :
    post = [] := by
  obtain ⟨front,q,rfl,hfront,_⟩ := h
  rcases List.eq_nil_or_concat post with rfl | ⟨post,r,rfl⟩
  · rfl
  · have hassoc : front ++ [q] = (pre ++ p :: post) ++ [r] := by simpa using hsplit
    have hf : front = pre ++ p :: post := (List.append_inj' hassoc rfl).1
    exact absurd (hfront p (by simp [hf])) hp

theorem Faithful.next_answer (h : Faithful steps s) {e : Option IoError} (he : Ends (polls steps) e)
    (hd : s.curBuf.data = []) (hnone : surfaced steps = []) (cx : W) (maxLen : ℕ) :
    (conPollRead R P bits cx maxLen s).ret = answer e := by
  cases h.phase with
  | reading reader gotEof hpolls _ =>
    obtain ⟨pre,p,heq,_,hp⟩ := he
    rw [hpolls p (by simp [heq])] at hp
    simp at hp
  | ended e' reader gotEof hpolls _ =>
    obtain rfl := he.unique hpolls
    obtain ⟨r,hr⟩ := Option.isSome_iff_exists.mp reader
    have hidle : readAhead R P bits cx maxLen r s.gotEof s = ⟨s,[],none⟩ := by
      rw [gotEof]
      rfl
    rw [conPollRead_surface hr (by rw [hidle]),hidle,surface_end hd gotEof]
  | closed e' k reader data hpolls hsurf =>
    rw [hnone] at hsurf
    simp at hsurf

/-- Over any reads on any inner reader and provider: the chunks and the buffer hold
what the inner reader produced, in order; chunks have the size asked for; the inner
reader is only polled into spare capacity and never after its end or error; those are
returned once every byte has been, the error once and then the end for good; and a
buffer without capacity is an error of its own. -/
theorem reader_is_faithful (R : AsyncRead ρ W) (P : AsyncBufProvider BP) (bits : ℕ) (inner : ρ)
    (bufProvider : BP) (calls : List (W × ℕ)) :
    let steps := (run R P bits (new inner bufProvider) calls).1
    let s := (run R P bits (new inner bufProvider) calls).2
    returned steps ++ s.curBuf.data = produced steps ∧
    (∀ step ∈ steps, step.WellSized) ∧
    (∀ step ∈ steps, ∀ cx spare res, Event.read cx spare res ∈ step.events → 1 ≤ spare) ∧
    (∀ pre p post, polls steps = pre ++ p :: post → ending p ≠ none → post = []) ∧
    (∀ pre step post, steps = pre ++ step :: post → step.surfaces ≠ none →
      returned (pre ++ [step]) = produced (pre ++ [step]) ∧
        ∀ later ∈ post, later.ret = .ready (.ok none)) ∧
    (surfaced steps = [] ∨ ∃ e k, Ends (polls steps) e ∧
      surfaced steps = e :: List.replicate k none) ∧
    (∀ e, Ends (polls steps) e → s.curBuf.data = [] → surfaced steps = [] →
      ∀ cx maxLen, (conPollRead R P bits cx maxLen s).ret = answer e) ∧
    (∀ step ∈ steps, step.events.any Event.isEmptyBuf = true →
      step.ret = .ready (.error .outOfMemory)) := by
  intro steps s
  have h : Faithful steps s := run_faithful inner bufProvider calls
  refine ⟨h.bytes,h.sized,h.spare,?_,h.after,?_,fun e he hd hnone => h.next_answer he hd hnone,
    h.memory⟩
  · intro pre p post hsplit hp
    cases h.phase with
    | reading _ _ hpolls _ => exact absurd (hpolls p (by simp [hsplit])) hp
    | ended e _ _ hpolls _ => exact hpolls.last hsplit hp
    | closed e k _ _ hpolls _ => exact hpolls.last hsplit hp
  · cases h.phase with
    | reading _ _ _ hsurf => exact Or.inl hsurf
    | ended _ _ _ _ hsurf => exact Or.inl hsurf
    | closed e k _ _ hpolls hsurf => exact Or.inr ⟨e,k,hpolls,hsurf⟩

def scripted : AsyncRead (List (Except StdIoError Bytes)) ℕ where
  pollRead _ spare
    | [] => (.pending,[])
    | .ok bytes :: rest => (.ready (.ok (bytes.take spare)),rest)
    | .error e :: rest => (.ready (.error e),rest)
  fits cx spare s bytes h := by
    rcases s with _ | ⟨e | data,rest⟩
    · cases h
    · cases h
    · cases h
      exact List.length_take_le _ _

def sixteen : AsyncBufProvider Unit where
  pollGetBuf s := (.ready 16,s)

def resetRun : List (Step ℕ) × ReaderIoReader (List (Except StdIoError Bytes)) Unit :=
  run scripted sixteen 64 (new [.ok [1,2,3],.error (.simple .connectionReset)] ())
    [(7,2),(7,2),(7,2),(7,2)]

/-- All bytes come out, and then the error, once. -/
theorem reader_is_faithful_reset : returned resetRun.1 = [1,2,3] ∧
    ∃ k, surfaced resetRun.1 = some .brokenPipe :: List.replicate k none := by
  have hall := reader_is_faithful scripted sixteen 64 [.ok [1,2,3],.error (.simple .connectionReset)] ()
    [(7,2),(7,2),(7,2),(7,2)]
  refine ⟨(List.append_nil _).symm.trans hall.1,?_⟩
  rcases hall.2.2.2.2.2.1 with hnone | ⟨e,k,⟨pre,p,hpolls,-,hp⟩,hsurf⟩
  · exact absurd hnone (by decide +kernel)
  · have hlast : polls resetRun.1 = [.ready (.ok [1,2,3]),.ready (.error (.simple .connectionReset))] := by
      decide +kernel
    obtain rfl : p = .ready (.error (.simple .connectionReset)) := by
      have hsame := congrArg List.getLast? (hlast.symm.trans hpolls)
      rw [List.getLast?_append] at hsame
      exact (Option.some.inj hsame).symm
    cases hp
    exact ⟨k,hsurf⟩

end Runs
end ReaderIoReader
end ProcMachines
