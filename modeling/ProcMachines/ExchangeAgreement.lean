import ProcMachines.ExchangeCalls

/-! The two exchanges are one channel: an exchange of whole byte strings and the byte exchange
go through the same states when every item is read out in a series of chunks. -/
namespace ProcMachines

variable {W : Type} [DecidableEq W]

/-- The byte exchange next to the exchange of the same byte strings. -/
structure Pair (W : Type) where
  items : IoExchange W Bytes
  bytes : IoBytesExchange W
  deriving DecidableEq, Repr

namespace Pair

def new : Pair W := ⟨IoExchange.new,IoBytesExchange.new⟩

/-- A call on both sides. One read of an item is a series of reads of bytes. -/
inductive Op (W : Type)
  | send (cx : W) (data : Bytes)
  | flush (cx : W)
  | close (cx : W)
  | read (cx : W) (series : List (W × ℕ))
  | dropRead
  | reset
  deriving DecidableEq, Repr

def reads : List (W × ℕ) → Act (IoBytesExchange W) W (List (Poll (Except IoError (Option Bytes))))
  | [] => return []
  | (cx,maxLen) :: series => do
    let answer ← IoBytesExchange.conPollRead cx maxLen
    return answer :: (← reads series)

/-- The series ends as soon as the slot is empty. -/
def Exhausts (bytes : IoBytesExchange W) : List (W × ℕ) → Prop
  | [] => False
  | (cx,maxLen) :: series => 1 ≤ maxLen ∧
    if (IoBytesExchange.conPollRead cx maxLen bytes).self.slot = [] then series = []
    else Exhausts (IoBytesExchange.conPollRead cx maxLen bytes).self series

instance decidableExhausts (bytes : IoBytesExchange W) : (series : List (W × ℕ)) →
    Decidable (Exhausts bytes series)
  | [] => inferInstanceAs (Decidable False)
  | (cx,maxLen) :: series =>
    have := decidableExhausts (IoBytesExchange.conPollRead cx maxLen bytes).self series
    inferInstanceAs (Decidable (1 ≤ maxLen ∧
      if (IoBytesExchange.conPollRead cx maxLen bytes).self.slot = [] then series = []
      else Exhausts (IoBytesExchange.conPollRead cx maxLen bytes).self series))

/-- Payloads are not empty, and a dropped reader does not read. -/
def Allowed (p : Pair W) : Op W → Prop
  | .send _ data => data ≠ []
  | .read _ series => p.bytes.state ≠ .dropped ∧ Exhausts p.bytes series
  | _ => True

instance (p : Pair W) : (op : Op W) → Decidable (Allowed p op)
  | .send _ data => inferInstanceAs (Decidable (data ≠ []))
  | .read _ series => inferInstanceAs (Decidable (_ ∧ Exhausts p.bytes series))
  | .flush _ | .close _ | .dropRead | .reset => inferInstanceAs (Decidable True)

def next (p : Pair W) : Op W → Pair W
  | .send cx data => ⟨(IoExchange.prodPollSend cx (some data) p.items).self,
      (IoBytesExchange.prodPollWrite cx data p.bytes).self⟩
  | .flush cx => ⟨(IoExchange.prodPollFlush cx p.items).self,
      (IoBytesExchange.prodPollFlush cx p.bytes).self⟩
  | .close cx => ⟨(IoExchange.prodPollClose cx p.items).self,
      (IoBytesExchange.prodPollClose cx p.bytes).self⟩
  | .read cx series => ⟨(IoExchange.conPollRead cx p.items).self,(reads series p.bytes).self⟩
  | .dropRead => ⟨(IoExchange.dropRead p.items).self,(IoBytesExchange.dropRead p.bytes).self⟩
  | .reset => ⟨(IoExchange.reset p.items).self,(IoBytesExchange.reset p.bytes).self⟩

def outcome {α : Type} : Poll (Except IoError α) → Poll (Except IoError Unit)
  | .pending => .pending
  | .ready (.ok _) => .ready (.ok ())
  | .ready (.error e) => .ready (.error e)

def slotOf (data : Bytes) : Option Bytes := if data = [] then none else some data

/-- The answers are chunks of the item, or the one answer that there is none. -/
inductive Joins : List (Poll (Except IoError (Option Bytes))) →
    Poll (Except IoError (Option Bytes)) → Prop
  | item (chunks : List Bytes) (h : chunks ≠ []) :
      Joins (chunks.map fun chunk => .ready (.ok (some chunk))) (.ready (.ok (some chunks.flatten)))
  | pending : Joins [.pending] .pending
  | endOfStream : Joins [.ready (.ok none)] (.ready (.ok none))

/-- Both sides answer alike, and leave the same payload to the caller. -/
def Answers (p : Pair W) : Op W → Prop
  | .send cx data =>
    outcome (IoExchange.prodPollSend cx (some data) p.items).ret.1 =
        outcome (IoBytesExchange.prodPollWrite cx data p.bytes).ret.1 ∧
      (IoExchange.prodPollSend cx (some data) p.items).ret.2 =
        slotOf (IoBytesExchange.prodPollWrite cx data p.bytes).ret.2
  | .flush cx => (IoExchange.prodPollFlush cx p.items).ret =
      (IoBytesExchange.prodPollFlush cx p.bytes).ret
  | .close cx => (IoExchange.prodPollClose cx p.items).ret =
      (IoBytesExchange.prodPollClose cx p.bytes).ret
  | .read cx series => Joins (reads series p.bytes).ret (IoExchange.conPollRead cx p.items).ret
  | .dropRead | .reset => True

/-- The same state and the same payload. -/
structure Matches (p : Pair W) : Prop where
  state : p.items.state = p.bytes.state
  slot : p.items.slot = slotOf p.bytes.slot
  filled : p.bytes.Filled

def Valid : Pair W → List (Op W) → Prop
  | _, [] => True
  | p, op :: ops => Allowed p op ∧ Valid (next p op) ops

instance decidableValid : (p : Pair W) → (ops : List (Op W)) → Decidable (Valid p ops)
  | _, [] => inferInstanceAs (Decidable True)
  | p, op :: ops =>
    have := decidableValid (next p op) ops
    inferInstanceAs (Decidable (_ ∧ _))

/-- At every step of the run both sides answer alike and come to the same state. -/
def Agrees : Pair W → List (Op W) → Prop
  | _, [] => True
  | p, op :: ops => Answers p op ∧ (next p op).items.state = (next p op).bytes.state ∧
      Agrees (next p op) ops

@[simp] theorem slotOf_nil : slotOf [] = none := rfl

theorem slotOf_of_ne {data : Bytes} (h : data ≠ []) : slotOf data = some data := if_neg h

omit [DecidableEq W] in
theorem Matches.empty {p : Pair W} (h : Matches p) (hst : p.bytes.state.isFull = false) :
    p.bytes.slot = [] := by
  by_contra hne
  have hfull := h.filled.mpr hne
  rw [hst] at hfull
  cases hfull

omit [DecidableEq W] in
theorem Matches.full {p : Pair W} (h : Matches p) (hst : p.bytes.state.isFull = true) :
    p.bytes.slot ≠ [] := h.filled.mp hst

theorem exhausts_empty {bytes : IoBytesExchange W} {series : List (W × ℕ)}
    (h : Exhausts bytes series) (hslot : bytes.slot = []) :
    ∃ cx maxLen, series = [(cx,maxLen)] := by
  cases series with
  | nil => exact h.elim
  | cons head series =>
    obtain ⟨cx,maxLen⟩ := head
    have hempty : (IoBytesExchange.conPollRead cx maxLen bytes).self.slot = [] := by
      rcases bytes with ⟨_,_,st,slot⟩
      obtain rfl : slot = [] := hslot
      rw [IoBytesExchange.conPollRead_apply]
      cases st <;> rfl
    have hrest := h.2
    rw [if_pos hempty] at hrest
    exact ⟨cx,maxLen,by rw [hrest]⟩

theorem reads_exhaust {bytes : IoBytesExchange W} {series : List (W × ℕ)}
    (h : Exhausts bytes series) (hst : bytes.state.isFull = true) (hslot : bytes.slot ≠ []) :
    ∃ chunks : List Bytes, chunks ≠ [] ∧ chunks.flatten = bytes.slot ∧
      (reads series bytes).ret = chunks.map (fun chunk => .ready (.ok (some chunk))) ∧
      (reads series bytes).self.state = bytes.state.consumed ∧
      (reads series bytes).self.slot = [] := by
  induction series generalizing bytes with
  | nil => exact h.elim
  | cons head series ih =>
    obtain ⟨cx,maxLen⟩ := head
    obtain ⟨hmax,hrest⟩ := h
    have hread := IoBytesExchange.conPollRead_apply cx maxLen bytes
    have hzero : maxLen ≠ 0 := by omega
    have hcall : IoBytesExchange.conPollRead cx maxLen bytes =
        if maxLen < bytes.slot.length then
          ⟨{ bytes with writer := .new, slot := bytes.slot.drop maxLen },
            bytes.writer.fired ++ [cx],.ready (.ok (some (bytes.slot.take maxLen)))⟩
        else
          ⟨{ bytes with writer := .new, state := bytes.state.consumed, slot := [] },
            bytes.writer.fired ++ [cx],.ready (.ok (some bytes.slot))⟩ := by
      rw [hread]
      cases hb : bytes.state <;> simp_all [Exch.isFull]
    by_cases hpart : maxLen < bytes.slot.length
    · rw [if_pos hpart] at hcall
      have hleft : bytes.slot.drop maxLen ≠ [] := by
        simpa [List.drop_eq_nil_iff] using hpart
      rw [hcall,if_neg hleft] at hrest
      obtain ⟨chunks,_,hflat,hret,hstate,hslot'⟩ := ih hrest hst hleft
      refine ⟨bytes.slot.take maxLen :: chunks,by simp,?_,?_,?_,?_⟩
      · rw [List.flatten_cons,hflat]
        exact List.take_append_drop maxLen bytes.slot
      · simp [reads,hcall,hret]
      · simpa [reads,hcall] using hstate
      · simpa [reads,hcall] using hslot'
    · rw [if_neg hpart] at hcall
      rw [hcall,if_pos rfl] at hrest
      subst hrest
      exact ⟨[bytes.slot],by simp,by simp,by simp [reads,hcall],by simp [reads,hcall],
        by simp [reads,hcall]⟩

theorem Matches.send {p : Pair W} (h : Matches p) (cx : W) {data : Bytes} (hne : data ≠ []) :
    Answers p (.send cx data) ∧ Matches (next p (.send cx data)) := by
  have hfill : (next p (.send cx data)).bytes.Filled :=
    IoBytesExchange.call_filled (.pollWrite cx data) p.bytes h.filled
  obtain ⟨hst,hslot,_⟩ := h
  rcases p with ⟨⟨r,w,st,slot⟩,⟨r',w',st',slot'⟩⟩
  obtain rfl : st = st' := hst
  obtain rfl : slot = slotOf slot' := hslot
  have hsend := Exchange.place_apply cx (some data) () (⟨r,w,st,slotOf slot'⟩ : IoExchange W Bytes)
  have hwrite := Exchange.place_apply cx data data.length (⟨r',w',st,slot'⟩ : IoBytesExchange W)
  have hisEmpty : data.isEmpty = false := List.isEmpty_eq_false_iff.mpr hne
  constructor
  · simp only [Answers,IoExchange.prodPollSend,IoBytesExchange.prodPollWrite,Option.isNone_some,
      hisEmpty,Bool.false_eq_true,if_false,hsend,hwrite]
    cases st <;> simp [outcome,slotOf_of_ne hne,Payload.vacant]
  · refine ⟨?_,?_,hfill⟩ <;>
      simp only [next,IoExchange.prodPollSend,IoBytesExchange.prodPollWrite,Option.isNone_some,
        hisEmpty,Bool.false_eq_true,if_false,hsend,hwrite] <;>
      cases st <;> simp [slotOf_of_ne hne]

/-- Two calls that do the same to a byte string in the slot, whatever the wakers are. -/
def Alike {α : Type} (f : Act (IoExchange W Bytes) W α) (g : Act (IoBytesExchange W) W α) : Prop :=
  ∀ r w r' w' st slot, (f ⟨r,w,st,slotOf slot⟩).ret = (g ⟨r',w',st,slot⟩).ret ∧
    (f ⟨r,w,st,slotOf slot⟩).self.state = (g ⟨r',w',st,slot⟩).self.state ∧
    (f ⟨r,w,st,slotOf slot⟩).self.slot = slotOf (g ⟨r',w',st,slot⟩).self.slot

omit [DecidableEq W] in
theorem Matches.alike {α : Type} {p : Pair W} (h : Matches p) {f : Act (IoExchange W Bytes) W α}
    {g : Act (IoBytesExchange W) W α} (hfg : Alike f g) : (f p.items).ret = (g p.bytes).ret ∧
      (f p.items).self.state = (g p.bytes).self.state ∧
      (f p.items).self.slot = slotOf (g p.bytes).self.slot := by
  obtain ⟨hst,hslot,_⟩ := h
  rcases p with ⟨⟨r,w,st,slot⟩,⟨r',w',st',slot'⟩⟩
  obtain rfl : st = st' := hst
  obtain rfl : slot = slotOf slot' := hslot
  exact hfg r w r' w' st slot'

theorem flush_alike (cx : W) :
    Alike (IoExchange.prodPollFlush cx) (IoBytesExchange.prodPollFlush cx) := by
  intro r w r' w' st slot
  simp only [IoExchange.prodPollFlush,IoBytesExchange.prodPollFlush,Exchange.prodPollFlush_apply]
  cases st <;> exact ⟨rfl,rfl,rfl⟩

theorem close_alike (cx : W) :
    Alike (IoExchange.prodPollClose cx) (IoBytesExchange.prodPollClose cx) := by
  intro r w r' w' st slot
  simp only [IoExchange.prodPollClose,IoBytesExchange.prodPollClose,Exchange.prodPollClose_apply]
  cases st <;> exact ⟨rfl,rfl,rfl⟩

omit [DecidableEq W] in
theorem dropRead_alike :
    Alike (W := W) IoExchange.dropRead IoBytesExchange.dropRead := by
  intro r w r' w' st slot
  simp only [IoExchange.dropRead,IoBytesExchange.dropRead,Exchange.dropRead_apply]
  cases st <;> exact ⟨trivial,rfl,rfl⟩

theorem Matches.flush {p : Pair W} (h : Matches p) (cx : W) :
    Answers p (.flush cx) ∧ Matches (next p (.flush cx)) := by
  obtain ⟨hret,hst,hslot⟩ := h.alike (flush_alike cx)
  exact ⟨hret,hst,hslot,IoBytesExchange.call_filled (.pollFlush cx) p.bytes h.filled⟩

theorem Matches.close {p : Pair W} (h : Matches p) (cx : W) :
    Answers p (.close cx) ∧ Matches (next p (.close cx)) := by
  obtain ⟨hret,hst,hslot⟩ := h.alike (close_alike cx)
  exact ⟨hret,hst,hslot,IoBytesExchange.call_filled (.pollClose cx) p.bytes h.filled⟩

theorem Matches.dropRead {p : Pair W} (h : Matches p) : Matches (next p .dropRead) := by
  obtain ⟨-,hst,hslot⟩ := h.alike dropRead_alike
  exact ⟨hst,hslot,IoBytesExchange.call_filled .dropRead p.bytes h.filled⟩

theorem Matches.readEmpty {p : Pair W} (h : Matches p) (hst : p.bytes.state.isFull = false)
    (hdrop : p.bytes.state ≠ .dropped) (cx cx' : W) (maxLen : ℕ) :
    Answers p (.read cx [(cx',maxLen)]) ∧ Matches (next p (.read cx [(cx',maxLen)])) := by
  have hfill : (next p (.read cx [(cx',maxLen)])).bytes.Filled :=
    IoBytesExchange.call_filled (.pollRead cx' maxLen) p.bytes h.filled
  have hempty := h.empty hst
  obtain ⟨hstate,hslot,_⟩ := h
  rcases p with ⟨⟨r,w,st,slot⟩,⟨r',w',st',slot'⟩⟩
  obtain rfl : st = st' := hstate
  obtain rfl : slot' = [] := hempty
  obtain rfl : slot = none := hslot
  constructor
  · simp only [Answers,reads,Act.bind_apply,Act.pure_apply,IoExchange.conPollRead_apply,
      IoBytesExchange.conPollRead_apply]
    cases st with
    | empty => exact .pending
    | emptyFlush => exact .pending
    | emptyFlushed => exact .pending
    | done => exact .endOfStream
    | dropped => exact absurd rfl hdrop
    | full => cases hst
    | fullFlush => cases hst
    | fullClosed => cases hst
  · refine ⟨?_,?_,hfill⟩ <;>
      simp only [next,reads,Act.bind_apply,Act.pure_apply,IoExchange.conPollRead_apply,
        IoBytesExchange.conPollRead_apply] <;>
      cases st <;> simp_all [Exch.isFull]

/-- A read of an item is a series of reads of its bytes. -/
theorem Matches.readFull {p : Pair W} (h : Matches p) (hst : p.bytes.state.isFull = true) (cx : W)
    {series : List (W × ℕ)} (hex : Exhausts p.bytes series) :
    Answers p (.read cx series) ∧ Matches (next p (.read cx series)) := by
  have hne := h.full hst
  obtain ⟨chunks,hchunks,hflat,hret,hstate,hslot⟩ := reads_exhaust hex hst hne
  have hitem : p.items.slot = some p.bytes.slot := by rw [h.slot,slotOf_of_ne hne]
  have hread : IoExchange.conPollRead cx p.items =
      ⟨{ p.items with writer := .new, state := p.items.state.consumed, slot := none },
        p.items.writer.fired ++ [cx],.ready (.ok (some p.bytes.slot))⟩ := by
    rw [IoExchange.conPollRead_apply,hitem]
    have hst' : p.items.state.isFull = true := by rw [h.state,hst]
    cases hs : p.items.state <;> simp_all [Exch.isFull]
  constructor
  · show Joins _ _
    rw [hread,hret,← hflat]
    exact .item chunks hchunks
  · have hnext : (next p (.read cx series)).items =
        { p.items with writer := .new, state := p.items.state.consumed, slot := none } := by
      simp only [next,hread]
    refine ⟨?_,?_,?_⟩
    · rw [hnext]
      show p.items.state.consumed = (reads series p.bytes).self.state
      rw [hstate,h.state]
    · rw [hnext]
      show none = slotOf (reads series p.bytes).self.slot
      rw [hslot,slotOf_nil]
    · show (reads series p.bytes).self.Filled
      have hdone : (reads series p.bytes).self.state.isFull = false := by
        rw [hstate]
        cases p.bytes.state <;> rfl
      simp [Exchange.Filled,hdone,hslot,Payload.vacant]

theorem Matches.step {p : Pair W} (h : Matches p) {op : Op W} (ha : Allowed p op) :
    Answers p op ∧ Matches (next p op) := by
  cases op with
  | send cx data => exact h.send cx ha
  | flush cx => exact h.flush cx
  | close cx => exact h.close cx
  | dropRead => exact ⟨trivial,h.dropRead⟩
  | reset => exact ⟨trivial,rfl,rfl,Exchange.new_filled⟩
  | read cx series =>
    obtain ⟨hdrop,hex⟩ := ha
    by_cases hst : p.bytes.state.isFull = true
    · exact h.readFull hst cx hex
    · have hst : p.bytes.state.isFull = false := by simpa using hst
      obtain ⟨cx',maxLen,rfl⟩ := exhausts_empty hex (h.empty hst)
      exact h.readEmpty hst hdrop cx cx' maxLen

/-- The reader is dropped by a `drop_read` that takes effect, until a reset, and by nothing
else: no other read is excluded. -/
theorem Matches.dropped_iff {p : Pair W} (h : Matches p) {op : Op W} (ha : Allowed p op) :
    (next p op).bytes.state = .dropped ↔
      (op = .dropRead ∧ p.bytes.state ≠ .done) ∨ (op ≠ .reset ∧ p.bytes.state = .dropped) := by
  cases op with
  | send cx data =>
    have hwrite := Exchange.place_apply cx data data.length p.bytes
    have hisEmpty : data.isEmpty = false := List.isEmpty_eq_false_iff.mpr ha
    simp only [next,IoBytesExchange.prodPollWrite,hisEmpty,Bool.false_eq_true,if_false,hwrite]
    cases hst : p.bytes.state <;> simp [hst]
  | flush cx =>
    simp only [next,IoBytesExchange.prodPollFlush,Exchange.prodPollFlush_apply]
    cases hst : p.bytes.state <;> simp [hst]
  | close cx =>
    simp only [next,IoBytesExchange.prodPollClose,Exchange.prodPollClose_apply]
    cases hst : p.bytes.state <;> simp [hst]
  | dropRead =>
    simp only [next,IoBytesExchange.dropRead,Exchange.dropRead_apply]
    cases hst : p.bytes.state <;> simp [hst]
  | reset => simp [next,IoBytesExchange.reset,Exchange.reset_apply]
  | read cx series =>
    obtain ⟨hdrop,hex⟩ := ha
    simp only [next,hdrop,and_false,or_false,reduceCtorEq,false_and,iff_false]
    by_cases hst : p.bytes.state.isFull = true
    · obtain ⟨_,_,_,_,hstate,_⟩ := reads_exhaust hex hst (h.full hst)
      rw [hstate]
      cases hs : p.bytes.state <;> simp_all [Exch.consumed]
    · obtain ⟨cx',maxLen,rfl⟩ := exhausts_empty hex (h.empty (by simpa using hst))
      simp only [reads,Act.bind_apply,Act.pure_apply,IoBytesExchange.conPollRead_apply]
      cases hs : p.bytes.state <;> simp_all [Exch.isFull]

theorem Matches.run {p : Pair W} (h : Matches p) {ops : List (Op W)} (hv : Valid p ops) :
    Agrees p ops := by
  induction ops generalizing p with
  | nil => trivial
  | cons op ops ih =>
    obtain ⟨hanswers,hnext⟩ := h.step hv.1
    exact ⟨hanswers,hnext.state,ih hnext hv.2⟩

end Pair

/-- Run an exchange of byte strings and the byte exchange side by side, every item read out
by any series of reads that exhausts it: they answer alike and keep the same state. -/
theorem exchanges_agree {ops : List (Pair.Op W)} (hv : Pair.Valid .new ops) :
    Pair.Agrees .new ops := by
  have hnew : Pair.Matches (.new : Pair W) := ⟨rfl,rfl,Exchange.new_filled⟩
  exact hnew.run hv

namespace Pair

def sampleRun : List (Op ℕ) :=
  [.read 2 [(2,9)],.send 1 [7,8,9],.flush 1,.read 2 [(3,2),(2,2)],.send 1 [5],.close 1,
    .read 2 [(2,1)],.read 2 [(2,1)]]

theorem exchanges_agree_sampleRun : Agrees .new sampleRun :=
  exchanges_agree (by decide : Valid .new sampleRun)

end Pair
end ProcMachines
