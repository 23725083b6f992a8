import ProcMachines.Consumer
import ProcMachines.ReaderDelivery

/-! The calls on a reading adapter, drops included, and what single calls say about wakes. -/
namespace ProcMachines
namespace ReaderIoReader

variable {ρ BP W : Type}

inductive Op (W : Type)
  | pollRead (cx : W) (maxLen : ℕ)
  | dropRead
  deriving DecidableEq, Repr

/-- The value is the answer of a read. -/
def call (R : AsyncRead ρ W) (P : AsyncBufProvider BP) (bits : ℕ) : Op W →
    Act (ReaderIoReader ρ BP) (Event W) (Option (Poll (Except IoError (Option Bytes))))
  | .pollRead cx maxLen => do return some (← conPollRead R P bits cx maxLen)
  | .dropRead => do dropRead; return none

def after (R : AsyncRead ρ W) (P : AsyncBufProvider BP) (bits : ℕ) (self : ReaderIoReader ρ BP)
    (ops : List (Op W)) : ReaderIoReader ρ BP :=
  ops.foldl (fun self op => (call R P bits op self).self) self

variable {R : AsyncRead ρ W} {P : AsyncBufProvider BP} {bits maxLen : ℕ} {cx : W} {reader : ρ}
  {inner : ReaderIoReader ρ BP}

theorem after_snoc (self : ReaderIoReader ρ BP) (ops : List (Op W)) (op : Op W) :
    after R P bits self (ops ++ [op]) = (call R P bits op (after R P bits self ops)).self := by
  simp [after]

/-- What a finished call says: a chunk or an error of the inner reader is consumed, the
error of an empty buffer is not. -/
def verdict (events : List (Event W)) : Poll (Except IoError (Option Bytes)) → Verdict
  | .pending => .other
  | .ready (.ok none) => .ended
  | .ready (.ok (some chunk)) => if chunk = [] then .probed else .consumed
  | .ready (.error _) => if events.any Event.isEmptyBuf then .other else .consumed

theorem pollReadBuf_woken (self : ReaderIoReader ρ BP) : (pollReadBuf R cx reader self).woken =
    [.read cx (self.curBuf.capacity - self.curBuf.data.length)
      (R.pollRead cx (self.curBuf.capacity - self.curBuf.data.length) reader).1] := by
  rcases hres : R.pollRead cx (self.curBuf.capacity - self.curBuf.data.length) reader with
    ⟨res,reader'⟩
  simp only [pollReadBuf,hres]
  cases res with
  | pending => rfl
  | ready answer =>
    cases answer with
    | error e => rfl
    | ok bytes => cases bytes <;> rfl

theorem readAhead_silent (gotEof : Option (Option IoError)) (w : W) :
    Event.woke w ∉ (readAhead R P bits cx maxLen reader gotEof inner).woken := by
  cases gotEof with
  | some e => simp [readAhead]
  | none =>
    rcases decideRead_cases P bits maxLen inner with
      ⟨doRead,hd,_⟩ | ⟨bp,hd⟩ | ⟨bp,hd⟩ | ⟨_,bp,capacity,_,hd⟩
    · cases doRead with
      | true =>
        rw [readAhead_go hd,pollReadBuf_woken]
        simp
      | false =>
        rw [readAhead_skip hd]
        simp
    · rw [readAhead_stop hd]
      simp
    · rw [readAhead_stop hd]
      simp
    · rw [readAhead_go hd,pollReadBuf_woken]
      simp

theorem woke_conPollRead (hr : inner.reader = some reader) (w : W) :
    Event.woke w ∈ (conPollRead R P bits cx maxLen inner).woken ↔
      (readAhead R P bits cx maxLen reader inner.gotEof inner).ret = none ∧
      Event.woke w ∈ (surface cx maxLen
        (readAhead R P bits cx maxLen reader inner.gotEof inner).self).woken := by
  have hsilent : Event.woke w ∉ (readAhead R P bits cx maxLen reader inner.gotEof inner).woken :=
    readAhead_silent _ _
  cases hret : (readAhead R P bits cx maxLen reader inner.gotEof inner).ret with
  | some ret =>
    rw [conPollRead_stop hr hret]
    simp [hsilent]
  | none =>
    rw [conPollRead_surface hr hret]
    simp [hsilent]

theorem conPollRead_woke (cx : W) (maxLen : ℕ) (inner : ReaderIoReader ρ BP) :
    Event.woke cx ∈ (conPollRead R P bits cx maxLen inner).woken ↔
      verdict (conPollRead R P bits cx maxLen inner).woken
        (conPollRead R P bits cx maxLen inner).ret = .consumed := by
  cases hr : inner.reader with
  | none =>
    rw [conPollRead_closed hr]
    simp [verdict]
  | some reader =>
    have hra : ReadsAhead inner (readAhead R P bits cx maxLen reader inner.gotEof inner) :=
      readAhead_readsAhead (by simp [hr])
    rw [woke_conPollRead hr]
    cases hret : (readAhead R P bits cx maxLen reader inner.gotEof inner).ret with
    | some ret =>
      rw [conPollRead_stop hr hret]
      obtain ⟨_,_,⟨rfl,_⟩ | ⟨rfl,hempty⟩⟩ := hra.stop ret hret
      · simp [verdict]
      · simp [verdict,hempty]
    | none =>
      rw [conPollRead_surface hr hret]
      have hfull := hra.go hret
      generalize readAhead R P bits cx maxLen reader inner.gotEof inner = out at hfull
      by_cases hd : out.self.curBuf.data = []
      · cases hg : out.self.gotEof with
        | none =>
          rw [surface_empty hd hg]
          simp [verdict]
        | some e =>
          rw [surface_end hd hg]
          cases e <;> simp [verdict,answer,hfull,Event.isEmptyBuf]
      · have hlen : out.self.curBuf.data.length ≠ 0 := mt List.length_eq_zero_iff.mp hd
        by_cases hmax : maxLen = 0
        · simp [surface,hlen,hmax,verdict]
        · simp [surface,hlen,hmax,verdict,hd]

theorem conPollRead_ended (cx : W) (maxLen : ℕ) (inner : ReaderIoReader ρ BP)
    (h : (conPollRead R P bits cx maxLen inner).ret = .ready (.ok none)) :
    (conPollRead R P bits cx maxLen inner).self.reader = none := by
  cases hr : inner.reader with
  | none =>
    rw [conPollRead_closed hr]
    exact hr
  | some reader =>
    have hra : ReadsAhead inner (readAhead R P bits cx maxLen reader inner.gotEof inner) :=
      readAhead_readsAhead (by simp [hr])
    cases hret : (readAhead R P bits cx maxLen reader inner.gotEof inner).ret with
    | some ret =>
      rw [conPollRead_stop hr hret] at h
      obtain ⟨_,_,⟨rfl,_⟩ | ⟨rfl,_⟩⟩ := hra.stop ret hret <;> simp at h
    | none =>
      rw [conPollRead_surface hr hret] at h ⊢
      generalize readAhead R P bits cx maxLen reader inner.gotEof inner = out at h
      by_cases hd : out.self.curBuf.data = []
      · cases hg : out.self.gotEof with
        | none => simp [surface_empty hd hg] at h
        | some e => rw [surface_end hd hg]
      · obtain ⟨chunk,curBuf,events,hcall,_⟩ := surface_chunk cx maxLen hd
        simp [hcall] at h

end ReaderIoReader
end ProcMachines
