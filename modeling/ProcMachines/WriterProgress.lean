import ProcMachines.IoPort
import ProcMachines.WriterIoWriter

/-! Writers account for their bytes, and when a producer's loop of writes ends. -/
namespace ProcMachines

/-- A finished write took some bytes from the front, any other left them alone. -/
def Accounts {ERR : Type} (bytes : Bytes) (r : Poll (Except ERR ℕ) × Bytes) : Prop :=
  match r.1 with
  | .ready (.ok n) => 1 ≤ n ∧ n ≤ bytes.length ∧ r.2 = bytes.drop n
  | _ => r.2 = bytes

namespace IoWriter

variable {σ W ERR : Type}

/-- One turn of the producer's loop, which stops with nothing left to write or with a
write that does not succeed. -/
def turn (w : IoWriter σ W ERR) (cx : W) (c : Bytes × σ) : Option (Bytes × σ) :=
  if c.1.isEmpty then none
  else
    let r := w.prodPollWrite cx c.1 c.2
    match r.ret.1 with
    | .ready (.ok _) => some (r.ret.2,r.self)
    | _ => none

/-- The loop after some turns, `none` once it has stopped. -/
def turns (w : IoWriter σ W ERR) (cx : W) : ℕ → Bytes × σ → Option (Bytes × σ)
  | 0, c => some c
  | k+1, c => (turns w cx k c).bind (turn w cx)

def Terminates (w : IoWriter σ W ERR) (cx : W) (c : Bytes × σ) : Prop := ∃ k, turns w cx k c = none

variable {w : IoWriter σ W ERR} {cx : W} {c d : Bytes × σ}

theorem turn_some (h : turn w cx c = some d) : c.1 ≠ [] ∧
    ∃ n, (w.prodPollWrite cx c.1 c.2).ret = (.ready (.ok n),d.1) := by
  unfold turn at h
  split at h
  · cases h
  · rename_i hne
    simp only at h
    rcases hr : (w.prodPollWrite cx c.1 c.2).ret with ⟨(e | n) | _,rest⟩
    · simp [hr] at h
    · simp only [hr,Option.some.injEq] at h
      exact ⟨by simpa using hne,n,by rw [← h]⟩
    · simp [hr] at h

theorem turn_length (h : turn w cx c = some d)
    (hacc : Accounts c.1 (w.prodPollWrite cx c.1 c.2).ret) : d.1.length < c.1.length := by
  obtain ⟨_,n,hn⟩ := turn_some h
  rw [hn] at hacc
  obtain ⟨hpos,hle,hdrop⟩ := hacc
  have hdrop' : d.1 = c.1.drop n := hdrop
  rw [hdrop',List.length_drop]
  omega

theorem turns_add (j k : ℕ) : turns w cx (j + k) c = (turns w cx j c).bind (turns w cx k) := by
  induction k with
  | zero => cases turns w cx j c <;> simp [turns]
  | succ k ih =>
    rw [← Nat.add_assoc,turns,ih]
    cases turns w cx j c <;> rfl

theorem turns_none {j k : ℕ} (h : turns w cx j c = none) (hjk : j ≤ k) : turns w cx k c = none := by
  obtain ⟨i,rfl⟩ := Nat.exists_eq_add_of_le hjk
  rw [turns_add,h]
  rfl

end IoWriter

open IoWriter

variable {W : Type} [DecidableEq W]

/-- The writers of the library, each with the calls in which a foreign writer reports no
byte: the exchange, the adapter of any `AsyncWrite`, and a port over any of these. -/
inductive Built : {σ : Type} → IoWriter σ W IoError → (W → Bytes → σ → Prop) → Prop
  | exchange : Built IoBytesExchange.ioWriter fun _ _ _ => False
  | writer {ω : Type} (A : AsyncWrite ω W) : Built (WriterIoWriter.ioWriter A) fun cx bytes self =>
      (A.pollWrite cx bytes self.inner).ret = .ready (.ok 0)
  | port {σ : Type} {w : IoWriter σ W IoError} {stalls : W → Bytes → σ → Prop}
      (h : Built w stalls) : Built (IoPort.ioWriter w) fun cx bytes self =>
        ∃ connected, self.state = .connected connected ∧ stalls cx bytes connected

namespace Built

variable {σ : Type} {w : IoWriter σ W IoError} {stalls : W → Bytes → σ → Prop} {cx : W}
  {bytes : Bytes}

theorem exchange_accounts (hb : bytes ≠ []) (ex : IoBytesExchange W) :
    Accounts bytes (IoBytesExchange.ioWriter.prodPollWrite cx bytes ex).ret := by
  rcases ex with ⟨_,_,st,_⟩
  have hlen : 0 < bytes.length := List.length_pos_of_ne_nil hb
  cases st <;> simp [IoBytesExchange.ioWriter,IoBytesExchange.prodPollWrite,hb,
    Exchange.place_apply,Accounts,Payload.vacant] <;> omega

omit [DecidableEq W] in
theorem writer_accounts {ω : Type} (A : AsyncWrite ω W) (hb : bytes ≠ [])
    (self : WriterIoWriter ω) :
    Accounts bytes ((WriterIoWriter.ioWriter A).prodPollWrite cx bytes self).ret ↔
      (A.pollWrite cx bytes self.inner).ret ≠ .ready (.ok 0) := by
  change Accounts bytes (WriterIoWriter.prodPollWrite A cx bytes self).ret ↔ _
  rw [WriterIoWriter.prodPollWrite_ret A cx hb]
  rcases hr : (A.pollWrite cx bytes self.inner).ret with (e | n) | _
  · simp [Accounts]
  · have hfits := A.fits cx bytes self.inner n hr
    simp only [Accounts,hfits,and_self,and_true,ne_eq,Poll.ready.injEq,Except.ok.injEq]
    omega
  · simp [Accounts]

theorem port_accounts {w : IoWriter σ W IoError} (hb : bytes ≠ []) (self : IoPort W σ) :
    Accounts bytes ((IoPort.ioWriter w).prodPollWrite cx bytes self).ret ↔
      ∀ connected, self.state = .connected connected →
        Accounts bytes (w.prodPollWrite cx bytes connected).ret := by
  have hlen : 1 ≤ bytes.length := List.length_pos_of_ne_nil hb
  rcases self with ⟨_ | connected,_ | _⟩
  · simp [IoPort.ioWriter,IoPort.through,IoPort.prodPollConnected,Accounts]
  · simp [IoPort.ioWriter,IoPort.through,IoPort.prodPollConnected,Accounts,hlen]
  · simp [IoPort.ioWriter,IoPort.through,IoPort.prodPollConnected,IoPort.forward]
  · simp [IoPort.ioWriter,IoPort.through,IoPort.prodPollConnected,IoPort.forward]

/-- A write accounts for its bytes exactly when no foreign writer reports no byte. -/
theorem accounts_iff (h : Built w stalls) (hb : bytes ≠ []) (s : σ) :
    Accounts bytes (w.prodPollWrite cx bytes s).ret ↔ ¬ stalls cx bytes s := by
  induction h with
  | exchange => simp [exchange_accounts hb s]
  | writer A => exact writer_accounts A hb s
  | port h ih =>
    rw [port_accounts hb]
    simp only [ih,not_exists,not_and]

theorem stalls_ret (h : Built w stalls) (hb : bytes ≠ []) {s : σ} (hs : stalls cx bytes s) :
    (w.prodPollWrite cx bytes s).ret = (.ready (.ok 0),bytes) := by
  induction h with
  | exchange => exact hs.elim
  | writer A =>
    change (WriterIoWriter.prodPollWrite A cx bytes s).ret = _
    rw [WriterIoWriter.prodPollWrite_ret A cx hb,hs]
    simp
  | port h ih =>
    obtain ⟨connected,hstate,hs⟩ := hs
    rcases s with ⟨_,b⟩
    obtain rfl : _ = PortState.connected connected := hstate
    simpa [IoPort.ioWriter,IoPort.through,IoPort.prodPollConnected,IoPort.forward] using ih hs

theorem turn_length_le (h : Built w stalls) {c d : Bytes × σ} (ht : turn w cx c = some d) :
    d.1.length ≤ c.1.length := by
  obtain ⟨hne,n,hn⟩ := turn_some ht
  by_cases hs : stalls cx c.1 c.2
  · rw [h.stalls_ret hne hs] at hn
    exact (congrArg List.length (Prod.mk.inj hn).2).symm.le
  · exact (turn_length ht ((h.accounts_iff hne c.2).mpr hs)).le

theorem turns_length_le (h : Built w stalls) {c d : Bytes × σ} {k : ℕ}
    (ht : turns w cx k c = some d) : d.1.length ≤ c.1.length := by
  induction k generalizing d with
  | zero => exact (congrArg (fun c : Bytes × σ => c.1.length) (Option.some.inj ht)).symm.le
  | succ k ih =>
    obtain ⟨e,he,hd⟩ := Option.bind_eq_some_iff.mp ht
    exact (h.turn_length_le hd).trans (ih he)

/-- From some turn on every write of the loop reaches a foreign writer that reports no byte. -/
def Stuck (w : IoWriter σ W IoError) (stalls : W → Bytes → σ → Prop) (cx : W) (c : Bytes × σ) :
    Prop := ∃ k, ∀ j, k ≤ j → ∃ d, turns w cx j c = some d ∧ d.1 ≠ [] ∧ stalls cx d.1 d.2

omit [DecidableEq W] in
/-- A loop that is not stuck has, after every turn, another one that makes progress. -/
theorem progress_after {c : Bytes × σ} (hstall : ¬ Stuck w stalls cx c) (k : ℕ) :
    ∃ j, k ≤ j ∧ ∀ d, turns w cx j c = some d → d.1 ≠ [] → ¬ stalls cx d.1 d.2 := by
  by_contra hall
  apply hstall
  refine ⟨k,fun j hkj => ?_⟩
  by_contra hj
  exact hall ⟨j,hkj,fun d hd hne hs => hj ⟨d,hd,hne,hs⟩⟩

theorem lt_length (h : Built w stalls) {c : Bytes × σ} (hstall : ¬ Stuck w stalls cx c)
    (hsome : ∀ k, ∃ d, turns w cx k c = some d) (n k : ℕ) {d : Bytes × σ}
    (hd : turns w cx k c = some d) : n < d.1.length := by
  induction n generalizing k d with
  | zero =>
    obtain ⟨e,he⟩ := hsome (k + 1)
    rw [turns,hd] at he
    exact List.length_pos_of_ne_nil (turn_some he).1
  | succ n ih =>
    obtain ⟨j,hkj,hj⟩ := progress_after hstall k
    obtain ⟨e,he⟩ := hsome j
    obtain ⟨f,hf⟩ := hsome (j + 1)
    have hturn : turn w cx e = some f := by
      rw [turns,he] at hf
      exact hf
    have hne := (turn_some hturn).1
    have hlt := turn_length hturn ((h.accounts_iff hne e.2).mpr (hj e he hne))
    have hle : e.1.length ≤ d.1.length := by
      obtain ⟨i,rfl⟩ := Nat.exists_eq_add_of_le hkj
      rw [turns_add,hd] at he
      exact h.turns_length_le he
    have hlast := ih (j + 1) hf
    omega

/-- The loop stops unless from some turn on every write reaches a foreign writer that
reports no byte. -/
theorem terminates_iff (h : Built w stalls) (c : Bytes × σ) :
    Terminates w cx c ↔ ¬ Stuck w stalls cx c := by
  constructor
  · rintro ⟨i,hi⟩ ⟨k,hk⟩
    obtain ⟨d,hd,_⟩ := hk (i + k) (Nat.le_add_left k i)
    rw [turns_none hi (Nat.le_add_right i k)] at hd
    cases hd
  · intro hstall
    by_contra hrun
    have hsome : ∀ k, ∃ d, turns w cx k c = some d := fun k =>
      Option.ne_none_iff_exists'.mp fun hnone => hrun ⟨k,hnone⟩
    exact (h.lt_length hstall hsome c.1.length 0 rfl).false

end Built

/-- Every writer of the library, in every state and for every non-empty payload: a write
accounts for its bytes exactly when it does not reach a foreign writer that reports no
byte, and a producer's loop of writes stops exactly when its writes do not from some
turn on all reach one. -/
theorem writer_accounts_iff {σ : Type} {w : IoWriter σ W IoError} {stalls : W → Bytes → σ → Prop}
    (h : Built w stalls) (cx : W) (bytes : Bytes) (hb : bytes ≠ []) (s : σ) :
    (Accounts bytes (w.prodPollWrite cx bytes s).ret ↔ ¬ stalls cx bytes s) ∧
    (Terminates w cx (bytes,s) ↔ ¬ ∃ k, ∀ j, k ≤ j →
      ∃ d, turns w cx j (bytes,s) = some d ∧ d.1 ≠ [] ∧ stalls cx d.1 d.2) :=
  ⟨h.accounts_iff hb s,h.terminates_iff (bytes,s)⟩

def taking (n : ℕ) : AsyncWrite Unit ℕ where
  pollWrite _ buf := return .ready (.ok (min n buf.length))
  pollFlush _ := return .ready (.ok ())
  pollShutdown _ := return .ready (.ok ())
  fits _ buf _ m h := by
    simp only [Act.pure_apply,Poll.ready.injEq,Except.ok.injEq] at h
    omega

/-- A port on a foreign writer that takes one byte of three. -/
theorem writer_accounts_iff_one_byte : Accounts [1,2,3] ((IoPort.ioWriter (WriterIoWriter.ioWriter
    (taking 1))).prodPollWrite 0 [1,2,3] ⟨.connected ⟨()⟩,false⟩).ret := by
  refine (writer_accounts_iff (Built.port (Built.writer (taking 1))) 0 [1,2,3] (by decide) _).1.mpr ?_
  rintro ⟨connected,_,hstall⟩
  simp [taking] at hstall

/-- A foreign writer takes nothing, and the write succeeds with no byte. -/
theorem writer_stalls : ¬ ∀ {σ : Type} (w : IoWriter σ ℕ IoError) (stalls : ℕ → Bytes → σ → Prop),
    Built w stalls → ∀ cx bytes, bytes ≠ [] → ∀ s,
      Accounts bytes (w.prodPollWrite cx bytes s).ret ∧ Terminates w cx (bytes,s) := by
  intro hall
  have hacc := (hall _ _ (Built.writer (taking 0)) 0 [1] (by decide) ⟨()⟩).1
  exact absurd hacc.1 (by decide)

end ProcMachines
