import ProcMachines.ReaderCalls

/-! The read-ahead decision over any arithmetic: a debug build panics where a `usize` leaves
its range, a release build wraps, and the integers have no range to leave. -/
namespace ProcMachines

/-- Operations on `usize` values; none at all is a panic. -/
structure Arithmetic (α : Type) [LinearOrder α] where
  ofUsize : ℕ → α
  add : α → α → Option α
  sub : α → α → Option α
  shr : α → ℕ → Option α

namespace Arithmetic

def debug (bits : ℕ) : Arithmetic ℕ where
  ofUsize n := n
  add a b := if a + b < 2 ^ bits then some (a + b) else none
  sub a b := if b ≤ a then some (a - b) else none
  shr a n := if n < bits then some (a >>> n) else none

def release (bits : ℕ) : Arithmetic ℕ where
  ofUsize n := n
  add a b := some ((a + b) % 2 ^ bits)
  sub a b := some ((2 ^ bits + a - b) % 2 ^ bits)
  shr a n := some (a >>> (n % bits))

@[simp] theorem release_ofUsize (bits n : ℕ) : (release bits).ofUsize n = n := rfl

def integers : Arithmetic ℤ where
  ofUsize n := n
  add a b := some (a + b)
  sub a b := some (a - b)
  shr a n := some (a >>> n)

end Arithmetic

namespace ReaderIoReader

variable {ρ BP W α : Type} [LinearOrder α]

/-- What a read does before it polls the inner reader: nothing any more, fetch a buffer
first, or decide on the current one. -/
inductive Plan
  | closed | ended | fetch
  | decided (doRead : Bool)
  deriving DecidableEq, Repr

def hasRoom (A : Arithmetic α) (space bufCapacity : α) : Option Bool :=
  if A.ofUsize 0 < space then do
    let quarterBuf ← A.shr bufCapacity 2
    return decide (quarterBuf < space)
  else some false

/-- Nothing to return, or the block to return crosses the middle of the buffer. -/
def crosses (A : Arithmetic α) (haveLen space bufCapacity maxLen : α) : Option Bool := do
  let halfBuf ← A.shr bufCapacity 1
  if haveLen = A.ofUsize 0 then return true
  else
    let total ← A.add haveLen space
    if halfBuf < total then
      let total ← A.add haveLen space
      let bound ← A.add halfBuf maxLen
      return decide (total ≤ bound)
    else return false

/-- The decision of `con_poll_read`, up to the choice of a buffer. -/
def plan (A : Arithmetic α) (maxLen : ℕ) (inner : ReaderIoReader ρ BP) : Option Plan :=
  if inner.reader.isNone then some .closed
  else if inner.gotEof.isSome then some .ended
  else do
    let haveLen := A.ofUsize inner.curBuf.data.length
    let bufCapacity := A.ofUsize inner.bufCapacity
    let space ← A.sub (A.ofUsize inner.curBuf.capacity) haveLen
    if ← hasRoom A space bufCapacity then
      return .decided (← crosses A haveLen space bufCapacity (A.ofUsize maxLen))
    else if haveLen = A.ofUsize 0 then return .fetch
    else return .decided false

/-- The sums are formed: there is data, and room that reaches past the middle. -/
def Sums (inner : ReaderIoReader ρ BP) : Prop :=
  inner.reader.isSome ∧ inner.gotEof = none ∧ inner.curBuf.data ≠ [] ∧
    inner.bufCapacity >>> 2 < inner.curBuf.capacity - inner.curBuf.data.length ∧
    inner.bufCapacity >>> 1 < inner.curBuf.capacity

/-- The sum of half a buffer and the length asked for leaves the range. -/
def Overflows (bits maxLen : ℕ) (inner : ReaderIoReader ρ BP) : Prop :=
  Sums inner ∧ 2 ^ bits ≤ inner.bufCapacity >>> 1 + maxLen

instance (inner : ReaderIoReader ρ BP) : Decidable (Sums inner) :=
  inferInstanceAs (Decidable (_ ∧ _))

instance (bits maxLen : ℕ) (inner : ReaderIoReader ρ BP) :
    Decidable (Overflows bits maxLen inner) := inferInstanceAs (Decidable (_ ∧ _))

def settled (inner : ReaderIoReader ρ BP) : Plan :=
  if inner.reader.isNone then .closed
  else if inner.gotEof.isSome then .ended
  else if inner.bufCapacity >>> 2 < inner.curBuf.capacity - inner.curBuf.data.length then
    .decided (inner.curBuf.data.length == 0)
  else if inner.curBuf.data.length = 0 then .fetch
  else .decided false

/-- On this state the arithmetic is that of the natural numbers, the last sum aside. -/
structure Exact (A : Arithmetic α) (inner : ReaderIoReader ρ BP) : Prop where
  mono : StrictMono A.ofUsize
  space : A.sub (A.ofUsize inner.curBuf.capacity) (A.ofUsize inner.curBuf.data.length) =
    some (A.ofUsize (inner.curBuf.capacity - inner.curBuf.data.length))
  total : A.add (A.ofUsize inner.curBuf.data.length)
      (A.ofUsize (inner.curBuf.capacity - inner.curBuf.data.length)) =
    some (A.ofUsize inner.curBuf.capacity)
  quarter : A.shr (A.ofUsize inner.bufCapacity) 2 = some (A.ofUsize (inner.bufCapacity >>> 2))
  half : A.shr (A.ofUsize inner.bufCapacity) 1 = some (A.ofUsize (inner.bufCapacity >>> 1))

variable {A : Arithmetic α} {inner : ReaderIoReader ρ BP} {bits maxLen : ℕ}

theorem Exact.hasRoom_eq (h : Exact A inner) : hasRoom A
    (A.ofUsize (inner.curBuf.capacity - inner.curBuf.data.length)) (A.ofUsize inner.bufCapacity) =
      some (decide (inner.bufCapacity >>> 2 <
        inner.curBuf.capacity - inner.curBuf.data.length)) := by
  simp only [hasRoom,h.quarter,h.mono.lt_iff_lt]
  by_cases hspace : 0 < inner.curBuf.capacity - inner.curBuf.data.length
  · rw [if_pos hspace]
    exact congrArg some (decide_eq_decide.mpr h.mono.lt_iff_lt)
  · have hzero : inner.curBuf.capacity - inner.curBuf.data.length = 0 := by omega
    simp [hzero]

theorem Exact.plan_eq (h : Exact A inner) (maxLen : ℕ) : plan A maxLen inner =
    if Sums inner then
      (A.add (A.ofUsize (inner.bufCapacity >>> 1)) (A.ofUsize maxLen)).map fun bound =>
        .decided (decide (A.ofUsize inner.curBuf.capacity ≤ bound))
    else some (settled inner) := by
  cases hr : inner.reader with
  | none => simp [plan,settled,Sums,hr]
  | some reader =>
    cases hg : inner.gotEof with
    | some e => simp [plan,settled,Sums,hr,hg]
    | none =>
      simp only [plan,settled,Sums,hr,hg,h.space,Option.bind_eq_bind,Option.bind_some,
        h.hasRoom_eq,crosses,h.half,h.total,h.mono.injective.eq_iff,h.mono.lt_iff_lt]
      by_cases hd : inner.curBuf.data = []
      · simp [hd,apply_ite some]
      · by_cases hroom : inner.bufCapacity >>> 2 <
            inner.curBuf.capacity - inner.curBuf.data.length
        · by_cases hhalf : inner.bufCapacity >>> 1 < inner.curBuf.capacity
          · simp [hroom,hd,hhalf,Option.map_eq_bind,Option.bind_assoc]
          · simp [hroom,hd,hhalf]
        · simp [hroom,hd]

structure Fits (bits : ℕ) (inner : ReaderIoReader ρ BP) : Prop where
  capacity : inner.curBuf.capacity < 2 ^ bits
  bufCapacity : inner.bufCapacity < 2 ^ bits

theorem exact_integers (inner : ReaderIoReader ρ BP) : Exact .integers inner where
  mono := Nat.strictMono_cast
  space := congrArg some (Nat.cast_sub inner.curBuf.fits).symm
  total := by
    have hsum := Nat.add_sub_cancel' inner.curBuf.fits
    exact congrArg some ((Nat.cast_add _ _).symm.trans (congrArg Nat.cast hsum))
  quarter := rfl
  half := rfl

theorem Fits.debug (h : Fits bits inner) (hbits : 2 < bits) : Exact (.debug bits) inner where
  mono := strictMono_id
  space := if_pos inner.curBuf.fits
  total := by
    have hsum := Nat.add_sub_cancel' inner.curBuf.fits
    simp only [Arithmetic.debug,hsum,h.capacity,if_true]
  quarter := if_pos hbits
  half := if_pos (by omega)

theorem Fits.release (h : Fits bits inner) (hbits : 2 < bits) : Exact (.release bits) inner where
  mono := strictMono_id
  space := by
    have hle := inner.curBuf.fits
    have hcap := h.capacity
    simp only [Arithmetic.release,Nat.add_sub_assoc hle,Nat.add_mod_left]
    rw [Nat.mod_eq_of_lt (by omega)]
  total := by
    have hsum := Nat.add_sub_cancel' inner.curBuf.fits
    simp only [Arithmetic.release,hsum,Nat.mod_eq_of_lt h.capacity]
  quarter := by simp only [Arithmetic.release,Nat.mod_eq_of_lt hbits]
  half := by
    have hone : 1 < bits := by omega
    simp only [Arithmetic.release,Nat.mod_eq_of_lt hone]

theorem Exact.plan_sum (h : Exact A inner) (hs : Sums inner) {bound : ℕ}
    (hadd : A.add (A.ofUsize (inner.bufCapacity >>> 1)) (A.ofUsize maxLen) =
      some (A.ofUsize bound)) :
    plan A maxLen inner = some (.decided (decide (inner.curBuf.capacity ≤ bound))) := by
  rw [h.plan_eq,if_pos hs,hadd]
  exact congrArg (some ∘ Plan.decided) (decide_eq_decide.mpr h.mono.le_iff_le)

theorem integers_total (maxLen : ℕ) (inner : ReaderIoReader ρ BP) :
    ∃ p, plan .integers maxLen inner = some p := by
  rw [(exact_integers inner).plan_eq]
  split
  · exact ⟨_,rfl⟩
  · exact ⟨_,rfl⟩

/-- Without an overflow all three agree. -/
theorem Fits.agree (h : Fits bits inner) (hbits : 2 < bits) (hover : ¬ Overflows bits maxLen inner) :
    plan (.debug bits) maxLen inner = plan .integers maxLen inner ∧
      plan (.release bits) maxLen inner = plan .integers maxLen inner := by
  by_cases hs : Sums inner
  · have hsum : inner.bufCapacity >>> 1 + maxLen < 2 ^ bits := by
      by_contra hle
      exact hover ⟨hs,not_lt.mp hle⟩
    rw [(exact_integers inner).plan_sum hs
        (congrArg some (Nat.cast_add _ _).symm),
      (h.debug hbits).plan_sum hs (if_pos hsum),
      (h.release hbits).plan_sum hs (congrArg some (Nat.mod_eq_of_lt hsum))]
    exact ⟨rfl,rfl⟩
  · rw [(exact_integers inner).plan_eq,(h.debug hbits).plan_eq,(h.release hbits).plan_eq,
      if_neg hs,if_neg hs,if_neg hs]
    exact ⟨rfl,rfl⟩

/-- An overflow is a panic of the debug build and the opposite decision of the release build. -/
theorem Fits.overflow (h : Fits bits inner) (hbits : 2 < bits) (hm : maxLen < 2 ^ bits)
    (hover : Overflows bits maxLen inner) :
    plan (.debug bits) maxLen inner = none ∧
      plan (.release bits) maxLen inner = some (.decided false) ∧
      plan .integers maxLen inner = some (.decided true) := by
  obtain ⟨hs,hle⟩ := hover
  have hcap := h.capacity
  have hhalf : inner.bufCapacity >>> 1 < inner.curBuf.capacity := hs.2.2.2.2
  have hwrap : (inner.bufCapacity >>> 1 + maxLen) % 2 ^ bits < inner.curBuf.capacity := by
    rw [Nat.mod_eq_sub_mod hle,Nat.mod_eq_of_lt (by omega)]
    omega
  have hbound : inner.curBuf.capacity ≤ inner.bufCapacity >>> 1 + maxLen := by omega
  have hpanic : (Arithmetic.debug bits).add (inner.bufCapacity >>> 1) maxLen = none :=
    if_neg (not_lt.mpr hle)
  refine ⟨?_,?_,?_⟩
  · rw [(h.debug hbits).plan_eq,if_pos hs]
    exact congrArg (Option.map _) hpanic
  · rw [(h.release hbits).plan_sum hs rfl]
    exact congrArg (some ∘ Plan.decided) (decide_eq_false (not_le.mpr hwrap))
  · rw [(exact_integers inner).plan_sum hs (congrArg some (Nat.cast_add _ _).symm),
      decide_eq_true hbound]

section Decided

variable {P : AsyncBufProvider BP}

theorem crosses_release (hbits : 2 < bits) (haveLen space bufCapacity maxLen : ℕ) :
    crosses (.release bits) haveLen space bufCapacity maxLen =
      some (wantsMore bits maxLen haveLen space bufCapacity) := by
  have hone : 1 % bits = 1 := Nat.mod_eq_of_lt (by omega)
  simp only [crosses,Arithmetic.release,wantsMore,wrappingAdd,hone,Option.bind_eq_bind,
    Option.bind_some]
  by_cases hd : haveLen = 0
  · simp [hd]
  · have hne : (haveLen == 0) = false := beq_eq_false_iff_ne.mpr hd
    by_cases hhalf : bufCapacity >>> 1 < (haveLen + space) % 2 ^ bits
    · simp only [hd,hne,hhalf,if_true,if_false,Bool.false_or,decide_true,Bool.true_and]
      exact congrArg some (decide_eq_decide.mpr Iff.rfl)
    · simp [hd,hne,hhalf]

theorem Fits.plan_release (h : Fits bits inner) (hbits : 2 < bits) (hr : inner.reader.isSome)
    (hg : inner.gotEof = none) : plan (.release bits) maxLen inner = some (
      if inner.bufCapacity >>> 2 < inner.curBuf.capacity - inner.curBuf.data.length then
        .decided (wantsMore bits maxLen inner.curBuf.data.length
          (inner.curBuf.capacity - inner.curBuf.data.length) inner.bufCapacity)
      else if inner.curBuf.data.length = 0 then .fetch
      else .decided false) := by
  have hexact := h.release hbits
  obtain ⟨reader,hr⟩ := Option.isSome_iff_exists.mp hr
  simp only [plan,hr,hg,hexact.space,Option.bind_eq_bind,Option.bind_some,hexact.hasRoom_eq]
  simp [crosses_release hbits,apply_ite some]

/-- The adapter's own decision is the one of the release build: the plan is carried out, and
the provider is asked exactly when a buffer is to be fetched. -/
theorem Fits.decideRead_plan (h : Fits bits inner) (hbits : 2 < bits) (hr : inner.reader.isSome)
    (hg : inner.gotEof = none) :
    (∃ doRead, plan (.release bits) maxLen inner = some (.decided doRead) ∧
      (decideRead P bits maxLen inner : Call _ (Event W) _) = ⟨inner,[],.ok doRead⟩) ∨
    (plan (.release bits) maxLen inner = some .fetch ∧
      (decideRead P bits maxLen inner : Call _ (Event W) _).woken =
        [.buf (P.pollGetBuf inner.bufProvider).1]) := by
  rw [h.plan_release hbits hr hg]
  simp only [decideRead]
  by_cases hroom : inner.bufCapacity >>> 2 < inner.curBuf.capacity - inner.curBuf.data.length
  · have hspace : 0 < inner.curBuf.capacity - inner.curBuf.data.length := by omega
    rw [if_pos hroom,if_pos ⟨hspace,hroom⟩]
    exact Or.inl ⟨_,rfl,rfl⟩
  · have hnone : ¬ (0 < inner.curBuf.capacity - inner.curBuf.data.length ∧
        inner.bufCapacity >>> 2 < inner.curBuf.capacity - inner.curBuf.data.length) :=
      fun hboth => hroom hboth.2
    rw [if_neg hroom,if_neg hnone]
    by_cases hlen : inner.curBuf.data.length = 0
    · rw [if_pos hlen,if_pos hlen]
      right
      rcases P.pollGetBuf inner.bufProvider with ⟨capacity | _,bp⟩
      · by_cases hcap : capacity < 1 <;> simp [hcap]
      · exact ⟨rfl,rfl⟩
    · rw [if_neg hlen,if_neg hlen]
      exact Or.inl ⟨_,rfl,rfl⟩

end Decided

section Runs

variable {R : AsyncRead ρ W} {P : AsyncBufProvider BP} {cx : W} {reader : ρ}

def Sized (bits : ℕ) (P : AsyncBufProvider BP) : Prop :=
  ∀ bp capacity, (P.pollGetBuf bp).1 = .ready capacity → capacity < 2 ^ bits

theorem Fits.pollReadBuf (h : Fits bits inner) : Fits bits (pollReadBuf R cx reader inner).self := by
  have hroom := inner.curBuf.fits
  have hread := R.fits cx (inner.curBuf.capacity - inner.curBuf.data.length) reader
  rcases hres : R.pollRead cx (inner.curBuf.capacity - inner.curBuf.data.length) reader with
    ⟨res,reader'⟩
  simp only [hres] at hread
  simp only [ReaderIoReader.pollReadBuf,hres]
  cases res with
  | pending => exact ⟨h.capacity,h.bufCapacity⟩
  | ready answer =>
    cases answer with
    | error e => exact ⟨h.capacity,h.bufCapacity⟩
    | ok bytes =>
      cases bytes with
      | nil => exact ⟨h.capacity,h.bufCapacity⟩
      | cons b bytes =>
        have hlen := hread (b :: bytes) rfl
        have hmax : (inner.curBuf.data ++ b :: bytes).length ≤ inner.curBuf.capacity := by
          rw [List.length_append]
          omega
        exact ⟨(max_eq_left hmax).trans_lt h.capacity,h.bufCapacity⟩

theorem Fits.decideRead (h : Fits bits inner) (maxLen : ℕ) (hP : Sized bits P) :
    Fits bits (decideRead P bits maxLen inner : Call _ (Event W) _).self := by
  simp only [ReaderIoReader.decideRead]
  split
  · exact h
  · split
    · have hsized := hP inner.bufProvider
      rcases hbuf : P.pollGetBuf inner.bufProvider with ⟨capacity | _,bp⟩
      · have hcap : capacity < 2 ^ bits := hsized capacity (by rw [hbuf])
        by_cases hzero : capacity < 1
        · simpa [hzero] using ⟨h.capacity,h.bufCapacity⟩
        · simpa [hzero] using ⟨hcap,hcap⟩
      · exact ⟨h.capacity,h.bufCapacity⟩
    · exact h

theorem Fits.readAhead (h : Fits bits inner) (R : AsyncRead ρ W) (cx : W) (reader : ρ)
    (hP : Sized bits P) (maxLen : ℕ)
    (gotEof : Option (Option IoError)) :
    Fits bits (readAhead R P bits cx maxLen reader gotEof inner).self := by
  cases gotEof with
  | some e => exact h
  | none =>
    have hdecided := h.decideRead (W := W) maxLen hP
    rcases hd : ReaderIoReader.decideRead P bits maxLen inner with ⟨self,events,ret | doRead⟩
    · rw [hd] at hdecided
      rw [readAhead_stop hd]
      exact hdecided
    · rw [hd] at hdecided
      cases doRead with
      | true =>
        rw [readAhead_go hd]
        exact hdecided.pollReadBuf
      | false =>
        rw [readAhead_skip hd]
        exact hdecided

theorem Fits.surface (h : Fits bits inner) (cx : W) (maxLen : ℕ) :
    Fits bits (surface cx maxLen inner).self := by
  have hcap := h.capacity
  simp only [ReaderIoReader.surface]
  split
  · split
    · exact h
    · exact ⟨h.capacity,h.bufCapacity⟩
    · exact ⟨h.capacity,h.bufCapacity⟩
  · split
    · exact h
    · exact ⟨(Nat.sub_le _ _).trans_lt hcap,h.bufCapacity⟩

theorem Fits.call (h : Fits bits inner) (hP : Sized bits P) (op : Op W) :
    Fits bits (call R P bits op inner).self := by
  cases op with
  | dropRead => exact ⟨h.capacity,h.bufCapacity⟩
  | pollRead cx maxLen =>
    show Fits bits (conPollRead R P bits cx maxLen inner).self
    cases hr : inner.reader with
    | none =>
      rw [conPollRead_closed hr]
      exact h
    | some reader =>
      have hahead := h.readAhead R cx reader hP maxLen inner.gotEof
      cases hret : (ReaderIoReader.readAhead R P bits cx maxLen reader inner.gotEof inner).ret with
      | some ret =>
        rw [conPollRead_stop hr hret]
        exact hahead
      | none =>
        rw [conPollRead_surface hr hret]
        exact hahead.surface cx maxLen

theorem fits_after (hP : Sized bits P) (reader : ρ) (bufProvider : BP) (ops : List (Op W)) :
    Fits bits (after R P bits (new reader bufProvider) ops) := by
  induction ops using List.reverseRecOn with
  | nil => exact ⟨Nat.two_pow_pos bits,Nat.two_pow_pos bits⟩
  | append_singleton ops op ih =>
    rw [after_snoc]
    exact ih.call hP op

end Runs

/-- In every reachable state, for every length asked for, the debug build forms the plan of
the unbounded integers, and the release build does, exactly when half of the current buffer's
capacity and that length do not overflow, or are not added. -/
theorem plan_exact_iff {bits : ℕ} (hbits : 2 < bits) {P : AsyncBufProvider BP} (hP : Sized bits P)
    (R : AsyncRead ρ W) (reader : ρ) (bufProvider : BP) (ops : List (Op W)) {maxLen : ℕ}
    (hm : maxLen < 2 ^ bits) :
    ((∃ p, plan (.debug bits) maxLen (after R P bits (new reader bufProvider) ops) = some p ∧
        plan .integers maxLen (after R P bits (new reader bufProvider) ops) = some p) ↔
      ¬ Overflows bits maxLen (after R P bits (new reader bufProvider) ops)) ∧
    (plan (.release bits) maxLen (after R P bits (new reader bufProvider) ops) =
        plan .integers maxLen (after R P bits (new reader bufProvider) ops) ↔
      ¬ Overflows bits maxLen (after R P bits (new reader bufProvider) ops)) := by
  have h : Fits bits (after R P bits (new reader bufProvider) ops) := fits_after hP _ _ _
  generalize after R P bits (new reader bufProvider) ops = s at h
  by_cases hover : Overflows bits maxLen s
  · obtain ⟨hdebug,hrelease,hintegers⟩ := h.overflow hbits hm hover
    simp [hdebug,hrelease,hintegers,hover]
  · obtain ⟨hdebug,hrelease⟩ := h.agree hbits hover
    obtain ⟨p,hp⟩ := integers_total maxLen s
    simp [hdebug,hrelease,hover,hp]

def eightBytes : AsyncRead Unit ℕ where
  pollRead _ spare s := (.ready (.ok (List.replicate (min 8 spare) 0)),s)
  fits _ spare _ bytes h := by
    simp only [Poll.ready.injEq,Except.ok.injEq] at h
    rw [← h,List.length_replicate]
    exact min_le_right 8 spare

theorem sized_sixteen : Sized 64 sixteen := by
  intro bp capacity h
  obtain rfl : 16 = capacity := Poll.ready.inj h
  decide

/-- After a read of one byte, a read of at most four plans like the integers. -/
theorem plan_exact_iff_sixteen : plan (.release 64) 4 (after eightBytes sixteen 64
      (new () ()) [.pollRead 7 1]) =
    plan .integers 4 (after eightBytes sixteen 64 (new () ()) [.pollRead 7 1]) :=
  (plan_exact_iff (by decide) sized_sixteen eightBytes () () [.pollRead 7 1] (by decide)).2.mpr
    (by decide)

/-- After a read of one byte, a read without a limit panics, and with wrapping sums does not
read ahead. -/
theorem plan_inexact : ¬ ∀ {ρ BP : Type} {bits : ℕ}, 2 < bits → ∀ {P : AsyncBufProvider BP},
    Sized bits P → ∀ (R : AsyncRead ρ ℕ) (reader : ρ) (bufProvider : BP) (ops : List (Op ℕ))
      {maxLen : ℕ}, maxLen < 2 ^ bits →
    (∃ p, plan (.debug bits) maxLen (after R P bits (new reader bufProvider) ops) = some p ∧
      plan .integers maxLen (after R P bits (new reader bufProvider) ops) = some p) ∧
    plan (.release bits) maxLen (after R P bits (new reader bufProvider) ops) =
      plan .integers maxLen (after R P bits (new reader bufProvider) ops) := by
  intro hall
  have hover : Overflows 64 (2 ^ 64 - 1)
      (after eightBytes sixteen 64 (new () ()) [.pollRead 7 1]) := by decide
  obtain ⟨p,hp,_⟩ := (hall (by decide) sized_sixteen eightBytes () () [.pollRead 7 1]
    (by decide : 2 ^ 64 - 1 < 2 ^ 64)).1
  obtain ⟨hpanic,_⟩ := (fits_after sized_sixteen () () [.pollRead 7 1]).overflow (by decide)
    (by decide) hover
  rw [hpanic] at hp
  cases hp

end ReaderIoReader
end ProcMachines
