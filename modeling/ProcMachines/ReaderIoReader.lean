import ProcMachines.IoErrorConversions
import ProcMachines.IoTraits

/-! The adapter that reads an `AsyncRead` ahead into buffers from a provider and hands
out chunks of them. The wrapped reader and the provider are parameters; sums of `usize`
values wrap at `2 ^ bits`. -/
namespace ProcMachines

structure BytesMut where
  data : Bytes
  capacity : ℕ
  fits : data.length ≤ capacity
  deriving DecidableEq

namespace BytesMut

def withCapacity (capacity : ℕ) : BytesMut := ⟨[],capacity,Nat.zero_le _⟩

def append (self : BytesMut) (bytes : Bytes) : BytesMut :=
  ⟨self.data ++ bytes,max self.capacity (self.data ++ bytes).length,le_max_right _ _⟩

/-- Keep what follows the first `n` bytes, which take their capacity with them. -/
def dropFront (self : BytesMut) (n : ℕ) : BytesMut :=
  ⟨self.data.drop n,self.capacity - n,by
    have h := self.fits
    rw [List.length_drop]
    omega⟩

end BytesMut

/-- A reader: a poll with some spare capacity is pending, fails, or appends bytes that
fit; none at all means the end of the stream. -/
structure AsyncRead (ρ W : Type) where
  pollRead : W → ℕ → ρ → Poll (Except StdIoError Bytes) × ρ
  fits : ∀ cx spare s bytes, (pollRead cx spare s).1 = .ready (.ok bytes) → bytes.length ≤ spare

/-- A provider yields empty buffers of some capacity. -/
structure AsyncBufProvider (BP : Type) where
  pollGetBuf : BP → Poll ℕ × BP

/-- What a call does besides its result, in order. -/
inductive Event (W : Type)
  | woke (cx : W)
  | read (cx : W) (spare : ℕ) (res : Poll (Except StdIoError Bytes))
  | buf (res : Poll ℕ)

structure ReaderIoReader (ρ BP : Type) where
  reader : Option ρ
  bufProvider : BP
  curBuf : BytesMut
  bufCapacity : ℕ
  gotEof : Option (Option IoError)

namespace ReaderIoReader

variable {ρ BP W : Type}

def new (inner : ρ) (bufProvider : BP) : ReaderIoReader ρ BP :=
  ⟨some inner,bufProvider,.withCapacity 0,0,none⟩

def wrappingAdd (bits a b : ℕ) : ℕ := (a + b) % 2 ^ bits

/-- Read into the free part of the current buffer if there is nothing to return, or if
the block to return crosses the middle of the buffer. -/
def wantsMore (bits maxLen haveLen space bufCapacity : ℕ) : Bool :=
  let halfBuf := bufCapacity >>> 1
  haveLen == 0 || (decide (halfBuf < wrappingAdd bits haveLen space) &&
    decide (wrappingAdd bits haveLen space ≤ wrappingAdd bits halfBuf maxLen))

/-- The read-ahead decision; fetching a buffer may answer the whole call. -/
def decideRead (P : AsyncBufProvider BP) (bits maxLen : ℕ) : Act (ReaderIoReader ρ BP) (Event W)
    (Except (Poll (Except IoError (Option Bytes))) Bool) := fun inner =>
  let haveLen := inner.curBuf.data.length
  let space := inner.curBuf.capacity - haveLen
  if 0 < space ∧ inner.bufCapacity >>> 2 < space then
    ⟨inner,[],.ok (wantsMore bits maxLen haveLen space inner.bufCapacity)⟩
  else if haveLen = 0 then
    match P.pollGetBuf inner.bufProvider with
    | (.pending,bp) => ⟨{ inner with bufProvider := bp },[.buf .pending],.error .pending⟩
    | (.ready capacity,bp) =>
      if capacity < 1 then
        ⟨{ inner with bufProvider := bp },[.buf (.ready capacity)],
          .error (.ready (.error (.ofErrorKind .outOfMemory)))⟩
      else
        ⟨{ inner with bufProvider := bp, curBuf := .withCapacity capacity,
                      bufCapacity := capacity },[.buf (.ready capacity)],.ok true⟩
  else ⟨inner,[],.ok false⟩

/-- `poll_read_buf` on the inner reader; its end or error is kept for later. -/
def pollReadBuf (R : AsyncRead ρ W) (cx : W) (reader : ρ) :
    Act (ReaderIoReader ρ BP) (Event W) Unit := fun inner =>
  let spare := inner.curBuf.capacity - inner.curBuf.data.length
  let (res,reader) := R.pollRead cx spare reader
  let inner := { inner with reader := some reader }
  match res with
  | .ready (.ok []) => ⟨{ inner with gotEof := some none },[.read cx spare res],()⟩
  | .ready (.ok bytes) => ⟨{ inner with curBuf := inner.curBuf.append bytes },[.read cx spare res],()⟩
  | .ready (.error e) =>
    ⟨{ inner with gotEof := some (some (.ofStdIoError e)) },[.read cx spare res],()⟩
  | .pending => ⟨inner,[.read cx spare res],()⟩

/-- Return a chunk, or the end or error once the buffer is empty. -/
def surface (cx : W) (maxLen : ℕ) : Act (ReaderIoReader ρ BP) (Event W)
    (Poll (Except IoError (Option Bytes))) := fun inner =>
  let haveLen := inner.curBuf.data.length
  if haveLen = 0 then
    match inner.gotEof with
    | none => ⟨inner,[],.pending⟩
    | some none => ⟨{ inner with reader := none, gotEof := none },[],.ready (.ok none)⟩
    | some (some e) => ⟨{ inner with reader := none, gotEof := none },[.woke cx],.ready (.error e)⟩
  else if maxLen = 0 then ⟨inner,[],.ready (.ok (some []))⟩
  else
    ⟨{ inner with curBuf := inner.curBuf.dropFront (min maxLen haveLen) },[.woke cx],
      .ready (.ok (some (inner.curBuf.data.take (min maxLen haveLen))))⟩

/-- Read ahead unless the inner reader has ended; a value ends the whole call. -/
def readAhead (R : AsyncRead ρ W) (P : AsyncBufProvider BP) (bits : ℕ) (cx : W) (maxLen : ℕ)
    (reader : ρ) (gotEof : Option (Option IoError)) :
    Act (ReaderIoReader ρ BP) (Event W) (Option (Poll (Except IoError (Option Bytes)))) := do
  match gotEof with
  | some _ => return none
  | none =>
    match ← decideRead P bits maxLen with
    | .error ret => return some ret
    | .ok doRead => if doRead then pollReadBuf R cx reader
                    return none

def conPollRead (R : AsyncRead ρ W) (P : AsyncBufProvider BP) (bits : ℕ) (cx : W) (maxLen : ℕ) :
    Act (ReaderIoReader ρ BP) (Event W) (Poll (Except IoError (Option Bytes))) := fun inner =>
  match inner.reader with
  | none => ⟨inner,[],.ready (.ok none)⟩
  | some reader => (do
      match ← readAhead R P bits cx maxLen reader inner.gotEof with
      | some ret => return ret
      | none => surface cx maxLen : Act _ _ _) inner

def dropRead : Act (ReaderIoReader ρ BP) (Event W) Unit := fun inner =>
  ⟨{ inner with reader := none, gotEof := none },[],()⟩

end ReaderIoReader
end ProcMachines
