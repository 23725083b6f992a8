import ProcMachines.IoErrorConversions
import ProcMachines.IoTraits

/-! The adapter that writes to an `AsyncWrite`, which is a parameter. -/
namespace ProcMachines

/-- A writer: a poll with a buffer is pending, fails, or reports how many bytes of the
buffer it has taken. -/
structure AsyncWrite (ω W : Type) where
  pollWrite : W → Bytes → Act ω W (Poll (Except StdIoError ℕ))
  pollFlush : W → Act ω W (Poll (Except StdIoError Unit))
  pollShutdown : W → Act ω W (Poll (Except StdIoError Unit))
  fits : ∀ cx buf s n, (pollWrite cx buf s).ret = .ready (.ok n) → n ≤ buf.length

structure WriterIoWriter (ω : Type) where
  inner : ω
  deriving DecidableEq, Repr

namespace WriterIoWriter

variable {ω W : Type}

def new (inner : ω) : WriterIoWriter ω := ⟨inner⟩

def onInner {α : Type} (call : Act ω W α) : Act (WriterIoWriter ω) W α := fun self =>
  let r := call self.inner
  ⟨⟨r.self⟩,r.woken,r.ret⟩

/-- The value carries what is left in `*bytes`. -/
def prodPollWrite (A : AsyncWrite ω W) (cx : W) (bytes : Bytes) :
    Act (WriterIoWriter ω) W (Poll (Except IoError ℕ) × Bytes) := do
  if bytes.isEmpty then return (.ready (.ok 0),bytes)
  match ← onInner (A.pollWrite cx bytes) with
  | .pending => return (.pending,bytes)
  | .ready (.error e) => return (.ready (.error (.ofStdIoError e)),bytes)
  | .ready (.ok sz) => return (.ready (.ok sz),bytes.drop sz)

def prodPollFlush (A : AsyncWrite ω W) (cx : W) :
    Act (WriterIoWriter ω) W (Poll (Except IoError Unit)) := do
  return (← onInner (A.pollFlush cx)).mapErr .ofStdIoError

def prodPollClose (A : AsyncWrite ω W) (cx : W) :
    Act (WriterIoWriter ω) W (Poll (Except IoError Unit)) := do
  return (← onInner (A.pollShutdown cx)).mapErr .ofStdIoError

def ioWriter (A : AsyncWrite ω W) : IoWriter (WriterIoWriter ω) W IoError where
  prodPollWrite := prodPollWrite A
  prodPollFlush := prodPollFlush A
  prodPollClose := prodPollClose A

theorem prodPollWrite_ret (A : AsyncWrite ω W) (cx : W) {bytes : Bytes} (hb : bytes ≠ [])
    (self : WriterIoWriter ω) : (prodPollWrite A cx bytes self).ret =
      match (A.pollWrite cx bytes self.inner).ret with
      | .pending => (.pending,bytes)
      | .ready (.error e) => (.ready (.error (.ofStdIoError e)),bytes)
      | .ready (.ok sz) => (.ready (.ok sz),bytes.drop sz) := by
  have hempty : bytes.isEmpty = false := by simpa using hb
  rcases hr : A.pollWrite cx bytes self.inner with ⟨next,woken,(e | sz) | _⟩ <;>
    simp [prodPollWrite,onInner,hempty,hr]

end WriterIoWriter
end ProcMachines
