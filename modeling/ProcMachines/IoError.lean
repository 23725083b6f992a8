import Mathlib.Tactic

/-! The transport-agnostic error type shared by the I/O primitives. -/
namespace ProcMachines

inductive IoError
  | unknown | internalFailure | temporarilyOffline | invalidState | peerFailure | brokenPipe
  | notFound | unsupported | permissionDenied | authenticationRequired | authenticationFailed
  | connectionRefused | unreachable | abortRequested | allocationConflict | operationConflict
  | optimisticConcurrencyFailure | deadlock | alreadyExists | malformedInput | invalidData
  | invalidReference | timedOut | tooBig | busy | rateLimited | quotaLimited | interrupted
  | unexpectedEof | outOfMemory | outOfStorage
  deriving DecidableEq, Repr

end ProcMachines
