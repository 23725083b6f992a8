import ProcMachines.IoError

/-! How the error type is named, parsed and converted, and what the conversions keep. -/
namespace ProcMachines

/-- The kinds of `std::io::Error` that the conversions name, and the rest. -/
inductive ErrorKind
  | other | brokenPipe | notFound | unsupported | permissionDenied | connectionRefused
  | hostUnreachable | connectionAborted | addrInUse | deadlock | alreadyExists | invalidInput
  | invalidData | timedOut | argumentListTooLong | resourceBusy | quotaExceeded | interrupted
  | unexpectedEof | outOfMemory | storageFull | connectionReset | networkUnreachable
  | notConnected | addrNotAvailable | networkDown | wouldBlock | notADirectory | isADirectory
  | directoryNotEmpty | readOnlyFilesystem | staleNetworkFileHandle | writeZero | notSeekable
  | fileTooLarge | executableFileBusy | crossesDevices | tooManyLinks | invalidFilename
  | unlisted
  deriving DecidableEq, Repr

/-- A `std::io::Error`: a kind alone, or with a boxed error, which may be an `IoError`. -/
inductive StdIoError
  | simple (kind : ErrorKind)
  | custom (kind : ErrorKind) (error : Option IoError)
  deriving DecidableEq, Repr

namespace StdIoError

def kind : StdIoError → ErrorKind
  | simple kind => kind
  | custom kind _ => kind

def getIoError : StdIoError → Option IoError
  | simple _ => none
  | custom _ error => error

end StdIoError

namespace IoError

def toHttpStatus : IoError → ℕ
  | .unknown | .internalFailure => 500
  | .temporarilyOffline => 503
  | .invalidState => 409
  | .peerFailure | .brokenPipe => 502
  | .notFound => 404
  | .unsupported => 501
  | .permissionDenied => 403
  | .authenticationRequired | .authenticationFailed => 401
  | .connectionRefused | .unreachable => 502
  | .abortRequested => 499
  | .allocationConflict | .operationConflict | .optimisticConcurrencyFailure | .deadlock | .alreadyExists => 409
  | .malformedInput => 400
  | .invalidData | .invalidReference => 422
  | .timedOut => 504
  | .tooBig => 413
  | .busy => 503
  | .rateLimited | .quotaLimited => 429
  | .interrupted => 503
  | .unexpectedEof => 400
  | .outOfMemory => 503
  | .outOfStorage => 507

def toErrorKind : IoError → ErrorKind
  | .unknown | .internalFailure | .temporarilyOffline | .invalidState | .peerFailure => .other
  | .brokenPipe => .brokenPipe
  | .notFound => .notFound
  | .unsupported => .unsupported
  | .permissionDenied | .authenticationRequired | .authenticationFailed => .permissionDenied
  | .connectionRefused => .connectionRefused
  | .unreachable => .hostUnreachable
  | .abortRequested => .connectionAborted
  | .allocationConflict => .addrInUse
  | .operationConflict => .other
  | .optimisticConcurrencyFailure | .deadlock => .deadlock
  | .alreadyExists => .alreadyExists
  | .malformedInput => .invalidInput
  | .invalidData | .invalidReference => .invalidData
  | .timedOut => .timedOut
  | .tooBig => .argumentListTooLong
  | .busy => .resourceBusy
  | .rateLimited | .quotaLimited => .quotaExceeded
  | .interrupted => .interrupted
  | .unexpectedEof => .unexpectedEof
  | .outOfMemory => .outOfMemory
  | .outOfStorage => .storageFull

def toStdIoError (err : IoError) : StdIoError := .custom err.toErrorKind (some err)

def ofErrorKind : ErrorKind → IoError
  | .notFound => .notFound
  | .permissionDenied => .permissionDenied
  | .connectionRefused => .connectionRefused
  | .connectionReset => .brokenPipe
  | .hostUnreachable | .networkUnreachable => .unreachable
  | .connectionAborted => .abortRequested
  | .notConnected => .brokenPipe
  | .addrInUse | .addrNotAvailable => .allocationConflict
  | .networkDown => .temporarilyOffline
  | .brokenPipe => .brokenPipe
  | .alreadyExists => .alreadyExists
  | .wouldBlock => .busy
  | .notADirectory | .isADirectory => .invalidReference
  | .directoryNotEmpty => .operationConflict
  | .readOnlyFilesystem => .unsupported
  | .staleNetworkFileHandle => .invalidReference
  | .invalidInput => .malformedInput
  | .invalidData => .invalidData
  | .timedOut => .timedOut
  | .writeZero => .brokenPipe
  | .storageFull => .outOfStorage
  | .notSeekable => .unsupported
  | .quotaExceeded => .quotaLimited
  | .fileTooLarge => .tooBig
  | .resourceBusy | .executableFileBusy => .busy
  | .deadlock => .deadlock
  | .crossesDevices => .unsupported
  | .tooManyLinks => .unknown
  | .invalidFilename => .malformedInput
  | .argumentListTooLong => .tooBig
  | .interrupted => .interrupted
  | .unsupported => .unsupported
  | .unexpectedEof => .unexpectedEof
  | .outOfMemory => .outOfMemory
  | .other => .unknown
  | .unlisted => .unknown

def ofStdIoError (err : StdIoError) : IoError :=
  match err.getIoError with
  | some inner => inner
  | none => ofErrorKind err.kind

def asStr : IoError → String
  | .unknown => "Unknown"
  | .internalFailure => "InternalFailure"
  | .temporarilyOffline => "TemporarilyOffline"
  | .invalidState => "InvalidState"
  | .peerFailure => "PeerFailure"
  | .brokenPipe => "BrokenPipe"
  | .notFound => "NotFound"
  | .unsupported => "Unsupported"
  | .permissionDenied => "PermissionDenied"
  | .authenticationRequired => "AuthenticationRequired"
  | .authenticationFailed => "AuthenticationFailed"
  | .connectionRefused => "ConnectionRefused"
  | .unreachable => "Unreachable"
  | .abortRequested => "AbortRequested"
  | .allocationConflict => "AllocationConflict"
  | .operationConflict => "OperationConflict"
  | .optimisticConcurrencyFailure => "OptimisticConcurrencyFailure"
  | .deadlock => "Deadlock"
  | .alreadyExists => "AlreadyExists"
  | .malformedInput => "MalformedInput"
  | .invalidData => "InvalidData"
  | .invalidReference => "InvalidReference"
  | .timedOut => "TimedOut"
  | .tooBig => "TooBig"
  | .busy => "Busy"
  | .rateLimited => "RateLimited"
  | .quotaLimited => "QuotaLimited"
  | .interrupted => "Interrupted"
  | .unexpectedEof => "UnexpectedEof"
  | .outOfMemory => "OutOfMemory"
  | .outOfStorage => "OutOfStorage"

def fromStr : String → IoError
  | "Unknown" => .unknown
  | "InternalFailure" => .internalFailure
  | "TemporarilyOffline" => .temporarilyOffline
  | "InvalidState" => .invalidState
  | "PeerFailure" => .peerFailure
  | "BrokenPipe" => .brokenPipe
  | "NotFound" => .notFound
  | "Unsupported" => .unsupported
  | "PermissionDenied" => .permissionDenied
  | "AuthenticationRequired" => .authenticationRequired
  | "AuthenticationFailed" => .authenticationFailed
  | "ConnectionRefused" => .connectionRefused
  | "Unreachable" => .unreachable
  | "AbortRequested" => .abortRequested
  | "AllocationConflict" => .allocationConflict
  | "OperationConflict" => .operationConflict
  | "OptimisticConcurrencyFailure" => .optimisticConcurrencyFailure
  | "Deadlock" => .deadlock
  | "AlreadyExists" => .alreadyExists
  | "MalformedInput" => .malformedInput
  | "InvalidData" => .invalidData
  | "InvalidReference" => .invalidReference
  | "TimedOut" => .timedOut
  | "TooBig" => .tooBig
  | "Busy" => .busy
  | "RateLimited" => .rateLimited
  | "QuotaLimited" => .quotaLimited
  | "Interrupted" => .interrupted
  | "UnexpectedEof" => .unexpectedEof
  | "OutOfMemory" => .outOfMemory
  | "OutOfStorage" => .outOfStorage
  | _ => .unknown

@[simp] theorem fromStr_asStr (err : IoError) : fromStr err.asStr = err := by
  cases err <;> rfl

theorem asStr_injective : Function.Injective asStr :=
  Function.LeftInverse.injective fromStr_asStr

@[simp] theorem ofStdIoError_toStdIoError (err : IoError) : ofStdIoError err.toStdIoError = err := rfl

/-- Converted to a bare kind and back, an error is what it will be from then on. -/
theorem ofErrorKind_toErrorKind (err : IoError) :
    ofErrorKind (ofErrorKind err.toErrorKind).toErrorKind = ofErrorKind err.toErrorKind := by
  cases err <;> rfl

theorem toHttpStatus_failure (err : IoError) : 400 ≤ err.toHttpStatus ∧ err.toHttpStatus < 600 := by
  cases err <;> decide

end IoError
end ProcMachines
