/-!
# Statuses and errors

What the calls of `egrpc` use of `grpc::Status`, and the errors of `error.h` they report.
-/

namespace Cppkg.Egrpc

/-- `grpc::Status`. -/
structure Status where
  /-- `error_code()`. -/
  code : Nat
  /-- `error_message()`. -/
  message : String
  deriving DecidableEq, Repr

namespace Status

/-- `ok()`: the code is `grpc::OK`. -/
def ok (s : Status) : Bool := s.code == 0

/-- `grpc::Status::OK`, also the status that is constructed by default. -/
def okStatus : Status := ⟨0, ""⟩

/-- `grpc::Status::CANCELLED`. -/
def cancelled : Status := ⟨1, ""⟩

end Status

/-- `error::ErrptrT`: null, or an error with its message. -/
abbrev ErrptrT := Option String

/-- `error::error`. -/
def error (msg : String) : ErrptrT := some msg

end Cppkg.Egrpc
