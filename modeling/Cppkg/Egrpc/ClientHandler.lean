import Cppkg.Egrpc.Grpc

/-!
# Client handlers

`iClientHandler` of `iclient_async.h`, the base of the handlers of a client: its destructor sets
the promise, if the handler has one. A promise that is set must not be set again.
-/

namespace Cppkg.Egrpc

/-- `ErrPromiseT`: the value of the promise, if it is set. -/
abbrev ErrPromiseT := Option ErrptrT

/-- `set_value`. -/
def ErrPromiseT.setValue (promise : ErrPromiseT) (err : ErrptrT) : Option ErrPromiseT :=
  if promise.isSome then none else some (some err)

/-- `iClientHandler`. -/
structure ClientHandler where
  /-- `complete_promise_` is not null. -/
  completePromise : Bool
  /-- `error_`. -/
  error : ErrptrT

namespace ClientHandler

variable {h : ClientHandler} {promise : ErrPromiseT}

/-- `~iClientHandler`. -/
def destructor (h : ClientHandler) (promise : ErrPromiseT) : Option ErrPromiseT :=
  if h.completePromise then promise.setValue h.error else some promise

/-- The values the destructor sets. -/
def values (h : ClientHandler) : List ErrptrT := if h.completePromise then [h.error] else []

theorem destructor_of_promise (hp : h.completePromise = true) (hunset : promise = none) :
    h.destructor promise = some (some h.error) := by
  simp [destructor, hp, ErrPromiseT.setValue, hunset]

theorem destructor_of_null (hp : h.completePromise = false) :
    h.destructor promise = some promise := by
  simp [destructor, hp]

end ClientHandler

end Cppkg.Egrpc
