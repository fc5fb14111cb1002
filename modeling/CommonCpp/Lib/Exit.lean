import CommonCpp.Lib.Bytes

/-!
# How a call ends

A function of the library returns, throws its own exception class with a text,
lets an exception of the standard library through, or does something the C++
standard leaves undefined.
-/

namespace CommonCpp.Lib

/-- What is undefined. -/
inductive Fault where
  | nullPointer
  | outOfBounds
  | overflow
  | divisionByZero
  /-- An argument that does not fit its conversion. -/
  | format
deriving DecidableEq

inductive Exit (α : Type) where
  | returned (a : α)
  /-- `throw common::exception(what)` -/
  | exception (what : Bytes)
  /-- An exception of the standard library. -/
  | systemError
  | undefined (fault : Fault)
deriving DecidableEq

end CommonCpp.Lib
