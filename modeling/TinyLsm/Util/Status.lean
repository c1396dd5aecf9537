import Mathlib.Tactic.Common

/-!
# Status and Result

`include/tinylsm/status.h` and `result.h`. A `Status` is a code with a diagnostic message; a
`Result` is a value or a non-OK status, here `Except Status`.
-/

namespace TinyLsm

/-- `StatusCode` (`status.h`). -/
inductive StatusCode where
  | ok
  | notFound
  | invalidArgument
  | ioError
  | corruption
  | resourceExhausted
  | alreadyClosed
  | notSupported
deriving DecidableEq, Repr

/-- `Status` (`status.h`): a code and the diagnostic text. -/
structure Status where
  code : StatusCode
  message : String
deriving DecidableEq, Repr

namespace Status

/-- `Status::Ok`. -/
def okay : Status := ⟨.ok, ""⟩

/-- `Status::NotFound`. -/
def notFound (message : String) : Status := ⟨.notFound, message⟩

/-- `Status::InvalidArgument`. -/
def invalidArgument (message : String) : Status := ⟨.invalidArgument, message⟩

/-- `Status::IOError`. -/
def ioError (message : String) : Status := ⟨.ioError, message⟩

/-- `Status::Corruption`. -/
def corruption (message : String) : Status := ⟨.corruption, message⟩

/-- `Status::ResourceExhausted`. -/
def resourceExhausted (message : String) : Status := ⟨.resourceExhausted, message⟩

/-- `Status::AlreadyClosed`. -/
def alreadyClosed (message : String) : Status := ⟨.alreadyClosed, message⟩

/-- `Status::NotSupported`. -/
def notSupported (message : String) : Status := ⟨.notSupported, message⟩

/-- `Status::ok`. -/
def ok (s : Status) : Bool := s.code = .ok

/-- `Status::WithContext`: outer context is put in front of the message, the code is kept. -/
def withContext (s : Status) (context : String) : Status :=
  if s.ok then s
  else if s.message = "" then ⟨s.code, context⟩
  else ⟨s.code, context ++ ": " ++ s.message⟩

@[simp, grind =] theorem ok_okay : okay.ok = true := rfl

section
variable (message : String)

@[simp, grind =] theorem ok_notFound : (notFound message).ok = false := rfl

@[simp, grind =] theorem ok_invalidArgument : (invalidArgument message).ok = false := rfl

@[simp, grind =] theorem ok_ioError : (ioError message).ok = false := rfl

@[simp, grind =] theorem ok_corruption : (corruption message).ok = false := rfl

@[simp, grind =] theorem ok_resourceExhausted : (resourceExhausted message).ok = false := rfl

@[simp, grind =] theorem ok_alreadyClosed : (alreadyClosed message).ok = false := rfl

@[simp, grind =] theorem ok_notSupported : (notSupported message).ok = false := rfl

end

@[simp] theorem code_withContext (s : Status) (context : String) :
    (s.withContext context).code = s.code := by
  unfold withContext
  split
  · rfl
  · split <;> rfl

@[simp, grind =] theorem ok_withContext (s : Status) (context : String) :
    (s.withContext context).ok = s.ok := by
  unfold ok
  rw [code_withContext]

end Status

/-- `Result<T>` (`result.h`): a value or the status of the failure. -/
abbrev Result (α : Type) := Except Status α

end TinyLsm
