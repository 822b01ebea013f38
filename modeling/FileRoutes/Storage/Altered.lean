import FileRoutes.Job

/-!
# Storages that behave in their own way

A storage can be altered without looking inside: listings may come in another order, chosen calls
may fail before they do anything, and all calls that are made may be noted down.
-/

namespace FileRoutes.Storage

variable {m : Type → Type} [Monad m]

/-- Gives every listing in another order, which may depend on the path. -/
def reordered (order : Path → List Listed → List Listed) (storage : Storage m) : Storage m
  | .list path => do return (← storage (.list path)).map (order path)
  | c => storage c

/-- Gives every listing in reverse. -/
def reversed (storage : Storage m) : Storage m :=
  reordered (fun _ => List.reverse) storage

/-- Calls that are to fail: all of a sort, or those on a path spelled just so. -/
structure Failing where
  /-- The sort of the calls. -/
  kind : Call.Kind
  /-- The path as passed to the call, if only calls on that path fail. -/
  path : Option Path
deriving DecidableEq, Repr

/-- The call is one of those that are to fail. -/
def Failing.concerns (f : Failing) (c : Call) : Bool :=
  f.kind = c.kind && (f.path.isNone || f.path = some c.path)

/-- Makes the chosen calls fail before they do anything. -/
def failing (faults : List Failing) (storage : Storage m) : Storage m := fun c =>
  if faults.any (·.concerns c) then pure (.error (.injected c.kind c.path)) else storage c

/-- Notes down every call, in order. -/
def recorded (storage : Storage m) : Storage (StateT (List Call) m) := fun c => do
  modify (· ++ [c])
  storage c

end FileRoutes.Storage
