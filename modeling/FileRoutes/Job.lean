import FileRoutes.Fault

/-!
# Jobs

A **job** is what is to be asked of a storage and what follows from each answer, written down as
data: so that one definition can be run against a tree in memory, against a disk, call after call
or in any other order. A job may fork into jobs of which none depends on another. They are run in
order here; all of them are run, and the first that failed decides.
-/

namespace FileRoutes

/-- What is to be done to get an `α`, call by call. -/
inductive Job (α : Type) where
  /-- Nothing more to do. -/
  | done (result : Except Fault α)
  /-- One call, and what follows from its answer. -/
  | call (c : Call) (next : Except Fault c.Reply → Job α)
  /-- Independent jobs, and what follows if none of them fails. -/
  | fork (children : List (Job α)) (next : List α → Job α)

/-- What answers calls in `m`. -/
abbrev Storage (m : Type → Type) := (c : Call) → m (Except Fault c.Reply)

namespace Job

variable {α : Type} {m : Type → Type} [Monad m]

/-- Puts the results of independent jobs together: the first failure decides. -/
def gather : List (Except Fault α) → Except Fault (List α)
  | [] => .ok []
  | .error f :: _ => .error f
  | .ok a :: rest =>
    match gather rest with
    | .ok as => .ok (a :: as)
    | .error f => .error f

mutual

/-- Runs a job call after call. -/
def run (storage : Storage m) : Job α → m (Except Fault α)
  | .done result => pure result
  | .call c next => do
    let reply ← storage c
    run storage (next reply)
  | .fork children next => do
    let results ← runEach storage children
    match gather results with
    | .ok values => run storage (next values)
    | .error f => pure (.error f)

/-- Runs jobs one after the other, those after a failed one too. -/
def runEach (storage : Storage m) : List (Job α) → m (List (Except Fault α))
  | [] => pure []
  | job :: rest => do
    let result ← run storage job
    let results ← runEach storage rest
    return result :: results

end

/-! ### Steps of a run -/

@[simp] theorem run_done (storage : Storage m) (result : Except Fault α) :
    run storage (.done result) = pure result := by
  simp [run]

/-- A call is made, and the run goes on with its reply. -/
@[simp] theorem run_call (storage : Storage m) (c : Call)
    (next : Except Fault c.Reply → Job α) :
    run storage (.call c next) = storage c >>= fun reply => run storage (next reply) := by
  simp [run]

@[simp] theorem runEach_nil (storage : Storage m) :
    runEach storage ([] : List (Job α)) = pure [] := by
  simp [runEach]

/-! ### Gathering -/

/-- Gathering succeeds exactly if every job did. -/
theorem gather_eq_ok_iff {results : List (Except Fault α)} {values : List α} :
    gather results = .ok values ↔ results = values.map .ok := by
  induction results generalizing values with
  | nil => cases values <;> simp [gather]
  | cons r rest ih =>
    cases r with
    | error f => cases values <;> simp [gather]
    | ok a =>
      simp only [gather]
      split
      · next as h => cases values <;> simp_all [eq_comm]
      · next f h =>
        simp only [reduceCtorEq, false_iff]
        rintro hv
        cases values with
        | nil => simp at hv
        | cons v vs => simp_all

end Job

end FileRoutes
