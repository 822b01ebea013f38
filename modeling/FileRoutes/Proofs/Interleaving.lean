import FileRoutes.Job
import Mathlib.Data.Multiset.AddSub
import Mathlib.Algebra.BigOperators.Group.Multiset.Basic
import Mathlib.Tactic.Abel

/-!
# Interleaved runs of a job

The children of a fork are independent tasks. A storage with a state answers one call at a time,
and which task makes the next call is left open: a **step** of a job is one call of one of its
tasks, or the moment at which a fork whose children have all succeeded goes on. A **run** is any
sequence of steps, together with the calls it made and the replies they got.

A fork has failed as soon as one of its children has failed and all before it have succeeded. The
children after that one are not waited for, and go on making calls: a job may have a result while
steps are still possible.

Main results: no run goes on for ever (`wellFounded_stepsTo`), a run without a result can go on
(`result?_isSome_or_exists_step`), running a job call after call is one of its runs
(`exists_run_sequential`), and what a run returns depends on the calls and their replies alone, in
no particular order (`Run.yields`). Of a run that has not come to its end, or fails, the calls it
has made so far are known as well (`Run.begins`).
-/

namespace FileRoutes

/-- A call with the reply that it got. -/
structure Event where
  /-- The call. -/
  call : Call
  /-- The reply to it. -/
  reply : Except Fault call.Reply

/-- A directory was listed. -/
def Event.listed (path : Path) (listing : List Listed) : Event :=
  ⟨.list path, .ok listing⟩

/-- A call of another sort lists nothing. -/
theorem Event.listed_mem_cons_iff {e : Event} (h : e.call.kind ≠ .list) {path : Path}
    {listing : List Listed} {events : Multiset Event} :
    Event.listed path listing ∈ e ::ₘ events ↔ Event.listed path listing ∈ events := by
  rw [Multiset.mem_cons, or_iff_right]
  rintro rfl
  exact h rfl

/-- What a storage with a state replies to a call, and its state afterwards. -/
def Storage.answer {σ : Type} (storage : Storage (StateM σ)) (c : Call) (s : σ) :
    Except Fault c.Reply × σ :=
  (storage c).run s

namespace Job

variable {α σ : Type}

/-- Induction on a job: over the jobs that follow each reply, and over the children of a fork. -/
@[elab_as_elim]
theorem induct {motive : Job α → Prop} (done : ∀ r, motive (.done r))
    (call : ∀ c next, (∀ reply, motive (next reply)) → motive (.call c next))
    (fork : ∀ children next, (∀ job ∈ children, motive job) →
      (∀ values, motive (next values)) → motive (.fork children next)) (job : Job α) :
    motive job :=
  @Job.rec α motive (fun jobs => ∀ job ∈ jobs, motive job) done call
    (fun children next hchildren hnext => fork children next hchildren hnext)
    (fun _ hjob => absurd hjob List.not_mem_nil)
    (fun _ _ hjob hrest => List.forall_mem_cons.2 ⟨hjob, hrest⟩) job

/-! ### Results -/

mutual

/-- What a job has returned, if it has returned. -/
def result? : Job α → Option (Except Fault α)
  | .done r => some r
  | .call _ _ => none
  | .fork children _ => (firstFault? children).map .error

/-- The fault of the first job that has not succeeded, if that one has failed. -/
def firstFault? : List (Job α) → Option Fault
  | [] => none
  | job :: rest =>
    match result? job with
    | some (.ok _) => firstFault? rest
    | some (.error f) => some f
    | none => none

end

@[simp] theorem result?_done (r : Except Fault α) : (Job.done r).result? = some r := by
  simp [result?]

@[simp] theorem result?_call (c : Call) (next : Except Fault c.Reply → Job α) :
    (Job.call c next).result? = none := by
  simp [result?]

@[simp] theorem result?_fork (children : List (Job α)) (next : List α → Job α) :
    (Job.fork children next).result? = (firstFault? children).map .error := by
  simp [result?]

@[simp] theorem firstFault?_nil : firstFault? ([] : List (Job α)) = none := by
  simp [firstFault?]

/-- Only a job that is done has succeeded. -/
theorem eq_done_of_result?_ok {job : Job α} {a : α} (h : job.result? = some (.ok a)) :
    job = .done (.ok a) := by
  cases job with
  | done r => simpa using h
  | call c next => simp at h
  | fork children next => simp at h

/-- The first fault: some child has failed with it, and all before that child have succeeded. -/
theorem firstFault?_eq_some_iff {jobs : List (Job α)} {f : Fault} :
    firstFault? jobs = some f ↔ ∃ before job after, jobs = before ++ job :: after ∧
      (∀ b ∈ before, ∃ a, b.result? = some (.ok a)) ∧ job.result? = some (.error f) := by
  constructor
  · intro h
    induction jobs with
    | nil => simp at h
    | cons job rest ih =>
      rw [firstFault?] at h
      split at h
      · next a ha =>
        obtain ⟨before, failed, after, rfl, hbefore, hfailed⟩ := ih h
        refine ⟨job :: before, failed, after, rfl, ?_, hfailed⟩
        exact List.forall_mem_cons.2 ⟨⟨a, ha⟩, hbefore⟩
      · next g hg =>
        obtain rfl : g = f := by simpa using h
        exact ⟨[], job, rest, rfl, by simp, hg⟩
      · simp at h
  · rintro ⟨before, job, after, rfl, hbefore, hjob⟩
    induction before with
    | nil => simp [firstFault?, hjob]
    | cons b rest ih =>
      obtain ⟨⟨a, ha⟩, hrest⟩ := List.forall_mem_cons.1 hbefore
      rw [List.cons_append, firstFault?, ha]
      exact ih hrest

/-! ### Steps and runs -/

/-- One step of a job on a storage, with the calls it makes. -/
inductive Step (storage : Storage (StateM σ)) : Job α → σ → List Event → Job α → σ → Prop
  /-- A call is answered. -/
  | call (c : Call) (next : Except Fault c.Reply → Job α) (s : σ) :
    Step storage (.call c next) s [⟨c, (storage.answer c s).1⟩]
      (next (storage.answer c s).1) (storage.answer c s).2
  /-- One of the children of a fork makes a step. -/
  | child {before after : List (Job α)} {job job' : Job α} {events : List Event} {s s' : σ}
    {next : List α → Job α} (h : Step storage job s events job' s') :
    Step storage (.fork (before ++ job :: after) next) s events
      (.fork (before ++ job' :: after) next) s'
  /-- A fork whose children have all succeeded goes on. -/
  | join (values : List α) (next : List α → Job α) (s : σ) :
    Step storage (.fork (values.map fun a => .done (.ok a)) next) s [] (next values) s

/-- Any number of steps, with the calls they make in order. -/
inductive Run (storage : Storage (StateM σ)) : Job α → σ → List Event → Job α → σ → Prop
  | refl (job : Job α) (s : σ) : Run storage job s [] job s
  | step {job job₁ job₂ : Job α} {s s₁ s₂ : σ} {first rest : List Event}
    (h : Step storage job s first job₁ s₁) (k : Run storage job₁ s₁ rest job₂ s₂) :
    Run storage job s (first ++ rest) job₂ s₂

variable {storage : Storage (StateM σ)}

/-- A call is answered in the state in which it is made. -/
theorem Step.reply_eq {job job' : Job α} {s s' : σ} {events : List Event} {e : Event}
    (h : Step storage job s events job' s') (he : e ∈ events) :
    e.reply = (storage.answer e.call s).1 := by
  induction h with
  | call c next s =>
    obtain rfl := List.mem_singleton.1 he
    rfl
  | child _ ih => exact ih he
  | join => simp at he

/-- Two runs in a row are one. -/
theorem Run.trans {job job₁ job₂ : Job α} {s s₁ s₂ : σ} {first rest : List Event}
    (h : Run storage job s first job₁ s₁) (k : Run storage job₁ s₁ rest job₂ s₂) :
    Run storage job s (first ++ rest) job₂ s₂ := by
  induction h with
  | refl => exact k
  | step h _ ih =>
    rw [List.append_assoc]
    exact .step h (ih k)

/-- A run of a child is one of its fork. -/
theorem Run.child {job job' : Job α} {s s' : σ} {events : List Event}
    (before after : List (Job α)) (next : List α → Job α)
    (h : Run storage job s events job' s') :
    Run storage (.fork (before ++ job :: after) next) s events
      (.fork (before ++ job' :: after) next) s' := by
  induction h with
  | refl => exact .refl _ _
  | step h _ ih => exact .step (.child h) ih

/-- Every reply of a run was given in a state that the run had come to. -/
theorem Run.exists_run_of_mem {job job' : Job α} {s s' : σ} {events : List Event} {e : Event}
    (h : Run storage job s events job' s') (he : e ∈ events) :
    ∃ before job₁ t, Run storage job s before job₁ t ∧ e.reply = (storage.answer e.call t).1 := by
  induction h with
  | refl => simp at he
  | step h _ ih =>
    rcases List.mem_append.1 he with he | he
    · exact ⟨[], _, _, .refl _ _, h.reply_eq he⟩
    · obtain ⟨before, job₁, t, hrun, hreply⟩ := ih he
      exact ⟨_, job₁, t, .step h hrun, hreply⟩

/-! ### Every run ends with a result -/

/-- Some step leads from one job and state to the other. -/
def StepsTo (storage : Storage (StateM σ)) (a b : Job α × σ) : Prop :=
  ∃ events, Step storage a.1 a.2 events b.1 b.2

/-- One job of a list is replaced by one that `R` relates to it. -/
private inductive OneMoves (R : Job α → Job α → Prop) : List (Job α) → List (Job α) → Prop
  | intro {before after : List (Job α)} {job job' : Job α} (h : R job' job) :
    OneMoves R (before ++ job' :: after) (before ++ job :: after)

private theorem acc_oneMoves {R : Job α → Job α → Prop} {jobs : List (Job α)}
    (h : ∀ job ∈ jobs, Acc R job) : Acc (OneMoves R) jobs := by
  induction jobs with
  | nil =>
    refine ⟨_, fun jobs hm => ?_⟩
    generalize hn : ([] : List (Job α)) = target at hm
    cases hm with
    | intro => simp at hn
  | cons job rest ih =>
    obtain ⟨hjob, hrest⟩ := List.forall_mem_cons.1 h
    have hacc := ih hrest
    clear ih h hrest
    -- either the first job moves or one of the others, each of them finitely often in a row
    induction hjob generalizing rest with
    | intro job _ ihjob =>
      induction hacc with
      | intro rest hrest ihrest =>
        refine ⟨_, fun jobs hm => ?_⟩
        generalize hn : job :: rest = target at hm
        cases hm with
        | @intro before after moving moved hmove =>
          cases before with
          | nil =>
            obtain ⟨rfl, rfl⟩ := List.cons.inj hn
            exact ihjob moved hmove _ ⟨_, hrest⟩
          | cons b before =>
            obtain ⟨rfl, rfl⟩ := List.cons.inj hn
            exact ihrest _ (.intro hmove)

/-- Without regard to the state, no job makes steps for ever. -/
private theorem acc_of_step (storage : Storage (StateM σ)) (job : Job α) :
    Acc (fun job' job => ∃ s events s', Step storage job s events job' s') job := by
  induction job using induct with
  | done r => exact ⟨_, fun job' ⟨s, events, s', h⟩ => by cases h⟩
  | call c next ih =>
    refine ⟨_, fun job' ⟨s, events, s', h⟩ => ?_⟩
    cases h
    exact ih _
  | fork children next ihchildren ihnext =>
    have hacc := acc_oneMoves ihchildren
    clear ihchildren
    induction hacc with
    | intro children _ ih =>
      refine ⟨_, fun job' ⟨s, events, s', h⟩ => ?_⟩
      cases h with
      | child h => exact ih _ (.intro ⟨_, _, _, h⟩)
      | join values => exact ihnext values

/-- No job makes steps for ever, whatever the order. -/
theorem wellFounded_stepsTo (storage : Storage (StateM σ)) :
    WellFounded fun b a : Job α × σ => StepsTo storage a b :=
  Subrelation.wf (fun {_ _} ⟨events, h⟩ => ⟨_, events, _, h⟩)
    (InvImage.wf Prod.fst ⟨acc_of_step storage⟩)

/-- A job that has not returned can make a step. -/
theorem result?_isSome_or_exists_step (storage : Storage (StateM σ)) (job : Job α) (s : σ) :
    (∃ r, job.result? = some r) ∨ ∃ b, StepsTo storage (job, s) b := by
  induction job using induct with
  | done r => exact .inl ⟨r, result?_done r⟩
  | call c next => exact .inr ⟨(_, _), _, .call c next s⟩
  | fork children next ih =>
    by_cases hstep : ∃ child ∈ children, ∃ b, StepsTo storage (child, s) b
    · obtain ⟨child, hchild, ⟨job', s'⟩, events, h⟩ := hstep
      obtain ⟨before, after, rfl⟩ := List.append_of_mem hchild
      exact .inr ⟨(_, _), events, .child h⟩
    · have hresult : ∀ child ∈ children, ∃ r, child.result? = some r := fun child hchild =>
        (ih child hchild).resolve_right fun hb => hstep ⟨child, hchild, hb⟩
      -- no child can move, so all of them have returned
      cases hf : firstFault? children with
      | some f => exact .inl ⟨.error f, by simp [hf]⟩
      | none =>
        obtain ⟨values, rfl⟩ : ∃ values : List α,
            children = values.map fun a => .done (.ok a) := by
          clear ih hstep
          induction children with
          | nil => exact ⟨[], rfl⟩
          | cons child rest ihrest =>
            obtain ⟨⟨r, hr⟩, hrest⟩ := List.forall_mem_cons.1 hresult
            cases r with
            | error f => simp [firstFault?, hr] at hf
            | ok a =>
              obtain ⟨values, hvalues⟩ := ihrest hrest (by simpa [firstFault?, hr] using hf)
              exact ⟨a :: values, by rw [List.map_cons, ← hvalues, eq_done_of_result?_ok hr]⟩
        exact .inr ⟨(_, _), [], .join values next s⟩

/-! ### Call after call -/

/-- Jobs that have these results: either all have succeeded, or the first fault is that of the
results. -/
theorem gather_of_results {jobs : List (Job α)} {results : List (Except Fault α)}
    (h : jobs.map result? = results.map some) :
    match gather results with
    | .ok values => jobs = values.map fun a => .done (.ok a)
    | .error f => firstFault? jobs = some f := by
  induction results generalizing jobs with
  | nil => simpa [gather] using h
  | cons r rest ih =>
    obtain ⟨job, jobs, rfl, hjob, hjobs⟩ := List.map_eq_cons_iff.1 h
    have hrest := ih hjobs
    cases r with
    | error f => simp [gather, firstFault?, hjob]
    | ok a =>
      cases hg : gather rest with
      | ok values =>
        rw [hg] at hrest
        simp only [gather, hg]
        rw [List.map_cons, eq_done_of_result?_ok hjob, ← hrest]
      | error f =>
        rw [hg] at hrest
        simpa [gather, hg, firstFault?, hjob] using hrest

/-- Children that can each be run call after call can be run so one after the other, next to those
that have been run before. -/
private theorem exists_run_runEach (next : List α → Job α) {children : List (Job α)}
    (ih : ∀ job ∈ children, ∀ s, ∃ events job', Run storage job s events job'
      ((job.run storage).run s).2 ∧ job'.result? = some ((job.run storage).run s).1)
    (before : List (Job α)) (s : σ) :
    ∃ events jobs, Run storage (.fork (before ++ children) next) s events
        (.fork (before ++ jobs) next) ((runEach storage children).run s).2 ∧
      jobs.map result? = ((runEach storage children).run s).1.map some := by
  induction children generalizing before s with
  | nil => exact ⟨[], [], .refl _ _, by rw [runEach_nil]; rfl⟩
  | cons job rest ihrest =>
    obtain ⟨hjob, hrest⟩ := List.forall_mem_cons.1 ih
    obtain ⟨first, job', hrun, hresult⟩ := hjob s
    obtain ⟨more, jobs, hruns, hresults⟩ :=
      ihrest hrest (before ++ [job']) ((job.run storage).run s).2
    rw [List.append_assoc, List.append_assoc] at hruns
    refine ⟨first ++ more, job' :: jobs, (hrun.child before rest next).trans ?_, ?_⟩
    · rw [runEach]
      exact hruns
    · rw [List.map_cons, hresult, hresults, runEach]
      rfl

/-- Running a job call after call is one of its runs. -/
theorem exists_run_sequential (storage : Storage (StateM σ)) (job : Job α) (s : σ) :
    ∃ events job', Run storage job s events job' ((job.run storage).run s).2 ∧
      job'.result? = some ((job.run storage).run s).1 := by
  induction job using induct generalizing s with
  | done r => exact ⟨[], _, .refl _ _, by rw [run_done]; rfl⟩
  | call c next ih =>
    obtain ⟨events, job', hrun, hresult⟩ := ih (storage.answer c s).1 (storage.answer c s).2
    rw [run_call]
    exact ⟨_, job', .step (.call c next s) hrun, hresult⟩
  | fork children next ihchildren ihnext =>
    -- all children are run, those after a failed one too, before the fork goes on or fails
    obtain ⟨events, jobs, hrun, hresults⟩ := exists_run_runEach next ihchildren [] s
    have hgather := gather_of_results hresults
    have hseq : ((Job.fork children next).run storage).run s =
        match gather ((runEach storage children).run s).1 with
        | .ok values => ((next values).run storage).run ((runEach storage children).run s).2
        | .error f => (.error f, ((runEach storage children).run s).2) := by
      rw [run]
      change ((match gather ((runEach storage children).run s).1 with
        | .ok values => (next values).run storage
        | .error f => pure (.error f)) : StateM σ _).run ((runEach storage children).run s).2 = _
      cases gather ((runEach storage children).run s).1 <;> rfl
    rw [hseq]
    cases hg : gather ((runEach storage children).run s).1 with
    | error f =>
      rw [hg] at hgather
      exact ⟨events, _, hrun, by simp [hgather]⟩
    | ok values =>
      rw [hg] at hgather
      obtain ⟨more, job', hmore, hresult⟩ :=
        ihnext values ((runEach storage children).run s).2
      subst hgather
      exact ⟨_, job', hrun.trans (.step (.join values next _) hmore), hresult⟩

/-! ### What a job returns -/

/-- The job returns `a` when its calls get these replies. In which order the calls of independent
tasks are made is left open. -/
inductive Yields : Job α → Multiset Event → α → Prop
  | done (a : α) : Yields (.done (.ok a)) 0 a
  | call {c : Call} {next : Except Fault c.Reply → Job α} (reply : Except Fault c.Reply)
    {events : Multiset Event} {a : α} (h : Yields (next reply) events a) :
    Yields (.call c next) (⟨c, reply⟩ ::ₘ events) a
  /-- The children with the calls they make and the values they return. -/
  | fork (family : List (Job α × Multiset Event × α)) {next : List α → Job α}
    {events : Multiset Event} {a : α} (h : ∀ x ∈ family, Yields x.1 x.2.1 x.2.2)
    (k : Yields (next (family.map fun x => x.2.2)) events a) :
    Yields (.fork (family.map Prod.fst) next) ((family.map fun x => x.2.1).sum + events) a

@[simp] theorem yields_done_iff {r : Except Fault α} {events : Multiset Event} {a : α} :
    Yields (.done r) events a ↔ r = .ok a ∧ events = 0 := by
  constructor
  · intro h
    cases h
    exact ⟨rfl, rfl⟩
  · rintro ⟨rfl, rfl⟩
    exact .done a

theorem yields_call_iff {c : Call} {next : Except Fault c.Reply → Job α}
    {events : Multiset Event} {a : α} :
    Yields (.call c next) events a ↔
      ∃ reply rest, events = ⟨c, reply⟩ ::ₘ rest ∧ Yields (next reply) rest a := by
  constructor
  · intro h
    cases h with
    | call reply h => exact ⟨reply, _, rfl, h⟩
  · rintro ⟨reply, rest, rfl, h⟩
    exact .call reply h

theorem yields_fork_iff {children : List (Job α)} {next : List α → Job α}
    {events : Multiset Event} {a : α} :
    Yields (.fork children next) events a ↔
      ∃ (family : List (Job α × Multiset Event × α)) (rest : Multiset Event),
        children = family.map Prod.fst ∧ events = (family.map fun x => x.2.1).sum + rest ∧
        (∀ x ∈ family, Yields x.1 x.2.1 x.2.2) ∧
        Yields (next (family.map fun x => x.2.2)) rest a := by
  constructor
  · intro h
    cases h with
    | fork family h k => exact ⟨family, _, rfl, rfl, h, k⟩
  · rintro ⟨family, rest, rfl, rfl, h, k⟩
    exact .fork family h k

/-- A step adds its calls to those that follow. -/
theorem Step.yields {job job' : Job α} {s s' : σ} {first : List Event} {events : Multiset Event}
    {a : α} (h : Step storage job s first job' s') (k : Yields job' events a) :
    Yields job (first + events) a := by
  induction h generalizing events a with
  | call c next s => exact .call _ k
  | @child before after job job' first s s' next h ih =>
    obtain ⟨family, rest, hchildren, rfl, hfamily, hnext⟩ := yields_fork_iff.1 k
    obtain ⟨fb, frest, rfl, rfl, hrest⟩ := List.map_eq_append_iff.1 hchildren.symm
    obtain ⟨x, fa, rfl, rfl, rfl⟩ := List.map_eq_cons_iff.1 hrest
    rw [List.forall_mem_append, List.forall_mem_cons] at hfamily
    obtain ⟨hbefore, hx, hafter⟩ := hfamily
    -- the child that moved made these calls first, and the others make theirs as before
    have hall : ∀ y ∈ fb ++ (job, (first : Multiset Event) + x.2.1, x.2.2) :: fa,
        Yields y.1 y.2.1 y.2.2 :=
      List.forall_mem_append.2 ⟨hbefore, List.forall_mem_cons.2 ⟨ih hx, hafter⟩⟩
    have hvalues : Yields (next ((fb ++ (job, (first : Multiset Event) + x.2.1, x.2.2) :: fa).map
        fun y => y.2.2)) rest a := by simpa using hnext
    have hjob := Yields.fork _ hall hvalues
    convert hjob using 1
    · simp
    · simp only [List.map_append, List.map_cons, List.sum_append, List.sum_cons]
      abel
  | join values next s =>
    have hvalues : Yields (next ((values.map fun a =>
        ((Job.done (.ok a), 0, a) : Job α × Multiset Event × α)).map fun y => y.2.2)) events a := by
      simpa [Function.comp_def] using k
    have hdone := Yields.fork _ (by simp) hvalues
    convert hdone using 1
    · simp [Function.comp_def]
    · simp [Function.comp_def]

/-- A job that has run to a result has returned it from the calls of the run. -/
theorem Run.yields {job job' : Job α} {s s' : σ} {events : List Event} {a : α}
    (h : Run storage job s events job' s') (hresult : job'.result? = some (.ok a)) :
    Yields job events a := by
  induction h with
  | refl job s =>
    rw [eq_done_of_result?_ok hresult]
    exact .done a
  | step h _ ih =>
    rw [← Multiset.coe_add]
    exact h.yields (ih hresult)

/-! ### What a job has done so far -/

/-- The job may have made these calls so far, with these replies. What follows a fork may have begun
with any values, and while nothing has followed it, some of the children may have begun. -/
inductive Begins : Job α → Multiset Event → Prop
  | start (job : Job α) : Begins job 0
  | call {c : Call} {next : Except Fault c.Reply → Job α} (reply : Except Fault c.Reply)
    {events : Multiset Event} (h : Begins (next reply) events) :
    Begins (.call c next) (⟨c, reply⟩ ::ₘ events)
  /-- The children with the calls they have made. -/
  | fork (family : List (Job α × Multiset Event)) {next : List α → Job α} (values : List α)
    {events : Multiset Event} (h : ∀ x ∈ family, Begins x.1 x.2)
    (k : Begins (next values) events) :
    Begins (.fork (family.map Prod.fst) next) ((family.map Prod.snd).sum + events)

@[simp] theorem begins_done_iff {r : Except Fault α} {events : Multiset Event} :
    Begins (.done r) events ↔ events = 0 := by
  constructor
  · intro h
    cases h
    rfl
  · rintro rfl
    exact .start _

theorem begins_call_iff {c : Call} {next : Except Fault c.Reply → Job α}
    {events : Multiset Event} :
    Begins (.call c next) events ↔
      events = 0 ∨ ∃ reply rest, events = ⟨c, reply⟩ ::ₘ rest ∧ Begins (next reply) rest := by
  constructor
  · intro h
    cases h with
    | start => exact .inl rfl
    | call reply h => exact .inr ⟨reply, _, rfl, h⟩
  · rintro (rfl | ⟨reply, rest, rfl, h⟩)
    · exact .start _
    · exact .call reply h

theorem begins_fork_iff {children : List (Job α)} {next : List α → Job α}
    {events : Multiset Event} :
    Begins (.fork children next) events ↔
      ∃ (family : List (Job α × Multiset Event)) (values : List α) (rest : Multiset Event),
        children = family.map Prod.fst ∧ events = (family.map Prod.snd).sum + rest ∧
        (∀ x ∈ family, Begins x.1 x.2) ∧ Begins (next values) rest := by
  constructor
  · intro h
    cases h with
    | start =>
      refine ⟨children.map fun job => (job, 0), [], 0, ?_, ?_, ?_, .start _⟩
      · simp [Function.comp_def]
      · simp [Function.comp_def]
      · exact List.forall_mem_map.2 fun job _ => .start job
    | fork family values h k => exact ⟨family, values, _, rfl, rfl, h, k⟩
  · rintro ⟨family, values, rest, rfl, rfl, h, k⟩
    exact .fork family values h k

/-- A step adds its calls to those that follow. -/
theorem Step.begins {job job' : Job α} {s s' : σ} {first : List Event} {events : Multiset Event}
    (h : Step storage job s first job' s') (k : Begins job' events) :
    Begins job (first + events) := by
  induction h generalizing events with
  | call c next s => exact .call _ k
  | @child before after job job' first s s' next h ih =>
    obtain ⟨family, values, rest, hchildren, rfl, hfamily, hnext⟩ := begins_fork_iff.1 k
    obtain ⟨fb, frest, rfl, rfl, hrest⟩ := List.map_eq_append_iff.1 hchildren.symm
    obtain ⟨x, fa, rfl, rfl, rfl⟩ := List.map_eq_cons_iff.1 hrest
    rw [List.forall_mem_append, List.forall_mem_cons] at hfamily
    obtain ⟨hbefore, hx, hafter⟩ := hfamily
    have hjob := Begins.fork (fb ++ (job, (first : Multiset Event) + x.2) :: fa) values
      (List.forall_mem_append.2 ⟨hbefore, List.forall_mem_cons.2 ⟨ih hx, hafter⟩⟩) hnext
    convert hjob using 1
    · simp
    · simp only [List.map_append, List.map_cons, List.sum_append, List.sum_cons]
      abel
  | join values next s =>
    have hdone := Begins.fork (values.map fun a => ((.done (.ok a), 0) : Job α × Multiset Event))
      values (by simp) k
    convert hdone using 1
    · simp [Function.comp_def]
    · simp [Function.comp_def]

/-- A job that is run has made the calls of the run so far. -/
theorem Run.begins {job job' : Job α} {s s' : σ} {events : List Event}
    (h : Run storage job s events job' s') : Begins job events := by
  induction h with
  | refl job s => exact .start job
  | step h _ ih =>
    rw [← Multiset.coe_add]
    exact h.begins ih

end Job

end FileRoutes
