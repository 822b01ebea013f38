import FileRoutes.Proofs.Interleaving

/-!
# Jobs that mirror each other

Two jobs **mirror** each other on a storage if they make their calls side by side: each call of one
has a counterpart in the other that changes the state in the same way, and whatever they are
answered, they go on side by side. In the end both have failed or both have succeeded, with results
that are alike.

Mirroring is judged job by job, from every state that satisfies an invariant. What it gives holds in
every interleaved run: for each run of one job there is a run of the other through the same states
(`Mirrors.step`, `Mirrors.run`), and one has returned whenever the other has
(`Mirrors.rel_result?`).
-/

namespace FileRoutes

/-- Both have succeeded with values that `R` relates, or both have failed with faults that `E`
relates. -/
inductive Likewise {α β : Type} (R : α → β → Prop) (E : Fault → Fault → Prop) :
    Except Fault α → Except Fault β → Prop
  | ok {a : α} {b : β} (h : R a b) : Likewise R E (.ok a) (.ok b)
  | error {f g : Fault} (h : E f g) : Likewise R E (.error f) (.error g)

namespace Job

variable {α β σ : Type}

/-- From every state with the invariant, the jobs make calls that change it in the same way, and
they return results that are alike. -/
inductive Mirrors (storage : Storage (StateM σ)) (Inv : σ → Prop) (R : α → β → Prop)
    (E : Fault → Fault → Prop) : Job α → Job β → Prop
  | done {r : Except Fault α} {r' : Except Fault β} (h : Likewise R E r r') :
    Mirrors storage Inv R E (.done r) (.done r')
  | call {c c' : Call} {next : Except Fault c.Reply → Job α} {next' : Except Fault c'.Reply → Job β}
    (keeps : ∀ s, Inv s → Inv (storage.answer c s).2)
    (state : ∀ s, Inv s → (storage.answer c' s).2 = (storage.answer c s).2)
    (follow : ∀ s, Inv s →
      Mirrors storage Inv R E (next (storage.answer c s).1) (next' (storage.answer c' s).1)) :
    Mirrors storage Inv R E (.call c next) (.call c' next')
  /-- The children of both forks side by side. -/
  | fork (family : List (Job α × Job β)) {next : List α → Job α} {next' : List β → Job β}
    (children : ∀ x ∈ family, Mirrors storage Inv R E x.1 x.2)
    (follow : ∀ values values', List.Forall₂ R values values' →
      Mirrors storage Inv R E (next values) (next' values')) :
    Mirrors storage Inv R E (.fork (family.map Prod.fst) next) (.fork (family.map Prod.snd) next')

variable {storage : Storage (StateM σ)} {Inv : σ → Prop} {R : α → β → Prop}
  {E : Fault → Fault → Prop} {job : Job α} {job' : Job β}

/-- Jobs that make the same call mirror each other if they do so after each reply. -/
theorem Mirrors.same_call {c : Call} {next : Except Fault c.Reply → Job α}
    {next' : Except Fault c.Reply → Job β} (keeps : ∀ s, Inv s → Inv (storage.answer c s).2)
    (follow : ∀ reply, Mirrors storage Inv R E (next reply) (next' reply)) :
    Mirrors storage Inv R E (.call c next) (.call c next') :=
  .call keeps (fun _ _ => rfl) fun _ _ => follow _

/-- Forks with a child for each item of two lists. -/
theorem Mirrors.fork_map {ι κ : Type} {items : List ι} {items' : List κ} {child : ι → Job α}
    {child' : κ → Job β} {next : List α → Job α} {next' : List β → Job β}
    (children : List.Forall₂ (fun i k => Mirrors storage Inv R E (child i) (child' k)) items items')
    (follow : ∀ values values', List.Forall₂ R values values' →
      Mirrors storage Inv R E (next values) (next' values')) :
    Mirrors storage Inv R E (.fork (items.map child) next) (.fork (items'.map child') next') := by
  obtain ⟨family, hfst, hsnd, hfamily⟩ : ∃ family : List (Job α × Job β),
      family.map Prod.fst = items.map child ∧ family.map Prod.snd = items'.map child' ∧
        ∀ x ∈ family, Mirrors storage Inv R E x.1 x.2 := by
    induction children with
    | nil => exact ⟨[], rfl, rfl, by simp⟩
    | @cons i k items items' h _ ih =>
      obtain ⟨family, hfst, hsnd, hfamily⟩ := ih
      refine ⟨(child i, child' k) :: family, ?_, ?_, List.forall_mem_cons.2 ⟨h, hfamily⟩⟩
      · rw [List.map_cons, List.map_cons, hfst]
      · rw [List.map_cons, List.map_cons, hsnd]
  rw [← hfst, ← hsnd]
  exact .fork family hfamily follow

/-- The first faults of jobs whose results are alike. -/
private theorem rel_firstFault? {family : List (Job α × Job β)}
    (h : ∀ x ∈ family, Option.Rel (Likewise R E) x.1.result? x.2.result?) :
    Option.Rel E (firstFault? (family.map Prod.fst)) (firstFault? (family.map Prod.snd)) := by
  induction family with
  | nil => simp
  | cons x rest ih =>
    obtain ⟨hx, hrest⟩ := List.forall_mem_cons.1 h
    simp only [List.map_cons, firstFault?]
    generalize x.1.result? = r at hx
    generalize x.2.result? = r' at hx
    cases hx with
    | none => exact .none
    | some hr =>
      cases hr with
      | ok => exact ih hrest
      | error hf => exact .some hf

/-- **Jobs that mirror each other have returned together**, with results that are alike. -/
theorem Mirrors.rel_result? (h : Mirrors storage Inv R E job job') :
    Option.Rel (Likewise R E) job.result? job'.result? := by
  induction h with
  | done h => simpa using Option.Rel.some h
  | call => simp
  | fork family _ _ ih =>
    have hfaults := rel_firstFault? ih
    simp only [result?_fork]
    generalize firstFault? (family.map Prod.fst) = f at hfaults
    generalize firstFault? (family.map Prod.snd) = g at hfaults
    cases hfaults with
    | none => exact .none
    | some hf => exact .some (.error hf)

/-- A job that mirrors one that has returned has done so as well. -/
theorem Mirrors.exists_result? (h : Mirrors storage Inv R E job job') {r : Except Fault α}
    (hr : job.result? = some r) : ∃ r', job'.result? = some r' ∧ Likewise R E r r' := by
  have hrel := h.rel_result?
  rw [hr] at hrel
  generalize job'.result? = result? at hrel
  cases hrel with
  | some h => exact ⟨_, rfl, h⟩

/-- A job that mirrors one that has not returned has not done so either. -/
theorem Mirrors.result?_eq_none (h : Mirrors storage Inv R E job job') (hr : job.result? = none) :
    job'.result? = none := by
  have hrel := h.rel_result?
  rw [hr] at hrel
  generalize job'.result? = result? at hrel
  cases hrel
  rfl

/-- A job that mirrors one that has succeeded has done so as well. -/
private theorem Mirrors.exists_eq_done {a : α}
    (h : Mirrors storage Inv R E (.done (.ok a)) job') :
    ∃ b, job' = .done (.ok b) ∧ R a b := by
  cases h with
  | done h =>
    cases h with
    | ok h => exact ⟨_, rfl, h⟩

/-- A step of one job is matched by a step of the other. -/
theorem Mirrors.step (h : Mirrors storage Inv R E job job') {s t : σ} (hs : Inv s) {job₁ : Job α}
    {events : List Event} (step : Step storage job s events job₁ t) :
    Inv t ∧ ∃ events' job₁', Step storage job' s events' job₁' t ∧
      Mirrors storage Inv R E job₁ job₁' := by
  induction step generalizing job' with
  | call c next s =>
    cases h with
    | @call _ c' _ next' keeps state follow =>
      have hstep : Step storage (.call c' next') s _ _ _ := .call c' next' s
      rw [state s hs] at hstep
      exact ⟨keeps s hs, _, _, hstep, follow s hs⟩
  | @child before after job job₁ events s t next _ ih =>
    generalize hfork : Job.fork (before ++ job :: after) next = fork at h
    cases h with
    | done => cases hfork
    | call => cases hfork
    | @fork family _ next' children follow =>
      obtain ⟨hchildren, rfl⟩ := Job.fork.inj hfork
      obtain ⟨fb, frest, rfl, rfl, hrest⟩ := List.map_eq_append_iff.1 hchildren.symm
      obtain ⟨x, fa, rfl, rfl, rfl⟩ := List.map_eq_cons_iff.1 hrest
      obtain ⟨hbefore, hx, hafter⟩ : (∀ y ∈ fb, _) ∧ _ ∧ ∀ y ∈ fa, _ := by
        simpa only [List.forall_mem_append, List.forall_mem_cons] using children
      obtain ⟨ht, events', job₁', hstep, hjob⟩ := ih hx hs
      -- the counterpart of the child that moved moves, and all others stay side by side
      refine ⟨ht, events', .fork (fb.map Prod.snd ++ job₁' :: fa.map Prod.snd) next', ?_, ?_⟩
      · simpa using Step.child hstep
      · have hall : ∀ y ∈ fb ++ (job₁, job₁') :: fa, Mirrors storage Inv R E y.1 y.2 :=
          List.forall_mem_append.2 ⟨hbefore, List.forall_mem_cons.2 ⟨hjob, hafter⟩⟩
        have hfork := Mirrors.fork (fb ++ (job₁, job₁') :: fa) hall follow
        simpa using hfork
  | join values next s =>
    generalize hfork : Job.fork (values.map fun a => .done (.ok a)) next = fork at h
    cases h with
    | done => cases hfork
    | call => cases hfork
    | @fork family _ next' children follow =>
      obtain ⟨hchildren, rfl⟩ := Job.fork.inj hfork
      obtain ⟨values', hsnd, hvalues⟩ : ∃ values' : List β,
          family.map Prod.snd = values'.map (fun b => .done (.ok b)) ∧
            List.Forall₂ R values values' := by
        clear hfork follow
        induction family generalizing values with
        | nil =>
          obtain rfl : values = [] := by simpa using hchildren
          exact ⟨[], rfl, .nil⟩
        | cons x rest ih =>
          obtain ⟨a, values, rfl, hx, hrest⟩ := List.map_eq_cons_iff.1 hchildren
          obtain ⟨hfirst, hothers⟩ := List.forall_mem_cons.1 children
          rw [← hx] at hfirst
          obtain ⟨b, hb, hab⟩ := hfirst.exists_eq_done
          obtain ⟨values', hsnd, hvalues⟩ := ih values hothers hrest
          exact ⟨b :: values', by rw [List.map_cons, List.map_cons, hb, hsnd], .cons hab hvalues⟩
      rw [hsnd]
      exact ⟨hs, [], _, .join values' next' s, follow values values' hvalues⟩

/-- **A run of one job is matched by a run of the other** through the same states. -/
theorem Mirrors.run (h : Mirrors storage Inv R E job job') {s t : σ} (hs : Inv s) {job₁ : Job α}
    {events : List Event} (run : Run storage job s events job₁ t) :
    ∃ events' job₁', Run storage job' s events' job₁' t ∧ Mirrors storage Inv R E job₁ job₁' := by
  induction run generalizing job' with
  | refl job s => exact ⟨[], job', .refl _ _, h⟩
  | step step _ ih =>
    obtain ⟨ht, first, job₁', hstep, hjob⟩ := h.step hs step
    obtain ⟨rest, job₂', hrun, hjob'⟩ := ih hjob ht
    exact ⟨first ++ rest, job₂', .step hstep hrun, hjob'⟩

end Job

end FileRoutes
