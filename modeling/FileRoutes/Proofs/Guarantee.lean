import FileRoutes.Proofs.Interleaving
import Mathlib.Order.Defs.Unbundled

/-!
# Jobs among other tasks

While one task runs, others may change the state of the storage. What is known about such changes
is a preorder on states: `R s s'` says that the state may have become `s'` since it was `s`. A job
**ensures** `post` from a state on if, whatever other tasks do in between, every call it makes
changes the state by `R` only, and the result it returns with the state at that time satisfies
`post`, then and ever after.

Jobs are judged one by one: a fork ensures its `post` if each child ensures one of its own and
what follows can build on these (`Ensures.fork`), above all if it is known beforehand what each of
them returns (`Ensures.fork_known`). Judged so, the job keeps its promise in every interleaved run
(`Ensures.run`, `Ensures.post_of_result?`).
-/

namespace FileRoutes.Job

variable {α σ : Type}

/-- Among tasks that change the state by `R` only, the job does so too, and every result it
returns satisfies `post`. -/
inductive Ensures (storage : Storage (StateM σ)) (R : σ → σ → Prop) :
    Job α → σ → (Except Fault α → σ → Prop) → Prop
  | done {r : Except Fault α} {s : σ} {post : Except Fault α → σ → Prop}
    (h : ∀ s', R s s' → post r s') : Ensures storage R (.done r) s post
  | call {c : Call} {next : Except Fault c.Reply → Job α} {s : σ}
    {post : Except Fault α → σ → Prop} (h : ∀ s', R s s' → R s' (storage.answer c s').2)
    (k : ∀ s', R s s' →
      Ensures storage R (next (storage.answer c s').1) (storage.answer c s').2 post) :
    Ensures storage R (.call c next) s post
  /-- The children with what each of them ensures. -/
  | fork (family : List (Job α × (Except Fault α → σ → Prop))) {next : List α → Job α} {s : σ}
    {post : Except Fault α → σ → Prop} (children : ∀ x ∈ family, Ensures storage R x.1 s x.2)
    (succeed : ∀ s' values, R s s' →
      List.Forall₂ (fun p a => p (.ok a) s') (family.map Prod.snd) values →
      Ensures storage R (next values) s' post)
    (fail : ∀ s' before p after f, R s s' → family.map Prod.snd = before ++ p :: after →
      (∀ q ∈ before, ∃ a, q (.ok a) s') → p (.error f) s' → post (.error f) s') :
    Ensures storage R (.fork (family.map Prod.fst) next) s post

variable {storage : Storage (StateM σ)} {R : σ → σ → Prop} {job job' : Job α} {s s' : σ}
  {events : List Event} {post : Except Fault α → σ → Prop}

/-- A fork with a child for each item of a list. -/
theorem Ensures.fork_map {ι : Type} (items : List ι) {child : ι → Job α}
    (each : ι → Except Fault α → σ → Prop) {next : List α → Job α}
    (children : ∀ i ∈ items, Ensures storage R (child i) s (each i))
    (succeed : ∀ s' values, R s s' → List.Forall₂ (fun i a => each i (.ok a) s') items values →
      Ensures storage R (next values) s' post)
    (fail : ∀ s' before i after f, R s s' → items = before ++ i :: after →
      (∀ j ∈ before, ∃ a, each j (.ok a) s') → each i (.error f) s' → post (.error f) s') :
    Ensures storage R (.fork (items.map child) next) s post := by
  have hfst : (items.map fun i => (child i, each i)).map Prod.fst = items.map child := by
    simp [Function.comp_def]
  rw [← hfst]
  refine .fork _ (List.forall_mem_map.2 children) (fun s' values hs hvalues => ?_)
    fun s' before p after f hs hsplit hbefore hp => ?_
  · rw [List.map_map, List.forall₂_map_left_iff] at hvalues
    exact succeed s' values hs hvalues
  · rw [List.map_map] at hsplit
    obtain ⟨ib, irest, rfl, rfl, hrest⟩ := List.map_eq_append_iff.1 hsplit
    obtain ⟨i, ia, rfl, rfl, rfl⟩ := List.map_eq_cons_iff.1 hrest
    exact fail s' ib i ia f hs rfl (fun j hj => hbefore _ (List.mem_map_of_mem hj)) hp

/-- The first fault decides. -/
theorem gather_eq_error {before after : List (Except Fault α)} {f : Fault}
    (h : ∀ r ∈ before, ∃ a, r = .ok a) : gather (before ++ .error f :: after) = .error f := by
  induction before with
  | nil => rfl
  | cons r rest ih =>
    obtain ⟨⟨a, rfl⟩, hrest⟩ := List.forall_mem_cons.1 h
    rw [List.cons_append, gather, ih hrest]

/-- The fault that decides is one of those put together. -/
theorem error_mem_of_gather {results : List (Except Fault α)} {f : Fault}
    (h : gather results = .error f) : .error f ∈ results := by
  induction results with
  | nil => simp [gather] at h
  | cons r rest ih =>
    cases r with
    | error g =>
      obtain rfl : g = f := Except.error.inj h
      exact List.mem_cons_self
    | ok a =>
      cases hrest : gather rest with
      | ok as => simp [gather, hrest] at h
      | error g =>
        obtain rfl : g = f := by simpa [gather, hrest] using h
        exact List.mem_cons_of_mem _ (ih hrest)

/-- A fork whose children return what is known beforehand, and do something else as well if they
succeed: what is known says whether all of them do. -/
theorem Ensures.fork_known {ι : Type} {items : List ι} {child : ι → Job α}
    {known : ι → Except Fault α} {also : ι → σ → Prop} {next : List α → Job α}
    (children : ∀ i ∈ items, Ensures storage R (child i) s fun r t =>
      r = known i ∧ ∀ a, r = .ok a → also i t)
    (succeed : ∀ s' values, R s s' → gather (items.map known) = .ok values →
      (∀ i ∈ items, also i s') → Ensures storage R (next values) s' post)
    (fail : ∀ s' f, R s s' → gather (items.map known) = .error f → post (.error f) s') :
    Ensures storage R (.fork (items.map child) next) s post := by
  refine .fork_map items (fun i r t => r = known i ∧ ∀ a, r = .ok a → also i t) children
    (fun s' values hs hvalues => ?_) fun s' before i after f hs hsplit hbefore hi => ?_
  · obtain ⟨halso, hknown⟩ := (List.forall₂_and_left _ _).1
      (hvalues.imp fun i a h => (⟨h.2 a rfl, h.1⟩ : also i s' ∧ .ok a = known i))
    refine succeed s' values hs (gather_eq_ok_iff.2 ?_) halso
    rw [← List.forall₂_eq_eq_eq, List.forall₂_map_left_iff, List.forall₂_map_right_iff]
    exact hknown.imp fun i a h => h.symm
  · refine fail s' f hs ?_
    rw [hsplit, List.map_append, List.map_cons, ← hi.1]
    refine gather_eq_error (List.forall_mem_map.2 fun j hj => ?_)
    obtain ⟨a, ha, -⟩ := hbefore j hj
    exact ⟨a, ha.symm⟩

variable [IsPreorder σ R]

/-- What is ensured from a state on is ensured from every later one. -/
theorem Ensures.mono (h : Ensures storage R job s post) (hs : R s s') :
    Ensures storage R job s' post := by
  induction h with
  | done h => exact .done fun t ht => h t (trans_of R hs ht)
  | call h k _ =>
    exact .call (fun t ht => h t (trans_of R hs ht)) fun t ht => k t (trans_of R hs ht)
  | fork family _ succeed fail ih =>
    refine .fork family (fun x hx => ih x hx hs) (fun t values ht => ?_) fun t _ _ _ _ ht => ?_
    · exact succeed t values (trans_of R hs ht)
    · exact fail t _ _ _ _ (trans_of R hs ht)

/-- What follows from what is ensured is ensured as well. -/
theorem Ensures.imp (h : Ensures storage R job s post) {post' : Except Fault α → σ → Prop}
    (himp : ∀ r t, R s t → post r t → post' r t) : Ensures storage R job s post' := by
  induction h with
  | done h => exact .done fun t ht => himp _ t ht (h t ht)
  | call h k ih =>
    refine .call h fun t ht => ih t ht fun r u hu => ?_
    exact himp r u (trans_of R ht (trans_of R (h t ht) hu))
  | fork family children _ fail _ ihsucceed =>
    refine .fork family children (fun t values ht hv => ?_) fun t before p after f ht hf hb hp => ?_
    · exact ihsucceed t values ht hv fun r u hu => himp r u (trans_of R ht hu)
    · exact himp _ t ht (fail t before p after f ht hf hb hp)

/-- A result that has been returned is as ensured. -/
theorem Ensures.post_of_result? (h : Ensures storage R job s post) {r : Except Fault α}
    (hr : job.result? = some r) : post r s := by
  induction h generalizing r with
  | done h =>
    obtain rfl : _ = r := by simpa using hr
    exact h _ (refl_of R _)
  | call => simp at hr
  | @fork family next s post children _ fail ih _ =>
    obtain ⟨f, hf, rfl⟩ : ∃ f, firstFault? (family.map Prod.fst) = some f ∧ .error f = r := by
      simpa using hr
    -- the child that failed and those before it have returned what each of them ensures
    obtain ⟨before, job, after, hsplit, hbefore, hjob⟩ := firstFault?_eq_some_iff.1 hf
    obtain ⟨fb, frest, rfl, rfl, hrest⟩ := List.map_eq_append_iff.1 hsplit
    obtain ⟨x, fa, rfl, rfl, rfl⟩ := List.map_eq_cons_iff.1 hrest
    refine fail s (fb.map Prod.snd) x.2 (fa.map Prod.snd) f (refl_of R s) (by simp) ?_
      (ih x (by simp) hjob)
    rintro _ hq
    obtain ⟨y, hy, rfl⟩ := List.mem_map.1 hq
    obtain ⟨a, ha⟩ := hbefore y.1 (List.mem_map_of_mem hy)
    exact ⟨a, ih y (by simp [hy]) ha⟩

/-- A step changes the state by `R`, and what is ensured stays so. -/
theorem Ensures.step (h : Ensures storage R job s post)
    (step : Step storage job s events job' s') : R s s' ∧ Ensures storage R job' s' post := by
  induction step generalizing post with
  | call c next s =>
    cases h with
    | call h k => exact ⟨h s (refl_of R s), k s (refl_of R s)⟩
  | @child before after job job' events s s' next step ih =>
    generalize hfork : Job.fork (before ++ job :: after) next = fork at h
    cases h with
    | done => cases hfork
    | call => cases hfork
    | fork family children succeed fail =>
      obtain ⟨hchildren, rfl⟩ := Job.fork.inj hfork
      obtain ⟨fb, frest, rfl, rfl, hrest⟩ := List.map_eq_append_iff.1 hchildren.symm
      obtain ⟨x, fa, rfl, rfl, rfl⟩ := List.map_eq_cons_iff.1 hrest
      obtain ⟨hbefore, hx, hafter⟩ : (∀ y ∈ fb, _) ∧ _ ∧ ∀ y ∈ fa, _ := by
        simpa only [List.forall_mem_append, List.forall_mem_cons] using children
      obtain ⟨hs, hjob'⟩ := ih hx
      refine ⟨hs, ?_⟩
      -- the child that moved ensures the same as before, and so do the others in the new state
      have hfork := @Ensures.fork _ _ storage R (fb ++ (job', x.2) :: fa) next s' post
        (List.forall_mem_append.2 ⟨fun y hy => (hbefore y hy).mono hs,
          List.forall_mem_cons.2 ⟨hjob', fun y hy => (hafter y hy).mono hs⟩⟩)
        (fun t values ht hv => succeed t values (trans_of R hs ht) (by simpa using hv))
        fun t before p after f ht hf =>
          fail t before p after f (trans_of R hs ht) (by simpa using hf)
      simpa using hfork
  | join values next s =>
    generalize hfork : Job.fork (values.map fun a => .done (.ok a)) next = fork at h
    cases h with
    | done => cases hfork
    | call => cases hfork
    | fork family children succeed fail =>
      obtain ⟨hchildren, rfl⟩ := Job.fork.inj hfork
      refine ⟨refl_of R s, succeed s values (refl_of R s) ?_⟩
      -- each child is done, and ensured the value that it is done with
      clear hfork succeed fail
      induction family generalizing values with
      | nil =>
        obtain rfl : values = [] := by simpa using hchildren
        exact .nil
      | cons x rest ih =>
        obtain ⟨a, values, rfl, hx, hrest⟩ := List.map_eq_cons_iff.1 hchildren
        obtain ⟨hfirst, hothers⟩ := List.forall_mem_cons.1 children
        refine .cons (hfirst.post_of_result? ?_) (ih values hothers hrest)
        rw [← hx, result?_done]

/-- In a run the state changes by `R`, and what is ensured stays so. -/
theorem Ensures.run (h : Ensures storage R job s post) (run : Run storage job s events job' s') :
    R s s' ∧ Ensures storage R job' s' post := by
  induction run with
  | refl job s => exact ⟨refl_of R s, h⟩
  | step step _ ih =>
    obtain ⟨hs, hjob⟩ := h.step step
    obtain ⟨hrest, hjob'⟩ := ih hjob
    exact ⟨trans_of R hs hrest, hjob'⟩

end FileRoutes.Job
