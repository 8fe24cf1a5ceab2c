import StaticCompanion.Proofs.Steps

namespace StaticCompanion

section Values
variable {ε ε' α β : Type}

theorem except_bind_eq_error {step : Except ε α} {next : α → Except ε β} {e : ε} :
    step >>= next = .error e ↔ step = .error e ∨ ∃ a, step = .ok a ∧ next a = .error e := by
  cases step <;> simp [bind, Except.bind]

theorem mapError_eq_error {step : Except ε α} {f : ε → ε'} {e : ε'} :
    step.mapError f = .error e ↔ ∃ cause, step = .error cause ∧ f cause = e := by
  cases step <;> simp [Except.mapError]

theorem exists_of_filterMapM_eq_error {f : α → Except ε (Option β)} {as : List α} {e : ε}
    (h : as.filterMapM f = .error e) : ∃ a ∈ as, f a = .error e := by
  induction as with
  | nil => cases h
  | cons a as ih =>
    rw [List.filterMapM_cons, except_bind_eq_error] at h
    rcases h with hfirst | ⟨o, -, hrest⟩
    · exact ⟨a, List.mem_cons_self, hfirst⟩
    · have hlater : as.filterMapM f = .error e := by
        cases o with
        | none => exact hrest
        | some b =>
          rcases except_bind_eq_error.mp hrest with hlater | ⟨bs, -, hlast⟩
          · exact hlater
          · cases hlast
      obtain ⟨a', hmem, hfault⟩ := ih hlater
      exact ⟨a', List.mem_cons_of_mem a hmem, hfault⟩

end Values

section States
variable {ε σ α β : Type} {s s' : σ}

theorem state_bind_eq_error {step : EStateM ε σ α} {next : α → EStateM ε σ β} {e : ε} :
    (step >>= next) s = .error e s' ↔
      step s = .error e s' ∨ ∃ a s₁, step s = .ok a s₁ ∧ next a s₁ = .error e s' := by
  simp only [bind, EStateM.bind]
  cases step s <;> simp

theorem state_bind_of_ok {step : EStateM ε σ α} {next : α → EStateM ε σ β} {a : α}
    (h : step s = .ok a s') : (step >>= next) s = next a s' := by
  simp only [bind, EStateM.bind, h]

theorem state_bind_of_error {step : EStateM ε σ α} {next : α → EStateM ε σ β} {e : ε}
    (h : step s = .error e s') : (step >>= next) s = .error e s' :=
  state_bind_eq_error.mpr (.inl h)

end States

namespace RelocationFault

/-- The fault is one of a layer below. -/
def IsCarried : RelocationFault → Prop
  | parse _ | generate _ | pool _ | descriptor _ => True
  | _ => False

variable {α : Type} {fault : RelocationFault}

theorem isCarried_of_mapError {ε : Type} {step : Except ε α} (carry : ε → RelocationFault)
    (hcarry : ∀ cause, (carry cause).IsCarried) (h : step.mapError carry = .error fault) :
    fault.IsCarried := by
  obtain ⟨cause, -, rfl⟩ := mapError_eq_error.mp h
  exact hcarry cause

end RelocationFault

section Lifting
variable {α σ : Type} {s s' : σ} {fault : RelocationFault}

theorem state_lift_eq_error {m : Type → Type} [MonadLiftT m (Except RelocationFault)] {step : m α} :
    (liftM step : EStateM RelocationFault σ α) s = .error fault s' ↔
      (liftM step : Except RelocationFault α) = .error fault ∧ s = s' := by
  change (MonadLift.monadLift (liftM step : Except RelocationFault α) :
    EStateM RelocationFault σ α) s = .error fault s' ↔ _
  simp only [MonadLift.monadLift]
  cases (liftM step : Except RelocationFault α) <;> simp

theorem isCarried_of_change {change : PoolM PoolFault α} {p q : ConstantPool}
    (h : (liftM change : Relocation α) p = .error fault q) : fault.IsCarried := by
  simp only [liftM, monadLift, MonadLift.monadLift] at h
  cases hrun : change p with
  | ok a left => simp [hrun] at h
  | error cause left =>
    simp only [hrun, EStateM.Result.error.injEq] at h
    rw [← h.1]
    trivial

end Lifting

end StaticCompanion
