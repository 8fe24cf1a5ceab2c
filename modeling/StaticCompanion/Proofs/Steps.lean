import Mathlib.Data.List.Forall2
import Mathlib.Data.List.ReduceOption
import StaticCompanion.Relocation.Fault

namespace StaticCompanion

section Values
variable {ε ε' α β : Type}

@[simp]
theorem except_bind_eq_ok {step : Except ε α} {next : α → Except ε β} {b : β} :
    step >>= next = .ok b ↔ ∃ a, step = .ok a ∧ next a = .ok b := by
  cases step <;> simp [bind, Except.bind]

@[simp]
theorem except_map_eq_ok {step : Except ε α} {f : α → β} {b : β} :
    f <$> step = .ok b ↔ ∃ a, step = .ok a ∧ f a = b := by
  cases step <;> simp [Functor.map, Except.map]

@[simp]
theorem except_pure_eq_ok {a b : α} : (pure a : Except ε α) = .ok b ↔ a = b := by
  simp [pure, Except.pure]

@[simp]
theorem except_throw_ne_ok {e : ε} {b : α} : (throw e : Except ε α) ≠ .ok b := by
  simp [throw, throwThe, MonadExceptOf.throw]

@[simp]
theorem mapError_eq_ok {step : Except ε α} {f : ε → ε'} {b : α} :
    step.mapError f = .ok b ↔ step = .ok b := by
  cases step <;> simp [Except.mapError]

@[simp]
theorem toOption_eq_some {step : Except ε α} {a : α} : step.toOption = some a ↔ step = .ok a := by
  cases step <;> simp [Except.toOption]

theorem forall₂_mem_left {R : α → β → Prop} {as : List α} {bs : List β}
    (h : List.Forall₂ R as bs) {a : α} (ha : a ∈ as) : ∃ b ∈ bs, R a b := by
  induction h with
  | nil => cases ha
  | cons hab _ ih =>
    rcases List.mem_cons.mp ha with rfl | ha
    · exact ⟨_, List.mem_cons_self, hab⟩
    · obtain ⟨b, hb, hrel⟩ := ih ha
      exact ⟨b, List.mem_cons_of_mem _ hb, hrel⟩

theorem forall₂_mem_right {R : α → β → Prop} {as : List α} {bs : List β}
    (h : List.Forall₂ R as bs) {b : β} (hb : b ∈ bs) : ∃ a ∈ as, R a b :=
  forall₂_mem_left h.flip hb

theorem forall₂_comp {γ : Type} {R : α → β → Prop} {S : β → γ → Prop} {as : List α}
    {bs : List β} {cs : List γ} (hR : List.Forall₂ R as bs) (hS : List.Forall₂ S bs cs) :
    List.Forall₂ (fun a c => ∃ b, R a b ∧ S b c) as cs := by
  induction hR generalizing cs with
  | nil =>
    cases hS
    exact .nil
  | cons hab _ ih =>
    cases hS with
    | cons hbc hrest => exact .cons ⟨_, hab, hbc⟩ (ih hrest)

theorem exists_forall₂_of_comp {γ : Type} {R : α → β → Prop} {S : β → γ → Prop} {as : List α}
    {cs : List γ} (h : List.Forall₂ (fun a c => ∃ b, R a b ∧ S b c) as cs) :
    ∃ bs, List.Forall₂ R as bs ∧ List.Forall₂ S bs cs := by
  induction h with
  | nil => exact ⟨[], .nil, .nil⟩
  | cons hrow _ ih =>
    obtain ⟨b, hb, hc⟩ := hrow
    obtain ⟨bs, hbs, hcs⟩ := ih
    exact ⟨b :: bs, .cons hb hbs, .cons hc hcs⟩

theorem except_mapM_eq_ok {f : α → Except ε β} {as : List α} {bs : List β} :
    as.mapM f = .ok bs ↔ List.Forall₂ (fun a b => f a = .ok b) as bs := by
  induction as generalizing bs with
  | nil => simp [pure, Except.pure, eq_comm]
  | cons a as ih =>
    simp only [List.mapM_cons, except_bind_eq_ok, except_pure_eq_ok, List.forall₂_cons_left_iff]
    constructor
    · rintro ⟨b, hb, bs, hbs, rfl⟩
      exact ⟨b, bs, hb, ih.mp hbs, rfl⟩
    · rintro ⟨b, bs, hb, hbs, rfl⟩
      exact ⟨b, hb, bs, ih.mpr hbs, rfl⟩

theorem except_mapM_imp {f g : α → Except ε β} (himp : ∀ a b, f a = .ok b → g a = .ok b)
    {as : List α} {bs : List β} (h : as.mapM f = .ok bs) : as.mapM g = .ok bs :=
  except_mapM_eq_ok.mpr ((except_mapM_eq_ok.mp h).imp himp)

theorem except_filterMapM_eq_ok {f : α → Except ε (Option β)} {as : List α} {bs : List β} :
    as.filterMapM f = .ok bs ↔
      ∃ options, List.Forall₂ (fun a o => f a = .ok o) as options ∧
        bs = options.reduceOption := by
  induction as generalizing bs with
  | nil => simp [pure, Except.pure, eq_comm]
  | cons a as ih =>
    simp only [List.filterMapM_cons, except_bind_eq_ok, List.forall₂_cons_left_iff]
    constructor
    · rintro ⟨o, ho, hrest⟩
      cases o with
      | none =>
        obtain ⟨options, hoptions, rfl⟩ := ih.mp hrest
        exact ⟨none :: options, ⟨none, options, ho, hoptions, rfl⟩, by simp⟩
      | some b =>
        simp only [except_bind_eq_ok, except_pure_eq_ok] at hrest
        obtain ⟨bs, hbs, rfl⟩ := hrest
        obtain ⟨options, hoptions, rfl⟩ := ih.mp hbs
        exact ⟨some b :: options, ⟨some b, options, ho, hoptions, rfl⟩, by simp⟩
    · rintro ⟨_, ⟨o, options, ho, hoptions, rfl⟩, rfl⟩
      refine ⟨o, ho, ?_⟩
      cases o with
      | none => exact ih.mpr ⟨options, hoptions, by simp⟩
      | some b =>
        simp only [except_bind_eq_ok, except_pure_eq_ok]
        exact ⟨_, ih.mpr ⟨options, hoptions, rfl⟩, by simp⟩

theorem except_filterMapM_imp {f g : α → Except ε (Option β)}
    (himp : ∀ a o, f a = .ok o → g a = .ok o) {as : List α} {bs : List β}
    (h : as.filterMapM f = .ok bs) : as.filterMapM g = .ok bs := by
  obtain ⟨options, hoptions, rfl⟩ := except_filterMapM_eq_ok.mp h
  exact except_filterMapM_eq_ok.mpr ⟨options, hoptions.imp himp, rfl⟩

theorem mem_of_filterMapM {f : α → Except ε (Option β)} {as : List α} {bs : List β}
    (h : as.filterMapM f = .ok bs) {b : β} : b ∈ bs ↔ ∃ a ∈ as, f a = .ok (some b) := by
  obtain ⟨options, hoptions, rfl⟩ := except_filterMapM_eq_ok.mp h
  rw [List.reduceOption_mem_iff]
  constructor
  · intro hb
    exact forall₂_mem_right hoptions hb
  · rintro ⟨a, ha, hfa⟩
    obtain ⟨o, ho, hfo⟩ := forall₂_mem_left hoptions ha
    rwa [Except.ok.inj (hfa.symm.trans hfo)]

theorem except_mapM_eq_self {f : α → Except ε α} {as bs : List α}
    (h : ∀ a ∈ as, ∀ b, f a = .ok b → b = a) (hrun : as.mapM f = .ok bs) : bs = as := by
  have hrows := except_mapM_eq_ok.mp hrun
  clear hrun
  induction hrows with
  | nil => rfl
  | cons hitem _ ih =>
    rw [List.forall_mem_cons] at h
    rw [h.1 _ hitem, ih h.2]

theorem except_filterMapM_eq_self {f : α → Except ε (Option α)} {as bs : List α}
    (h : ∀ a ∈ as, ∀ o, f a = .ok o → o = some a) (hrun : as.filterMapM f = .ok bs) : bs = as := by
  obtain ⟨options, hoptions, rfl⟩ := except_filterMapM_eq_ok.mp hrun
  clear hrun
  induction hoptions with
  | nil => rfl
  | cons hitem _ ih =>
    rw [List.forall_mem_cons] at h
    rw [h.1 _ hitem, List.reduceOption_cons_of_some, ih h.2]

theorem except_filterMapM_eq_nil {f : α → Except ε (Option β)} {as : List α}
    (h : ∀ a ∈ as, f a = .ok none) : as.filterMapM f = .ok [] := by
  induction as with
  | nil => rfl
  | cons a as ih =>
    rw [List.forall_mem_cons] at h
    rw [List.filterMapM_cons, h.1]
    exact ih h.2

theorem eq_filterMap_of_filterMapM {f : α → Except ε (Option β)} {g : α → Option β}
    (hsame : ∀ a o, f a = .ok o → g a = o) {as : List α} {bs : List β}
    (h : as.filterMapM f = .ok bs) : bs = as.filterMap g := by
  obtain ⟨options, hoptions, rfl⟩ := except_filterMapM_eq_ok.mp h
  clear h
  induction hoptions with
  | nil => rfl
  | @cons a o as options hstep _ ih =>
    cases o with
    | none => rw [List.reduceOption_cons_of_none, List.filterMap_cons_none (hsame a none hstep), ih]
    | some b =>
      rw [List.reduceOption_cons_of_some, List.filterMap_cons_some (hsame a (some b) hstep), ih]

end Values

section States
variable {ε σ α β : Type} {s s' : σ}

@[simp]
theorem state_bind_eq_ok {step : EStateM ε σ α} {next : α → EStateM ε σ β} {b : β} :
    (step >>= next) s = .ok b s' ↔ ∃ a s₁, step s = .ok a s₁ ∧ next a s₁ = .ok b s' := by
  simp only [bind, EStateM.bind]
  cases step s <;> simp

@[simp]
theorem state_pure_eq_ok {a b : α} : (pure a : EStateM ε σ α) s = .ok b s' ↔ a = b ∧ s = s' := by
  change EStateM.Result.ok a s = .ok b s' ↔ _
  simp

@[simp]
theorem state_throw_ne_ok {e : ε} {b : α} : (throw e : EStateM ε σ α) s ≠ .ok b s' := by
  change EStateM.Result.error e s ≠ .ok b s'
  simp

@[simp]
theorem state_get_eq_ok {b : σ} : (get : EStateM ε σ σ) s = .ok b s' ↔ s = b ∧ s = s' := by
  change EStateM.Result.ok s s = .ok b s' ↔ _
  simp

@[simp]
theorem state_modify_eq_ok {f : σ → σ} {u : Unit} :
    (modify f : EStateM ε σ Unit) s = .ok u s' ↔ f s = s' := by
  change EStateM.Result.ok () (f s) = .ok u s' ↔ _
  simp

theorem state_mapM_cons_eq_ok {f : α → EStateM ε σ β} {a : α} {as : List α} {bs : List β} :
    (a :: as).mapM f s = .ok bs s' ↔
      ∃ b s₁ rest, f a s = .ok b s₁ ∧ as.mapM f s₁ = .ok rest s' ∧ bs = b :: rest := by
  simp only [List.mapM_cons, state_bind_eq_ok, state_pure_eq_ok]
  constructor
  · rintro ⟨b, s₁, hb, rest, s₂, hrest, rfl, rfl⟩
    exact ⟨b, s₁, rest, hb, hrest, rfl⟩
  · rintro ⟨b, s₁, rest, hb, hrest, rfl⟩
    exact ⟨b, s₁, hb, rest, s', hrest, rfl, rfl⟩

theorem state_mapM_self {f : α → EStateM ε σ α} {as : List α}
    (h : ∀ a ∈ as, f a s = .ok a s) : as.mapM f s = .ok as s := by
  induction as with
  | nil => rfl
  | cons a as ih =>
    obtain ⟨ha, has⟩ := List.forall_mem_cons.mp h
    exact state_mapM_cons_eq_ok.mpr ⟨a, s, as, ha, ih has, rfl⟩

theorem state_forM_self {f : α → EStateM ε σ PUnit} {as : List α}
    (h : ∀ a ∈ as, f a s = .ok ⟨⟩ s) : as.forM f s = .ok ⟨⟩ s := by
  induction as with
  | nil => rfl
  | cons a as ih =>
    obtain ⟨ha, has⟩ := List.forall_mem_cons.mp h
    exact state_bind_eq_ok.mpr ⟨_, s, ha, ih has⟩

end States

section StatesOfResults
variable {ε σ α β : Type} {s s' : σ}

theorem stateT_bind_eq_ok {step : StateT σ (Except ε) α} {next : α → StateT σ (Except ε) β}
    {b : β} : (step >>= next) s = .ok (b, s') ↔
      ∃ a s₁, step s = .ok (a, s₁) ∧ next a s₁ = .ok (b, s') := by
  change (step s >>= fun result => next result.1 result.2) = .ok (b, s') ↔ _
  simp

theorem stateT_pure_eq_ok {a b : α} :
    (pure a : StateT σ (Except ε) α) s = .ok (b, s') ↔ a = b ∧ s = s' := by
  change Except.ok (a, s) = .ok (b, s') ↔ _
  simp

theorem stateT_map_eq_ok {step : StateT σ (Except ε) α} {f : α → β} {b : β} :
    (f <$> step) s = .ok (b, s') ↔ ∃ a, step s = .ok (a, s') ∧ f a = b := by
  change (step s >>= fun result => pure (f result.1, result.2)) = .ok (b, s') ↔ _
  simp only [except_bind_eq_ok, except_pure_eq_ok, Prod.mk.injEq, Prod.exists]
  constructor
  · rintro ⟨a, _, ha, rfl, rfl⟩
    exact ⟨a, ha, rfl⟩
  · rintro ⟨a, ha, rfl⟩
    exact ⟨a, s', ha, rfl, rfl⟩

theorem stateT_lift_eq_ok {m : Type → Type} [MonadLiftT m (Except ε)] {step : m α} {a : α} :
    (liftM step : StateT σ (Except ε) α) s = .ok (a, s') ↔
      (liftM step : Except ε α) = .ok a ∧ s = s' := by
  change ((liftM step : Except ε α) >>= fun a => pure (a, s)) = .ok (a, s') ↔ _
  simp only [except_bind_eq_ok, except_pure_eq_ok, Prod.mk.injEq]
  constructor
  · rintro ⟨_, ha, rfl, rfl⟩
    exact ⟨ha, rfl⟩
  · rintro ⟨ha, rfl⟩
    exact ⟨a, ha, rfl, rfl⟩

end StatesOfResults

section Lifting
variable {σ α : Type} {s s' : σ} {a : α}

@[simp]
theorem state_lift_eq_ok {m : Type → Type} [MonadLiftT m (Except RelocationFault)] {step : m α} :
    (liftM step : EStateM RelocationFault σ α) s = .ok a s' ↔
      (liftM step : Except RelocationFault α) = .ok a ∧ s = s' := by
  change (MonadLift.monadLift (liftM step : Except RelocationFault α) :
    EStateM RelocationFault σ α) s = .ok a s' ↔ _
  simp only [MonadLift.monadLift]
  cases (liftM step : Except RelocationFault α) <;> simp

@[simp]
theorem lift_relocation_eq_ok {step : Except RelocationFault α} :
    (liftM step : Except RelocationFault α) = .ok a ↔ step = .ok a := Iff.rfl

@[simp]
theorem lift_class_eq_ok {step : Except ClassFault α} :
    (liftM step : Except RelocationFault α) = .ok a ↔ step = .ok a := mapError_eq_ok

@[simp]
theorem lift_malformation_eq_ok {step : Except Malformation α} :
    (liftM step : Except RelocationFault α) = .ok a ↔ step = .ok a := mapError_eq_ok

@[simp]
theorem lift_write_eq_ok {step : Except WriteFault α} :
    (liftM step : Except RelocationFault α) = .ok a ↔ step = .ok a := mapError_eq_ok

@[simp]
theorem lift_pool_eq_ok {step : Except PoolFault α} :
    (liftM step : Except RelocationFault α) = .ok a ↔ step = .ok a := mapError_eq_ok

@[simp]
theorem lift_descriptor_eq_ok {step : Except InvalidDescriptor α} :
    (liftM step : Except RelocationFault α) = .ok a ↔ step = .ok a := mapError_eq_ok

/-- A change of a pool succeeds as a step of relocation exactly if it does by itself. -/
@[simp]
theorem lift_change_eq_ok {change : PoolM PoolFault α} {p p' : ConstantPool} :
    (liftM change : Relocation α) p = .ok a p' ↔ change p = .ok a p' := by
  simp only [liftM, monadLift, MonadLift.monadLift]
  cases change p <;> simp

@[simp]
theorem runOn_eq_ok {step : Relocation α} {p p' : ConstantPool} :
    step.runOn p = .ok (a, p') ↔ step p = .ok a p' := by
  unfold Relocation.runOn
  cases step p <;> simp

end Lifting

end StaticCompanion
