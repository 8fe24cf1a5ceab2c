import StaticCompanion.Proofs.Origins

/-!
# The phases of a run

Up to its first assignment a step only looks at the session, and behind it nothing fails. So a step
that fails leaves the session as it was, and one that succeeds goes one phase further. Whatever is
tried in between, the steps that have succeeded are those that lead to the phase of the session.
-/
namespace StaticCompanion

/-- The steps that lead to a phase. -/
def Phase.steps : Phase → List Step
  | idle => []
  | matched => [.select]
  | scanned => [.select, .scan]
  | sunk => [.select, .scan, .sink]

theorem Phase.steps_prefix (phase : Phase) : phase.steps <+: [.select, .scan, .sink] := by
  cases phase <;> decide

/-- The output can be opened, and these entries can be written to it. -/
def Target.Takes (target : Target) (items : List NamedData) : Prop :=
  target.opened = .ok () ∧ target.written items = .ok ()

/-- A call of a step, with the archive and the output as they are at that time. -/
structure Call where
  step : Step
  input : Except ArchiveFault Archive
  target : Target

namespace Session

def call (options : Options) (call : Call) : StateM Session (Except RunFault Unit) :=
  attempt ⟨call.input, options⟩ call.target call.step

/-- The steps that succeed when calls are made one after another, and the session they leave. -/
def callAll (options : Options) : List Call → Session → List Step × Session
  | [], session => ([], session)
  | first :: calls, session =>
    match call options first session with
    | (.ok (), session) =>
      let (steps, session) := callAll options calls session
      (first.step :: steps, session)
    | (.error _, session) => callAll options calls session

/-- There is no analysis before the archive has been scanned, and no selection before the classes
have been matched and after the output has been written. -/
structure Consistent (session : Session) : Prop where
  analysis : session.phase = .idle ∨ session.phase = .matched → session.analysis = .empty
  selected : session.phase = .idle ∨ session.phase = .sunk → session.selected = ∅

section Parts
variable {α : Type}

/-- A part of a step that leaves the session as it is, whether it succeeds or not. -/
def Looks (part : EStateM RunFault Session α) : Prop :=
  ∀ session, (∃ a, part session = .ok a session) ∨ ∃ fault, part session = .error fault session

/-- A part of a step that leaves the session as it is if it fails. -/
def Keeps (part : EStateM RunFault Session Unit) : Prop :=
  ∀ session fault session', part session = .error fault session' → session' = session

/-- A part of a step that cannot fail. -/
def Sets (part : EStateM RunFault Session Unit) : Prop :=
  ∀ session, ∃ session', part session = .ok () session'

theorem looks_get : Looks (get : EStateM RunFault Session Session) :=
  fun session => .inl ⟨session, rfl⟩

theorem looks_lift (result : Except RunFault α) :
    Looks (liftM result : EStateM RunFault Session α) := by
  intro session
  cases result with
  | ok a => exact .inl ⟨a, rfl⟩
  | error fault => exact .inr ⟨fault, rfl⟩

theorem expect_eq (phase : Phase) (session : Session) : expect phase session =
    if session.phase = phase then .ok () session
    else .error (.outOfOrder phase session.phase) session := by
  change (if session.phase ≠ phase then throw _ else pure () : EStateM RunFault Session Unit)
    session = _
  by_cases hphase : session.phase = phase
  · rw [if_neg (not_not.mpr hphase), if_pos hphase]
    rfl
  · rw [if_pos hphase, if_neg hphase]
    rfl

theorem looks_expect (phase : Phase) : Looks (expect phase) := by
  intro session
  rw [expect_eq]
  split
  · exact .inl ⟨(), rfl⟩
  · exact .inr ⟨_, rfl⟩

theorem sets_modify (f : Session → Session) : Sets (modify f) :=
  fun session => ⟨f session, rfl⟩

theorem Sets.bind {part rest : EStateM RunFault Session Unit} (h : Sets part) (hrest : Sets rest) :
    Sets (part >>= fun _ => rest) := by
  intro session
  obtain ⟨session₁, hpart⟩ := h session
  obtain ⟨session₂, hrest⟩ := hrest session₁
  exact ⟨session₂, state_bind_eq_ok.mpr ⟨(), session₁, hpart, hrest⟩⟩

theorem Sets.keeps {part : EStateM RunFault Session Unit} (h : Sets part) : Keeps part := by
  intro session fault session' hfails
  obtain ⟨session₁, hsets⟩ := h session
  rw [hsets] at hfails
  cases hfails

theorem Looks.bind {part : EStateM RunFault Session α} {rest : α → EStateM RunFault Session Unit}
    (h : Looks part) (hrest : ∀ a, Keeps (rest a)) : Keeps (part >>= rest) := by
  intro session fault session' hfails
  rcases h session with ⟨a, hpart⟩ | ⟨fault', hpart⟩
  · change EStateM.bind part rest session = _ at hfails
    rw [EStateM.bind, hpart] at hfails
    exact hrest a session fault session' hfails
  · change EStateM.bind part rest session = _ at hfails
    rw [EStateM.bind, hpart] at hfails
    cases hfails
    rfl

/-- What a part of a step makes of a session. -/
def leaves (part : EStateM RunFault Session Unit) (session : Session) : Except RunFault Session :=
  match part session with
  | .ok () session => .ok session
  | .error fault _ => .error fault

section Leaves
variable {session : Session}

theorem leaves_eq_ok {part : EStateM RunFault Session Unit} {session' : Session} :
    leaves part session = .ok session' ↔ part session = .ok () session' := by
  unfold leaves
  cases part session <;> simp

@[simp]
theorem leaves_expect {phase : Phase} {rest : EStateM RunFault Session Unit} :
    leaves (expect phase >>= fun _ => rest) session =
      if session.phase = phase then leaves rest session
      else .error (.outOfOrder phase session.phase) := by
  change leaves (EStateM.bind (expect phase) fun _ => rest) session = _
  rw [leaves, EStateM.bind, expect_eq]
  by_cases hphase : session.phase = phase
  · simp only [hphase, if_true]
    rfl
  · simp only [hphase, if_false]

@[simp]
theorem leaves_lift {m : Type → Type} [MonadLiftT m (Except RunFault)] {part : m α}
    {rest : α → EStateM RunFault Session Unit} :
    leaves ((liftM part : EStateM RunFault Session α) >>= rest) session =
      ((liftM part : Except RunFault α) >>= fun a => leaves (rest a) session) := by
  change leaves (EStateM.bind (MonadLift.monadLift (liftM part : Except RunFault α)) rest)
    session = _
  simp only [leaves, EStateM.bind, MonadLift.monadLift]
  cases (liftM part : Except RunFault α) <;> rfl

@[simp]
theorem leaves_get {rest : Session → EStateM RunFault Session Unit} :
    leaves (get >>= rest) session = leaves (rest session) session := (rfl)

@[simp]
theorem leaves_modify {f : Session → Session} : leaves (modify f) session = .ok (f session) := (rfl)

@[simp]
theorem leaves_modify_bind {f : Session → Session} {rest : EStateM RunFault Session Unit} :
    leaves (modify f >>= fun _ => rest) session = leaves rest (f session) := (rfl)

theorem leaves_perform {job : Job} {step : Step} :
    leaves (perform job .memory step) session = session.next job step := by
  by_cases hphase : session.phase = step.expected
  · simp only [perform, next, leaves_expect, if_pos hphase, ite_not]
    cases step with
    | select =>
      simp only [leaves_lift, leaves_modify_bind, leaves_modify]
      rfl
    | scan =>
      simp only [leaves_lift, leaves_modify_bind, leaves_modify]
      rfl
    | sink =>
      simp only [leaves_lift, leaves_get, leaves_modify_bind, leaves_modify]
      rfl
  · simp only [perform, next, leaves_expect, if_neg hphase, ite_not]
    rfl

end Leaves

end Parts

section Steps
variable {job : Job} {target : Target} {step : Step} {session session' : Session}
  {fault : RunFault}

theorem next_eq_ok : session.next job step = .ok session' ↔
    session.phase = step.expected ∧ ∃ archive, job.input = .ok archive ∧
      match step with
      | .select => ∃ selected, job.selection archive = .ok selected ∧
          session' = { session with phase := .matched, selected }
      | .scan => ∃ analysis, job.analysis archive = .ok analysis ∧
          session' = { session with phase := .scanned, analysis }
      | .sink => ∃ output,
          outputEntries job.options session.analysis session.selected archive = .ok output ∧
          session' = { session with phase := .sunk, selected := ∅, output := some output } := by
  by_cases hphase : session.phase = step.expected
  · cases step <;> simp [next, hphase, eq_comm (b := session')]
  · simp [next, hphase]

theorem perform_eq_ok : perform job target step session = .ok () session' ↔
    session.next job step = .ok session' ∧
      (step = .sink → ∃ items, session'.output = some items ∧ target.Takes items) := by
  rw [next_eq_ok, ← leaves_eq_ok, perform, leaves_expect]
  by_cases hphase : session.phase = step.expected
  · rw [if_pos hphase]
    cases step with
    | select => simp [hphase, eq_comm (b := session')]
    | scan => simp [hphase, eq_comm (b := session')]
    | sink =>
      simp only [leaves_lift, leaves_get, leaves_modify_bind, leaves_modify, except_bind_eq_ok,
        lift_archive_eq_ok, Except.ok.injEq, hphase, true_and, true_implies]
      constructor
      · intro h
        obtain ⟨archive, hinput, _, hopened, output, houtput, _, hwritten, rfl⟩ := h
        exact ⟨⟨archive, hinput, output, houtput, rfl⟩, output, rfl, hopened, hwritten⟩
      · intro h
        obtain ⟨⟨archive, hinput, output, houtput, rfl⟩, items, hitems, hopened, hwritten⟩ := h
        obtain rfl := Option.some.inj hitems
        exact ⟨archive, hinput, (), hopened, output, houtput, (), hwritten, rfl⟩
  · simp [hphase]

theorem keeps_perform (job : Job) (target : Target) (step : Step) :
    Keeps (perform job target step) := by
  unfold perform
  apply (looks_expect _).bind
  intro _
  apply (looks_lift _).bind
  intro archive
  cases step with
  | select =>
    apply (looks_lift _).bind
    intro selected
    exact ((sets_modify _).bind (sets_modify _)).keeps
  | scan =>
    apply (looks_lift _).bind
    intro analysis
    exact ((sets_modify _).bind (sets_modify _)).keeps
  | sink =>
    apply (looks_lift _).bind
    intro _
    apply looks_get.bind
    intro session
    apply (looks_lift _).bind
    intro output
    apply (looks_lift _).bind
    intro _
    exact ((sets_modify _).bind ((sets_modify _).bind (sets_modify _))).keeps

theorem attempt_eq_ok : attempt job target step session = (.ok (), session') ↔
    perform job target step session = .ok () session' := by
  unfold attempt
  constructor
  · intro h
    split at h
    · cases h
      assumption
    · cases h
  · intro h
    rw [h]

theorem eq_of_attempt_eq_error (h : attempt job target step session = (.error fault, session')) :
    session' = session := by
  unfold attempt at h
  split at h
  · cases h
  · rename_i hperform
    cases h
    exact keeps_perform job target step session fault session' hperform

/-- A step out of order fails, whatever the archive and the output are like. -/
theorem attempt_outOfOrder (hphase : session.phase ≠ step.expected) :
    attempt job target step session =
      (.error (.outOfOrder step.expected session.phase), session) := by
  have hperform : perform job target step session =
      .error (.outOfOrder step.expected session.phase) session := by
    change EStateM.bind (expect step.expected) _ session = _
    rw [EStateM.bind, expect_eq, if_neg hphase]
  rw [attempt, hperform]

/-- A step of a run is taken as a whole or not at all. -/
theorem take_eq : take job step session =
    match session.next job step with
    | .ok session' => (.ok (), session')
    | .error fault => (.error fault, session) := by
  rw [take, attempt, ← leaves_perform, leaves]
  cases hperform : perform job .memory step session with
  | ok _ _ => rfl
  | error fault left =>
    rw [keeps_perform job .memory step session fault left hperform]

theorem steps_of_next (h : session.next job step = .ok session') :
    session'.phase.steps = session.phase.steps ++ [step] := by
  obtain ⟨hphase, archive, -, h⟩ := next_eq_ok.mp h
  rw [hphase]
  cases step with
  | select =>
    obtain ⟨_, -, rfl⟩ := h
    rfl
  | scan =>
    obtain ⟨_, -, rfl⟩ := h
    rfl
  | sink =>
    obtain ⟨_, -, rfl⟩ := h
    rfl

theorem consistent_start : start.Consistent := ⟨fun _ => rfl, fun _ => rfl⟩

theorem Consistent.next (hconsistent : session.Consistent)
    (h : session.next job step = .ok session') : session'.Consistent := by
  obtain ⟨hphase, archive, -, h⟩ := next_eq_ok.mp h
  cases step with
  | select =>
    obtain ⟨_, -, rfl⟩ := h
    exact ⟨fun _ => hconsistent.analysis (.inl hphase), by simp⟩
  | scan =>
    obtain ⟨_, -, rfl⟩ := h
    exact ⟨by simp, by simp⟩
  | sink =>
    obtain ⟨_, -, rfl⟩ := h
    exact ⟨by simp, fun _ => rfl⟩

end Steps

/-- Calls lead on from the phase in which they begin, by exactly the steps that succeed. -/
theorem steps_of_callAll {options : Options} {calls : List Call} {steps : List Step}
    {session session' : Session} (h : callAll options calls session = (steps, session')) :
    session'.phase.steps = session.phase.steps ++ steps ∧
      (session.Consistent → session'.Consistent) := by
  induction calls generalizing session steps with
  | nil =>
    obtain ⟨rfl, rfl⟩ := Prod.mk.inj h
    exact ⟨(List.append_nil _).symm, id⟩
  | cons first calls ih =>
    rw [callAll] at h
    split at h
    · rename_i session₁ hcall
      obtain ⟨rfl, rfl⟩ := Prod.mk.inj h
      have hnext := (perform_eq_ok.mp (attempt_eq_ok.mp hcall)).1
      obtain ⟨hsteps, hconsistent⟩ := ih rfl
      refine ⟨?_, fun hstart => hconsistent (hstart.next hnext)⟩
      rw [hsteps, steps_of_next hnext, List.append_assoc]
      rfl
    · rename_i session₁ hcall
      rw [eq_of_attempt_eq_error hcall] at h
      exact ih h

/-- However steps are called and fail, those that succeed are the first ones in their order, once
each, and the session is in the phase that they lead to. A call out of order fails for that cause,
whatever the archive and the output are like, and a call that fails leaves the session as it was. -/
theorem callAll_isOrdered {options : Options} {calls : List Call} {steps : List Step}
    {session : Session} (h : callAll options calls .start = (steps, session)) :
    steps <+: [.select, .scan, .sink] ∧ session.phase.steps = steps ∧ session.Consistent ∧
      ∀ other : Call,
        (session.phase ≠ other.step.expected → call options other session =
          (.error (.outOfOrder other.step.expected session.phase), session)) ∧
        ∀ fault session', call options other session = (.error fault, session') →
          session' = session := by
  obtain ⟨hsteps, hconsistent⟩ := steps_of_callAll h
  have hphase : session.phase.steps = steps := hsteps
  refine ⟨hphase ▸ session.phase.steps_prefix, hphase, hconsistent consistent_start, ?_⟩
  intro other
  exact ⟨attempt_outOfOrder, fun _ _ => eq_of_attempt_eq_error⟩

/-- Calls for one class that is to be adapted, with an archive that changes and an output that
cannot be opened at first. -/
def retriedCalls : List Call :=
  let broken : Except ArchiveFault Archive := .ok [⟨"p/A.class", .ok []⟩]
  let repaired : Except ArchiveFault Archive := .ok [⟨"p/a.txt", .ok [1]⟩]
  [⟨.scan, broken, .memory⟩, ⟨.select, repaired, .memory⟩, ⟨.select, .error .missing, .memory⟩,
    ⟨.select, broken, .memory⟩, ⟨.select, broken, .memory⟩, ⟨.scan, broken, .memory⟩,
    ⟨.scan, repaired, .memory⟩, ⟨.sink, repaired, ⟨.error .missing, fun _ => .ok ()⟩⟩,
    ⟨.sink, repaired, .memory⟩, ⟨.sink, repaired, .memory⟩]

def retriedOptions : Options where
  patterns := ["p/A"]
  supported := ∅
  omitted := ∅
  owners := none
  types := ∅
  unselected := .copied

/-- Seven of ten calls fail, and the others are one run. -/
theorem callAll_isOrdered_of_retried :
    ∃ session, callAll retriedOptions retriedCalls .start = ([.select, .scan, .sink], session) ∧
      session.phase = .sunk ∧ session.selected = ∅ ∧
      call retriedOptions ⟨.select, .error .missing, .memory⟩ session =
        (.error (.outOfOrder .idle .sunk), session) := by
  have hsteps : (callAll retriedOptions retriedCalls .start).1 = [.select, .scan, .sink] := by
    decide +kernel
  obtain ⟨-, hphase, hconsistent, hcalls⟩ := callAll_isOrdered (Prod.ext hsteps rfl)
  have hsunk : (callAll retriedOptions retriedCalls .start).2.phase = .sunk := by
    revert hphase
    cases (callAll retriedOptions retriedCalls .start).2.phase <;> simp [Phase.steps]
  refine ⟨_, Prod.ext hsteps rfl, hsunk, hconsistent.selected (.inr hsunk), ?_⟩
  have hfails := (hcalls ⟨.select, .error .missing, .memory⟩).1
  rw [hsunk] at hfails
  exact hfails (by decide)

end Session

end StaticCompanion
