import StaticCompanion.Proofs.Survey

/-!
# Looking at bodies

What a look at the body of a moved method does to the worklist and to the analysis, and what moving
a method brings about by itself: a `Visit` says which methods and fields of its class have to
follow it. `Survey.Reaches` is the closure of the seeds under visits, with the methods that have
moved before as its border.
-/
namespace StaticCompanion.Scan

section Bodies
variable {context : Context} {work work' : Worklist} {analysis analysis' : Analysis}

def Worklist.needAll (work : Worklist) (moved : MemberMap) (keys : List MemberKey) : Worklist :=
  keys.foldl (fun work key => work.need moved key) work

def Context.hiddenOf (context : Context) (uses : List Use) : List MemberKey :=
  (uses.filterMap Use.field?).filter context.hiddenFields.contains

def visitUse (context : Context) (work : Worklist) : Option Use → ScanM Worklist
  | some (.field key) => do
    if context.hiddenFields.contains key then addField key
    return work
  | some (.call key) | some (.lambda _ key) => return work.need (← get).methods key
  | none => return work

theorem visitInstruction_eq (context : Context) (work : Worklist) (instruction : Instruction) :
    visitInstruction context work instruction = (do
      let use ← instruction.use? context.pool context.bootstraps
      visitUse context work use) := by
  funext analysis
  unfold visitInstruction Instruction.use?
  cases instruction.action with
  | field access index =>
    dsimp only
    cases context.pool.member index <;> rfl
  | call kind index =>
    dsimp only
    cases context.pool.member index <;> rfl
  | dynamicCall index =>
    dsimp only
    cases lambdaBootstrap context.pool context.bootstraps index with
    | error fault => rfl
    | ok found =>
      cases found with
      | none => rfl
      | some site =>
        obtain ⟨factory, bootstrap⟩ := site
        simp only [bind, EStateM.bind, Except.bind, liftM, monadLift, MonadLift.monadLift]
        cases lambdaBody context.pool bootstrap with
        | error fault => rfl
        | ok body => cases body <;> rfl
  | other => rfl

theorem visitUse_eq (context : Context) (work : Worklist) (use : Option Use)
    (analysis : Analysis) :
    visitUse context work use analysis =
      .ok (work.needAll analysis.methods (use.toList.filterMap Use.method?))
        (analysis.addFields (context.hiddenOf use.toList)) := by
  cases use with
  | none => rfl
  | some use =>
    cases use with
    | field key =>
      by_cases hhidden : context.hiddenFields.contains key = true
      · have hfield : context.hiddenOf [.field key] = [key] := by
          simp [Context.hiddenOf, Use.field?, hhidden]
        rw [Option.toList_some, hfield]
        simp only [visitUse, hhidden, if_true]
        rfl
      · have hfield : context.hiddenOf [.field key] = [] := by
          simp [Context.hiddenOf, Use.field?, hhidden]
        rw [Option.toList_some, hfield]
        simp only [visitUse, hhidden]
        rfl
    | call key => rfl
    | lambda factory key => rfl

theorem visitInstruction_eq_ok {instruction : Instruction} :
    visitInstruction context work instruction analysis = .ok work' analysis' ↔
      ∃ use, instruction.use? context.pool context.bootstraps = .ok use ∧
        work' = work.needAll analysis.methods (use.toList.filterMap Use.method?) ∧
        analysis' = analysis.addFields (context.hiddenOf use.toList) := by
  rw [visitInstruction_eq]
  simp only [state_bind_eq_ok, state_lift_eq_ok, lift_relocation_eq_ok, visitUse_eq,
    EStateM.Result.ok.injEq]
  constructor
  · rintro ⟨use, _, ⟨huse, rfl⟩, rfl, rfl⟩
    exact ⟨use, huse, rfl, rfl⟩
  · rintro ⟨use, huse, rfl, rfl⟩
    exact ⟨use, _, ⟨huse, rfl⟩, rfl, rfl⟩

theorem visitInstructions_eq_ok {instructions : List Instruction} :
    instructions.foldlM (visitInstruction context) work analysis = .ok work' analysis' ↔
      ∃ options, List.Forall₂ (fun instruction use =>
          instruction.use? context.pool context.bootstraps = .ok use) instructions options ∧
        work' = work.needAll analysis.methods (options.reduceOption.filterMap Use.method?) ∧
        analysis' = analysis.addFields (context.hiddenOf options.reduceOption) := by
  induction instructions generalizing work analysis with
  | nil =>
    simp only [List.foldlM_nil, state_pure_eq_ok, List.forall₂_nil_left_iff]
    constructor
    · rintro ⟨rfl, rfl⟩
      exact ⟨[], rfl, rfl, rfl⟩
    · rintro ⟨_, rfl, rfl, rfl⟩
      exact ⟨rfl, rfl⟩
  | cons instruction instructions ih =>
    have hcons (use : Option Use) (options : List (Option Use)) :
        (use :: options).reduceOption = use.toList ++ options.reduceOption := by
      cases use <;> simp
    simp only [List.foldlM_cons, state_bind_eq_ok, visitInstruction_eq_ok, ih,
      List.forall₂_cons_left_iff]
    constructor
    · rintro ⟨_, _, ⟨use, huse, rfl, rfl⟩, options, hoptions, rfl, rfl⟩
      refine ⟨use :: options, ⟨use, options, huse, hoptions, rfl⟩, ?_, ?_⟩
      · rw [hcons, List.filterMap_append, Analysis.methods_addFields]
        exact List.foldl_append.symm
      · rw [hcons, ← Analysis.addFields_append]
        simp [Context.hiddenOf]
    · rintro ⟨_, ⟨use, options, huse, hoptions, rfl⟩, rfl, rfl⟩
      refine ⟨_, _, ⟨use, huse, rfl, rfl⟩, options, hoptions, ?_, ?_⟩
      · rw [hcons, List.filterMap_append, Analysis.methods_addFields]
        exact List.foldl_append
      · rw [hcons, ← Analysis.addFields_append]
        simp [Context.hiddenOf]

/-- A look at a body reads its uses, queues the methods it needs, and adds its hidden fields. -/
theorem visitBody_eq_ok {method : Member} :
    visitBody context work method analysis = .ok work' analysis' ↔
      ∃ uses, method.uses context.pool context.bootstraps = .ok uses ∧
        work' = work.needAll analysis.methods (uses.filterMap Use.method?) ∧
        analysis' = analysis.addFields (context.hiddenOf uses) := by
  simp only [visitBody, Member.uses_eq_ok, state_bind_eq_ok, state_lift_eq_ok, lift_class_eq_ok]
  constructor
  · rintro ⟨code, _, ⟨hcode, rfl⟩, hrest⟩
    cases code with
    | none =>
      obtain ⟨rfl, rfl⟩ := state_pure_eq_ok.mp hrest
      exact ⟨[], ⟨none, hcode, rfl⟩, rfl, rfl⟩
    | some code =>
      simp only [state_bind_eq_ok, state_lift_eq_ok, lift_malformation_eq_ok,
        visitInstructions_eq_ok] at hrest
      obtain ⟨instructions, _, ⟨hdecode, rfl⟩, options, hoptions, rfl, rfl⟩ := hrest
      exact ⟨_, ⟨some code, hcode, instructions, options, hdecode, hoptions, rfl⟩, rfl, rfl⟩
  · rintro ⟨_, ⟨code, hcode, hread⟩, rfl, rfl⟩
    refine ⟨code, _, ⟨hcode, rfl⟩, ?_⟩
    cases code with
    | none =>
      subst hread
      rfl
    | some code =>
      obtain ⟨instructions, options, hdecode, hoptions, rfl⟩ := hread
      simp only [state_bind_eq_ok, state_lift_eq_ok, lift_malformation_eq_ok,
        visitInstructions_eq_ok]
      exact ⟨instructions, _, ⟨hdecode, rfl⟩, options, hoptions, rfl, rfl⟩

end Bodies

namespace Worklist

/-- The worklist after the methods with some keys were needed: `more` is queued behind the rest. -/
structure Extends (work work' : Worklist) (moved : MemberMap) (keys : List MemberKey)
    (more : List (MemberKey × Member)) : Prop where
  queue : work'.queue = work.queue ++ more
  hidden : work'.hidden = work.hidden
  of_more : ∀ key method, (key, method) ∈ more →
    key ∈ keys ∧ key ∉ moved ∧ key ∉ work.staged ∧ work.hidden[key]? = some method
  staged_iff : ∀ key, key ∈ work'.staged ↔ key ∈ work.staged ∨ ∃ method, (key, method) ∈ more
  complete : ∀ key ∈ keys, key ∈ work.hidden → key ∈ moved ∨ key ∈ work'.staged
  size_staged : work'.staged.size = work.staged.size + more.length

variable {work work₁ work₂ : Worklist} {moved : MemberMap} {keys keys' : List MemberKey}
  {more more' : List (MemberKey × Member)} {key : MemberKey} {method : Member}

theorem Extends.trans (h : Extends work work₁ moved keys more)
    (h' : Extends work₁ work₂ moved keys' more') :
    Extends work work₂ moved (keys ++ keys') (more ++ more') := by
  refine ⟨?_, h'.hidden.trans h.hidden, ?_, ?_, ?_, ?_⟩
  · rw [h'.queue, h.queue, List.append_assoc]
  · intro key method hmem
    rcases List.mem_append.mp hmem with hmem | hmem
    · obtain ⟨hkey, hrest⟩ := h.of_more key method hmem
      exact ⟨List.mem_append_left _ hkey, hrest⟩
    · obtain ⟨hkey, hmoved, hstaged, hhidden⟩ := h'.of_more key method hmem
      rw [h.hidden] at hhidden
      have hnew : key ∉ work.staged := by
        intro hold
        exact hstaged ((h.staged_iff key).mpr (.inl hold))
      exact ⟨List.mem_append_right _ hkey, hmoved, hnew, hhidden⟩
  · intro key
    simp only [h'.staged_iff, h.staged_iff, List.mem_append, exists_or, or_assoc]
  · intro key hkey hhidden
    rcases List.mem_append.mp hkey with hkey | hkey
    · cases h.complete key hkey hhidden with
      | inl hmoved => exact .inl hmoved
      | inr hstaged => exact .inr ((h'.staged_iff key).mpr (.inl hstaged))
    · exact h'.complete key hkey (h.hidden ▸ hhidden)
  · rw [h'.size_staged, h.size_staged, List.length_append, Nat.add_assoc]

theorem extends_of_settled (hsettled : key ∈ work.hidden → key ∈ moved ∨ key ∈ work.staged) :
    Extends work work moved [key] [] :=
  ⟨by simp, rfl, by simp, by simp, by simpa using hsettled, by simp⟩

theorem extends_stage (hmoved : key ∉ moved) (hstaged : key ∉ work.staged)
    (hhidden : work.hidden[key]? = some method) :
    Extends work (work.stage key method) moved [key] [(key, method)] := by
  rw [stage_of_not_mem hstaged]
  refine ⟨rfl, rfl, ?_, ?_, ?_, ?_⟩
  · intro other method' hmem
    obtain ⟨rfl, rfl⟩ := Prod.mk.inj (List.mem_singleton.mp hmem)
    exact ⟨by simp, hmoved, hstaged, hhidden⟩
  · intro other
    simp [or_comm, eq_comm (b := key)]
  · intro other hother _
    rw [List.mem_singleton.mp hother]
    exact .inr Std.ExtTreeSet.mem_insert_self
  · simp [Std.ExtTreeSet.size_insert, hstaged]

theorem extends_need (work : Worklist) (moved : MemberMap) (key : MemberKey) :
    ∃ more, Extends work (work.need moved key) moved [key] more := by
  unfold need
  by_cases hmoved : key ∈ moved
  · rw [if_pos (Std.ExtTreeMap.contains_iff_mem.mpr hmoved)]
    exact ⟨[], extends_of_settled fun _ => .inl hmoved⟩
  · rw [if_neg fun h => hmoved (Std.ExtTreeMap.contains_iff_mem.mp h)]
    cases hhidden : work.hidden[key]? with
    | none =>
      refine ⟨[], extends_of_settled ?_⟩
      intro hmem
      rw [Std.ExtTreeMap.mem_iff_isSome_getElem?, hhidden] at hmem
      cases hmem
    | some method =>
      dsimp only
      by_cases hstaged : key ∈ work.staged
      · rw [stage_of_mem hstaged]
        exact ⟨[], extends_of_settled fun _ => .inr hstaged⟩
      · exact ⟨[(key, method)], extends_stage hmoved hstaged hhidden⟩

theorem extends_needAll (work : Worklist) (moved : MemberMap) (keys : List MemberKey) :
    ∃ more, Extends work (work.needAll moved keys) moved keys more := by
  induction keys generalizing work with
  | nil =>
    exact ⟨[], by simp [needAll], rfl, by simp, by simp [needAll], by simp, by simp [needAll]⟩
  | cons key keys ih =>
    obtain ⟨more, hneed⟩ := extends_need work moved key
    obtain ⟨more', hrest⟩ := ih (work.need moved key)
    exact ⟨more ++ more', hneed.trans hrest⟩

end Worklist

theorem lookup_of_nodup {α β : Type} [BEq α] [LawfulBEq α] {entries : List (α × β)}
    (hnodup : (entries.map Prod.fst).Nodup) {entry : α × β} (hmem : entry ∈ entries) :
    entries.lookup entry.1 = some entry.2 := by
  obtain ⟨before, after, rfl⟩ := List.append_of_mem hmem
  rw [List.lookup_eq_some_iff]
  refine ⟨before, after, rfl, ?_⟩
  intro other hother
  rw [List.map_append, List.map_cons, List.nodup_append] at hnodup
  rw [bne_iff_ne]
  intro hsame
  exact hnodup.2.2 other.1 (List.mem_map_of_mem hother) entry.1 List.mem_cons_self hsame.symm

/-- What moving a method brings about: its new key, the methods of its class that have to follow
it, and the fields that do. -/
structure Visit where
  moved : MemberKey
  methods : Std.ExtTreeSet MemberKey
  fields : Std.ExtTreeSet MemberKey

namespace Survey

/-- The method that a key stands for: the first supported one, else the last hidden one. -/
def holder (survey : Survey) (key : MemberKey) : Option Member :=
  (survey.start.queue.lookup key).or survey.start.hidden[key]?

/-- What moving the method with a key brings about, if it can be moved and its body be read. -/
def visit (survey : Survey) (key : MemberKey) : Option Visit := do
  let method ← survey.holder key
  let moved ← (key.movedMethod method.isStatic).toOption
  let uses ← (method.uses survey.context.pool survey.context.bootstraps).toOption
  return {
    moved
    methods := .ofList ((uses.filterMap Use.method?).filter survey.start.hidden.contains)
    fields := .ofList (survey.context.hiddenOf uses) }

/-- The methods that a class brings along when those that are settled stay as they are: the seeds,
and the hidden methods that the methods that are reached need. -/
inductive Reaches (survey : Survey) (settled : MemberKey → Prop) : MemberKey → Prop
  | seed {key : MemberKey} (hseed : key ∈ survey.start.staged) (hnew : ¬ settled key) :
      Reaches survey settled key
  | need {key next : MemberKey} {visit : Visit} (hkey : Reaches survey settled key)
      (hvisit : survey.visit key = some visit) (hneed : next ∈ visit.methods)
      (hnew : ¬ settled next) : Reaches survey settled next

variable {survey : Survey} {key : MemberKey} {method : Member}

theorem Reaches.not_settled {settled : MemberKey → Prop} (h : survey.Reaches settled key) :
    ¬ settled key := by
  cases h with
  | seed _ hnew => exact hnew
  | need _ _ _ hnew => exact hnew

theorem starts_start (survey : Survey) :
    Worklist.Starts (survey.methods.filter Header.isSeed)
      (survey.methods.filter Header.isHiddenMethod) survey.start :=
  Worklist.starts_foldl survey.methods

theorem holder_of_queue (hqueue : (key, method) ∈ survey.start.queue) :
    survey.holder key = some method := by
  have hlookup : survey.start.queue.lookup key = some method :=
    lookup_of_nodup survey.starts_start.nodup hqueue
  rw [holder, hlookup, Option.some_or]

theorem holder_of_not_staged (hstaged : key ∉ survey.start.staged) :
    survey.holder key = survey.start.hidden[key]? := by
  have hlookup : survey.start.queue.lookup key = none := by
    rw [List.lookup_eq_none_iff]
    intro other hother
    rw [bne_iff_ne]
    intro hsame
    apply hstaged
    rw [hsame]
    exact survey.starts_start.staged_of_queue hother
  rw [holder, hlookup, Option.none_or]

theorem visit_eq_some {visit : Visit} :
    survey.visit key = some visit ↔ ∃ method uses, survey.holder key = some method ∧
      key.movedMethod method.isStatic = .ok visit.moved ∧
      method.uses survey.context.pool survey.context.bootstraps = .ok uses ∧
      (∀ next, next ∈ visit.methods ↔
        next ∈ uses.filterMap Use.method? ∧ next ∈ survey.start.hidden) ∧
      ∀ next, next ∈ visit.fields ↔ next ∈ survey.context.hiddenOf uses := by
  obtain ⟨moved, methods, fields⟩ := visit
  have hset {set : Std.ExtTreeSet MemberKey} {keys : List MemberKey} :
      .ofList keys = set ↔ ∀ next, next ∈ set ↔ next ∈ keys := by
    constructor
    · rintro rfl next
      simp
    · intro hmem
      exact Std.ExtTreeSet.ext_mem fun next => by simp [hmem]
  simp only [Survey.visit, bind, Option.bind_eq_some_iff, toOption_eq_some, pure,
    Option.some.injEq, Visit.mk.injEq, hset, List.mem_filter, Std.ExtTreeMap.contains_iff_mem]
  constructor
  · rintro ⟨method, hmethod, _, hmoved, uses, huses, rfl, hmethods, hfields⟩
    exact ⟨method, uses, hmethod, hmoved, huses, hmethods, hfields⟩
  · rintro ⟨method, uses, hmethod, hmoved, huses, hmethods, hfields⟩
    exact ⟨method, hmethod, _, hmoved, uses, huses, rfl, hmethods, hfields⟩

theorem exists_visit {moved : MemberKey} {uses : List Use}
    (hholder : survey.holder key = some method)
    (hmoved : key.movedMethod method.isStatic = .ok moved)
    (huses : method.uses survey.context.pool survey.context.bootstraps = .ok uses) :
    ∃ visit, survey.visit key = some visit ∧ visit.moved = moved ∧
      (∀ next, next ∈ visit.methods ↔
        next ∈ uses.filterMap Use.method? ∧ next ∈ survey.start.hidden) ∧
      ∀ next, next ∈ visit.fields ↔ next ∈ survey.context.hiddenOf uses := by
  have hmethods (next : MemberKey) :
      next ∈ Std.ExtTreeSet.ofList
          ((uses.filterMap Use.method?).filter survey.start.hidden.contains) ↔
        next ∈ uses.filterMap Use.method? ∧ next ∈ survey.start.hidden := by
    simp
  have hfields (next : MemberKey) :
      next ∈ Std.ExtTreeSet.ofList (survey.context.hiddenOf uses) ↔
        next ∈ survey.context.hiddenOf uses := by
    simp
  have hvisit : survey.visit key = some ⟨moved, _, _⟩ :=
    visit_eq_some.mpr ⟨method, uses, hholder, hmoved, huses, hmethods, hfields⟩
  exact ⟨⟨moved, _, _⟩, hvisit, rfl, hmethods, hfields⟩

end Survey

end StaticCompanion.Scan
