import StaticCompanion.Proofs.Visits

/-!
# Working off the worklist

A drain succeeds exactly if every method that is reached can be moved and its body be read, and it
adds exactly these methods and the hidden fields they use. `Survey.Progress` is what holds after
any number of methods have been worked off; the budget of a drain is never used up, because a
method is staged at most once.
-/
namespace StaticCompanion.Scan.Survey

/-- Every method that is reached can be moved and its body be read. -/
def Sound (survey : Survey) (settled : MemberKey → Prop) : Prop :=
  ∀ key, survey.Reaches settled key → ∃ visit, survey.visit key = some visit

/-- What a scan adds: the methods that are reached, the supported fields, and the hidden fields
that the methods that are reached use. What was there before stays. -/
structure Gains (survey : Survey) (analysis analysis' : Analysis) : Prop where
  types : analysis'.types = analysis.types
  methods : ∀ key value : MemberKey, analysis'.methods[key]? = some value ↔
    analysis.methods[key]? = some value ∨
      survey.Reaches (· ∈ analysis.methods) key ∧
        ∃ visit, survey.visit key = some visit ∧ value = visit.moved
  fields : ∀ key value : MemberKey, analysis'.fields[key]? = some value ↔
    analysis.fields[key]? = some value ∨
      key ∉ analysis.fields ∧ value = key.movedField ∧
        (key ∈ markedFields survey.fields ∨
          ∃ user visit, survey.Reaches (· ∈ analysis.methods) user ∧
            survey.visit user = some visit ∧ key ∈ visit.fields)

/-- What holds after some methods of the worklist have been worked off, when the drain has started
from the analysis `base`. -/
structure Progress (survey : Survey) (base : Analysis) (work : Worklist) (analysis : Analysis) :
    Prop where
  types : analysis.types = base.types
  hidden : work.hidden = survey.start.hidden
  seeds : ∀ key ∈ survey.start.staged, key ∈ work.staged
  within : ∀ key ∈ work.staged, key ∈ survey.start.staged ∨ key ∈ survey.start.hidden
  queued : ∀ key method, (key, method) ∈ work.queue → survey.holder key = some method ∧
    (key ∉ base.methods → survey.Reaches (· ∈ base.methods) key)
  staged : ∀ key ∈ work.staged, key ∈ analysis.methods ∨ ∃ method, (key, method) ∈ work.queue
  kept : ∀ key value : MemberKey, base.methods[key]? = some value →
    analysis.methods[key]? = some value
  moved : ∀ key value : MemberKey, analysis.methods[key]? = some value →
    base.methods[key]? = some value ∨ survey.Reaches (· ∈ base.methods) key ∧
      ∃ visit, survey.visit key = some visit ∧ value = visit.moved
  needed : ∀ key visit, key ∈ analysis.methods → key ∉ base.methods →
    survey.visit key = some visit →
      ∀ next ∈ visit.methods, next ∈ analysis.methods ∨ next ∈ work.staged
  fields : ∀ key value : MemberKey, analysis.fields[key]? = some value ↔
    base.fields[key]? = some value ∨
      key ∉ base.fields ∧ value = key.movedField ∧
        ∃ user visit, user ∈ analysis.methods ∧ user ∉ base.methods ∧
          survey.visit user = some visit ∧ key ∈ visit.fields

variable {survey : Survey} {base analysis analysis' : Analysis} {work : Worklist}
  {key : MemberKey} {method : Member} {queue : List (MemberKey × Member)}

theorem mem_iff_exists_getElem? {α : Type} {map : Std.ExtTreeMap MemberKey α} :
    key ∈ map ↔ ∃ value, map[key]? = some value := by
  rw [Std.ExtTreeMap.mem_iff_isSome_getElem?, Option.isSome_iff_exists]

theorem progress_start (survey : Survey) (base : Analysis) :
    Progress survey base survey.start base := by
  have hstarts := survey.starts_start
  refine ⟨rfl, rfl, fun _ h => h, fun _ h => .inl h, ?_, ?_, fun _ _ h => h, ?_, ?_, ?_⟩
  · intro key method hqueue
    exact ⟨holder_of_queue hqueue, .seed (hstarts.staged_of_queue hqueue)⟩
  · intro key hstaged
    exact .inr (hstarts.queue_of_staged key hstaged)
  · intro key value hvalue
    exact .inl hvalue
  · intro key visit hkey hnew
    exact absurd hkey hnew
  · intro key value
    constructor
    · exact .inl
    · rintro (hvalue | ⟨-, -, user, visit, huser, hnew, -⟩)
      · exact hvalue
      · exact absurd huser hnew

theorem Progress.mem_of_mem_base (h : Progress survey base work analysis)
    (hkey : key ∈ base.methods) : key ∈ analysis.methods := by
  obtain ⟨value, hvalue⟩ := mem_iff_exists_getElem?.mp hkey
  exact mem_iff_exists_getElem?.mpr ⟨value, h.kept key value hvalue⟩

theorem Progress.pass (h : Progress survey base work analysis)
    (hqueue : work.queue = (key, method) :: queue) (hmoved : key ∈ analysis.methods) :
    Progress survey base { work with queue } analysis := by
  refine ⟨h.types, h.hidden, h.seeds, h.within, ?_, ?_, h.kept, h.moved, h.needed, h.fields⟩
  · intro other method' hmem
    exact h.queued other method' (hqueue ▸ List.mem_cons_of_mem _ hmem)
  · intro other hstaged
    rcases h.staged other hstaged with hold | ⟨method', hmem⟩
    · exact .inl hold
    · rw [hqueue] at hmem
      rcases List.mem_cons.mp hmem with hfirst | hrest
      · obtain ⟨rfl, rfl⟩ := Prod.mk.inj hfirst
        exact .inl hmoved
      · exact .inr ⟨method', hrest⟩

theorem Progress.queued_of_more (h : Progress survey base work analysis)
    (hreaches : survey.Reaches (· ∈ base.methods) key) {visit : Visit}
    (hvisit : survey.visit key = some visit) {keys : List MemberKey}
    (hmethods : ∀ next, next ∈ visit.methods ↔ next ∈ keys ∧ next ∈ survey.start.hidden)
    {work' : Worklist} {moved : MemberMap} {more : List (MemberKey × Member)}
    (hmore : Worklist.Extends { work with queue } work' moved keys more) {other : MemberKey}
    (hadded : (other, method) ∈ more) : survey.holder other = some method ∧
      (other ∉ base.methods → survey.Reaches (· ∈ base.methods) other) := by
  obtain ⟨hneed, -, hstaged, hhidden⟩ := hmore.of_more other method hadded
  rw [show work.hidden = survey.start.hidden from h.hidden] at hhidden
  have hseed : other ∉ survey.start.staged := by
    intro hseed
    exact hstaged (h.seeds other hseed)
  refine ⟨(holder_of_not_staged hseed).trans hhidden, ?_⟩
  intro hnew
  have hmem : other ∈ survey.start.hidden := mem_iff_exists_getElem?.mpr ⟨method, hhidden⟩
  exact .need hreaches hvisit ((hmethods other).mpr ⟨hneed, hmem⟩) hnew

theorem Progress.fields_visit (h : Progress survey base work analysis)
    (hbase : key ∉ base.methods) {visit : Visit} (hvisit : survey.visit key = some visit)
    {keys : List MemberKey} (hfields : ∀ next, next ∈ visit.fields ↔ next ∈ keys)
    (other value : MemberKey) :
    ({ analysis with methods := analysis.methods.insert key visit.moved }.addFields
        keys).fields[other]? = some value ↔
      base.fields[other]? = some value ∨
        other ∉ base.fields ∧ value = other.movedField ∧
          ∃ user visit', user ∈ analysis.methods.insert key visit.moved ∧ user ∉ base.methods ∧
            survey.visit user = some visit' ∧ other ∈ visit'.fields := by
  rw [Analysis.fields_addFields]
  constructor
  · rintro (hold | ⟨hnone, huse, rfl⟩)
    · rcases (h.fields other value).mp hold with hold | ⟨hnone, hvalue, user, visit', huser, hrest⟩
      · exact .inl hold
      · have hgrown := Std.ExtTreeMap.mem_insert (k := key) (v := visit.moved).mpr (.inr huser)
        exact .inr ⟨hnone, hvalue, user, visit', hgrown, hrest⟩
    · have hnew : other ∉ base.fields := by
        intro hmem
        obtain ⟨value, hvalue⟩ := mem_iff_exists_getElem?.mp hmem
        exact hnone (mem_iff_exists_getElem?.mpr ⟨value, (h.fields other value).mpr (.inl hvalue)⟩)
      exact .inr ⟨hnew, rfl, key, visit, Std.ExtTreeMap.mem_insert_self, hbase, hvisit,
        (hfields other).mpr huse⟩
  · rintro (hold | ⟨hnone, rfl, user, visit', huser, huserBase, hvisit', hfield⟩)
    · exact .inl ((h.fields other value).mpr (.inl hold))
    · by_cases hmem : other ∈ analysis.fields
      · obtain ⟨value, hvalue⟩ := mem_iff_exists_getElem?.mp hmem
        rcases (h.fields other value).mp hvalue with hold | ⟨-, rfl, -⟩
        · exact absurd (mem_iff_exists_getElem?.mpr ⟨value, hold⟩) hnone
        · exact .inl hvalue
      · rcases Std.ExtTreeMap.mem_insert.mp huser with hsame | hold
        · obtain rfl := Std.LawfulEqCmp.compare_eq_iff_eq.mp hsame
          obtain rfl := Option.some.inj (hvisit.symm.trans hvisit')
          exact .inr ⟨hmem, (hfields other).mp hfield, rfl⟩
        · exact .inl ((h.fields other _).mpr
            (.inr ⟨hnone, rfl, user, visit', hold, huserBase, hvisit', hfield⟩))

theorem Progress.staged_visit (h : Progress survey base work analysis)
    (hqueue : work.queue = (key, method) :: queue) {value other : MemberKey}
    {work' : Worklist} {moved : MemberMap} {keys : List MemberKey}
    {more : List (MemberKey × Member)}
    (hmore : Worklist.Extends { work with queue } work' moved keys more)
    (hstaged : other ∈ work'.staged) : other ∈ analysis.methods.insert key value ∨
      ∃ method', (other, method') ∈ work'.queue := by
  simp only [Std.ExtTreeMap.mem_insert, hmore.queue, List.mem_append, exists_or]
  rcases (hmore.staged_iff other).mp hstaged with hold | hadded
  · rcases h.staged other hold with hmapped | ⟨method', hwaits⟩
    · exact .inl (.inr hmapped)
    · rw [hqueue] at hwaits
      rcases List.mem_cons.mp hwaits with hfirst | hrest
      · obtain ⟨rfl, rfl⟩ := Prod.mk.inj hfirst
        exact .inl (.inl Std.ReflCmp.compare_self)
      · exact .inr (.inl ⟨method', hrest⟩)
  · exact .inr (.inr hadded)

theorem Progress.methods_visit (h : Progress survey base work analysis)
    (hreaches : survey.Reaches (· ∈ base.methods) key) {visit : Visit}
    (hvisit : survey.visit key = some visit) (other value : MemberKey) :
    (base.methods[other]? = some value →
        (analysis.methods.insert key visit.moved)[other]? = some value) ∧
      ((analysis.methods.insert key visit.moved)[other]? = some value →
        base.methods[other]? = some value ∨ survey.Reaches (· ∈ base.methods) other ∧
          ∃ visit', survey.visit other = some visit' ∧ value = visit'.moved) := by
  simp only [Std.ExtTreeMap.getElem?_insert, Std.LawfulEqCmp.compare_eq_iff_eq]
  split
  · rename_i hsame
    subst hsame
    constructor
    · intro hvalue
      exact absurd (mem_iff_exists_getElem?.mpr ⟨value, hvalue⟩) hreaches.not_settled
    · intro hvalue
      exact .inr ⟨hreaches, visit, hvisit, (Option.some.inj hvalue).symm⟩
  · exact ⟨h.kept other value, h.moved other value⟩

theorem Progress.needed_visit (h : Progress survey base work analysis) {visit visit' : Visit}
    (hvisit : survey.visit key = some visit) {keys : List MemberKey}
    (hmethods : ∀ next, next ∈ visit.methods ↔ next ∈ keys ∧ next ∈ survey.start.hidden)
    {work' : Worklist} {more : List (MemberKey × Member)}
    (hmore : Worklist.Extends { work with queue } work' (analysis.methods.insert key visit.moved)
      keys more) {other next : MemberKey}
    (hother : other ∈ analysis.methods.insert key visit.moved) (hbase : other ∉ base.methods)
    (hvisit' : survey.visit other = some visit') (hnext : next ∈ visit'.methods) :
    next ∈ analysis.methods.insert key visit.moved ∨ next ∈ work'.staged := by
  rcases Std.ExtTreeMap.mem_insert.mp hother with hsame | hold
  · obtain rfl := Std.LawfulEqCmp.compare_eq_iff_eq.mp hsame
    obtain rfl := Option.some.inj (hvisit.symm.trans hvisit')
    obtain ⟨huse, hhidden⟩ := (hmethods next).mp hnext
    exact hmore.complete next huse (h.hidden ▸ hhidden)
  · rcases h.needed other visit' hold hbase hvisit' next hnext with hmapped | hstaged
    · exact .inl (Std.ExtTreeMap.mem_insert.mpr (.inr hmapped))
    · exact .inr ((hmore.staged_iff next).mpr (.inl hstaged))

/-- A method that has not moved yet moves, and the methods that it needs are queued. -/
theorem Progress.visit (h : Progress survey base work analysis)
    (hqueue : work.queue = (key, method) :: queue) (hnew : key ∉ analysis.methods)
    {moved : MemberKey} (hmoved : key.movedMethod method.isStatic = .ok moved) {uses : List Use}
    (huses : method.uses survey.context.pool survey.context.bootstraps = .ok uses) :
    Progress survey base
      ({ work with queue }.needAll (analysis.methods.insert key moved)
        (uses.filterMap Use.method?))
      ({ analysis with methods := analysis.methods.insert key moved }.addFields
        (survey.context.hiddenOf uses)) := by
  obtain ⟨hholder, hreaches⟩ := h.queued key method (hqueue ▸ List.mem_cons_self)
  have hbase : key ∉ base.methods := by
    intro hkey
    exact hnew (h.mem_of_mem_base hkey)
  replace hreaches := hreaches hbase
  obtain ⟨visit, hvisit, rfl, hmethods, hfields⟩ := exists_visit hholder hmoved huses
  obtain ⟨more, hmore⟩ := Worklist.extends_needAll { work with queue }
    (analysis.methods.insert key visit.moved) (uses.filterMap Use.method?)
  constructor
  case types => simpa using h.types
  case hidden => exact hmore.hidden.trans h.hidden
  case seeds =>
    intro other hseed
    exact (hmore.staged_iff other).mpr (.inl (h.seeds other hseed))
  case within =>
    intro other hstaged
    rcases (hmore.staged_iff other).mp hstaged with hold | ⟨method', hadded⟩
    · exact h.within other hold
    · obtain ⟨-, -, -, hhidden⟩ := hmore.of_more other method' hadded
      rw [show work.hidden = survey.start.hidden from h.hidden] at hhidden
      exact .inr (mem_iff_exists_getElem?.mpr ⟨method', hhidden⟩)
  case queued =>
    intro other method' hother
    rw [hmore.queue] at hother
    rcases List.mem_append.mp hother with hold | hadded
    · exact h.queued other method' (hqueue ▸ List.mem_cons_of_mem _ hold)
    · exact h.queued_of_more hreaches hvisit hmethods hmore hadded
  case staged =>
    intro other hstaged
    rw [Analysis.methods_addFields]
    exact h.staged_visit hqueue hmore hstaged
  case kept =>
    intro other value
    rw [Analysis.methods_addFields]
    exact (h.methods_visit hreaches hvisit other value).1
  case moved =>
    intro other value
    rw [Analysis.methods_addFields]
    exact (h.methods_visit hreaches hvisit other value).2
  case needed =>
    intro other visit' hother hotherBase hvisit' next hnext
    rw [Analysis.methods_addFields] at hother ⊢
    exact h.needed_visit hvisit hmethods hmore hother hotherBase hvisit' hnext
  case fields =>
    intro other value
    rw [Analysis.methods_addFields]
    exact h.fields_visit hbase hvisit hfields other value

theorem Progress.mem_of_reaches (h : Progress survey base work analysis) (hqueue : work.queue = [])
    (hreaches : survey.Reaches (· ∈ base.methods) key) : key ∈ analysis.methods := by
  have hstaged {key : MemberKey} (hstaged : key ∈ work.staged) : key ∈ analysis.methods := by
    rcases h.staged key hstaged with hmapped | ⟨method, hwaits⟩
    · exact hmapped
    · rw [hqueue] at hwaits
      cases hwaits
  induction hreaches with
  | seed hseed _ => exact hstaged (h.seeds _ hseed)
  | need hkey hvisit hneed _ ih =>
    rcases h.needed _ _ ih hkey.not_settled hvisit _ hneed with hmapped | hwaits
    · exact hmapped
    · exact hstaged hwaits

theorem Progress.reaches_of_mem (h : Progress survey base work analysis)
    (hkey : key ∈ analysis.methods) (hnew : key ∉ base.methods) :
    survey.Reaches (· ∈ base.methods) key ∧ ∃ visit, survey.visit key = some visit := by
  obtain ⟨value, hvalue⟩ := mem_iff_exists_getElem?.mp hkey
  rcases h.moved key value hvalue with hold | ⟨hreaches, visit, hvisit, -⟩
  · exact absurd (mem_iff_exists_getElem?.mpr ⟨value, hold⟩) hnew
  · exact ⟨hreaches, visit, hvisit⟩

theorem Progress.sound (h : Progress survey base work analysis) (hqueue : work.queue = []) :
    survey.Sound (· ∈ base.methods) := by
  intro key hreaches
  exact (h.reaches_of_mem (h.mem_of_reaches hqueue hreaches) hreaches.not_settled).2

theorem fields_mark {value : MemberKey} : (survey.mark analysis).fields[key]? = some value ↔
    analysis.fields[key]? = some value ∨
      key ∉ analysis.fields ∧ key ∈ markedFields survey.fields ∧ value = key.movedField :=
  Analysis.fields_addFields

theorem mem_fields_mark : key ∈ (survey.mark analysis).fields ↔
    key ∈ analysis.fields ∨ key ∈ markedFields survey.fields := by
  simp only [mem_iff_exists_getElem?, fields_mark, exists_or]
  by_cases hold : ∃ value, analysis.fields[key]? = some value <;> simp [hold]

theorem Progress.gains (h : Progress survey (survey.mark analysis) work analysis')
    (hqueue : work.queue = []) : survey.Gains analysis analysis' := by
  have hbase : (survey.mark analysis).methods = analysis.methods := Analysis.methods_addFields
  refine ⟨h.types.trans Analysis.types_addFields, ?_, ?_⟩
  · intro key value
    rw [← hbase]
    constructor
    · exact h.moved key value
    · rintro (hold | ⟨hreaches, visit, hvisit, rfl⟩)
      · exact h.kept key value hold
      · obtain ⟨value, hvalue⟩ := mem_iff_exists_getElem?.mp (h.mem_of_reaches hqueue hreaches)
        rcases h.moved key value hvalue with hold | ⟨-, visit', hvisit', rfl⟩
        · exact absurd (mem_iff_exists_getElem?.mpr ⟨value, hold⟩) hreaches.not_settled
        · rwa [Option.some.inj (hvisit.symm.trans hvisit')]
  · intro key value
    have husers : (∃ user visit, user ∈ analysis'.methods ∧
        user ∉ (survey.mark analysis).methods ∧ survey.visit user = some visit ∧
        key ∈ visit.fields) ↔
        ∃ user visit, survey.Reaches (· ∈ analysis.methods) user ∧
          survey.visit user = some visit ∧ key ∈ visit.fields := by
      rw [← hbase]
      constructor
      · rintro ⟨user, visit, huser, hnew, hrest⟩
        exact ⟨user, visit, (h.reaches_of_mem huser hnew).1, hrest⟩
      · rintro ⟨user, visit, hreaches, hrest⟩
        exact ⟨user, visit, h.mem_of_reaches hqueue hreaches, hreaches.not_settled, hrest⟩
    rw [h.fields, husers, fields_mark, mem_fields_mark]
    by_cases hold : key ∈ analysis.fields
    · simp [hold]
    · by_cases hmarked : key ∈ markedFields survey.fields <;> simp [hold, hmarked]

theorem Progress.size_staged_le (h : Progress survey base work analysis) :
    work.staged.size ≤ survey.bound := by
  have hnodup : work.staged.toList.Nodup :=
    Std.ExtTreeSet.distinct_toList.imp Std.ReflCmp.ne_of_cmp_ne_eq
  have hsubset : work.staged.toList ⊆
      survey.start.queue.map Prod.fst ++ survey.start.hidden.keys := by
    intro key hkey
    rcases h.within key (Std.ExtTreeSet.mem_toList.mp hkey) with hseed | hhidden
    · obtain ⟨method, hqueue⟩ := survey.starts_start.queue_of_staged key hseed
      exact List.mem_append_left _ (List.mem_map_of_mem (f := Prod.fst) hqueue)
    · exact List.mem_append_right _ (Std.ExtTreeMap.mem_keys.mpr hhidden)
  have hlen := hnodup.length_le_of_subset hsubset
  rw [Std.ExtTreeSet.length_toList, List.length_append, List.length_map,
    Std.ExtTreeMap.length_keys] at hlen
  exact hlen

/-- The budget is enough for what may still be staged. -/
def Affords (survey : Survey) (budget : Nat) (work : Worklist) : Prop :=
  work.queue.length + survey.bound ≤ budget + work.staged.size

theorem affords_start (survey : Survey) : survey.Affords survey.bound survey.start := by
  unfold Affords
  rw [survey.starts_start.size_staged]
  omega

theorem Progress.queue_eq_nil (h : Progress survey base work analysis)
    (hbudget : survey.Affords 0 work) : work.queue = [] := by
  have hsize := h.size_staged_le
  unfold Affords at hbudget
  exact List.eq_nil_of_length_eq_zero (by omega)

theorem affords_pass {budget : Nat} (hbudget : survey.Affords (budget + 1) work)
    (hqueue : work.queue = (key, method) :: queue) :
    survey.Affords budget { work with queue } := by
  unfold Affords at hbudget ⊢
  rw [hqueue, List.length_cons] at hbudget
  dsimp only
  omega

theorem affords_needAll {budget : Nat} (hbudget : survey.Affords budget work) (moved : MemberMap)
    (keys : List MemberKey) : survey.Affords budget (work.needAll moved keys) := by
  obtain ⟨more, hmore⟩ := Worklist.extends_needAll work moved keys
  unfold Affords at hbudget ⊢
  rw [hmore.queue, hmore.size_staged, List.length_append]
  omega

/-- A drain that succeeds has worked off the whole queue. -/
theorem progress_of_drain {budget : Nat} (hprogress : Progress survey base work analysis)
    (hbudget : survey.Affords budget work)
    (hdrain : drain survey.context budget work analysis = .ok () analysis') :
    ∃ work', work'.queue = [] ∧ Progress survey base work' analysis' := by
  induction budget generalizing work analysis with
  | zero =>
    simp only [drain, state_pure_eq_ok, true_and] at hdrain
    -- The budget covers what may still be staged, so nothing can be left in the queue.
    exact ⟨work, hprogress.queue_eq_nil hbudget, hdrain ▸ hprogress⟩
  | succ budget ih =>
    cases hqueue : work.queue with
    | nil => exact ⟨work, hqueue, (drain_nil hqueue).mp hdrain ▸ hprogress⟩
    | cons first queue =>
      obtain ⟨key, method⟩ := first
      simp only [drain, hqueue, state_bind_eq_ok, state_get_eq_ok] at hdrain
      obtain ⟨_, _, ⟨rfl, rfl⟩, hdrain⟩ := hdrain
      split at hdrain
      · rename_i hmoved
        exact ih (hprogress.pass hqueue (Std.ExtTreeMap.contains_iff_mem.mp hmoved))
          (affords_pass hbudget hqueue) hdrain
      · rename_i hnew
        rw [Std.ExtTreeMap.contains_iff_mem] at hnew
        simp only [state_bind_eq_ok, state_lift_eq_ok, lift_descriptor_eq_ok, state_modify_eq_ok,
          visitBody_eq_ok] at hdrain
        obtain ⟨moved, _, ⟨hmoved, rfl⟩, _, _, rfl, _, _, ⟨uses, huses, rfl, rfl⟩, hdrain⟩ :=
          hdrain
        exact ih (hprogress.visit hqueue hnew hmoved huses)
          (affords_needAll (affords_pass hbudget hqueue) _ _) hdrain

/-- If every method that is reached can be moved and read, a drain succeeds. -/
theorem exists_drain {budget : Nat} (hprogress : Progress survey base work analysis)
    (hbudget : survey.Affords budget work) (hsound : survey.Sound (· ∈ base.methods)) :
    ∃ analysis', drain survey.context budget work analysis = .ok () analysis' := by
  induction budget generalizing work analysis with
  | zero => exact ⟨analysis, rfl⟩
  | succ budget ih =>
    cases hqueue : work.queue with
    | nil => exact ⟨analysis, (drain_nil hqueue).mpr rfl⟩
    | cons first queue =>
      obtain ⟨key, method⟩ := first
      simp only [drain, hqueue, state_bind_eq_ok, state_get_eq_ok]
      by_cases hmoved : key ∈ analysis.methods
      · obtain ⟨analysis', hdrain⟩ :=
          ih (hprogress.pass hqueue hmoved) (affords_pass hbudget hqueue)
        refine ⟨analysis', _, _, ⟨rfl, rfl⟩, ?_⟩
        rwa [if_pos (Std.ExtTreeMap.contains_iff_mem.mpr hmoved)]
      · obtain ⟨hholder, hreaches⟩ := hprogress.queued key method (hqueue ▸ List.mem_cons_self)
        -- Whatever is queued is reached, which is why it can be moved and read.
        obtain ⟨visit, hvisit⟩ :=
          hsound key (hreaches fun hbase => hmoved (hprogress.mem_of_mem_base hbase))
        obtain ⟨method', uses, hholder', hkey, huses, -⟩ := visit_eq_some.mp hvisit
        obtain rfl := Option.some.inj (hholder.symm.trans hholder')
        obtain ⟨analysis', hdrain⟩ := ih (hprogress.visit hqueue hmoved hkey huses)
          (affords_needAll (affords_pass hbudget hqueue) _ _)
        refine ⟨analysis', _, _, ⟨rfl, rfl⟩, ?_⟩
        rw [if_neg fun h => hmoved (Std.ExtTreeMap.contains_iff_mem.mp h)]
        simp only [state_bind_eq_ok, state_lift_eq_ok, lift_descriptor_eq_ok, state_modify_eq_ok,
          visitBody_eq_ok]
        exact ⟨visit.moved, _, ⟨hkey, rfl⟩, (), _, rfl, _, _, ⟨uses, huses, rfl, rfl⟩, hdrain⟩

theorem Gains.unique {analysis₁ analysis₂ : Analysis} (h₁ : survey.Gains analysis analysis₁)
    (h₂ : survey.Gains analysis analysis₂) : analysis₁ = analysis₂ := by
  obtain ⟨fields₁, methods₁, types₁⟩ := analysis₁
  obtain ⟨fields₂, methods₂, types₂⟩ := analysis₂
  have htypes : types₁ = types₂ := h₁.types.trans h₂.types.symm
  have hmethods : methods₁ = methods₂ := by
    apply Std.ExtTreeMap.ext_getElem?
    intro key
    apply Option.ext
    intro value
    exact (h₁.methods key value).trans (h₂.methods key value).symm
  have hfields : fields₁ = fields₂ := by
    apply Std.ExtTreeMap.ext_getElem?
    intro key
    apply Option.ext
    intro value
    exact (h₁.fields key value).trans (h₂.fields key value).symm
  rw [htypes, hmethods, hfields]

/-- After a scan exactly those methods have moved that had moved before and those that are
reached. -/
theorem mem_of_gains (hsound : survey.Sound (· ∈ analysis.methods))
    (hgains : survey.Gains analysis analysis') :
    key ∈ analysis'.methods ↔
      key ∈ analysis.methods ∨ survey.Reaches (· ∈ analysis.methods) key := by
  constructor
  · intro hmem
    obtain ⟨value, hvalue⟩ := mem_iff_exists_getElem?.mp hmem
    rcases (hgains.methods key value).mp hvalue with hold | ⟨hreaches, -⟩
    · exact .inl (mem_iff_exists_getElem?.mpr ⟨value, hold⟩)
    · exact .inr hreaches
  · rintro (hmem | hreaches)
    · obtain ⟨value, hvalue⟩ := mem_iff_exists_getElem?.mp hmem
      exact mem_iff_exists_getElem?.mpr ⟨value, (hgains.methods key value).mpr (.inl hvalue)⟩
    · obtain ⟨visit, hvisit⟩ := hsound key hreaches
      exact mem_iff_exists_getElem?.mpr
        ⟨visit.moved, (hgains.methods key _).mpr (.inr ⟨hreaches, visit, hvisit, rfl⟩)⟩

/-- A scan succeeds exactly if everything that the class brings along can be moved and read, and
adds exactly that. -/
theorem scan_eq_ok_iff {supported : NameSet} {file : ClassFile} :
    scan supported file analysis = .ok () analysis' ↔ ∃ survey, ofFile supported file = .ok survey ∧
      survey.Sound (· ∈ analysis.methods) ∧ survey.Gains analysis analysis' := by
  rw [scan_eq_ok]
  apply exists_congr
  intro survey
  apply and_congr_right
  intro _
  have hstart := survey.progress_start (survey.mark analysis)
  have hbase : (survey.mark analysis).methods = analysis.methods := Analysis.methods_addFields
  constructor
  · intro hdrain
    obtain ⟨work, hqueue, hdone⟩ := progress_of_drain hstart survey.affords_start hdrain
    exact ⟨hbase ▸ hdone.sound hqueue, hdone.gains hqueue⟩
  · rintro ⟨hsound, hgains⟩
    obtain ⟨analysis₁, hdrain⟩ := exists_drain hstart survey.affords_start (hbase.symm ▸ hsound)
    obtain ⟨work, hqueue, hdone⟩ := progress_of_drain hstart survey.affords_start hdrain
    rwa [hgains.unique (hdone.gains hqueue)]

end StaticCompanion.Scan.Survey
