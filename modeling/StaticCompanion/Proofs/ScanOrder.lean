import StaticCompanion.Proofs.Moves

/-!
# The order of scans

Two classes of different names have nothing to do with each other, so they can be scanned in either
order. Two versions of one class share their keys: a method that the first version has moved is not
looked at again in the second one. The order is irrelevant exactly if no order loses what one of
the classes brings along by itself. Nothing is lost as long as both versions bring the same members
along with every method that both of them move.
-/
namespace StaticCompanion.Scan

/-- The second map has the entries of the first one, and those that are new to it. -/
def Adds (map map' : MemberMap) (new : MemberKey → MemberKey → Prop) : Prop :=
  ∀ key value : MemberKey,
    map'[key]? = some value ↔ map[key]? = some value ∨ key ∉ map ∧ new key value

section Maps
variable {map map₁ map₂ : MemberMap} {new new' : MemberKey → MemberKey → Prop}

theorem Adds.mem_iff (h : Adds map map₁ new) {key : MemberKey} :
    key ∈ map₁ ↔ key ∈ map ∨ key ∉ map ∧ ∃ value, new key value := by
  rw [Survey.mem_iff_exists_getElem?]
  simp only [h key, exists_or, exists_and_left, Survey.mem_iff_exists_getElem?]

/-- Entries are added in two steps; what both steps would add is the same. -/
theorem Adds.trans (h : Adds map map₁ new) (h' : Adds map₁ map₂ new')
    (hsame : ∀ key value value', new key value → new' key value' → value = value') :
    Adds map map₂ fun key value => new key value ∨ new' key value := by
  intro key value
  rw [h' key value, h.mem_iff, h key value]
  constructor
  · rintro ((hold | ⟨hmem, hnew⟩) | ⟨hmem, hnew⟩)
    · exact .inl hold
    · exact .inr ⟨hmem, .inl hnew⟩
    · exact .inr ⟨fun hold => hmem (.inl hold), .inr hnew⟩
  · rintro (hold | ⟨hmem, hnew | hnew⟩)
    · exact .inl (.inl hold)
    · exact .inl (.inr ⟨hmem, hnew⟩)
    · by_cases hfirst : ∃ first, new key first
      · obtain ⟨first, hfirst⟩ := hfirst
        obtain rfl := hsame key first value hfirst hnew
        exact .inl (.inr ⟨hmem, hfirst⟩)
      · refine .inr ⟨?_, hnew⟩
        rintro (hold | ⟨-, hsome⟩)
        · exact hmem hold
        · exact hfirst hsome

theorem Adds.congr (h : Adds map map₁ new)
    (hnew : ∀ key value, new key value ↔ new' key value) : Adds map map₁ new' := by
  intro key value
  rw [h key value, hnew]

theorem Adds.unique (h₁ : Adds map map₁ new) (h₂ : Adds map map₂ new) : map₁ = map₂ := by
  apply Std.ExtTreeMap.ext_getElem?
  intro key
  apply Option.ext
  intro value
  exact (h₁ key value).trans (h₂ key value).symm

end Maps

namespace Survey

/-- The method is reached and has the new key when it has moved. -/
def MovesTo (survey : Survey) (settled : MemberKey → Prop) (key value : MemberKey) : Prop :=
  survey.Reaches settled key ∧ ∃ visit, survey.visit key = some visit ∧ value = visit.moved

/-- The field is marked or used by a method that is reached, and has the new key. -/
def MovesFieldTo (survey : Survey) (settled : MemberKey → Prop) (key value : MemberKey) : Prop :=
  value = key.movedField ∧ (key ∈ markedFields survey.fields ∨
    ∃ user visit, survey.Reaches settled user ∧ survey.visit user = some visit ∧
      key ∈ visit.fields)

/-- Both surveys bring the same along with every method that both of them move. -/
def Agrees (survey survey' : Survey) : Prop :=
  ∀ key, survey.Reaches (fun _ => False) key → survey'.Reaches (fun _ => False) key →
    survey.visit key = survey'.visit key

variable {s t : Survey} {analysis analysis₁ analysis₂ : Analysis} {key : MemberKey}

theorem gains_iff : s.Gains analysis analysis₁ ↔ analysis₁.types = analysis.types ∧
    Adds analysis.methods analysis₁.methods (s.MovesTo (· ∈ analysis.methods)) ∧
    Adds analysis.fields analysis₁.fields (s.MovesFieldTo (· ∈ analysis.methods)) := by
  have hnew {key value : MemberKey} (h : s.MovesTo (· ∈ analysis.methods) key value) :
      key ∉ analysis.methods := h.1.not_settled
  constructor
  · rintro ⟨htypes, hmethods, hfields⟩
    refine ⟨htypes, ?_, hfields⟩
    intro key value
    exact (hmethods key value).trans (or_congr_right (and_iff_right_of_imp hnew).symm)
  · rintro ⟨htypes, hmethods, hfields⟩
    refine ⟨htypes, ?_, hfields⟩
    intro key value
    exact (hmethods key value).trans (or_congr_right (and_iff_right_of_imp hnew))

theorem exists_gains (hsound : s.Sound (· ∈ analysis.methods)) :
    ∃ analysis₁, s.Gains analysis analysis₁ := by
  have hstart := s.progress_start (s.mark analysis)
  have hbase : (s.mark analysis).methods = analysis.methods := Analysis.methods_addFields
  obtain ⟨analysis₁, hdrain⟩ := exists_drain hstart s.affords_start (hbase.symm ▸ hsound)
  obtain ⟨work, hqueue, hdone⟩ := progress_of_drain hstart s.affords_start hdrain
  exact ⟨analysis₁, hdone.gains hqueue⟩

theorem Reaches.anti {settled settled' : MemberKey → Prop}
    (hle : ∀ key, settled key → settled' key) (h : s.Reaches settled' key) :
    s.Reaches settled key := by
  induction h with
  | seed hseed hnew => exact .seed hseed fun h => hnew (hle _ h)
  | need _ hvisit hneed hnew ih => exact .need ih hvisit hneed fun h => hnew (hle _ h)

theorem Agrees.symm (h : s.Agrees t) : t.Agrees s :=
  fun key ht hs => (h key hs ht).symm

theorem Agrees.visit_eq (h : s.Agrees t) {settled settled' : MemberKey → Prop}
    (hs : s.Reaches settled key) (ht : t.Reaches settled' key) : s.visit key = t.visit key :=
  h key (hs.anti fun _ => False.elim) (ht.anti fun _ => False.elim)

/-- What two classes add together. -/
structure Joint (s t : Survey) (analysis analysis' : Analysis) : Prop where
  types : analysis'.types = analysis.types
  methods : Adds analysis.methods analysis'.methods fun key value =>
    s.MovesTo (· ∈ analysis.methods) key value ∨ t.MovesTo (· ∈ analysis.methods) key value
  fields : Adds analysis.fields analysis'.fields fun key value =>
    s.MovesFieldTo (· ∈ analysis.methods) key value ∨
      t.MovesFieldTo (· ∈ analysis.methods) key value

theorem Joint.symm (h : s.Joint t analysis analysis₁) : t.Joint s analysis analysis₁ :=
  ⟨h.types, h.methods.congr fun _ _ => or_comm, h.fields.congr fun _ _ => or_comm⟩

theorem Joint.unique (h₁ : s.Joint t analysis analysis₁) (h₂ : s.Joint t analysis analysis₂) :
    analysis₁ = analysis₂ := by
  obtain ⟨fields₁, methods₁, types₁⟩ := analysis₁
  obtain ⟨fields₂, methods₂, types₂⟩ := analysis₂
  have htypes : types₁ = types₂ := h₁.types.trans h₂.types.symm
  have hmethods : methods₁ = methods₂ := h₁.methods.unique h₂.methods
  have hfields : fields₁ = fields₂ := h₁.fields.unique h₂.fields
  rw [htypes, hmethods, hfields]

section After
variable (hsound : s.Sound (· ∈ analysis.methods)) (hgains : s.Gains analysis analysis₁)
include hsound hgains

theorem reaches_before (h : t.Reaches (· ∈ analysis₁.methods) key) :
    t.Reaches (· ∈ analysis.methods) key :=
  h.anti fun _ hmem => (mem_of_gains hsound hgains).mpr (.inl hmem)

variable (hagree : s.Agrees t)
include hagree

/-- What the second class reaches by itself, the first class has moved or it still reaches. -/
theorem reaches_cases (h : t.Reaches (· ∈ analysis.methods) key) :
    s.Reaches (· ∈ analysis.methods) key ∨ t.Reaches (· ∈ analysis₁.methods) key := by
  induction h with
  | @seed key hseed hnew =>
    by_cases hmem : key ∈ analysis₁.methods
    · exact .inl (((mem_of_gains hsound hgains).mp hmem).resolve_left hnew)
    · exact .inr (.seed hseed hmem)
  | @need key next visit hkey hvisit hneed hnew ih =>
    -- What the first scan has not settled is reached from a caller on which both surveys agree,
    -- or from one that is left to the second scan.
    by_cases hmem : next ∈ analysis₁.methods
    · exact .inl (((mem_of_gains hsound hgains).mp hmem).resolve_left hnew)
    · rcases ih with hfirst | hsecond
      · exact .inl (.need hfirst ((hagree.visit_eq hfirst hkey).trans hvisit) hneed hnew)
      · exact .inr (.need hsecond hvisit hneed hmem)

theorem sound_after_iff :
    t.Sound (· ∈ analysis₁.methods) ↔ t.Sound (· ∈ analysis.methods) := by
  constructor
  · intro hafter key hreaches
    rcases reaches_cases hsound hgains hagree hreaches with hfirst | hsecond
    · obtain ⟨visit, hvisit⟩ := hsound key hfirst
      exact ⟨visit, (hagree.visit_eq hfirst hreaches).symm.trans hvisit⟩
    · exact hafter key hsecond
  · intro hbefore key hreaches
    exact hbefore key (reaches_before hsound hgains hreaches)

theorem movesTo_iff {value : MemberKey} :
    s.MovesTo (· ∈ analysis.methods) key value ∨ t.MovesTo (· ∈ analysis₁.methods) key value ↔
      s.MovesTo (· ∈ analysis.methods) key value ∨ t.MovesTo (· ∈ analysis.methods) key value := by
  constructor
  · rintro (hfirst | ⟨hsecond, hvisit⟩)
    · exact .inl hfirst
    · exact .inr ⟨reaches_before hsound hgains hsecond, hvisit⟩
  · rintro (hfirst | ⟨hreaches, visit, hvisit, hvalue⟩)
    · exact .inl hfirst
    · rcases reaches_cases hsound hgains hagree hreaches with hfirst | hsecond
      · have hsame := hagree.visit_eq hfirst hreaches
        exact .inl ⟨hfirst, visit, hsame.trans hvisit, hvalue⟩
      · exact .inr ⟨hsecond, visit, hvisit, hvalue⟩

theorem movesFieldTo_iff {value : MemberKey} :
    s.MovesFieldTo (· ∈ analysis.methods) key value ∨
        t.MovesFieldTo (· ∈ analysis₁.methods) key value ↔
      s.MovesFieldTo (· ∈ analysis.methods) key value ∨
        t.MovesFieldTo (· ∈ analysis.methods) key value := by
  constructor
  · rintro (hfirst | ⟨hvalue, hmarked | ⟨user, visit, huser, hvisit⟩⟩)
    · exact .inl hfirst
    · exact .inr ⟨hvalue, .inl hmarked⟩
    · exact .inr ⟨hvalue, .inr ⟨user, visit, reaches_before hsound hgains huser, hvisit⟩⟩
  · rintro (hfirst | ⟨hvalue, hmarked | ⟨user, visit, huser, hvisit, hfield⟩⟩)
    · exact .inl hfirst
    · exact .inr ⟨hvalue, .inl hmarked⟩
    · rcases reaches_cases hsound hgains hagree huser with hfirst | hsecond
      · have hsame := hagree.visit_eq hfirst huser
        exact .inl ⟨hvalue, .inr ⟨user, visit, hfirst, hsame.trans hvisit, hfield⟩⟩
      · exact .inr ⟨hvalue, .inr ⟨user, visit, hsecond, hvisit, hfield⟩⟩

theorem joint_of_gains (hgains' : t.Gains analysis₁ analysis₂) :
    s.Joint t analysis analysis₂ := by
  obtain ⟨htypes, hmethods, hfields⟩ := gains_iff.mp hgains
  obtain ⟨htypes', hmethods', hfields'⟩ := gains_iff.mp hgains'
  refine ⟨htypes'.trans htypes, ?_, ?_⟩
  · have hboth := hmethods.trans hmethods' (by
      rintro key value value' ⟨hfirst, -⟩ ⟨hsecond, -⟩
      exact absurd ((mem_of_gains hsound hgains).mpr (.inr hfirst)) hsecond.not_settled)
    exact hboth.congr fun key value => movesTo_iff hsound hgains hagree
  · have hboth := hfields.trans hfields' (by
      rintro key value value' ⟨rfl, -⟩ ⟨rfl, -⟩
      rfl)
    exact hboth.congr fun key value => movesFieldTo_iff hsound hgains hagree

end After

/-- Two scans in a row succeed exactly if each would by itself, and they add what the two classes
add together. -/
theorem two_scans_iff (hagree : s.Agrees t) :
    (∃ analysis₁, (s.Sound (· ∈ analysis.methods) ∧ s.Gains analysis analysis₁) ∧
      t.Sound (· ∈ analysis₁.methods) ∧ t.Gains analysis₁ analysis₂) ↔
      s.Sound (· ∈ analysis.methods) ∧ t.Sound (· ∈ analysis.methods) ∧
        s.Joint t analysis analysis₂ := by
  constructor
  · rintro ⟨analysis₁, ⟨hsound, hgains⟩, hsound', hgains'⟩
    exact ⟨hsound, (sound_after_iff hsound hgains hagree).mp hsound',
      joint_of_gains hsound hgains hagree hgains'⟩
  · rintro ⟨hsound, hsound', hjoint⟩
    -- Both scans succeed in a row as well. What they add is then determined.
    obtain ⟨analysis₁, hgains⟩ := exists_gains hsound
    have hafter := (sound_after_iff hsound hgains hagree).mpr hsound'
    obtain ⟨analysis₃, hgains'⟩ := exists_gains hafter
    have hsame := hjoint.unique (joint_of_gains hsound hgains hagree hgains')
    exact ⟨analysis₁, ⟨hsound, hgains⟩, hafter, hsame ▸ hgains'⟩

end Survey

/-- Two class files bring the same along with every method that both of them move. -/
def FilesAgree (supported : NameSet) (file file' : ClassFile) : Prop :=
  ∀ survey survey', Survey.ofFile supported file = .ok survey →
    Survey.ofFile supported file' = .ok survey' → survey.Agrees survey'

variable {supported : NameSet}

theorem extend_eq_ok_iff {analysis analysis' : Analysis} {file : ClassFile} :
    extend supported analysis file = .ok analysis' ↔
      ∃ survey, Survey.ofFile supported file = .ok survey ∧
        survey.Sound (· ∈ analysis.methods) ∧ survey.Gains analysis analysis' := by
  rw [extend_eq_ok, Survey.scan_eq_ok_iff]

theorem FilesAgree.symm {file file' : ClassFile} (h : FilesAgree supported file file') :
    FilesAgree supported file' file :=
  fun survey survey' hsurvey hsurvey' => (h survey' survey hsurvey' hsurvey).symm

theorem filesAgree_of_survey_eq {file file' : ClassFile}
    (hsame : Survey.ofFile supported file = Survey.ofFile supported file') :
    FilesAgree supported file file' := by
  intro survey survey' hsurvey hsurvey' key _ _
  obtain rfl := Except.ok.inj (hsurvey.symm.trans (hsame.trans hsurvey'))
  rfl

theorem filesAgree_of_name_ne {file file' : ClassFile} (hname : file.name ≠ file'.name) :
    FilesAgree supported file file' := by
  intro survey survey' hsurvey hsurvey' key hreaches hreaches'
  refine absurd ?_ hname
  rw [(Survey.ofFile_eq_ok.mp hsurvey).1, (Survey.ofFile_eq_ok.mp hsurvey').1,
    ← Survey.owner_of_reaches hsurvey hreaches, ← Survey.owner_of_reaches hsurvey' hreaches']

theorem extend_comm {file file' : ClassFile} (hagree : FilesAgree supported file file')
    {analysis analysis' : Analysis} :
    (do extend supported (← extend supported analysis file) file') = .ok analysis' ↔
      (do extend supported (← extend supported analysis file') file) = .ok analysis' := by
  have hswap {file file' : ClassFile} (hagree : FilesAgree supported file file')
      (h : (do extend supported (← extend supported analysis file) file') = .ok analysis') :
      (do extend supported (← extend supported analysis file') file) = .ok analysis' := by
    simp only [except_bind_eq_ok, extend_eq_ok_iff] at h ⊢
    obtain ⟨analysis₁, ⟨survey, hsurvey, hfirst⟩, survey', hsurvey', hsecond⟩ := h
    have hsurveys := hagree survey survey' hsurvey hsurvey'
    obtain ⟨hsound, hsound', hjoint⟩ :=
      (Survey.two_scans_iff hsurveys).mp ⟨analysis₁, hfirst, hsecond⟩
    obtain ⟨analysis₂, hfirst, hsecond⟩ :=
      (Survey.two_scans_iff hsurveys.symm).mpr ⟨hsound', hsound, hjoint.symm⟩
    exact ⟨analysis₂, ⟨survey', hsurvey', hfirst⟩, survey, hsurvey, hsecond⟩
  exact ⟨hswap hagree, hswap hagree.symm⟩

theorem foldlM_perm {files files' : List ClassFile} (hperm : files.Perm files')
    (hagree : files.Pairwise (FilesAgree supported)) {analysis analysis' : Analysis} :
    files.foldlM (extend supported) analysis = .ok analysis' ↔
      files'.foldlM (extend supported) analysis = .ok analysis' := by
  induction hperm generalizing analysis with
  | nil => rfl
  | cons file _ ih =>
    simp only [List.foldlM_cons, except_bind_eq_ok]
    apply exists_congr
    intro middle
    apply and_congr_right
    intro _
    exact ih (List.pairwise_cons.mp hagree).2
  | swap file file' rest =>
    have hpair := (List.pairwise_cons.mp hagree).1 file List.mem_cons_self
    simp only [List.foldlM_cons, ← bind_assoc]
    rw [except_bind_eq_ok, except_bind_eq_ok]
    apply exists_congr
    intro middle
    apply and_congr_left
    intro _
    exact extend_comm hpair
  | trans hfirst _ ih₁ ih₂ =>
    exact (ih₁ hagree).trans (ih₂ (hagree.perm hfirst fun h => h.symm))

section Loss

/-- What has moved in the first analysis has moved in the second one, with the same new keys. -/
structure Within (analysis analysis' : Analysis) : Prop where
  types : analysis'.types = analysis.types
  methods : ∀ key value : MemberKey,
    analysis.methods[key]? = some value → analysis'.methods[key]? = some value
  fields : ∀ key value : MemberKey,
    analysis.fields[key]? = some value → analysis'.fields[key]? = some value

variable {analysis analysis' analysis'' later own bound : Analysis} {file : ClassFile}
  {files : List ClassFile}

theorem Within.refl (analysis : Analysis) : Within analysis analysis :=
  ⟨rfl, fun _ _ => id, fun _ _ => id⟩

theorem Within.trans (h : Within analysis analysis') (h' : Within analysis' analysis'') :
    Within analysis analysis'' :=
  ⟨h'.types.trans h.types, fun key value hold => h'.methods key value (h.methods key value hold),
    fun key value hold => h'.fields key value (h.fields key value hold)⟩

theorem Within.antisymm (h : Within analysis analysis') (h' : Within analysis' analysis) :
    analysis = analysis' := by
  obtain ⟨fields, methods, types⟩ := analysis
  obtain ⟨fields', methods', types'⟩ := analysis'
  have htypes : types = types' := h'.types
  have hmethods : methods = methods' := by
    apply Std.ExtTreeMap.ext_getElem?
    intro key
    apply Option.ext
    intro value
    exact ⟨h.methods key value, h'.methods key value⟩
  have hfields : fields = fields' := by
    apply Std.ExtTreeMap.ext_getElem?
    intro key
    apply Option.ext
    intro value
    exact ⟨h.fields key value, h'.fields key value⟩
  rw [htypes, hmethods, hfields]

theorem Within.mem_fields (h : Within analysis analysis') {key : MemberKey}
    (hmem : key ∈ analysis.fields) : key ∈ analysis'.fields := by
  obtain ⟨value, hvalue⟩ := Survey.mem_iff_exists_getElem?.mp hmem
  exact Survey.mem_iff_exists_getElem?.mpr ⟨value, h.fields key value hvalue⟩

theorem Within.mem_methods (h : Within analysis analysis') {key : MemberKey}
    (hmem : key ∈ analysis.methods) : key ∈ analysis'.methods := by
  obtain ⟨value, hvalue⟩ := Survey.mem_iff_exists_getElem?.mp hmem
  exact Survey.mem_iff_exists_getElem?.mpr ⟨value, h.methods key value hvalue⟩

theorem within_of_extend (h : extend supported analysis file = .ok analysis') :
    Within analysis analysis' := by
  obtain ⟨survey, -, -, hgains⟩ := extend_eq_ok_iff.mp h
  refine ⟨hgains.types, ?_, ?_⟩
  · intro key value hold
    exact (hgains.methods key value).mpr (.inl hold)
  · intro key value hold
    exact (hgains.fields key value).mpr (.inl hold)

theorem within_of_foldlM (h : files.foldlM (extend supported) analysis = .ok analysis') :
    Within analysis analysis' := by
  induction files generalizing analysis with
  | nil =>
    obtain rfl := except_pure_eq_ok.mp h
    exact .refl _
  | cons file files ih =>
    rw [List.foldlM_cons] at h
    obtain ⟨middle, hfirst, hrest⟩ := except_bind_eq_ok.mp h
    exact (within_of_extend hfirst).trans (ih hrest)

/-- A class that can be scanned by itself can be scanned later as well. It then adds no more than it
does by itself. -/
theorem extend_later (hown : extend supported analysis file = .ok own) (hle : Within analysis later)
    (hownBound : Within own bound) (hbound : Within later bound) :
    ∃ later', extend supported later file = .ok later' ∧ Within later' bound := by
  obtain ⟨survey, hsurvey, hsound, hgains⟩ := extend_eq_ok_iff.mp hown
  have hbefore {key : MemberKey} (h : survey.Reaches (· ∈ later.methods) key) :
      survey.Reaches (· ∈ analysis.methods) key :=
    h.anti fun _ => hle.mem_methods
  have hsound' : survey.Sound (· ∈ later.methods) := fun key h => hsound key (hbefore h)
  obtain ⟨later', hgains'⟩ := Survey.exists_gains hsound'
  refine ⟨later', extend_eq_ok_iff.mpr ⟨survey, hsurvey, hsound', hgains'⟩, ?_, ?_, ?_⟩
  · exact hbound.types.trans hgains'.types.symm
  · intro key value hvalue
    rcases (hgains'.methods key value).mp hvalue with hold | ⟨hreaches, hmoved⟩
    · exact hbound.methods key value hold
    · exact hownBound.methods key value
        ((hgains.methods key value).mpr (.inr ⟨hbefore hreaches, hmoved⟩))
  · intro key value hvalue
    rcases (hgains'.fields key value).mp hvalue with hold | ⟨hnew, hmoved, hfollows⟩
    · exact hbound.fields key value hold
    · have hfirst : key ∉ analysis.fields := fun hmem => hnew (hle.mem_fields hmem)
      apply hownBound.fields key value
      apply (hgains.fields key value).mpr
      rcases hfollows with hmarked | ⟨user, visit, hreaches, hvisit, hfield⟩
      · exact .inr ⟨hfirst, hmoved, .inl hmarked⟩
      · exact .inr ⟨hfirst, hmoved, .inr ⟨user, visit, hbefore hreaches, hvisit, hfield⟩⟩

theorem foldlM_later
    (howns : ∀ file ∈ files, ∃ own, extend supported analysis file = .ok own ∧ Within own bound)
    (hle : Within analysis later) (hbound : Within later bound) :
    ∃ later', files.foldlM (extend supported) later = .ok later' ∧ Within later' bound := by
  induction files generalizing later with
  | nil => exact ⟨later, rfl, hbound⟩
  | cons file files ih =>
    obtain ⟨⟨own, hown, hownBound⟩, hrest⟩ := List.forall_mem_cons.mp howns
    obtain ⟨middle, hfirst, hmiddle⟩ := extend_later hown hle hownBound hbound
    obtain ⟨later', hscans, hlater⟩ := ih hrest (hle.trans (within_of_extend hfirst)) hmiddle
    refine ⟨later', ?_, hlater⟩
    rw [List.foldlM_cons]
    exact except_bind_eq_ok.mpr ⟨middle, hfirst, hscans⟩

/-- Whether the scans succeed, and what they find, is the same in any other order. -/
def OrderFree (supported : NameSet) (files : List ClassFile) (analysis : Analysis) : Prop :=
  ∀ files', files.Perm files' → ∀ analysis',
    files.foldlM (extend supported) analysis = .ok analysis' ↔
      files'.foldlM (extend supported) analysis = .ok analysis'

/-- In whichever order the scans succeed, they find what each class brings along by itself. -/
def LosesNothing (supported : NameSet) (files : List ClassFile) (analysis : Analysis) : Prop :=
  ∀ files', files.Perm files' → ∀ analysis',
    files'.foldlM (extend supported) analysis = .ok analysis' →
      ∀ file ∈ files, ∃ own, extend supported analysis file = .ok own ∧ Within own analysis'

theorem OrderFree.losesNothing (h : OrderFree supported files analysis) :
    LosesNothing supported files analysis := by
  intro files' hperm analysis' hscans file hmem
  obtain ⟨front, back, rfl⟩ := List.append_of_mem hmem
  have hfirst := (h (file :: (front ++ back)) List.perm_middle analysis').mp
    ((h files' hperm analysis').mpr hscans)
  rw [List.foldlM_cons] at hfirst
  obtain ⟨own, hown, hrest⟩ := except_bind_eq_ok.mp hfirst
  exact ⟨own, hown, within_of_foldlM hrest⟩

theorem LosesNothing.orderFree (h : LosesNothing supported files analysis) :
    OrderFree supported files analysis := by
  have hle {files₁ files₂ : List ClassFile} (hperm₁ : files.Perm files₁)
      (hperm₂ : files.Perm files₂) {analysis₁ : Analysis}
      (hscans : files₁.foldlM (extend supported) analysis = .ok analysis₁) :
      ∃ analysis₂, files₂.foldlM (extend supported) analysis = .ok analysis₂ ∧
        Within analysis₂ analysis₁ := by
    have howns := h files₁ hperm₁ analysis₁ hscans
    exact foldlM_later (fun file hmem => howns file (hperm₂.mem_iff.mpr hmem)) (.refl analysis)
      (within_of_foldlM hscans)
  have hsame {files₁ files₂ : List ClassFile} (hperm₁ : files.Perm files₁)
      (hperm₂ : files.Perm files₂) {analysis₁ : Analysis}
      (hscans : files₁.foldlM (extend supported) analysis = .ok analysis₁) :
      files₂.foldlM (extend supported) analysis = .ok analysis₁ := by
    obtain ⟨analysis₂, hscans₂, hwithin₂⟩ := hle hperm₁ hperm₂ hscans
    obtain ⟨analysis₃, hscans₃, hwithin₃⟩ := hle hperm₂ hperm₁ hscans₂
    obtain rfl := Except.ok.inj (hscans.symm.trans hscans₃)
    rwa [hwithin₃.antisymm hwithin₂]
  intro files' hperm analysis'
  exact ⟨hsame (.refl files) hperm, hsame hperm (.refl files)⟩

end Loss

/-- The order in which class files are scanned decides neither whether the scans succeed nor what
they find, exactly if no order loses what one of the files brings along by itself. This is so for
files that agree with each other. -/
theorem scan_order_irrelevant {files : List ClassFile} {analysis : Analysis} :
    (OrderFree supported files analysis ↔ LosesNothing supported files analysis) ∧
      (files.Pairwise (FilesAgree supported) → OrderFree supported files analysis) := by
  constructor
  · exact ⟨OrderFree.losesNothing, LosesNothing.orderFree⟩
  · intro hagree files' hperm analysis'
    exact foldlM_perm hperm hagree

/-- A class, another version of it, and a second class are scanned in two orders. -/
theorem scan_order_irrelevant_of_versions :
    let first := ClassFile.caller "p/C" "m" "p/C" "a" "a"
    let newer := { first with majorVersion := 55 }
    let second := ClassFile.caller "p/D" "m" "p/D" "b" "b"
    ∃ analysis, [first, newer, second].foldlM (extend markNames) .empty = .ok analysis ∧
      [second, newer, first].foldlM (extend markNames) .empty = .ok analysis := by
  intro first newer second
  have hrun : ([first, newer, second].foldlM (extend markNames) .empty).toOption.isSome = true := by
    decide +kernel
  have hname : first.name ≠ second.name := by
    rw [show first.name = .ok "p/C" by rfl, show second.name = .ok "p/D" by rfl]
    simp
  have hagree : [first, newer, second].Pairwise (FilesAgree markNames) := by
    simp only [List.pairwise_cons, List.mem_cons, List.not_mem_nil, or_false, forall_eq_or_imp,
      forall_eq, IsEmpty.forall_iff, implies_true, List.Pairwise.nil, and_true]
    exact ⟨⟨filesAgree_of_survey_eq rfl, filesAgree_of_name_ne hname⟩, filesAgree_of_name_ne hname⟩
  have hperm : [first, newer, second].Perm [second, newer, first] :=
    (List.reverse_perm [first, newer, second]).symm
  obtain ⟨analysis, hscans⟩ := Option.isSome_iff_exists.mp hrun
  rw [toOption_eq_some] at hscans
  exact ⟨analysis, hscans, (scan_order_irrelevant.2 hagree _ hperm analysis).mp hscans⟩

/-- Two versions of a class whose marked methods call different private methods: only the one that
the version scanned first calls is found. -/
theorem scan_order_matters_for_versions :
    let older := ClassFile.caller "p/C" "m" "p/C" "a" "a"
    let newer := ClassFile.caller "p/C" "m" "p/C" "b" "b"
    [older, newer].Perm [newer, older] ∧
    ∃ analysis analysis', [older, newer].foldlM (extend markNames) .empty = .ok analysis ∧
      [newer, older].foldlM (extend markNames) .empty = .ok analysis' ∧ analysis ≠ analysis' := by
  intro older newer
  refine ⟨.swap .., ?_⟩
  have hfinds (files : List ClassFile) (found : Bool)
      (hrun : (files.foldlM (extend markNames) .empty).toOption.map
        (fun analysis => analysis.methods.contains ⟨"p/C", "b", "()V"⟩) = some found) :
      ∃ analysis, files.foldlM (extend markNames) .empty = .ok analysis ∧
        analysis.methods.contains ⟨"p/C", "b", "()V"⟩ = found := by
    simpa using hrun
  obtain ⟨analysis, hscans, hfound⟩ :=
    hfinds [older, newer] false (by decide +kernel)
  obtain ⟨analysis', hscans', hfound'⟩ :=
    hfinds [newer, older] true (by decide +kernel)
  refine ⟨analysis, analysis', hscans, hscans', ?_⟩
  rintro rfl
  rw [hfound] at hfound'
  cases hfound'

end StaticCompanion.Scan
