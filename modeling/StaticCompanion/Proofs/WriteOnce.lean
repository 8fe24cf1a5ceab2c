import StaticCompanion.Proofs.Locality

/-!
# Scans in a row

Whatever classes are scanned one after the other, and whether their scans succeed or fail, an entry
stays as it was made, it is about the class whose scan made it, and its key tells its new key up to
a receiver. A scan reads the analysis only where it is about its own class: on two analyses that
agree there, every step of it goes alike.
-/
namespace StaticCompanion

/-- The descriptor is the other one with an object of the class as its first parameter. -/
def TakesReceiver (owner descriptor descriptor' : String) : Prop :=
  ∃ parameters, descriptor = "(" ++ parameters ∧ descriptor' = "(L" ++ owner ++ ";" ++ parameters

theorem takesReceiver_of_withReceiver {owner descriptor descriptor' : String}
    (h : withReceiver owner descriptor = .ok descriptor') :
    TakesReceiver owner descriptor descriptor' := by
  simp only [withReceiver, except_bind_eq_ok, except_pure_eq_ok] at h
  obtain ⟨method, hmethod, rfl⟩ := h
  have hread := MethodDescriptor.descriptor_of_ofDescriptor hmethod
  refine ⟨String.ofList (method.parameters.flatMap FieldType.chars ++ ')' :: method.result.chars),
    ?_, ?_⟩
  · rw [← hread, ← String.toList_inj]
    simp [MethodDescriptor.descriptor, MethodDescriptor.chars]
  · rw [← String.toList_inj]
    simp [MethodDescriptor.descriptor, MethodDescriptor.chars, FieldType.chars]

namespace Analysis
variable {owner : String} {analysis analysis' left right : Analysis}

/-- Every entry of the first analysis is one of the second. -/
structure Keeps (analysis analysis' : Analysis) : Prop where
  fields : ∀ key value : MemberKey,
    analysis.fields[key]? = some value → analysis'.fields[key]? = some value
  methods : ∀ key value : MemberKey,
    analysis.methods[key]? = some value → analysis'.methods[key]? = some value

/-- Every entry leads to the companion of its class. -/
structure WellShaped (analysis : Analysis) : Prop where
  fields : ∀ key value : MemberKey, analysis.fields[key]? = some value →
    value = ⟨companionName key.owner, key.name, key.descriptor⟩
  methods : ∀ key value : MemberKey, analysis.methods[key]? = some value →
    value.owner = companionName key.owner ∧ value.name = key.name ∧
      (value.descriptor = key.descriptor ∨
        TakesReceiver key.owner key.descriptor value.descriptor)

/-- The field is none of the first analysis, and the second one has this new key for it. -/
def AddsField (analysis analysis' : Analysis) (key value : MemberKey) : Prop :=
  key ∉ analysis.fields ∧ analysis'.fields[key]? = some value

/-- The method is none of the first analysis, and the second one has this new key for it. -/
def AddsMethod (analysis analysis' : Analysis) (key value : MemberKey) : Prop :=
  key ∉ analysis.methods ∧ analysis'.methods[key]? = some value

theorem not_addsField_self (analysis : Analysis) (key value : MemberKey) :
    ¬ analysis.AddsField analysis key value := by
  rintro ⟨hnew, hvalue⟩
  exact hnew (Scan.Survey.mem_iff_exists_getElem?.mpr ⟨value, hvalue⟩)

theorem not_addsMethod_self (analysis : Analysis) (key value : MemberKey) :
    ¬ analysis.AddsMethod analysis key value := by
  rintro ⟨hnew, hvalue⟩
  exact hnew (Scan.Survey.mem_iff_exists_getElem?.mpr ⟨value, hvalue⟩)

theorem Keeps.refl (analysis : Analysis) : analysis.Keeps analysis :=
  ⟨fun _ _ => id, fun _ _ => id⟩

theorem Keeps.trans {analysis₁ : Analysis} (h : analysis.Keeps analysis₁)
    (h' : analysis₁.Keeps analysis') : analysis.Keeps analysis' :=
  ⟨fun key value hold => h'.fields key value (h.fields key value hold),
    fun key value hold => h'.methods key value (h.methods key value hold)⟩

theorem ExtendsFor.keeps {file : ClassFile} (h : analysis.ExtendsFor file owner analysis') :
    analysis.Keeps analysis' :=
  ⟨h.fields.kept, h.methods.kept⟩

theorem ExtendsFor.wellShaped {file : ClassFile} (h : analysis.ExtendsFor file owner analysis')
    (hshaped : analysis.WellShaped) : analysis'.WellShaped := by
  constructor
  · intro key value hvalue
    rcases h.fields.added key value hvalue with hold | hadded
    · exact hshaped.fields key value hold
    · exact hadded.2
  · intro key value hvalue
    rcases h.methods.added key value hvalue with hold | hadded
    · exact hshaped.methods key value hold
    · obtain ⟨method, -, -, hmoved⟩ := hadded
      obtain ⟨howner, hname, hdescriptor⟩ := MemberKey.movedMethod_eq_ok.mp hmoved
      refine ⟨howner, hname, ?_⟩
      by_cases hstatic : method.isStatic = true
      · rw [if_pos hstatic] at hdescriptor
        exact .inl hdescriptor
      · rw [if_neg hstatic] at hdescriptor
        exact .inr (takesReceiver_of_withReceiver hdescriptor)

theorem ExtendsFor.owner_of_addsField {file : ClassFile}
    (h : analysis.ExtendsFor file owner analysis') {key value : MemberKey}
    (hadds : analysis.AddsField analysis' key value) : key.owner = owner := by
  rcases h.fields.added key value hadds.2 with hold | hadded
  · exact absurd (Scan.Survey.mem_iff_exists_getElem?.mpr ⟨value, hold⟩) hadds.1
  · exact hadded.owner_eq

theorem ExtendsFor.owner_of_addsMethod {file : ClassFile}
    (h : analysis.ExtendsFor file owner analysis') {key value : MemberKey}
    (hadds : analysis.AddsMethod analysis' key value) : key.owner = owner := by
  rcases h.methods.added key value hadds.2 with hold | hadded
  · exact absurd (Scan.Survey.mem_iff_exists_getElem?.mpr ⟨value, hold⟩) hadds.1
  · exact hadded.owner_eq

theorem AgreesOn.mem_fields_iff (h : left.AgreesOn owner right) {key : MemberKey}
    (hkey : key.owner = owner) : key ∈ right.fields ↔ key ∈ left.fields := by
  simp only [Std.ExtTreeMap.mem_iff_isSome_getElem?, (h key hkey).1]

theorem AgreesOn.mem_methods_iff (h : left.AgreesOn owner right) {key : MemberKey}
    (hkey : key.owner = owner) : key ∈ right.methods ↔ key ∈ left.methods := by
  simp only [Std.ExtTreeMap.mem_iff_isSome_getElem?, (h key hkey).2]

theorem AgreesOn.contains_methods (h : left.AgreesOn owner right) {key : MemberKey}
    (hkey : key.owner = owner) : right.methods.contains key = left.methods.contains key := by
  rw [Bool.eq_iff_iff, Std.ExtTreeMap.contains_iff_mem, Std.ExtTreeMap.contains_iff_mem]
  exact h.mem_methods_iff hkey

theorem AgreesOn.insertField (h : left.AgreesOn owner right) (key value : MemberKey) :
    AgreesOn owner { left with fields := left.fields.insertIfNew key value }
      { right with fields := right.fields.insertIfNew key value } := by
  intro other hother
  refine ⟨?_, (h other hother).2⟩
  simp only [Std.ExtTreeMap.getElem?_insertIfNew, Std.LawfulEqCmp.compare_eq_iff_eq]
  by_cases hsame : key = other
  · rw [← hsame] at hother ⊢
    simp only [h.mem_fields_iff hother, (h key hother).1]
  · simp only [hsame, false_and, if_false, (h other hother).1]

theorem AgreesOn.insertMethod (h : left.AgreesOn owner right) (key value : MemberKey) :
    AgreesOn owner { left with methods := left.methods.insert key value }
      { right with methods := right.methods.insert key value } := by
  intro other hother
  refine ⟨(h other hother).1, ?_⟩
  simp only [Std.ExtTreeMap.getElem?_insert, (h other hother).2]

end Analysis

namespace Scan

/-- Two runs of one step that give the same value, or fail for the same cause, and that leave
analyses which agree on a class. -/
inductive Alike {α : Type} (owner : String) :
    EStateM.Result RelocationFault Analysis α → EStateM.Result RelocationFault Analysis α → Prop
  | ok (a : α) {left right : Analysis} (h : left.AgreesOn owner right) :
    Alike owner (.ok a left) (.ok a right)
  | error (fault : RelocationFault) {left right : Analysis} (h : left.AgreesOn owner right) :
    Alike owner (.error fault left) (.error fault right)

/-- The step goes alike on analyses that agree on a class. -/
def ReadsOnly {α : Type} (owner : String) (step : ScanM α) : Prop :=
  ∀ left right : Analysis, left.AgreesOn owner right → Alike owner (step left) (step right)

section Steps
variable {α β : Type} {owner : String}

theorem ReadsOnly.bind {step : ScanM α} {next : α → ScanM β} (h : ReadsOnly owner step)
    (hnext : ∀ a analysis analysis', step analysis = .ok a analysis' → ReadsOnly owner (next a)) :
    ReadsOnly owner (step >>= next) := by
  intro left right hagree
  have hstep := h left right hagree
  have hgiven := fun a => hnext a left
  simp only [Bind.bind, EStateM.bind]
  generalize step left = outcome, step right = outcome' at hstep hgiven ⊢
  cases hstep with
  | ok a hleft => exact hgiven a _ rfl _ _ hleft
  | error fault hleft => exact .error fault hleft

theorem readsOnly_pure (a : α) : ReadsOnly owner (pure a) :=
  fun _ _ hagree => .ok a hagree

theorem readsOnly_throw (fault : RelocationFault) : ReadsOnly owner (throw fault : ScanM α) :=
  fun _ _ hagree => .error fault hagree

theorem readsOnly_lift {m : Type → Type} [MonadLiftT m (Except RelocationFault)] (step : m α) :
    ReadsOnly owner (liftM step : ScanM α) := by
  intro left right hagree
  change Alike owner ((MonadLift.monadLift (liftM step : Except RelocationFault α) : ScanM α) left)
    ((MonadLift.monadLift (liftM step : Except RelocationFault α) : ScanM α) right)
  cases (liftM step : Except RelocationFault α) with
  | error fault => exact .error fault hagree
  | ok a => exact .ok a hagree

theorem readsOnly_of_get {next : Analysis → ScanM β} (hnext : ∀ left right : Analysis,
    left.AgreesOn owner right → Alike owner (next left left) (next right right)) :
    ReadsOnly owner (get >>= next) :=
  hnext

theorem readsOnly_foldlM {file : ClassFile} {inv : β → Prop} {round : β → α → ScanM β}
    {items : List α} (hround : ∀ b, ∀ a ∈ items, inv b → ReadsOnly owner (round b a))
    (hinv : ∀ b, ∀ a ∈ items, inv b → LocalTo file owner (round b a) inv) {start : β}
    (hstart : inv start) : ReadsOnly owner (items.foldlM round start) := by
  induction items generalizing start with
  | nil => exact readsOnly_pure start
  | cons item items ih =>
    rw [List.foldlM_cons]
    apply (hround start item List.mem_cons_self hstart).bind
    intro b analysis analysis' hrun
    have hb := hinv start item List.mem_cons_self hstart analysis
    rw [LocalAt, hrun] at hb
    exact ih (fun b other hother => hround b other (List.mem_cons_of_mem _ hother))
      (fun b other hother => hinv b other (List.mem_cons_of_mem _ hother)) hb.2

end Steps

section Passes
variable {supported : NameSet} {file : ClassFile} {owner : String}

theorem readsOnly_addField (key : MemberKey) : ReadsOnly owner (addField key) :=
  fun _ _ hagree => .ok () (hagree.insertField key key.movedField)

theorem readsOnly_visitField {pool : ConstantPool} {hidden : Std.ExtTreeSet MemberKey}
    (field : Member) : ReadsOnly owner (visitField supported pool owner hidden field) := by
  apply (readsOnly_lift _).bind
  intro key _ _ _
  apply (readsOnly_lift _).bind
  intro isMarked _ _ _
  dsimp only
  split
  · split
    · exact (readsOnly_throw _).bind fun _ _ _ _ =>
        (readsOnly_addField key).bind fun _ _ _ _ => readsOnly_pure _
    · exact (readsOnly_addField key).bind fun _ _ _ _ => readsOnly_pure _
  · exact readsOnly_pure _

/-- Whether a method of another class has moved is asked, but a worklist that knows only methods of
its own class makes nothing of the answer. -/
theorem Worklist.BelongsTo.need_eq {work : Worklist} (hwork : work.BelongsTo file owner)
    {left right : Analysis} (hagree : left.AgreesOn owner right) (key : MemberKey) :
    work.need right.methods key = work.need left.methods key := by
  by_cases howner : key.owner = owner
  · simp only [Worklist.need, hagree.contains_methods howner]
  · have hnone : work.hidden[key]? = none := by
      apply Option.eq_none_iff_forall_ne_some.mpr
      intro method hmethod
      exact howner (Member.keyIn_eq_ok.mp (hwork.hidden key method hmethod).2).1
    simp [Worklist.need, hnone]

section Bodies
variable {context : Context} {work : Worklist}

theorem readsOnly_visitUse (hwork : work.BelongsTo file owner) (use : Option Use) :
    ReadsOnly owner (visitUse context work use) := by
  have hneed (key : MemberKey) :
      ReadsOnly owner (do return work.need (← get).methods key) := by
    apply readsOnly_of_get
    intro left right hagree
    rw [hwork.need_eq hagree]
    exact readsOnly_pure _ left right hagree
  unfold visitUse
  split
  · dsimp only
    split
    · exact (readsOnly_addField _).bind fun _ _ _ _ => readsOnly_pure work
    · exact readsOnly_pure work
  · exact hneed _
  · exact hneed _
  · exact readsOnly_pure work

variable (hfields : AreStatic file owner context.hiddenFields)
include hfields

theorem readsOnly_visitBody (hwork : work.BelongsTo file owner) (method : Member) :
    ReadsOnly owner (visitBody context work method) := by
  apply (readsOnly_lift _).bind
  intro code _ _ _
  cases code with
  | none => exact readsOnly_pure work
  | some code =>
    apply (readsOnly_lift _).bind
    intro instructions _ _ _
    have hlocal (work : Worklist) (instruction : Instruction) (_ : instruction ∈ instructions)
        (hwork : work.BelongsTo file owner) :=
      localTo_visitInstruction hfields hwork instruction
    apply readsOnly_foldlM _ hlocal hwork
    intro work instruction _ hwork
    rw [visitInstruction_eq]
    exact (readsOnly_lift _).bind fun use _ _ _ => readsOnly_visitUse hwork use

/-- Which methods of the queue have moved is the same in both runs, so they work it off alike. -/
theorem readsOnly_drain {budget : Nat} (hwork : work.BelongsTo file owner) :
    ReadsOnly owner (drain context budget work) := by
  induction budget generalizing work with
  | zero => exact readsOnly_pure ()
  | succ budget ih =>
    unfold drain
    split
    · exact readsOnly_pure ()
    · rename_i key method queue hqueue
      have hkey := (hwork.queue key method (hqueue ▸ List.mem_cons_self)).2
      have hrest : Worklist.BelongsTo file owner { work with queue } :=
        ⟨fun key method hmem => hwork.queue key method (hqueue ▸ List.mem_cons_of_mem _ hmem),
          hwork.hidden⟩
      apply readsOnly_of_get
      intro left right hagree
      rw [hagree.contains_methods (Member.keyIn_eq_ok.mp hkey).1]
      split
      · exact ih hrest left right hagree
      · have hmove (moved : MemberKey) : ReadsOnly owner (modify fun analysis =>
            { analysis with methods := analysis.methods.insert key moved } : ScanM Unit) :=
          fun _ _ hagree => .ok () (hagree.insertMethod key moved)
        have hbody := readsOnly_visitBody hfields hrest method
        refine (readsOnly_lift _).bind (fun moved _ _ _ => ?_) left right hagree
        apply (hmove moved).bind
        intro _ _ _ _
        apply hbody.bind
        intro work' analysis analysis' hrun
        have hlocal := localTo_visitBody hfields hrest method analysis
        rw [LocalAt, hrun] at hlocal
        exact ih hlocal.2

end Bodies

/-- A scan reads an analysis only where it is about the class that is scanned. -/
theorem readsOnly_scan (hname : file.name = .ok owner) :
    ReadsOnly owner (scan supported file) := by
  apply (readsOnly_lift _).bind
  intro name _ _ hrun
  obtain rfl := Except.ok.inj
    (hname.symm.trans (lift_class_eq_ok.mp (state_lift_eq_ok.mp hrun).1))
  have hnone : AreStatic file owner ∅ := by
    intro key hkey
    exact absurd hkey Std.ExtTreeSet.not_mem_empty
  have hvisit (hidden : Std.ExtTreeSet MemberKey) (field : Member) (hmem : field ∈ file.fields)
      (hhidden : AreStatic file owner hidden) :=
    @localTo_visitField supported file owner hidden hhidden field hmem
  apply (readsOnly_foldlM (fun _ field _ _ => readsOnly_visitField field) hvisit hnone).bind
  intro hidden analysis analysis' hfields
  have hhidden := localTo_foldlM hvisit hnone analysis
  rw [LocalAt, hfields] at hhidden
  apply (readsOnly_lift _).bind
  intro work _ _ hwork
  have hbelongs := belongsTo_of_surveyMethods (state_lift_eq_ok.mp hwork).1
  split
  · exact readsOnly_pure ()
  · exact (readsOnly_lift _).bind fun _ _ _ _ => readsOnly_drain hhidden.2 hbelongs

end Passes

/-- What comes of a scan, apart from what it adds to the analysis. -/
def outcome (supported : NameSet) (analysis : Analysis) (file : ClassFile) :
    Except RelocationFault Unit :=
  match scan supported file analysis with
  | .ok () _ => .ok ()
  | .error fault _ => .error fault

section Runs
variable {supported : NameSet} {file : ClassFile} {owner : String} {analysis other : Analysis}

theorem agreesOn_leave (hname : file.name = .ok owner) (hagree : analysis.AgreesOn owner other) :
    outcome supported analysis file = outcome supported other file ∧
      (leave supported analysis file).AgreesOn owner (leave supported other file) := by
  have halike : Alike owner (scan supported file analysis) (scan supported file other) :=
    readsOnly_scan hname analysis other hagree
  unfold outcome leave
  generalize scan supported file analysis = first, scan supported file other = second at halike ⊢
  cases halike with
  | ok _ hleft => exact ⟨rfl, hleft⟩
  | error fault hleft => exact ⟨rfl, hleft⟩

theorem keeps_leave (analysis : Analysis) (file : ClassFile) :
    analysis.Keeps (leave supported analysis file) := by
  cases hname : file.name with
  | error fault =>
    rw [leave_of_unnamed hname]
    exact .refl analysis
  | ok owner => exact (extendsFor_leave hname analysis).keeps

theorem keeps_leaveAll (analysis : Analysis) (files : List ClassFile) :
    analysis.Keeps (leaveAll supported analysis files) := by
  induction files generalizing analysis with
  | nil => exact .refl analysis
  | cons file files ih => exact (keeps_leave analysis file).trans (ih _)

theorem wellShaped_leaveAll (hshaped : analysis.WellShaped) (files : List ClassFile) :
    (leaveAll supported analysis files).WellShaped := by
  induction files generalizing analysis with
  | nil => exact hshaped
  | cons file files ih =>
    apply ih
    cases hname : file.name with
    | error fault => rwa [leave_of_unnamed hname]
    | ok owner => exact (extendsFor_leave hname analysis).wellShaped hshaped

theorem outcome_of_unnamed {fault : ClassFault} (hname : file.name = .error fault)
    (analysis : Analysis) : outcome supported analysis file = .error (.parse fault) := by
  rw [outcome, scan_of_unnamed hname]

/-- A scan adds the same to two analyses that agree on the class. -/
theorem addsSame_leave (hname : file.name = .ok owner) (hagree : analysis.AgreesOn owner other)
    (key value : MemberKey) :
    (analysis.AddsField (leave supported analysis file) key value ↔
        other.AddsField (leave supported other file) key value) ∧
      (analysis.AddsMethod (leave supported analysis file) key value ↔
        other.AddsMethod (leave supported other file) key value) := by
  have hleft : analysis.ExtendsFor file owner (leave supported analysis file) :=
    extendsFor_leave hname analysis
  have hright : other.ExtendsFor file owner (leave supported other file) :=
    extendsFor_leave hname other
  have hafter : (leave supported analysis file).AgreesOn owner (leave supported other file) :=
    (agreesOn_leave hname hagree).2
  have hfield (hkey : key.owner = owner) :
      analysis.AddsField (leave supported analysis file) key value ↔
        other.AddsField (leave supported other file) key value := by
    simp only [Analysis.AddsField, hagree.mem_fields_iff hkey, (hafter key hkey).1]
  have hmethod (hkey : key.owner = owner) :
      analysis.AddsMethod (leave supported analysis file) key value ↔
        other.AddsMethod (leave supported other file) key value := by
    simp only [Analysis.AddsMethod, hagree.mem_methods_iff hkey, (hafter key hkey).2]
  constructor
  · constructor
    · intro hadds
      exact (hfield (hleft.owner_of_addsField hadds)).mp hadds
    · intro hadds
      exact (hfield (hright.owner_of_addsField hadds)).mpr hadds
  · constructor
    · intro hadds
      exact (hmethod (hleft.owner_of_addsMethod hadds)).mp hadds
    · intro hadds
      exact (hmethod (hright.owner_of_addsMethod hadds)).mpr hadds

end Runs

/-- However many classes have been scanned: what has been found stays as it is, and every entry
leads to the companion of its class. The next scan adds entries about its own class only; what it
adds and what comes of it depends on the analysis no further than on its entries about that
class. -/
theorem leaveAll_writesOnce (supported : NameSet) (types : NameMap) (before : List ClassFile)
    (file : ClassFile) :
    let found := leaveAll supported { Analysis.empty with types } before
    let found' := leave supported found file
    found.WellShaped ∧
      (∀ after, found.Keeps (leaveAll supported found after)) ∧
      (∀ key value, found.AddsField found' key value ∨ found.AddsMethod found' key value →
        file.name = .ok key.owner) ∧
      ∀ other : Analysis, (∀ owner, file.name = .ok owner → found.AgreesOn owner other) →
        outcome supported found file = outcome supported other file ∧
          ∀ key value,
            (found.AddsField found' key value ↔
              other.AddsField (leave supported other file) key value) ∧
            (found.AddsMethod found' key value ↔
              other.AddsMethod (leave supported other file) key value) := by
  intro found found'
  have hshaped : Analysis.WellShaped { Analysis.empty with types } := by
    constructor <;> simp [Analysis.empty]
  refine ⟨wellShaped_leaveAll hshaped before, keeps_leaveAll found, ?_⟩
  cases hname : file.name with
  | error fault =>
    have hsame (analysis : Analysis) : leave supported analysis file = analysis :=
      leave_of_unnamed hname analysis
    constructor
    · intro key value hadds
      simp [found', hsame, Analysis.not_addsField_self, Analysis.not_addsMethod_self] at hadds
    · intro other _
      constructor
      · rw [outcome_of_unnamed hname, outcome_of_unnamed hname]
      · simp [found', hsame, Analysis.not_addsField_self, Analysis.not_addsMethod_self]
  | ok owner =>
    have hextends : found.ExtendsFor file owner found' := extendsFor_leave hname found
    constructor
    · rintro key value (hfield | hmethod)
      · rw [hextends.owner_of_addsField hfield]
      · rw [hextends.owner_of_addsMethod hmethod]
    · intro other hagree
      replace hagree := hagree owner rfl
      exact ⟨(agreesOn_leave hname hagree).1, addsSame_leave hname hagree⟩

end Scan

end StaticCompanion
