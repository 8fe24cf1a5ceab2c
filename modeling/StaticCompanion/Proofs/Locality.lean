import StaticCompanion.Proofs.Flags
import StaticCompanion.Proofs.Moves
import StaticCompanion.Proofs.Naming

/-!
# What a scan leaves alone

A scan writes about one class only, the one it looks at, and it never changes an entry that is
there. This holds of scans that fail as well, which keep what they have found so far.
-/
namespace StaticCompanion

/-- The second map keeps the entries of the first one; its other entries are of one kind. -/
structure MapExtends (kind : MemberKey → MemberKey → Prop) (map map' : MemberMap) : Prop where
  kept : ∀ key value : MemberKey, map[key]? = some value → map'[key]? = some value
  added : ∀ key value : MemberKey, map'[key]? = some value →
    map[key]? = some value ∨ kind key value

namespace MapExtends
variable {kind : MemberKey → MemberKey → Prop} {map map₁ map₂ : MemberMap} {key value : MemberKey}

theorem refl (map : MemberMap) : MapExtends kind map map := ⟨fun _ _ => id, fun _ _ => .inl⟩

theorem trans (h₁ : MapExtends kind map map₁) (h₂ : MapExtends kind map₁ map₂) :
    MapExtends kind map map₂ := by
  constructor
  · intro key value h
    exact h₂.kept key value (h₁.kept key value h)
  · intro key value h
    rcases h₂.added key value h with hold | hnew
    · exact h₁.added key value hold
    · exact .inr hnew

theorem getElem?_eq (h : MapExtends kind map map₁) (hnone : ∀ value, ¬ kind key value) :
    map₁[key]? = map[key]? := by
  apply Option.ext
  intro value
  constructor
  · intro hfound
    exact (h.added key value hfound).resolve_right (hnone value)
  · exact h.kept key value

theorem insertIfNew (hkind : kind key value) : MapExtends kind map (map.insertIfNew key value) := by
  constructor
  · intro other old hold
    have hmem : other ∈ map := Scan.Survey.mem_iff_exists_getElem?.mpr ⟨old, hold⟩
    rw [Std.ExtTreeMap.getElem?_insertIfNew, if_neg]
    · exact hold
    · rintro ⟨hsame, hnew⟩
      exact hnew (Std.LawfulEqCmp.compare_eq_iff_eq.mp hsame ▸ hmem)
  · intro other found hfound
    rw [Std.ExtTreeMap.getElem?_insertIfNew] at hfound
    split at hfound
    · rename_i hsame
      obtain rfl := Std.LawfulEqCmp.compare_eq_iff_eq.mp hsame.1
      exact .inr (Option.some.inj hfound ▸ hkind)
    · exact .inl hfound

theorem insert (hnew : key ∉ map) (hkind : kind key value) :
    MapExtends kind map (map.insert key value) := by
  have hinsert (other : MemberKey) : (map.insert key value)[other]? =
      if key = other then some value else map[other]? := by
    simp [Std.ExtTreeMap.getElem?_insert]
  constructor
  · intro other old hold
    rw [hinsert, if_neg]
    · exact hold
    · rintro rfl
      exact hnew (Scan.Survey.mem_iff_exists_getElem?.mpr ⟨old, hold⟩)
  · intro other found hfound
    rw [hinsert] at hfound
    split at hfound
    · rename_i hsame
      exact .inr (hsame ▸ Option.some.inj hfound ▸ hkind)
    · exact .inl hfound

end MapExtends

namespace ClassFile

def DeclaresStatic (file : ClassFile) (owner : String) (key : MemberKey) : Prop :=
  ∃ field ∈ file.fields, field.keyIn owner file.pool = .ok key ∧ field.isStatic = true

/-- The class declares this field, it is static, and this is its new key. -/
def FieldOrigin (file : ClassFile) (owner : String) (key value : MemberKey) : Prop :=
  file.DeclaresStatic owner key ∧ value = key.movedField

/-- The class declares this method, and this is its new key. -/
def MethodOrigin (file : ClassFile) (owner : String) (key value : MemberKey) : Prop :=
  ∃ method ∈ file.methods, method.keyIn owner file.pool = .ok key ∧
    key.movedMethod method.isStatic = .ok value

variable {file : ClassFile} {owner : String} {key value : MemberKey}

theorem FieldOrigin.owner_eq (h : file.FieldOrigin owner key value) : key.owner = owner := by
  obtain ⟨⟨field, -, hkey, -⟩, -⟩ := h
  exact (Member.keyIn_eq_ok.mp hkey).1

theorem MethodOrigin.owner_eq (h : file.MethodOrigin owner key value) : key.owner = owner := by
  obtain ⟨method, -, hkey, -⟩ := h
  exact (Member.keyIn_eq_ok.mp hkey).1

end ClassFile

/-- The second analysis keeps what the first one says and adds members of one class only. -/
structure Analysis.ExtendsFor (file : ClassFile) (owner : String) (analysis analysis' : Analysis) :
    Prop where
  types : analysis'.types = analysis.types
  fields : MapExtends (file.FieldOrigin owner) analysis.fields analysis'.fields
  methods : MapExtends (file.MethodOrigin owner) analysis.methods analysis'.methods

namespace Analysis.ExtendsFor
variable {file : ClassFile} {owner : String} {analysis analysis₁ analysis₂ : Analysis}

theorem refl (analysis : Analysis) : analysis.ExtendsFor file owner analysis :=
  ⟨rfl, .refl _, .refl _⟩

theorem trans (h₁ : analysis.ExtendsFor file owner analysis₁)
    (h₂ : analysis₁.ExtendsFor file owner analysis₂) : analysis.ExtendsFor file owner analysis₂ :=
  ⟨h₂.types.trans h₁.types, h₁.fields.trans h₂.fields, h₁.methods.trans h₂.methods⟩

end Analysis.ExtendsFor

namespace Scan

/-- Whatever comes of the step that is taken on an analysis, it adds members of one class only; if
it succeeds, what it gives is as stated. -/
def LocalAt {α : Type} (file : ClassFile) (owner : String) (step : ScanM α) (post : α → Prop)
    (analysis : Analysis) : Prop :=
  match step analysis with
  | .ok a analysis' => analysis.ExtendsFor file owner analysis' ∧ post a
  | .error _ analysis' => analysis.ExtendsFor file owner analysis'

/-- The step adds members of one class only, on whichever analysis it is taken. -/
def LocalTo {α : Type} (file : ClassFile) (owner : String) (step : ScanM α) (post : α → Prop) :
    Prop :=
  ∀ analysis, LocalAt file owner step post analysis

section Steps
variable {α β : Type} {file : ClassFile} {owner : String}

theorem LocalAt.bind {step : ScanM α} {next : α → ScanM β} {P : α → Prop} {Q : β → Prop}
    {analysis : Analysis} (h : LocalAt file owner step P analysis)
    (hnext : ∀ a analysis', step analysis = .ok a analysis' → P a →
      LocalAt file owner (next a) Q analysis') :
    LocalAt file owner (step >>= next) Q analysis := by
  unfold LocalAt at h ⊢
  simp only [Bind.bind, EStateM.bind]
  cases hstep : step analysis with
  | error fault analysis₁ => simpa only [hstep] using h
  | ok a analysis₁ =>
    rw [hstep] at h
    have hsecond := hnext a analysis₁ hstep h.2
    unfold LocalAt at hsecond
    dsimp only
    split at hsecond
    · exact ⟨h.1.trans hsecond.1, hsecond.2⟩
    · exact h.1.trans hsecond

theorem LocalTo.bind {step : ScanM α} {next : α → ScanM β} {P : α → Prop} {Q : β → Prop}
    (h : LocalTo file owner step P) (hnext : ∀ a, P a → LocalTo file owner (next a) Q) :
    LocalTo file owner (step >>= next) Q :=
  fun analysis => (h analysis).bind fun a analysis' _ ha => hnext a ha analysis'

theorem localTo_pure {a : α} {P : α → Prop} (ha : P a) : LocalTo file owner (pure a) P :=
  fun analysis => ⟨.refl analysis, ha⟩

theorem localTo_throw {fault : RelocationFault} {P : α → Prop} :
    LocalTo file owner (throw fault) P :=
  fun analysis => .refl analysis

theorem localTo_of_get {next : Analysis → ScanM β} {Q : β → Prop}
    (hnext : ∀ analysis, LocalAt file owner (next analysis) Q analysis) :
    LocalTo file owner (get >>= next) Q :=
  hnext

theorem localTo_lift {m : Type → Type} [MonadLiftT m (Except RelocationFault)] {step : m α} :
    LocalTo file owner (liftM step : ScanM α) fun a =>
      (liftM step : Except RelocationFault α) = .ok a := by
  intro analysis
  have hrun : (liftM step : ScanM α) analysis =
      (MonadLift.monadLift (liftM step : Except RelocationFault α) : ScanM α) analysis := rfl
  unfold LocalAt
  rw [hrun]
  cases (liftM step : Except RelocationFault α) with
  | error fault => exact .refl analysis
  | ok a => exact ⟨.refl analysis, rfl⟩

theorem localTo_foldlM {inv : β → Prop} {round : β → α → ScanM β} {items : List α}
    (hround : ∀ b, ∀ a ∈ items, inv b → LocalTo file owner (round b a) inv) {start : β}
    (hstart : inv start) : LocalTo file owner (items.foldlM round start) inv := by
  induction items generalizing start with
  | nil => exact localTo_pure hstart
  | cons item items ih =>
    rw [List.foldlM_cons]
    apply (hround start item List.mem_cons_self hstart).bind
    intro b hb
    apply ih _ hb
    intro b other hother
    exact hround b other (List.mem_cons_of_mem _ hother)

end Steps

section Passes
variable {supported : NameSet} {file : ClassFile} {owner : String} {key : MemberKey}

theorem localTo_addField (hkey : file.DeclaresStatic owner key) :
    LocalTo file owner (addField key) fun _ => True :=
  fun _ => ⟨⟨rfl, .insertIfNew ⟨hkey, rfl⟩, .refl _⟩, trivial⟩

/-- All methods that the worklist knows are declared by the class. -/
structure Worklist.BelongsTo (file : ClassFile) (owner : String) (work : Worklist) : Prop where
  queue : ∀ key method, (key, method) ∈ work.queue →
    method ∈ file.methods ∧ method.keyIn owner file.pool = .ok key
  hidden : ∀ key method, work.hidden[key]? = some method →
    method ∈ file.methods ∧ method.keyIn owner file.pool = .ok key

theorem Worklist.BelongsTo.need {work : Worklist} (h : work.BelongsTo file owner)
    (moved : MemberMap) (key : MemberKey) : (work.need moved key).BelongsTo file owner := by
  obtain ⟨more, hmore⟩ := Worklist.extends_need work moved key
  constructor
  · intro other method hother
    rw [hmore.queue] at hother
    rcases List.mem_append.mp hother with hold | hadded
    · exact h.queue other method hold
    · obtain ⟨-, -, -, hhidden⟩ := hmore.of_more other method hadded
      exact h.hidden other method hhidden
  · intro other method hother
    exact h.hidden other method (hmore.hidden ▸ hother)

def AreStatic (file : ClassFile) (owner : String) (keys : Std.ExtTreeSet MemberKey) : Prop :=
  ∀ key ∈ keys, file.DeclaresStatic owner key

theorem AreStatic.insert {keys : Std.ExtTreeSet MemberKey} (h : AreStatic file owner keys)
    (hkey : file.DeclaresStatic owner key) : AreStatic file owner (keys.insert key) := by
  intro other hother
  rcases Std.ExtTreeSet.mem_insert.mp hother with hsame | hold
  · exact Std.LawfulEqCmp.compare_eq_iff_eq.mp hsame ▸ hkey
  · exact h other hold

theorem localTo_visitField {hidden : Std.ExtTreeSet MemberKey}
    (hhidden : AreStatic file owner hidden) {field : Member} (hmem : field ∈ file.fields) :
    LocalTo file owner (visitField supported file.pool owner hidden field)
      (AreStatic file owner) := by
  apply localTo_lift.bind
  intro key hkey
  replace hkey := lift_class_eq_ok.mp hkey
  have hchecked {hidden : Std.ExtTreeSet MemberKey} (h : AreStatic file owner hidden)
      (isMarked : Bool) :
      LocalTo file owner (do
        if isMarked then
          if !field.flags.has (AccessFlags.isStatic ||| AccessFlags.isFinal) then
            throw (.inconstantField key)
          addField key
        return hidden) (AreStatic file owner) := by
    split
    · dsimp only
      split
      · exact localTo_throw.bind fun _ (hnever : False) => hnever.elim
      · rename_i hconstant
        rw [Bool.not_eq_true', Bool.not_eq_false] at hconstant
        exact (localTo_addField ⟨field, hmem, hkey, AccessFlags.has_of_has_or hconstant⟩).bind
          fun _ _ => localTo_pure h
    · exact localTo_pure h
  apply localTo_lift.bind
  intro isMarked _
  split
  · rename_i hstatic
    rw [Bool.and_eq_true] at hstatic
    exact hchecked (hhidden.insert ⟨field, hmem, hkey, hstatic.1⟩) isMarked
  · exact hchecked hhidden isMarked

theorem belongsTo_of_surveyMethods {work : Worklist}
    (h : surveyMethods supported file.pool owner file.methods = .ok work) :
    work.BelongsTo file owner := by
  obtain ⟨headers, hheaders, rfl⟩ := surveyMethods_eq_ok.mp h
  have hstarts := Worklist.starts_foldl headers
  have hdeclared {header : Header} (hmem : header ∈ headers) :
      header.member ∈ file.methods ∧ header.member.keyIn owner file.pool = .ok header.key :=
    ⟨(of_header hheaders hmem).1, (of_header hheaders hmem).2.1⟩
  constructor
  · intro key method hqueue
    obtain ⟨header, hheader, rfl, rfl⟩ := hstarts.of_queue key method hqueue
    exact hdeclared (List.mem_filter.mp hheader).1
  · intro key method hmethod
    obtain ⟨header, hheader, rfl, rfl⟩ := hstarts.of_hidden key method hmethod
    exact hdeclared (List.mem_filter.mp hheader).1

section Bodies
variable {context : Context} (hfields : AreStatic file owner context.hiddenFields)
include hfields

theorem localTo_visitUse {work : Worklist} (hwork : work.BelongsTo file owner)
    (use : Option Use) :
    LocalTo file owner (visitUse context work use) (Worklist.BelongsTo file owner) := by
  have hneed (key : MemberKey) : LocalTo file owner
      (do return work.need (← get).methods key) (Worklist.BelongsTo file owner) := by
    apply localTo_of_get
    intro analysis
    exact localTo_pure (hwork.need analysis.methods key) analysis
  unfold visitUse
  split
  · rename_i key
    dsimp only
    split
    · rename_i hhidden
      rw [Std.ExtTreeSet.contains_iff_mem] at hhidden
      exact (localTo_addField (hfields key hhidden)).bind fun _ _ => localTo_pure hwork
    · exact localTo_pure hwork
  · exact hneed _
  · exact hneed _
  · exact localTo_pure hwork

theorem localTo_visitInstruction {work : Worklist} (hwork : work.BelongsTo file owner)
    (instruction : Instruction) : LocalTo file owner (visitInstruction context work instruction)
      (Worklist.BelongsTo file owner) := by
  rw [visitInstruction_eq]
  apply localTo_lift.bind
  intro use _
  exact localTo_visitUse hfields hwork use

theorem localTo_visitBody {work : Worklist} (hwork : work.BelongsTo file owner) (method : Member) :
    LocalTo file owner (visitBody context work method) (Worklist.BelongsTo file owner) := by
  apply localTo_lift.bind
  intro code _
  split
  · exact localTo_pure hwork
  · apply localTo_lift.bind
    intro instructions _
    exact localTo_foldlM
      (fun _ instruction _ h => localTo_visitInstruction hfields h instruction) hwork

theorem localTo_drain {budget : Nat} {work : Worklist} (hwork : work.BelongsTo file owner) :
    LocalTo file owner (drain context budget work) fun _ => True := by
  induction budget generalizing work with
  | zero => exact localTo_pure trivial
  | succ budget ih =>
    unfold drain
    split
    · exact localTo_pure trivial
    · rename_i key method queue hqueue
      obtain ⟨hmem, hkey⟩ := hwork.queue key method (hqueue ▸ List.mem_cons_self)
      have hrest : Worklist.BelongsTo file owner { work with queue } :=
        ⟨fun key method hmem => hwork.queue key method (hqueue ▸ List.mem_cons_of_mem _ hmem),
          hwork.hidden⟩
      apply localTo_of_get
      intro analysis
      split
      · exact ih hrest analysis
      · rename_i hnew
        rw [Std.ExtTreeMap.contains_iff_mem] at hnew
        apply (localTo_lift analysis).bind
        intro moved analysis' hrun hmoved
        obtain ⟨-, rfl⟩ := state_lift_eq_ok.mp hrun
        have hmove : analysis.ExtendsFor file owner
            { analysis with methods := analysis.methods.insert key moved } :=
          ⟨rfl, .refl _, .insert hnew ⟨method, hmem, hkey, lift_descriptor_eq_ok.mp hmoved⟩⟩
        refine LocalAt.bind (P := fun _ => True) ⟨hmove, trivial⟩ ?_
        intro _ analysis' _ _
        exact ((localTo_visitBody hfields hrest method).bind fun _ h => ih h) analysis'

end Bodies

theorem localTo_scan (hname : file.name = .ok owner) :
    LocalTo file owner (scan supported file) fun _ => True := by
  apply localTo_lift.bind
  intro name hname'
  obtain rfl := Except.ok.inj (hname.symm.trans (lift_class_eq_ok.mp hname'))
  have hnone : AreStatic file owner ∅ := by
    intro key hkey
    exact absurd hkey Std.ExtTreeSet.not_mem_empty
  apply (localTo_foldlM (fun _ field hmem h => localTo_visitField h hmem) hnone).bind
  intro hidden hhidden
  apply localTo_lift.bind
  intro work hwork
  split
  · exact localTo_pure trivial
  · exact localTo_lift.bind fun bootstraps _ =>
      localTo_drain hhidden (belongsTo_of_surveyMethods hwork)

end Passes

def leave (supported : NameSet) (analysis : Analysis) (file : ClassFile) : Analysis :=
  match scan supported file analysis with
  | .ok _ analysis => analysis
  | .error _ analysis => analysis

def leaveAll (supported : NameSet) (analysis : Analysis) (files : List ClassFile) : Analysis :=
  files.foldl (leave supported) analysis

section Leaving
variable {supported : NameSet} {owner : String} {file : ClassFile} {analysis : Analysis}

theorem leave_of_ok {analysis' : Analysis}
    (hscan : scan supported file analysis = .ok () analysis') :
    leave supported analysis file = analysis' := by
  rw [leave, hscan]

theorem extendsFor_leave (hname : file.name = .ok owner) (analysis : Analysis) :
    analysis.ExtendsFor file owner (leave supported analysis file) := by
  have hlocal := @localTo_scan supported file owner hname analysis
  unfold LocalAt at hlocal
  unfold leave
  split at hlocal <;> simp_all

theorem extendsFor_of_scan (hname : file.name = .ok owner) {analysis' : Analysis}
    (hscan : scan supported file analysis = .ok () analysis') :
    analysis.ExtendsFor file owner analysis' := by
  have hleave := @extendsFor_leave supported _ _ hname analysis
  rwa [leave_of_ok hscan] at hleave

theorem scan_of_unnamed {fault : ClassFault} (hname : file.name = .error fault)
    (analysis : Analysis) : scan supported file analysis = .error (.parse fault) analysis := by
  simp only [scan, hname]
  rfl

theorem leave_of_unnamed {fault : ClassFault} (hname : file.name = .error fault)
    (analysis : Analysis) : leave supported analysis file = analysis := by
  rw [leave, scan_of_unnamed hname]

end Leaving

end Scan

namespace Analysis
variable {file : ClassFile} {owner other : String} {analysis analysis' : Analysis}

def MovesNothingFrom (owner : String) (analysis : Analysis) : Prop :=
  ∀ key : MemberKey, key.owner = owner → key ∉ analysis.fields ∧ key ∉ analysis.methods

theorem movesNothingFrom_empty (owner : String) : Analysis.empty.MovesNothingFrom owner := by
  intro key _
  exact ⟨by simp [Analysis.empty], by simp [Analysis.empty]⟩

def MovesNothingInto (owner : String) (analysis : Analysis) : Prop :=
  ∀ key value : MemberKey,
    analysis.fields[key]? = some value ∨ analysis.methods[key]? = some value →
      value.owner ≠ owner

def AgreesOn (owner : String) (analysis analysis' : Analysis) : Prop :=
  ∀ key : MemberKey, key.owner = owner → analysis'.fields[key]? = analysis.fields[key]? ∧
    analysis'.methods[key]? = analysis.methods[key]?

theorem ExtendsFor.agreesOn (h : analysis.ExtendsFor file other analysis') (hne : other ≠ owner) :
    analysis.AgreesOn owner analysis' := by
  intro key hkey
  constructor
  · apply h.fields.getElem?_eq
    intro value horigin
    exact hne (horigin.owner_eq.symm.trans hkey)
  · apply h.methods.getElem?_eq
    intro value horigin
    exact hne (horigin.owner_eq.symm.trans hkey)

theorem ExtendsFor.movesNothingInto (h : analysis.ExtendsFor file other analysis')
    (hne : companionName other ≠ owner) (hinto : analysis.MovesNothingInto owner) :
    analysis'.MovesNothingInto owner := by
  rintro key value (hfield | hmethod)
  · rcases h.fields.added key value hfield with hold | hadded
    · exact hinto key value (.inl hold)
    · rwa [hadded.2, MemberKey.movedField, hadded.owner_eq]
  · rcases h.methods.added key value hmethod with hold | hadded
    · exact hinto key value (.inr hold)
    · obtain ⟨_, -, -, hmoved⟩ := id hadded
      rwa [(MemberKey.movedMethod_eq_ok.mp hmoved).1, hadded.owner_eq]

end Analysis

/-- The class is another one than the named class, and so is its companion. -/
def ClassFile.KeepsOff (owner : String) (file : ClassFile) : Prop :=
  ∀ name, file.name = .ok name → name ≠ owner ∧ companionName name ≠ owner

/-- Scans of other classes, also such that fail, neither move members of a class nor move any into
it. -/
theorem Scan.leaveAll_keeps {supported : NameSet} {owner : String} {files : List ClassFile}
    (hfiles : ∀ file ∈ files, file.KeepsOff owner) (analysis : Analysis) :
    analysis.AgreesOn owner (leaveAll supported analysis files) ∧
      (analysis.MovesNothingInto owner →
        (leaveAll supported analysis files).MovesNothingInto owner) := by
  induction files generalizing analysis with
  | nil => exact ⟨fun _ _ => ⟨rfl, rfl⟩, id⟩
  | cons file files ih =>
    obtain ⟨hfile, hfiles⟩ := List.forall_mem_cons.mp hfiles
    have hrest := ih hfiles (leave supported analysis file)
    cases hname : file.name with
    | error fault =>
      rw [leave_of_unnamed hname] at hrest
      rwa [leaveAll, List.foldl_cons, leave_of_unnamed hname]
    | ok name =>
      have hextends := @extendsFor_leave supported name file hname analysis
      have hagrees := hextends.agreesOn (hfile name hname).1
      constructor
      · intro key hkey
        obtain ⟨hfields, hmethods⟩ := hrest.1 key hkey
        obtain ⟨hfields', hmethods'⟩ := hagrees key hkey
        exact ⟨hfields.trans hfields', hmethods.trans hmethods'⟩
      · intro hinto
        exact hrest.2 (hextends.movesNothingInto (hfile name hname).2 hinto)

end StaticCompanion
