import StaticCompanion.Proofs.MappedMembers

/-!
# Whether a companion declares a member twice

Fields keep their names and descriptors when they move, so what was apart stays apart. Methods of
objects get a receiver in front of their parameters and static ones do not. A companion therefore
declares a method twice exactly if, of two methods of its class that move, a static one has the
name and the descriptor that the other one gets. Nothing in a scan or in the making of a companion
rules this out.
-/
namespace StaticCompanion

namespace ClassFile

def DistinctFields (file : ClassFile) : Prop :=
  (file.fields.filterMap (Member.pairIn file.pool)).Nodup

instance (file : ClassFile) : Decidable file.DistinctFields :=
  inferInstanceAs (Decidable (List.Nodup _))

/-- The class declares this method, and its key is mapped. -/
def MapsMethod (file : ClassFile) (owner : String) (analysis : Analysis) (method : Member)
    (key : MemberKey) : Prop :=
  method ∈ file.methods ∧ method.keyIn owner file.pool = .ok key ∧ key ∈ analysis.methods

/-- Different methods that are mapped get different new keys. -/
def MovesApart (file : ClassFile) (owner : String) (analysis : Analysis) : Prop :=
  ∀ method method' key key' moved, file.MapsMethod owner analysis method key →
    file.MapsMethod owner analysis method' key' → key.movedMethod method.isStatic = .ok moved →
      key'.movedMethod method'.isStatic = .ok moved → method = method'

/-- A static method that is mapped has the name and the descriptor that a method of objects gets
which is mapped as well. -/
def Overlaps (file : ClassFile) (owner : String) (analysis : Analysis) : Prop :=
  ∃ free bound freeKey boundKey, file.MapsMethod owner analysis free freeKey ∧
    free.isStatic = true ∧ file.MapsMethod owner analysis bound boundKey ∧
      bound.isStatic = false ∧ freeKey.name = boundKey.name ∧
        withReceiver owner boundKey.descriptor = .ok freeKey.descriptor

variable {file : ClassFile} {owner : String} {analysis : Analysis}

section Mapped
variable {method method' : Member} {key key' : MemberKey}

theorem MapsMethod.owner_eq (hmaps : file.MapsMethod owner analysis method key) :
    key.owner = owner :=
  (Member.keyIn_eq_ok.mp hmaps.2.1).1

theorem MapsMethod.unique (hdistinct : file.DistinctMethods)
    (hmaps : file.MapsMethod owner analysis method key)
    (hmaps' : file.MapsMethod owner analysis method' key) : method = method' :=
  hdistinct.eq hmaps.1 hmaps.2.1 hmaps'.1 hmaps'.2.1

theorem overlaps_of_movedMethod {moved : MemberKey}
    (hmaps : file.MapsMethod owner analysis method key) (hstatic : method.isStatic = true)
    (hmoved : key.movedMethod true = .ok moved)
    (hmaps' : file.MapsMethod owner analysis method' key') (hinstance : method'.isStatic = false)
    (hmoved' : key'.movedMethod false = .ok moved) : file.Overlaps owner analysis := by
  have howner := hmaps.owner_eq.trans hmaps'.owner_eq.symm
  obtain ⟨hname, hreceiver⟩ := (MemberKey.movedMethod_eq_static_iff howner hmoved).mp hmoved'
  rw [hmaps'.owner_eq] at hreceiver
  exact ⟨method, method', key, key', hmaps, hstatic, hmaps', hinstance, hname, hreceiver⟩

end Mapped

/-- Only a method of objects and a static one can get the same new key. -/
theorem movesApart_iff (hdistinct : file.DistinctMethods) :
    file.MovesApart owner analysis ↔ ¬ file.Overlaps owner analysis := by
  constructor
  · rintro hapart ⟨free, bound, freeKey, boundKey, hfree, hstatic, hbound, hinstance, hname,
      hreceiver⟩
    have hfreeMoved := freeKey.movedMethod_true
    have hboundMoved := (MemberKey.movedMethod_eq_static_iff
      (hfree.owner_eq.trans hbound.owner_eq.symm) hfreeMoved).mpr
        ⟨hname, hbound.owner_eq.symm ▸ hreceiver⟩
    rw [← hstatic] at hfreeMoved
    rw [← hinstance] at hboundMoved
    have hsame := hapart free bound freeKey boundKey _ hfree hbound hfreeMoved hboundMoved
    rw [hsame, hinstance] at hstatic
    cases hstatic
  · intro hnone method method' key key' moved hmaps hmaps' hmoved hmoved'
    cases hstatic : method.isStatic <;> cases hstatic' : method'.isStatic <;>
      rw [hstatic] at hmoved <;> rw [hstatic'] at hmoved'
    case false.true =>
      exact (hnone (overlaps_of_movedMethod hmaps' hstatic' hmoved' hmaps hstatic hmoved)).elim
    case true.false =>
      exact (hnone (overlaps_of_movedMethod hmaps hstatic hmoved hmaps' hstatic' hmoved')).elim
    all_goals
      obtain rfl := MemberKey.movedMethod_inj hmoved hmoved'
      exact hmaps.unique hdistinct hmaps'

end ClassFile

theorem mappedMembers_sublist (owner : String) (pool : ConstantPool) (map : MemberMap)
    (members : List Member) :
    ((mappedMembers owner pool map members).map Prod.fst).Sublist members := by
  induction members with
  | nil => exact List.Sublist.refl _
  | cons member members ih =>
    cases hmapped : member.mapped? owner pool map with
    | none =>
      rw [mappedMembers, List.filterMap_cons_none (by rw [hmapped]; rfl)]
      exact ih.cons _
    | some moved =>
      rw [mappedMembers, List.filterMap_cons_some (by rw [hmapped]; rfl)]
      exact ih.cons_cons _

theorem filterMap_eq_of_forall₂ {α β γ : Type} {f : α → Option γ} {g : β → Option γ} {as : List α}
    {bs : List β} (h : List.Forall₂ (fun a b => f a = g b) as bs) :
    as.filterMap f = bs.filterMap g := by
  induction h with
  | nil => rfl
  | @cons a b _ _ hab _ ih => rw [List.filterMap_cons, List.filterMap_cons, hab, ih]

/-- Every field that the analysis maps keeps its name and its descriptor. -/
def Analysis.KeepsFieldNames (analysis : Analysis) : Prop :=
  ∀ key value : MemberKey, analysis.fields[key]? = some value → value = key.movedField

theorem Scan.keepsFieldNames_leaveAll {supported : NameSet} {analysis : Analysis}
    {files : List ClassFile} (hkeeps : analysis.KeepsFieldNames) :
    (leaveAll supported analysis files).KeepsFieldNames := by
  induction files generalizing analysis with
  | nil => exact hkeeps
  | cons file files ih =>
    rw [leaveAll, List.foldl_cons]
    apply ih
    cases hname : file.name with
    | error fault => rwa [leave_of_unnamed hname]
    | ok owner =>
      intro key value hvalue
      rcases (extendsFor_leave hname analysis).fields.added key value hvalue with hold | hadded
      · exact hkeeps key value hold
      · exact hadded.2

namespace Companion
variable {analysis : Analysis} {base companion : ClassFile} {owner : String}

theorem CompanionOf.distinctFields (h : CompanionOf analysis base owner companion)
    (hkeeps : analysis.KeepsFieldNames) (hdistinct : base.DistinctFields) :
    companion.DistinctFields := by
  obtain ⟨moving, hmoving, hcopies⟩ := h.fields
  obtain rfl := movingFields_eq hmoving
  have hpairs : ((mappedMembers owner base.pool analysis.fields base.fields).map Prod.fst).filterMap
      (Member.pairIn base.pool) = companion.fields.filterMap (Member.pairIn companion.pool) := by
    apply filterMap_eq_of_forall₂
    rw [List.forall₂_map_left_iff]
    apply ((List.forall₂_and_left _ _).mpr ⟨fun _ => id, hcopies⟩).imp
    rintro ⟨field, moved⟩ copy ⟨hmem, hcopied⟩
    obtain ⟨-, key, hkey, hvalue⟩ := mem_mappedMembers.mp hmem
    obtain rfl := hkeeps key moved hvalue
    rw [Member.pairIn_eq_some hkey, Member.pairIn_eq_some hcopied.key]
    rfl
  rw [ClassFile.DistinctFields, ← hpairs]
  exact hdistinct.sublist ((mappedMembers_sublist _ _ _ _).filterMap _)

/-- The name and the descriptor of a method in the companion of the class named `owner`. -/
def newPair? (owner : String) (pool : ConstantPool) (method : Member) : Option (String × String) := do
  let key ← (method.keyIn owner pool).toOption
  let moved ← (key.movedMethod method.isStatic).toOption
  return (moved.name, moved.descriptor)

theorem newPair?_eq_some {pool : ConstantPool} {method : Member} {name descriptor : String} :
    newPair? owner pool method = some (name, descriptor) ↔
      ∃ key, method.keyIn owner pool = .ok key ∧
        key.movedMethod method.isStatic = .ok ⟨companionName owner, name, descriptor⟩ := by
  simp only [newPair?, Option.bind_eq_bind, Option.bind_eq_some_iff, toOption_eq_some,
    Option.pure_def, Option.some.injEq, Prod.mk.injEq]
  constructor
  · rintro ⟨key, hkey, moved, hmoved, rfl, rfl⟩
    have howner := (MemberKey.movedMethod_eq_ok.mp hmoved).1
    rw [(Member.keyIn_eq_ok.mp hkey).1] at howner
    exact ⟨key, hkey, howner ▸ hmoved⟩
  · rintro ⟨key, hkey, hmoved⟩
    exact ⟨key, hkey, _, hmoved, rfl, rfl⟩

section Copies
variable {moving copies : List Member}
  (hcopies : List.Forall₂ (fun method copy => CopiedMethod owner companion.pool method copy ∧
    SameCode companion.pool method copy) moving copies)
include hcopies

theorem filterMap_newPair? (hmoving : base.methods.filterMapM
      (movingMethod? analysis base.pool owner) = .ok moving) (hgrows : base.pool ≤ companion.pool) :
    moving.filterMap (newPair? owner base.pool) =
      copies.filterMap (Member.pairIn companion.pool) := by
  apply filterMap_eq_of_forall₂
  apply ((List.forall₂_and_left _ _).mpr ⟨fun _ => id, hcopies⟩).imp
  rintro method copy ⟨hmem, hcopied, -⟩
  obtain ⟨-, key, hkey, -⟩ := (mem_movingMethods hmoving).mp hmem
  obtain ⟨key', moved, hkey', -, hmoved, hcopy⟩ := hcopied.key
  obtain rfl := Except.ok.inj ((Member.keyIn_of_le hgrows hkey).symm.trans hkey')
  rw [Member.pairIn_eq_some hcopy]
  have howner : moved.owner = companionName owner := (Member.keyIn_eq_ok.mp hcopy).1
  exact newPair?_eq_some.mpr ⟨key, hkey, howner ▸ hmoved⟩

theorem not_mem_pairs_of_initializer {name descriptor : String}
    (hname : name ∈ Member.initializerNames) :
    (name, descriptor) ∉ copies.filterMap (Member.pairIn companion.pool) := by
  intro hmem
  obtain ⟨copy, hcopy, hpair⟩ := List.mem_filterMap.mp hmem
  obtain ⟨method, -, hcopied, -⟩ := forall₂_mem_right hcopies hcopy
  obtain ⟨key, moved, -, hplain, hmoved, hcopyKey⟩ := hcopied.key
  rw [Member.pairIn_eq_some hcopyKey, (MemberKey.movedMethod_eq_ok.mp hmoved).2.1] at hpair
  rw [(Prod.mk.inj (Option.some.inj hpair)).1] at hplain
  exact hplain hname

end Copies

theorem nodup_newPairs_iff {moving : List Member} (hdistinct : base.DistinctMethods)
    (hmoving : base.methods.filterMapM (movingMethod? analysis base.pool owner) = .ok moving) :
    (moving.filterMap (newPair? owner base.pool)).Nodup ↔ base.MovesApart owner analysis := by
  constructor
  · rintro hnodup method method' key key' ⟨target, name, descriptor⟩ hmaps hmaps' hmoved hmoved'
    have hmem := (mem_movingMethods hmoving).mpr ⟨hmaps.1, key, hmaps.2⟩
    have hmem' := (mem_movingMethods hmoving).mpr ⟨hmaps'.1, key', hmaps'.2⟩
    obtain rfl : target = companionName owner := by
      rw [← (Member.keyIn_eq_ok.mp hmaps.2.1).1]
      exact (MemberKey.movedMethod_eq_ok.mp hmoved).1
    exact eq_of_nodup_filterMap hnodup hmem hmem'
      (newPair?_eq_some.mpr ⟨key, hmaps.2.1, hmoved⟩)
      (newPair?_eq_some.mpr ⟨key', hmaps'.2.1, hmoved'⟩)
  · intro hapart
    have hmaps {method : Member} {key : MemberKey} (hmem : method ∈ moving)
        (hkey : method.keyIn owner base.pool = .ok key) :
        base.MapsMethod owner analysis method key := by
      obtain ⟨hmethod, _, hread, hmapped⟩ := (mem_movingMethods hmoving).mp hmem
      obtain rfl := Except.ok.inj (hkey.symm.trans hread)
      exact ⟨hmethod, hkey, hmapped⟩
    have hnodup : (moving.filterMap (Member.pairIn base.pool)).Nodup := by
      rw [movingMethods_eq hmoving]
      exact hdistinct.sublist ((mappedMembers_sublist _ _ _ _).filterMap _)
    rw [List.Nodup, List.pairwise_filterMap] at hnodup ⊢
    apply hnodup.imp_of_mem
    rintro method method' hmem hmem' hne ⟨name, descriptor⟩ hpair _ hpair' rfl
    obtain ⟨key, hkey, hmoved⟩ := newPair?_eq_some.mp hpair
    obtain ⟨key', hkey', hmoved'⟩ := newPair?_eq_some.mp hpair'
    obtain rfl := hapart method method' key key' _ (hmaps hmem hkey) (hmaps hmem' hkey') hmoved
      hmoved'
    exact hne _ (Member.pairIn_eq_some hkey) _ (Member.pairIn_eq_some hkey) rfl

theorem CompanionOf.distinctMethods_iff (h : CompanionOf analysis base owner companion)
    (hdistinct : base.DistinctMethods) :
    companion.DistinctMethods ↔ base.MovesApart owner analysis := by
  obtain ⟨moving, hmoving, hcopies⟩ := h.methods
  obtain ⟨first, hmethods, hfirst⟩ := h.constructor
  have hnew : (rootConstructor.name, rootConstructor.descriptor) ∉
      companion.methods.tail.filterMap (Member.pairIn companion.pool) :=
    not_mem_pairs_of_initializer hcopies (by decide)
  rw [ClassFile.DistinctMethods, hmethods,
    List.filterMap_cons_some (Member.pairIn_eq_some (hfirst.key owner)), List.nodup_cons,
    and_iff_right hnew, ← filterMap_newPair? hcopies hmoving h.grows,
    nodup_newPairs_iff hdistinct hmoving]

end Companion

/-- However many classes have been scanned, the companion of a class with distinct members declares
no field twice, and declares no method twice exactly if no two methods get the same new key, which
is when no static one that is mapped overlaps with one of objects. -/
theorem companion_distinct_iff {supported : NameSet} {types : NameMap} {files : List ClassFile}
    {file companion : ClassFile} {owner : String} (hname : file.name = .ok owner)
    (hfits : file.pool.Fits) (hfields : file.DistinctFields) (hmethods : file.DistinctMethods)
    {analysis : Analysis}
    (hanalysis : Scan.leaveAll supported { Analysis.empty with types } files = analysis)
    (hcompanion : file.companion analysis = .ok (some companion)) :
    companion.DistinctFields ∧ (companion.DistinctMethods ↔ file.MovesApart owner analysis) ∧
      (companion.DistinctMethods ↔ ¬ file.Overlaps owner analysis) := by
  have hkeeps : analysis.KeepsFieldNames := by
    rw [← hanalysis]
    apply Scan.keepsFieldNames_leaveAll
    intro key value hvalue
    simp [Analysis.empty] at hvalue
  obtain ⟨name, hof⟩ := Companion.companionOf_of_companion hfits hcompanion
  obtain rfl := Except.ok.inj (hof.ofBase.symm.trans hname)
  have hiff := hof.distinctMethods_iff hmethods
  exact ⟨hof.distinctFields hkeeps hfields, hiff, hiff.trans (ClassFile.movesApart_iff hmethods)⟩

/-- A class with two marked methods of one name, a static one and one of its objects, that have
these descriptors and do nothing. -/
def ClassFile.overloads (free bound : String) : ClassFile :=
  let text (s : String) : Slot := .entry (.utf8 (.valid s))
  let attributes : List Attribute :=
    [⟨6, bigEndian 2 0 ++ bigEndian 2 1 ++ bigEndian 4 1 ++ [0xB1, 0, 0, 0, 0]⟩,
      ⟨7, [0, 1, 0, 8, 0, 0]⟩]
  { minorVersion := 0
    majorVersion := 52
    pool := ⟨#[.gap, text "p/C", .entry (.class 1), text "m", text free, text bound,
      text AttributeName.code.text, text AttributeName.visibleAnnotations.text, text "Lp/Api;",
      text "java/lang/Object", .entry (.class 9)]⟩
    flags := ⟨0x0021⟩
    thisClass := 2
    superClass := 10
    interfaces := []
    fields := []
    methods := [⟨⟨0x0009⟩, 3, 4, attributes⟩, ⟨⟨0x0001⟩, 3, 5, attributes⟩]
    attributes := [] }

/-- Methods of one name stay apart when no descriptor becomes the other one by a receiver. -/
theorem companion_distinct_of_overloads :
    let file := ClassFile.overloads "(I)V" "()V"
    ∃ analysis companion, Scan.leaveAll markNames { Analysis.empty with types := ∅ } [file] =
        analysis ∧
      file.companion analysis = .ok (some companion) ∧ companion.methods.length = 3 ∧
      companion.DistinctFields ∧ companion.DistinctMethods ∧ file.MovesApart "p/C" analysis ∧
      ¬ file.Overlaps "p/C" analysis := by
  intro file
  have hrun : (scannedCompanion? markNames file).map
      (fun result => (result.2.methods.length, decide result.2.DistinctMethods)) =
        some (3, true) := by decide +kernel
  obtain ⟨⟨analysis, companion⟩, hmade, hshape⟩ := Option.map_eq_some_iff.mp hrun
  obtain ⟨hlength, hdistinct⟩ := Prod.mk.inj hshape
  rw [decide_eq_true_eq] at hdistinct
  obtain ⟨hscan, hcompanion⟩ := scannedCompanion?_eq_some.mp hmade
  have hanalysis : Scan.leaveAll markNames { Analysis.empty with types := ∅ } [file] = analysis :=
    Scan.leave_of_ok hscan
  obtain ⟨hfields, hapart, hnone⟩ := companion_distinct_iff (by rfl) (by decide) (by decide)
    (by decide +kernel) hanalysis hcompanion
  exact ⟨analysis, companion, hanalysis, hcompanion, hlength, hfields, hdistinct,
    hapart.mp hdistinct, hnone.mp hdistinct⟩

/-- A method of objects gets the receiver that a static method of the same name already takes, and
the companion declares the two under one key. -/
theorem companion_declares_twice_of_overloads :
    let file := ClassFile.overloads "(Lp/C;)V" "()V"
    file.name = .ok "p/C" ∧ file.pool.Fits ∧ file.DistinctFields ∧ file.DistinctMethods ∧
      ∃ analysis companion, Scan.scan markNames file .empty = .ok () analysis ∧
        file.companion analysis = .ok (some companion) ∧ ¬ companion.DistinctMethods ∧
        analysis.methods[(⟨"p/C", "m", "(Lp/C;)V"⟩ : MemberKey)]? =
          some ⟨"p/DesugarC", "m", "(Lp/C;)V"⟩ ∧
        analysis.methods[(⟨"p/C", "m", "()V"⟩ : MemberKey)]? =
          some ⟨"p/DesugarC", "m", "(Lp/C;)V"⟩ := by
  intro file
  refine ⟨rfl, by decide, by decide, by decide +kernel, ?_⟩
  have hrun : (scannedCompanion? markNames file).map
      (fun result => (decide result.2.DistinctMethods,
        result.1.methods[(⟨"p/C", "m", "(Lp/C;)V"⟩ : MemberKey)]?,
        result.1.methods[(⟨"p/C", "m", "()V"⟩ : MemberKey)]?)) =
      some (false, some ⟨"p/DesugarC", "m", "(Lp/C;)V"⟩,
        some ⟨"p/DesugarC", "m", "(Lp/C;)V"⟩) := by decide +kernel
  obtain ⟨⟨analysis, companion⟩, hmade, hshape⟩ := Option.map_eq_some_iff.mp hrun
  obtain ⟨hdistinct, hkeys⟩ := Prod.mk.inj hshape
  obtain ⟨hscan, hcompanion⟩ := scannedCompanion?_eq_some.mp hmade
  exact ⟨analysis, companion, hscan, hcompanion, of_decide_eq_false hdistinct,
    (Prod.mk.inj hkeys).1, (Prod.mk.inj hkeys).2⟩

end StaticCompanion
