import Mathlib.Data.List.Pairwise
import StaticCompanion.Proofs.Annotations
import StaticCompanion.Proofs.Closure

/-!
# Which members move

The members of a class that move, said without the scan: the marked ones, and with every method
that moves the hidden methods and fields of the class that its body uses. A scan of a class of which
nothing has moved before finds exactly these.
-/
namespace StaticCompanion

def Member.pairIn (pool : ConstantPool) (member : Member) : Option (String × String) := do
  return (← (member.nameIn pool).toOption, ← (member.descriptorIn pool).toOption)

namespace ClassFile

def DistinctMethods (file : ClassFile) : Prop :=
  (file.methods.filterMap (Member.pairIn file.pool)).Nodup

instance (file : ClassFile) : Decidable file.DistinctMethods :=
  inferInstanceAs (Decidable (List.Nodup _))

def HidesMethod (file : ClassFile) (owner : String) (key : MemberKey) : Prop :=
  ∃ method ∈ file.methods, method.keyIn owner file.pool = .ok key ∧ key.name ≠ "<init>" ∧
    method.isPublic = false

/-- The class declares a static field that is not public. -/
def HidesField (file : ClassFile) (owner : String) (key : MemberKey) : Prop :=
  ∃ field ∈ file.fields, field.keyIn owner file.pool = .ok key ∧ field.isStatic = true ∧
    field.isPublic = false

/-- The methods that move: the marked ones, except for those of buffers that give back the buffer,
and the hidden ones that the bodies of these use, and so on. -/
inductive Moves (supported : NameSet) (file : ClassFile) (owner : String) : MemberKey → Prop
  | marked {method : Member} {key : MemberKey} (hmem : method ∈ file.methods)
      (hkey : method.keyIn owner file.pool = .ok key)
      (hmarked : IsMarked file.pool supported method.attributes)
      (hplain : key.isCovariantBufferMethod = false) : Moves supported file owner key
  | followed {caller key : MemberKey} {user : Member} {use : Use}
      (hcaller : Moves supported file owner caller) (hmem : user ∈ file.methods)
      (hkey : user.keyIn owner file.pool = .ok caller) (huse : file.Uses user use)
      (hmethod : use.method? = some key) (hhidden : file.HidesMethod owner key) :
      Moves supported file owner key

/-- The fields that move: the marked ones, and the hidden ones that methods that move use. -/
inductive MovesField (supported : NameSet) (file : ClassFile) (owner : String) : MemberKey → Prop
  | marked {field : Member} {key : MemberKey} (hmem : field ∈ file.fields)
      (hkey : field.keyIn owner file.pool = .ok key)
      (hmarked : IsMarked file.pool supported field.attributes) :
      MovesField supported file owner key
  | followed {caller key : MemberKey} {user : Member}
      (hcaller : file.Moves supported owner caller) (hmem : user ∈ file.methods)
      (hkey : user.keyIn owner file.pool = .ok caller) (huse : file.Uses user (.field key))
      (hhidden : file.HidesField owner key) : MovesField supported file owner key

end ClassFile

theorem Member.pairIn_eq_some {pool : ConstantPool} {member : Member} {owner : String}
    {key : MemberKey} (hkey : member.keyIn owner pool = .ok key) :
    member.pairIn pool = some (key.name, key.descriptor) := by
  obtain ⟨-, hname, hdescriptor⟩ := Member.keyIn_eq_ok.mp hkey
  simp [Member.pairIn, Member.nameIn, Member.descriptorIn, hname, hdescriptor, Except.mapError,
    Except.toOption]

theorem eq_of_nodup_filterMap {α β : Type} {f : α → Option β} {as : List α}
    (h : (as.filterMap f).Nodup) {a b : α} (ha : a ∈ as) (hb : b ∈ as) {value : β}
    (hfa : f a = some value) (hfb : f b = some value) : a = b := by
  rw [List.Nodup, List.pairwise_filterMap] at h
  have hsymm : Std.Symm fun a b => ∀ v, f a = some v → ∀ w, f b = some w → v ≠ w :=
    ⟨fun _ _ hne v hv w hw => (hne w hw v hv).symm⟩
  by_contra hne
  exact h.forall ha hb hne value hfa value hfb rfl

theorem ClassFile.DistinctMethods.eq {file : ClassFile} (h : file.DistinctMethods) {owner : String}
    {key : MemberKey} {a b : Member} (ha : a ∈ file.methods)
    (hakey : a.keyIn owner file.pool = .ok key) (hb : b ∈ file.methods)
    (hbkey : b.keyIn owner file.pool = .ok key) : a = b :=
  eq_of_nodup_filterMap h ha hb (Member.pairIn_eq_some hakey) (Member.pairIn_eq_some hbkey)

namespace Scan

theorem Header.read_eq_ok {supported : NameSet} {pool : ConstantPool} {owner : String}
    {member : Member} {header : Header} (h : Header.read supported pool owner member = .ok header) :
    header.member = member ∧ member.keyIn owner pool = .ok header.key ∧
      (header.isMarked = true ↔ IsMarked pool supported member.attributes) := by
  simp only [Header.read, except_bind_eq_ok, except_pure_eq_ok] at h
  obtain ⟨key, hkey, isMarked, hmarked, rfl⟩ := h
  exact ⟨rfl, hkey, isAnnotated_eq_ok hmarked⟩

section Headers
variable {supported : NameSet} {pool : ConstantPool} {owner : String} {members : List Member}
  {headers : List Header}

theorem exists_header (h : members.mapM (Header.read supported pool owner) = .ok headers)
    {member : Member} (hmem : member ∈ members) {key : MemberKey}
    (hkey : member.keyIn owner pool = .ok key) :
    ∃ header ∈ headers, header.member = member ∧ header.key = key ∧
      (header.isMarked = true ↔ IsMarked pool supported member.attributes) := by
  obtain ⟨header, hheader, hread⟩ := forall₂_mem_left (except_mapM_eq_ok.mp h) hmem
  obtain ⟨hsame, hkey', hmarked⟩ := Header.read_eq_ok hread
  exact ⟨header, hheader, hsame, Except.ok.inj (hkey'.symm.trans hkey), hmarked⟩

theorem of_header (h : members.mapM (Header.read supported pool owner) = .ok headers)
    {header : Header} (hmem : header ∈ headers) :
    header.member ∈ members ∧ header.member.keyIn owner pool = .ok header.key ∧
      (header.isMarked = true ↔ IsMarked pool supported header.member.attributes) := by
  obtain ⟨member, hmember, hread⟩ := forall₂_mem_right (except_mapM_eq_ok.mp h) hmem
  obtain ⟨rfl, hkey, hmarked⟩ := Header.read_eq_ok hread
  exact ⟨hmember, hkey, hmarked⟩

end Headers

namespace Survey
variable {supported : NameSet} {file : ClassFile} {survey : Survey} {key : MemberKey}
  {method : Member} {settled : MemberKey → Prop}

section Facts
variable (hsurvey : ofFile supported file = .ok survey)
include hsurvey

theorem mem_staged_iff : key ∈ survey.start.staged ↔ ∃ method ∈ file.methods,
    method.keyIn survey.owner file.pool = .ok key ∧
      IsMarked file.pool supported method.attributes ∧ key.isCovariantBufferMethod = false := by
  obtain ⟨-, -, -, hmethods, -⟩ := ofFile_eq_ok.mp hsurvey
  constructor
  · intro hstaged
    obtain ⟨method, hqueue⟩ := survey.starts_start.queue_of_staged key hstaged
    obtain ⟨header, hheader, rfl, -⟩ := survey.starts_start.of_queue key method hqueue
    obtain ⟨hmem, hseed⟩ := List.mem_filter.mp hheader
    obtain ⟨hmember, hkey, hmarked⟩ := of_header hmethods hmem
    simp only [Header.isSeed, Bool.and_eq_true, Bool.not_eq_true', hmarked] at hseed
    exact ⟨header.member, hmember, hkey, hseed⟩
  · rintro ⟨method, hmem, hkey, hmarked, hplain⟩
    obtain ⟨header, hheader, rfl, rfl, hread⟩ := exists_header hmethods hmem hkey
    refine survey.starts_start.mem_staged header (List.mem_filter.mpr ⟨hheader, ?_⟩)
    simp [Header.isSeed, hread.mpr hmarked, hplain]

theorem mem_hidden_iff : key ∈ survey.start.hidden ↔ file.HidesMethod survey.owner key := by
  obtain ⟨-, -, -, hmethods, -⟩ := ofFile_eq_ok.mp hsurvey
  constructor
  · intro hhidden
    obtain ⟨method, hmethod⟩ := mem_iff_exists_getElem?.mp hhidden
    obtain ⟨header, hheader, rfl, -⟩ := survey.starts_start.of_hidden key method hmethod
    obtain ⟨hmem, hhides⟩ := List.mem_filter.mp hheader
    obtain ⟨hmember, hkey, -⟩ := of_header hmethods hmem
    simp only [Header.isHiddenMethod, Bool.and_eq_true, Bool.not_eq_true', decide_eq_true_eq]
      at hhides
    exact ⟨header.member, hmember, hkey, hhides⟩
  · rintro ⟨method, hmem, hkey, hname, hpublic⟩
    obtain ⟨header, hheader, rfl, rfl, -⟩ := exists_header hmethods hmem hkey
    refine survey.starts_start.mem_hidden header (List.mem_filter.mpr ⟨hheader, ?_⟩)
    simp [Header.isHiddenMethod, hname, hpublic]

theorem mem_hiddenFields_iff :
    key ∈ survey.context.hiddenFields ↔ file.HidesField survey.owner key := by
  obtain ⟨-, hfields, -, -, -, -, hhidden⟩ := ofFile_eq_ok.mp hsurvey
  rw [hhidden, mem_hideFields]
  constructor
  · rintro (hmem | ⟨header, hheader, hhides, rfl⟩)
    · simp at hmem
    · obtain ⟨hmember, hkey, -⟩ := of_header hfields hheader
      simp only [Header.isHiddenField, Bool.and_eq_true, Bool.not_eq_true'] at hhides
      exact ⟨header.member, hmember, hkey, hhides⟩
  · rintro ⟨field, hmem, hkey, hstatic, hpublic⟩
    obtain ⟨header, hheader, rfl, rfl, -⟩ := exists_header hfields hmem hkey
    exact .inr ⟨header, hheader, by simp [Header.isHiddenField, hstatic, hpublic], rfl⟩

theorem mem_markedFields_iff : key ∈ markedFields survey.fields ↔ ∃ field ∈ file.fields,
    field.keyIn survey.owner file.pool = .ok key ∧
      IsMarked file.pool supported field.attributes := by
  obtain ⟨-, hfields, -⟩ := ofFile_eq_ok.mp hsurvey
  simp only [markedFields, List.mem_map, List.mem_filter]
  constructor
  · rintro ⟨header, ⟨hheader, hmarked⟩, rfl⟩
    obtain ⟨hmember, hkey, hread⟩ := of_header hfields hheader
    exact ⟨header.member, hmember, hkey, hread.mp hmarked⟩
  · rintro ⟨field, hmem, hkey, hmarked⟩
    obtain ⟨header, hheader, rfl, rfl, hread⟩ := exists_header hfields hmem hkey
    exact ⟨header, ⟨hheader, hread.mpr hmarked⟩, rfl⟩

theorem of_holder (hholder : survey.holder key = some method) :
    method ∈ file.methods ∧ method.keyIn survey.owner file.pool = .ok key := by
  obtain ⟨-, -, -, hmethods, -⟩ := ofFile_eq_ok.mp hsurvey
  have hheader : ∃ header ∈ survey.methods, header.key = key ∧ header.member = method := by
    rcases Option.or_eq_some_iff.mp hholder with hlookup | ⟨-, hhidden⟩
    · obtain ⟨front, rest, hqueue, -⟩ := List.lookup_eq_some_iff.mp hlookup
      obtain ⟨header, hheader, hsame⟩ := survey.starts_start.of_queue key method (by simp [hqueue])
      exact ⟨header, (List.mem_filter.mp hheader).1, hsame⟩
    · obtain ⟨header, hheader, hsame⟩ := survey.starts_start.of_hidden key method hhidden
      exact ⟨header, (List.mem_filter.mp hheader).1, hsame⟩
  obtain ⟨header, hmem, rfl, rfl⟩ := hheader
  obtain ⟨hmember, hkey, -⟩ := of_header hmethods hmem
  exact ⟨hmember, hkey⟩

theorem bootstraps_of_reaches (hreaches : survey.Reaches settled key) :
    file.bootstraps = .ok survey.context.bootstraps := by
  obtain ⟨-, -, -, -, hbootstraps, -⟩ := ofFile_eq_ok.mp hsurvey
  have hseed : survey.methods.any Header.isSeed = true := by
    induction hreaches with
    | seed hstaged _ =>
      obtain ⟨method, hqueue⟩ := survey.starts_start.queue_of_staged _ hstaged
      obtain ⟨header, hheader, -⟩ := survey.starts_start.of_queue _ method hqueue
      obtain ⟨hmem, hseed⟩ := List.mem_filter.mp hheader
      exact List.any_eq_true.mpr ⟨header, hmem, hseed⟩
    | need _ _ _ _ ih => exact ih
  rwa [bootstrapsFor, if_pos hseed] at hbootstraps

theorem owner_of_reaches (hreaches : survey.Reaches settled key) : key.owner = survey.owner := by
  cases hreaches with
  | seed hstaged _ =>
    obtain ⟨method, -, hkey, -⟩ := (mem_staged_iff hsurvey).mp hstaged
    exact (Member.keyIn_eq_ok.mp hkey).1
  | need _ hvisit hneed _ =>
    obtain ⟨_, _, -, -, -, hmethods, -⟩ := visit_eq_some.mp hvisit
    obtain ⟨method, -, hkey, -⟩ := (mem_hidden_iff hsurvey).mp ((hmethods _).mp hneed).2
    exact (Member.keyIn_eq_ok.mp hkey).1

theorem of_visit (hreaches : survey.Reaches settled key) {visit : Visit}
    (hvisit : survey.visit key = some visit) :
    ∃ method ∈ file.methods, ∃ uses, method.keyIn survey.owner file.pool = .ok key ∧
      key.movedMethod method.isStatic = .ok visit.moved ∧
      method.uses file.pool survey.context.bootstraps = .ok uses ∧
      (∀ next, next ∈ visit.methods ↔ (∃ use, file.Uses method use ∧ use.method? = some next) ∧
        file.HidesMethod survey.owner next) ∧
      ∀ next, next ∈ visit.fields ↔ file.Uses method (.field next) ∧
        file.HidesField survey.owner next := by
  obtain ⟨-, -, -, -, -, hpool, -⟩ := ofFile_eq_ok.mp hsurvey
  obtain ⟨method, uses, hholder, hmoved, huses, hmethods, hfields⟩ := visit_eq_some.mp hvisit
  obtain ⟨hmem, hkey⟩ := of_holder hsurvey hholder
  rw [hpool] at huses
  have hused {use : Use} : file.Uses method use ↔ use ∈ uses :=
    ClassFile.uses_iff (bootstraps_of_reaches hsurvey hreaches) huses
  refine ⟨method, hmem, uses, hkey, hmoved, huses, ?_, ?_⟩
  · intro next
    rw [hmethods, mem_hidden_iff hsurvey, List.mem_filterMap]
    simp only [hused]
  · intro next
    rw [hfields, Context.hiddenOf, List.mem_filter, Std.ExtTreeSet.contains_iff_mem,
      mem_hiddenFields_iff hsurvey, List.mem_filterMap, hused]
    apply and_congr_left
    intro _
    constructor
    · rintro ⟨use, huse, hfield⟩
      cases use <;> cases hfield
      exact huse
    · intro huse
      exact ⟨_, huse, rfl⟩

theorem moves_of_reaches (hreaches : survey.Reaches settled key) :
    file.Moves supported survey.owner key := by
  induction hreaches with
  | seed hstaged _ =>
    obtain ⟨method, hmem, hkey, hmarked, hplain⟩ := (mem_staged_iff hsurvey).mp hstaged
    exact .marked hmem hkey hmarked hplain
  | need hcaller hvisit hneed _ ih =>
    obtain ⟨user, hmem, uses, hkey, -, -, hmethods, -⟩ := of_visit hsurvey hcaller hvisit
    obtain ⟨⟨use, huse, hmethod⟩, hhidden⟩ := (hmethods _).mp hneed
    exact .followed ih hmem hkey huse hmethod hhidden

/-- If the methods of the class are distinct and none of them has moved before, all methods that
move are reached. -/
theorem reaches_of_moves (hdistinct : file.DistinctMethods) (hsound : survey.Sound settled)
    (hfresh : ∀ key : MemberKey, key.owner = survey.owner → ¬ settled key)
    (hmoves : file.Moves supported survey.owner key) : survey.Reaches settled key := by
  induction hmoves with
  | @marked method key hmem hkey hmarked hplain =>
    exact .seed ((mem_staged_iff hsurvey).mpr ⟨method, hmem, hkey, hmarked, hplain⟩)
      (hfresh key (Member.keyIn_eq_ok.mp hkey).1)
  | @followed caller key user use _ hmem hkey huse hmethod hhidden ih =>
    obtain ⟨visit, hvisit⟩ := hsound caller ih
    obtain ⟨method, hmethodMem, uses, hmethodKey, -, -, hmethods, -⟩ := of_visit hsurvey ih hvisit
    -- The visit looks up the key again. Only as methods are distinct, it finds the same one.
    obtain rfl := hdistinct.eq hmem hkey hmethodMem hmethodKey
    have howner : key.owner = survey.owner := by
      obtain ⟨declared, -, hdeclared, -⟩ := hhidden
      exact (Member.keyIn_eq_ok.mp hdeclared).1
    exact .need ih hvisit ((hmethods key).mpr ⟨⟨use, huse, hmethod⟩, hhidden⟩) (hfresh key howner)

section Distinct
variable (hdistinct : file.DistinctMethods) (hsound : survey.Sound settled)
include hdistinct hsound

theorem visit_moved_iff (hreaches : survey.Reaches settled key) {value : MemberKey} :
    (∃ visit, survey.visit key = some visit ∧ value = visit.moved) ↔
      ∃ method ∈ file.methods, method.keyIn survey.owner file.pool = .ok key ∧
        key.movedMethod method.isStatic = .ok value := by
  obtain ⟨visit, hvisit⟩ := hsound key hreaches
  obtain ⟨method, hmem, -, hkey, hmoved, -⟩ := of_visit hsurvey hreaches hvisit
  constructor
  · rintro ⟨visit', hvisit', rfl⟩
    obtain rfl := Option.some.inj (hvisit.symm.trans hvisit')
    exact ⟨method, hmem, hkey, hmoved⟩
  · rintro ⟨other, hother, hotherKey, hotherMoved⟩
    obtain rfl := hdistinct.eq hmem hkey hother hotherKey
    exact ⟨visit, hvisit, Except.ok.inj (hotherMoved.symm.trans hmoved)⟩

theorem movesField_iff (hfresh : ∀ key : MemberKey, key.owner = survey.owner → ¬ settled key) :
    (key ∈ markedFields survey.fields ∨ ∃ user visit, survey.Reaches settled user ∧
      survey.visit user = some visit ∧ key ∈ visit.fields) ↔
        file.MovesField supported survey.owner key := by
  constructor
  · rintro (hmarked | ⟨caller, visit, hcaller, hvisit, hfield⟩)
    · obtain ⟨field, hmem, hkey, hmarked⟩ := (mem_markedFields_iff hsurvey).mp hmarked
      exact .marked hmem hkey hmarked
    · obtain ⟨user, hmem, -, hkey, -, -, -, hfields⟩ := of_visit hsurvey hcaller hvisit
      obtain ⟨huse, hhidden⟩ := (hfields key).mp hfield
      exact .followed (moves_of_reaches hsurvey hcaller) hmem hkey huse hhidden
  · intro hmoves
    cases hmoves with
    | @marked field _ hmem hkey hmarked =>
      exact .inl ((mem_markedFields_iff hsurvey).mpr ⟨field, hmem, hkey, hmarked⟩)
    | @followed caller _ user hcaller hmem hkey huse hhidden =>
      have hreached := reaches_of_moves hsurvey hdistinct hsound hfresh hcaller
      obtain ⟨visit, hvisit⟩ := hsound caller hreached
      obtain ⟨method, hmethod, -, hmethodKey, -, -, -, hfields⟩ :=
        of_visit hsurvey hreached hvisit
      obtain rfl := hdistinct.eq hmem hkey hmethod hmethodKey
      exact .inr ⟨caller, visit, hreached, hvisit, (hfields key).mpr ⟨huse, hhidden⟩⟩

end Distinct

end Facts

end Survey

section Finds
variable {supported : NameSet} {file : ClassFile} {owner : String} {analysis analysis' : Analysis}
  {key : MemberKey} (hname : file.name = .ok owner) (hdistinct : file.DistinctMethods)
  (hfresh : ∀ key : MemberKey, key.owner = owner → key ∉ analysis.fields ∧ key ∉ analysis.methods)
  (hscan : scan supported file analysis = .ok () analysis') (howner : key.owner = owner)
include hname hdistinct hfresh hscan howner

theorem mem_scan_iff : (key ∈ analysis'.methods ↔ file.Moves supported owner key) ∧
    (key ∈ analysis'.fields ↔ file.MovesField supported owner key) := by
  obtain ⟨survey, hsurvey, hsound, hgains⟩ := Survey.scan_eq_ok_iff.mp hscan
  obtain rfl := Except.ok.inj ((Survey.ofFile_eq_ok.mp hsurvey).1.symm.trans hname)
  have hnew (key : MemberKey) (hkey : key.owner = survey.owner) : key ∉ analysis.methods :=
    (hfresh key hkey).2
  constructor
  · rw [Survey.mem_of_gains hsound hgains, or_iff_right (hnew key howner)]
    exact ⟨Survey.moves_of_reaches hsurvey, Survey.reaches_of_moves hsurvey hdistinct hsound hnew⟩
  · have hnewField := (hfresh key howner).1
    rw [← Survey.movesField_iff hsurvey hdistinct hsound hnew, Survey.mem_iff_exists_getElem?]
    constructor
    · rintro ⟨value, hvalue⟩
      rcases (hgains.fields key value).mp hvalue with hold | ⟨-, -, hmoves⟩
      · exact absurd (Survey.mem_iff_exists_getElem?.mpr ⟨value, hold⟩) hnewField
      · exact hmoves
    · intro hmoves
      exact ⟨key.movedField, (hgains.fields key _).mpr (.inr ⟨hnewField, rfl, hmoves⟩)⟩

/-- A scan of a class with distinct methods of which nothing has moved before finds exactly the
members that move: each of them is mapped, to the key it has in the companion, and no others are. -/
theorem scan_finds_exactly :
    ((key ∈ analysis'.methods ↔ file.Moves supported owner key) ∧
      (key ∈ analysis'.fields ↔ file.MovesField supported owner key)) ∧
    ∀ value : MemberKey,
      (analysis'.methods[key]? = some value ↔ file.Moves supported owner key ∧
        ∃ method ∈ file.methods, method.keyIn owner file.pool = .ok key ∧
          key.movedMethod method.isStatic = .ok value) ∧
      (analysis'.fields[key]? = some value ↔ file.MovesField supported owner key ∧
        value = key.movedField) := by
  have hmem := mem_scan_iff hname hdistinct hfresh hscan howner
  refine ⟨hmem, fun value => ?_⟩
  obtain ⟨survey, hsurvey, hsound, hgains⟩ := Survey.scan_eq_ok_iff.mp hscan
  obtain rfl := Except.ok.inj ((Survey.ofFile_eq_ok.mp hsurvey).1.symm.trans hname)
  have hnone {map : MemberMap} (hnew : key ∉ map) : map[key]? ≠ some value := by
    intro hvalue
    exact hnew (Survey.mem_iff_exists_getElem?.mpr ⟨value, hvalue⟩)
  obtain ⟨hnewField, hnew⟩ := hfresh key howner
  constructor
  · have hreaches : survey.Reaches (· ∈ analysis.methods) key ↔
        file.Moves supported survey.owner key := by
      rw [← hmem.1, Survey.mem_of_gains hsound hgains, or_iff_right hnew]
    rw [hgains.methods, or_iff_right (hnone hnew), hreaches]
    apply and_congr_right
    intro hmoves
    exact Survey.visit_moved_iff hsurvey hdistinct hsound (hreaches.mpr hmoves)
  · constructor
    · intro hvalue
      rcases (hgains.fields key value).mp hvalue with hold | ⟨-, hsame, -⟩
      · exact absurd hold (hnone hnewField)
      · exact ⟨hmem.2.mp (Survey.mem_iff_exists_getElem?.mpr ⟨value, hvalue⟩), hsame⟩
    · rintro ⟨hmoves, rfl⟩
      rw [← hmem.2, Survey.mem_iff_exists_getElem?] at hmoves
      obtain ⟨value, hvalue⟩ := hmoves
      rcases (hgains.fields key value).mp hvalue with hold | ⟨-, rfl, -⟩
      · exact absurd (Survey.mem_iff_exists_getElem?.mpr ⟨value, hold⟩) hnewField
      · exact hvalue

end Finds

end Scan

/-- A class with a marked static method that calls a method, and with a private static method. None
of the three takes or gives anything. -/
def ClassFile.caller (name marked calleeOwner callee hidden : String) : ClassFile :=
  let text (s : String) : Slot := .entry (.utf8 (.valid s))
  let code (bytes : Bytes) : Attribute :=
    ⟨6, bigEndian 2 1 ++ bigEndian 2 1 ++ bigEndian 4 bytes.length ++ bytes ++ [0, 0, 0, 0]⟩
  { minorVersion := 0
    majorVersion := 52
    pool := ⟨#[.gap, text name, .entry (.class 1), text marked, text "()V", text hidden,
      text AttributeName.code.text, text AttributeName.visibleAnnotations.text, text "Lp/Api;",
      text calleeOwner, .entry (.class 9), text callee, .entry (.nameAndType 11 4),
      .entry (.memberRef .method 10 12), text "java/lang/Object", .entry (.class 14)]⟩
    flags := ⟨0x0021⟩
    thisClass := 2
    superClass := 15
    interfaces := []
    fields := []
    methods := [
      ⟨⟨0x0009⟩, 3, 4, [code [0xB8, 0, 13, 0xB1], ⟨7, [0, 1, 0, 8, 0, 0]⟩]⟩,
      ⟨⟨0x000A⟩, 5, 4, [code [0xB1]]⟩]
    attributes := [] }

def markNames : NameSet := Std.ExtTreeSet.ofList ["p/Api"]

/-- The private method that the marked method calls moves with it. -/
theorem scan_finds_callee :
    ∃ analysis, Scan.scan markNames (.caller "p/C" "m" "p/C" "a" "a") .empty = .ok () analysis ∧
      (ClassFile.caller "p/C" "m" "p/C" "a" "a").Moves markNames "p/C" ⟨"p/C", "a", "()V"⟩ := by
  have hrun : ((Scan.extend markNames .empty (.caller "p/C" "m" "p/C" "a" "a")).toOption.bind
      fun analysis => analysis.methods[(⟨"p/C", "a", "()V"⟩ : MemberKey)]?) =
        some ⟨"p/DesugarC", "a", "()V"⟩ := by decide +kernel
  obtain ⟨analysis, hextend, hvalue⟩ := Option.bind_eq_some_iff.mp hrun
  have hscan := Scan.extend_eq_ok.mp (toOption_eq_some.mp hextend)
  have hname : (ClassFile.caller "p/C" "m" "p/C" "a" "a").name = .ok "p/C" := by rfl
  have hdistinct : (ClassFile.caller "p/C" "m" "p/C" "a" "a").DistinctMethods := by decide +kernel
  have howner : (⟨"p/C", "a", "()V"⟩ : MemberKey).owner = "p/C" := rfl
  obtain ⟨-, hmapped⟩ := Scan.scan_finds_exactly hname hdistinct
    (fun _ _ => ⟨by simp [Analysis.empty], by simp [Analysis.empty]⟩) hscan howner
  exact ⟨analysis, hscan, ((hmapped _).1.mp hvalue).1⟩

end StaticCompanion
