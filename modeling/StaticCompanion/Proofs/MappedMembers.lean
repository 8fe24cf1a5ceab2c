import StaticCompanion.Proofs.CompanionClass
import StaticCompanion.Proofs.Locality

/-!
# The companion declares what is mapped

The keys that calls and accesses are turned to are found when a class is scanned; the members of
its companion are made later, from the class itself. After a scan of a class of which nothing had
moved before, the companion declares a copy of each member that is mapped under the very key that
it is mapped to, and nothing else but a constructor.
-/
namespace StaticCompanion

/-- A member of the class named `owner` is mapped. -/
def ClassFile.HasMapped (file : ClassFile) (analysis : Analysis) (owner : String) : Prop :=
  (∃ field ∈ file.fields, ∃ key, field.keyIn owner file.pool = .ok key ∧ key ∈ analysis.fields) ∨
    ∃ method ∈ file.methods, ∃ key, method.keyIn owner file.pool = .ok key ∧
      key ∈ analysis.methods

/-- The new key of a member of the class named `owner`, if the member is mapped. -/
def Member.mapped? (owner : String) (pool : ConstantPool) (map : MemberMap) (member : Member) :
    Option MemberKey := do
  map[← (member.keyIn owner pool).toOption]?

/-- The members that are mapped, with their new keys. -/
def mappedMembers (owner : String) (pool : ConstantPool) (map : MemberMap)
    (members : List Member) : List (Member × MemberKey) :=
  members.filterMap fun member => (member.mapped? owner pool map).map (member, ·)

section Mapped
variable {owner : String} {pool : ConstantPool} {map : MemberMap} {member : Member}
  {members : List Member} {moved : MemberKey}

theorem Member.mapped?_eq_some : member.mapped? owner pool map = some moved ↔
    ∃ key, member.keyIn owner pool = .ok key ∧ map[key]? = some moved := by
  simp [Member.mapped?, Option.bind_eq_some_iff]

theorem mem_mappedMembers : (member, moved) ∈ mappedMembers owner pool map members ↔
    member ∈ members ∧ ∃ key, member.keyIn owner pool = .ok key ∧ map[key]? = some moved := by
  simp only [mappedMembers, List.mem_filterMap, Option.map_eq_some_iff, Prod.mk.injEq,
    Member.mapped?_eq_some]
  constructor
  · rintro ⟨member, hmem, _, hmapped, rfl, rfl⟩
    exact ⟨hmem, hmapped⟩
  · rintro ⟨hmem, hmapped⟩
    exact ⟨member, hmem, moved, hmapped, rfl, rfl⟩

theorem mappedMembers_ne_nil : mappedMembers owner pool map members ≠ [] ↔
    ∃ member ∈ members, ∃ key, member.keyIn owner pool = .ok key ∧ key ∈ map := by
  constructor
  · intro hne
    obtain ⟨⟨member, moved⟩, hmapped⟩ := List.exists_mem_of_ne_nil _ hne
    obtain ⟨hmem, key, hkey, hmoved⟩ := mem_mappedMembers.mp hmapped
    exact ⟨member, hmem, key, hkey, Scan.Survey.mem_iff_exists_getElem?.mpr ⟨moved, hmoved⟩⟩
  · rintro ⟨member, hmem, key, hkey, hmapped⟩
    obtain ⟨moved, hmoved⟩ := Scan.Survey.mem_iff_exists_getElem?.mp hmapped
    exact List.ne_nil_of_mem (mem_mappedMembers.mpr ⟨hmem, key, hkey, hmoved⟩)

end Mapped

namespace Companion
variable {analysis : Analysis} {owner : String} {pool : ConstantPool} {members : List Member}

theorem movingFields_eq {moving : List (Member × MemberKey)}
    (h : members.filterMapM (movingField? analysis pool owner) = .ok moving) :
    moving = mappedMembers owner pool analysis.fields members := by
  refine eq_filterMap_of_filterMapM (fun field found hfound => ?_) h
  simp only [movingField?, except_bind_eq_ok, except_pure_eq_ok] at hfound
  obtain ⟨key, hkey, rfl⟩ := hfound
  simp [Member.mapped?, hkey, Except.toOption]

theorem movingMethods_eq {moving : List Member}
    (h : members.filterMapM (movingMethod? analysis pool owner) = .ok moving) :
    moving = (mappedMembers owner pool analysis.methods members).map Prod.fst := by
  rw [mappedMembers, List.map_filterMap]
  refine eq_filterMap_of_filterMapM (fun method found hfound => ?_) h
  simp only [movingMethod?, except_bind_eq_ok, except_pure_eq_ok] at hfound
  obtain ⟨key, hkey, rfl⟩ := hfound
  cases hvalue : analysis.methods[key]? with
  | none =>
    have hmem : key ∉ analysis.methods := by simpa using hvalue
    simp [Member.mapped?, hkey, Except.toOption, hmem]
  | some moved =>
    have hmem := Scan.Survey.mem_iff_exists_getElem?.mpr ⟨moved, hvalue⟩
    simp [Member.mapped?, hkey, Except.toOption, hmem]

theorem companion_isSome_iff {file : ClassFile} {found : Option ClassFile}
    (hname : file.name = .ok owner) (hfound : file.companion analysis = .ok found) :
    found.isSome = true ↔ mappedMembers owner file.pool analysis.fields file.fields ≠ [] ∨
      mappedMembers owner file.pool analysis.methods file.methods ≠ [] := by
  simp only [ClassFile.companion, except_bind_eq_ok, lift_class_eq_ok] at hfound
  obtain ⟨name, hname', fields, hfields, methods, hmethods, hfound⟩ := hfound
  obtain rfl := Except.ok.inj (hname.symm.trans hname')
  have hsame : mappedMembers owner file.pool analysis.methods file.methods = [] ↔ methods = [] := by
    rw [movingMethods_eq hmethods, List.map_eq_nil_iff]
  rw [← movingFields_eq hfields, Ne, Ne, hsame]
  split at hfound
  · rename_i hempty
    obtain rfl := except_pure_eq_ok.mp hfound
    simpa [List.isEmpty_iff] using hempty
  · rename_i hsome
    simp only [except_bind_eq_ok, except_pure_eq_ok] at hfound
    obtain ⟨_, -, rfl⟩ := hfound
    simpa [List.isEmpty_iff, Classical.or_iff_not_imp_left] using hsome

theorem hasMapped_iff_of_companion {file : ClassFile} {found : Option ClassFile}
    (hfound : file.companion analysis = .ok found) :
    ∃ owner, file.name = .ok owner ∧ (file.HasMapped analysis owner ↔ found.isSome = true) := by
  obtain ⟨owner, hname, -⟩ := except_bind_eq_ok.mp hfound
  rw [lift_class_eq_ok] at hname
  refine ⟨owner, hname, ?_⟩
  rw [companion_isSome_iff hname hfound, mappedMembers_ne_nil, mappedMembers_ne_nil]
  rfl

theorem exists_key_of_companion {file : ClassFile} {found : Option ClassFile} {field : Member}
    (hname : file.name = .ok owner) (hfound : file.companion analysis = .ok found)
    (hmem : field ∈ file.fields) : ∃ key, field.keyIn owner file.pool = .ok key := by
  simp only [ClassFile.companion, except_bind_eq_ok, lift_class_eq_ok] at hfound
  obtain ⟨name, hname', fields, hfields, -⟩ := hfound
  obtain rfl := Except.ok.inj (hname.symm.trans hname')
  obtain ⟨options, hoptions, -⟩ := except_filterMapM_eq_ok.mp hfields
  obtain ⟨option, -, hoption⟩ := forall₂_mem_left hoptions hmem
  simp only [movingField?, except_bind_eq_ok] at hoption
  obtain ⟨key, hkey, -⟩ := hoption
  exact ⟨key, hkey⟩

/-- The copy of a method with its new key in the companion of `owner`. -/
structure MirrorsMethod (owner : String) (pool : ConstantPool) (method : Member × MemberKey)
    (copy : Member) : Prop where
  key : copy.keyIn (companionName owner) pool = .ok method.2
  isPublic : copy.isPublic = true
  isStatic : copy.isStatic = true
  notHidden : copy.flags.hasAny (AccessFlags.isPrivate ||| AccessFlags.isProtected) = false
  code : SameCode pool method.1 copy

structure MirrorsField (owner : String) (pool : ConstantPool) (field : Member × MemberKey)
    (copy : Member) : Prop where
  key : copy.keyIn (companionName owner) pool = .ok field.2
  isPublic : copy.isPublic = true

/-- The class is named as the companion of the class named `owner`, has all constants of that class
at their places, and declares a private constructor and one copy of each member that is mapped,
under its new key and in the order of the class. -/
structure Mirrors (analysis : Analysis) (file : ClassFile) (owner : String)
    (companion : ClassFile) : Prop where
  named : companion.name = .ok (companionName owner)
  constants : ∀ index entry, file.pool.entry index = .ok entry →
    companion.pool.entry index = .ok entry
  methods : ∃ first copies, companion.methods = first :: copies ∧
    HiddenConstructor companion.pool first ∧
      List.Forall₂ (MirrorsMethod owner companion.pool)
        (mappedMembers owner file.pool analysis.methods file.methods) copies
  fields : List.Forall₂ (MirrorsField owner companion.pool)
    (mappedMembers owner file.pool analysis.fields file.fields) companion.fields

end Companion

namespace ClassFile

/-- A member of the class has a supported annotation that lets it move. -/
def HasMarked (supported : NameSet) (file : ClassFile) (owner : String) : Prop :=
  (∃ field ∈ file.fields, IsMarked file.pool supported field.attributes) ∨
    ∃ method ∈ file.methods, ∃ key, method.keyIn owner file.pool = .ok key ∧
      IsMarked file.pool supported method.attributes ∧ key.isCovariantBufferMethod = false

variable {supported : NameSet} {file : ClassFile} {owner : String} {key : MemberKey}

theorem Moves.hasMarked (hmoves : file.Moves supported owner key) :
    file.HasMarked supported owner := by
  induction hmoves with
  | marked hmem hkey hmarked hplain => exact .inr ⟨_, hmem, _, hkey, hmarked, hplain⟩
  | followed _ _ _ _ _ _ ih => exact ih

theorem MovesField.hasMarked (hmoves : file.MovesField supported owner key) :
    file.HasMarked supported owner := by
  cases hmoves with
  | marked hmem _ hmarked => exact .inl ⟨_, hmem, hmarked⟩
  | followed hcaller => exact hcaller.hasMarked

end ClassFile

section Scanned
variable {supported : NameSet} {file : ClassFile} {owner : String} {start analysis : Analysis}
  {key : MemberKey} (hname : file.name = .ok owner) (hdistinct : file.DistinctMethods)
  (hnothing : start.MovesNothingFrom owner)
  (hscan : Scan.scan supported file start = .ok () analysis)
include hname hdistinct hnothing hscan

theorem hasMarked_iff_mapped {found : Option ClassFile}
    (hfound : file.companion analysis = .ok found) :
    mappedMembers owner file.pool analysis.fields file.fields ≠ [] ∨
      mappedMembers owner file.pool analysis.methods file.methods ≠ [] ↔
        file.HasMarked supported owner := by
  have hmem {key : MemberKey} (hkey : key.owner = owner) :=
    Scan.mem_scan_iff hname hdistinct hnothing hscan hkey
  have hmapped {map : MemberMap} {key : MemberKey} : key ∈ map ↔ ∃ moved, map[key]? = some moved :=
    Scan.Survey.mem_iff_exists_getElem?
  constructor
  · rintro (hsome | hsome)
    · obtain ⟨⟨field, moved⟩, hfield⟩ := List.exists_mem_of_ne_nil _ hsome
      obtain ⟨-, key, hkey, hvalue⟩ := mem_mappedMembers.mp hfield
      have hmoves := (hmem (Member.keyIn_eq_ok.mp hkey).1).2.mp (hmapped.mpr ⟨moved, hvalue⟩)
      exact hmoves.hasMarked
    · obtain ⟨⟨method, moved⟩, hmethod⟩ := List.exists_mem_of_ne_nil _ hsome
      obtain ⟨-, key, hkey, hvalue⟩ := mem_mappedMembers.mp hmethod
      have hmoves := (hmem (Member.keyIn_eq_ok.mp hkey).1).1.mp (hmapped.mpr ⟨moved, hvalue⟩)
      exact hmoves.hasMarked
  · rintro (⟨field, hfield, hmarked⟩ | ⟨method, hmethod, key, hkey, hmarked, hplain⟩)
    · obtain ⟨key, hkey⟩ := Companion.exists_key_of_companion hname hfound hfield
      have howner := (Member.keyIn_eq_ok.mp hkey).1
      obtain ⟨moved, hvalue⟩ := hmapped.mp ((hmem howner).2.mpr (.marked hfield hkey hmarked))
      exact .inl (List.ne_nil_of_mem (mem_mappedMembers.mpr ⟨hfield, key, hkey, hvalue⟩))
    · have howner := (Member.keyIn_eq_ok.mp hkey).1
      obtain ⟨moved, hvalue⟩ :=
        hmapped.mp ((hmem howner).1.mpr (.marked hmethod hkey hmarked hplain))
      exact .inr (List.ne_nil_of_mem (mem_mappedMembers.mpr ⟨hmethod, key, hkey, hvalue⟩))

/-- What a scan maps the key of a method to is made from that method, as no other one has its
key. -/
theorem movedMethod_of_mapped {method : Member} {moved : MemberKey} (hmem : method ∈ file.methods)
    (hkey : method.keyIn owner file.pool = .ok key)
    (hvalue : analysis.methods[key]? = some moved) :
    key.movedMethod method.isStatic = .ok moved := by
  rcases (Scan.extendsFor_of_scan hname hscan).methods.added key moved hvalue with hold | hadded
  · have hnew := (hnothing key (Member.keyIn_eq_ok.mp hkey).1).2
    exact absurd (Scan.Survey.mem_iff_exists_getElem?.mpr ⟨moved, hold⟩) hnew
  · obtain ⟨origin, horigin, horiginKey, hmoved⟩ := hadded
    rwa [hdistinct.eq hmem hkey horigin horiginKey]

omit hdistinct in
theorem movedField_of_mapped {moved : MemberKey} (howner : key.owner = owner)
    (hvalue : analysis.fields[key]? = some moved) : moved = key.movedField := by
  rcases (Scan.extendsFor_of_scan hname hscan).fields.added key moved hvalue with hold | hadded
  · have hnew := (hnothing key howner).1
    exact absurd (Scan.Survey.mem_iff_exists_getElem?.mpr ⟨moved, hold⟩) hnew
  · exact hadded.2

theorem mirrors_of_companion (hfits : file.pool.Fits) {companion : ClassFile}
    (hcompanion : file.companion analysis = .ok (some companion)) :
    Companion.Mirrors analysis file owner companion := by
  obtain ⟨name, hof⟩ := Companion.companionOf_of_companion hfits hcompanion
  obtain rfl := Except.ok.inj (hof.ofBase.symm.trans hname)
  obtain ⟨first, hmethods, hfirst⟩ := hof.constructor
  refine ⟨hof.named, fun _ _ => ConstantPool.entry_of_le hof.grows,
    ⟨first, _, hmethods, hfirst, ?_⟩, ?_⟩
  · obtain ⟨moving, hmoving, hcopies⟩ := hof.methods
    rw [Companion.movingMethods_eq hmoving, List.forall₂_map_left_iff] at hcopies
    apply ((List.forall₂_and_left _ _).mpr ⟨fun _ => id, hcopies⟩).imp
    rintro ⟨method, moved⟩ copy ⟨hmem, hcopied, hcode⟩
    obtain ⟨hmethod, key, hkey, hvalue⟩ := mem_mappedMembers.mp hmem
    have hmoved := movedMethod_of_mapped hname hdistinct hnothing hscan hmethod hkey hvalue
    obtain ⟨key', moved', hkey', -, hmoved', hcopy⟩ := hcopied.key
    obtain rfl := Except.ok.inj ((Member.keyIn_of_le hof.grows hkey).symm.trans hkey')
    obtain rfl := Except.ok.inj (hmoved.symm.trans hmoved')
    exact ⟨hcopy, hcopied.isPublic, hcopied.isStatic, hcopied.not_hidden, hcode⟩
  · obtain ⟨moving, hmoving, hcopies⟩ := hof.fields
    rw [Companion.movingFields_eq hmoving] at hcopies
    apply ((List.forall₂_and_left _ _).mpr ⟨fun _ => id, hcopies⟩).imp
    rintro ⟨field, moved⟩ copy ⟨hmem, hcopied⟩
    obtain ⟨-, key, hkey, hvalue⟩ := mem_mappedMembers.mp hmem
    have howner := (Member.keyIn_eq_ok.mp hkey).1
    have hmoved := movedField_of_mapped hname hnothing hscan howner hvalue
    have hcopy := hcopied.key
    rw [hmoved, MemberKey.movedField, howner] at hcopy ⊢
    exact ⟨hcopy, hcopied.isPublic⟩

end Scanned

/-- After a scan of a class of which nothing had moved before, the class has a companion exactly if
one of its members is marked, and the companion mirrors what the scan has mapped. -/
theorem companion_mirrors_scan {supported : NameSet} {file : ClassFile} {owner : String}
    {start analysis : Analysis} (hname : file.name = .ok owner) (hfits : file.pool.Fits)
    (hdistinct : file.DistinctMethods) (hnothing : start.MovesNothingFrom owner)
    (hscan : Scan.scan supported file start = .ok () analysis) {found : Option ClassFile}
    (hfound : file.companion analysis = .ok found) :
    (found.isSome = true ↔ file.HasMarked supported owner) ∧
      ∀ companion, found = some companion → Companion.Mirrors analysis file owner companion := by
  constructor
  · rw [Companion.companion_isSome_iff hname hfound]
    exact hasMarked_iff_mapped hname hdistinct hnothing hscan hfound
  · rintro companion rfl
    exact mirrors_of_companion hname hdistinct hnothing hscan hfits hfound

/-- What the scan of a class finds, and its companion. -/
def scannedCompanion? (supported : NameSet) (file : ClassFile) : Option (Analysis × ClassFile) := do
  let analysis ← (Scan.extend supported .empty file).toOption
  let companion ← (file.companion analysis).toOption.join
  return (analysis, companion)

theorem scannedCompanion?_eq_some {supported : NameSet} {file companion : ClassFile}
    {analysis : Analysis} : scannedCompanion? supported file = some (analysis, companion) ↔
      Scan.scan supported file .empty = .ok () analysis ∧
        file.companion analysis = .ok (some companion) := by
  simp only [scannedCompanion?, Option.bind_eq_bind, Option.bind_eq_some_iff, toOption_eq_some,
    Option.join_eq_some_iff, Scan.extend_eq_ok, Option.pure_def, Option.some.injEq, Prod.mk.injEq]
  constructor
  · rintro ⟨_, hscan, _, hcompanion, rfl, rfl⟩
    exact ⟨hscan, hcompanion⟩
  · rintro ⟨hscan, hcompanion⟩
    exact ⟨analysis, hscan, companion, hcompanion, rfl, rfl⟩

/-- The companion of a class with a marked method and a hidden one that follows it declares both and
a constructor. -/
theorem companion_mirrors_caller :
    let file := ClassFile.caller "p/C" "m" "p/C" "a" "a"
    ∃ analysis companion, Scan.scan markNames file .empty = .ok () analysis ∧
      file.companion analysis = .ok (some companion) ∧ companion.methods.length = 3 ∧
      file.HasMarked markNames "p/C" ∧ Companion.Mirrors analysis file "p/C" companion := by
  intro file
  have hrun : (scannedCompanion? markNames file).map
      (fun result => result.2.methods.length) = some 3 := by decide +kernel
  obtain ⟨⟨analysis, companion⟩, hmade, hlength⟩ := Option.map_eq_some_iff.mp hrun
  obtain ⟨hscan, hcompanion⟩ := scannedCompanion?_eq_some.mp hmade
  obtain ⟨hsome, hmirrors⟩ := companion_mirrors_scan (by rfl) (by decide) (by decide +kernel)
    (Analysis.movesNothingFrom_empty _) hscan hcompanion
  exact ⟨analysis, companion, hscan, hcompanion, hlength, hsome.mp rfl, hmirrors companion rfl⟩

end StaticCompanion
