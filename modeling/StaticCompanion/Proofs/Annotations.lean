import StaticCompanion.ClassFile.Annotations
import StaticCompanion.Proofs.Attributes

namespace StaticCompanion

/-- The attributes hold an annotation of a listed type, visible or not. -/
def IsMarked (pool : ConstantPool) (names : NameSet) (attributes : List Attribute) : Prop :=
  ∃ sort attr uses use type,
    (sort = AttributeName.visibleAnnotations ∨ sort = AttributeName.invisibleAnnotations) ∧
    Attribute.find? pool sort.text attributes = .ok (some attr) ∧
    AnnotationUse.listFormat.decode attr.info = .ok uses ∧ use ∈ uses ∧
    AnnotationUse.descriptorIn use pool = .ok ("L" ++ type ++ ";") ∧ type ∈ names

namespace AnnotationUse

theorem typeName?_eq_some_iff {descriptor type : String} :
    typeName? descriptor = some type ↔ descriptor = "L" ++ type ++ ";" := by
  unfold typeName?
  constructor
  · intro htype
    split at htype
    · rename_i text htext
      split at htype
      · rename_i name hname
        obtain rfl := Option.some.inj htype
        apply String.toList_inj.mp
        rw [htext, List.reverse_eq_cons_iff.mp hname]
        simp
      · cases htype
    · cases htype
  · rintro rfl
    simp

variable {pool : ConstantPool} {names : NameSet}

theorem anyListed_eq_ok {uses : List AnnotationUse} {found : Bool}
    (h : anyListed pool names uses = .ok found) :
    found = true ↔ ∃ use ∈ uses, ∃ type,
      use.descriptorIn pool = .ok ("L" ++ type ++ ";") ∧ type ∈ names := by
  induction uses with
  | nil =>
    obtain rfl := Except.ok.inj h
    simp
  | cons use uses ih =>
    simp only [anyListed, except_bind_eq_ok] at h
    obtain ⟨descriptor, hdescriptor, hrest⟩ := h
    have hlisted : (typeName? descriptor).any names.contains = true ↔
        ∃ type, use.descriptorIn pool = .ok ("L" ++ type ++ ";") ∧ type ∈ names := by
      rw [Option.any_eq_true, hdescriptor]
      simp only [typeName?_eq_some_iff, Except.ok.injEq, Std.ExtTreeSet.contains_iff_mem]
    split at hrest
    · rename_i hfirst
      obtain rfl := except_pure_eq_ok.mp hrest
      simp only [true_iff]
      exact ⟨use, List.mem_cons_self, hlisted.mp hfirst⟩
    · rename_i hfirst
      rw [ih hrest, List.exists_mem_cons_iff]
      exact (or_iff_right (hlisted.not.mp hfirst)).symm

end AnnotationUse

section Marked
variable {pool : ConstantPool} {names : NameSet} {attributes : List Attribute} {found : Bool}

theorem carries_eq_ok {sort : AttributeName}
    (h : isAnnotated.carries pool names attributes sort = .ok found) :
    found = true ↔ ∃ attr uses use type,
      Attribute.find? pool sort.text attributes = .ok (some attr) ∧
      AnnotationUse.listFormat.decode attr.info = .ok uses ∧ use ∈ uses ∧
      AnnotationUse.descriptorIn use pool = .ok ("L" ++ type ++ ";") ∧ type ∈ names := by
  simp only [isAnnotated.carries, except_bind_eq_ok] at h
  obtain ⟨attr?, hfind, hrest⟩ := h
  cases attr? with
  | none =>
    obtain rfl := except_pure_eq_ok.mp hrest
    simp [hfind]
  | some attr =>
    simp only [except_bind_eq_ok] at hrest
    obtain ⟨uses, huses, hlisted⟩ := hrest
    rw [AnnotationUse.anyListed_eq_ok hlisted]
    constructor
    · rintro ⟨use, hmem, type, htype⟩
      exact ⟨attr, uses, use, type, hfind, huses, hmem, htype⟩
    · rintro ⟨attr', uses', use, type, hfind', huses', hmem, htype⟩
      obtain rfl := Option.some.inj (Except.ok.inj (hfind.symm.trans hfind'))
      obtain rfl := Except.ok.inj (huses.symm.trans huses')
      exact ⟨use, hmem, type, htype⟩

theorem isAnnotated_eq_ok (h : isAnnotated pool names attributes = .ok found) :
    found = true ↔ IsMarked pool names attributes := by
  simp only [isAnnotated, except_bind_eq_ok] at h
  obtain ⟨visible, hvisible, hrest⟩ := h
  constructor
  · intro hfound
    split at hrest
    · rename_i hlisted
      obtain ⟨attr, uses, use, type, hattr⟩ := (carries_eq_ok hvisible).mp hlisted
      exact ⟨_, attr, uses, use, type, .inl rfl, hattr⟩
    · obtain ⟨attr, uses, use, type, hattr⟩ := (carries_eq_ok hrest).mp hfound
      exact ⟨_, attr, uses, use, type, .inr rfl, hattr⟩
  · rintro ⟨sort, attr, uses, use, type, rfl | rfl, hattr⟩
    · have hlisted := (carries_eq_ok hvisible).mpr ⟨attr, uses, use, type, hattr⟩
      rw [if_pos hlisted] at hrest
      exact (except_pure_eq_ok.mp hrest).symm
    · split at hrest
      · exact (except_pure_eq_ok.mp hrest).symm
      · exact (carries_eq_ok hrest).mpr ⟨attr, uses, use, type, hattr⟩

end Marked

end StaticCompanion
