import Mathlib.Data.List.DropRight
import StaticCompanion.Proofs.Descriptors
import StaticCompanion.Relocation.Naming

namespace StaticCompanion

/-- The package of a name goes up to the last slash and includes it, and the simple name follows.
A name without a slash is a simple name. -/
structure CutsInto (name package simple : String) : Prop where
  parts : name = package ++ simple
  package_end : package = "" ∨ ∃ outer, package = outer ++ "/"
  simple_free : '/' ∉ simple.toList

theorem exists_cutsInto (name : String) : ∃ package simple, CutsInto name package simple := by
  refine ⟨String.ofList (name.toList.rdropWhile (· ≠ '/')),
    String.ofList (name.toList.rtakeWhile (· ≠ '/')), ?_, ?_, ?_⟩
  · rw [← String.ofList_append, List.rdropWhile_append_rtakeWhile, String.ofList_toList]
  · by_cases hnone : name.toList.rdropWhile (· ≠ '/') = []
    · exact .inl (congrArg String.ofList hnone)
    · have hslash := List.rdropWhile_last_not _ _ hnone
      rw [decide_eq_true_iff, not_not] at hslash
      have hlast := List.dropLast_append_getLast hnone
      rw [hslash] at hlast
      refine .inr ⟨String.ofList (name.toList.rdropWhile (· ≠ '/')).dropLast, ?_⟩
      rw [← hlast, List.dropLast_concat, String.ofList_append]
  · rw [String.toList_ofList]
    intro hmem
    have hother := List.mem_rtakeWhile_imp hmem
    exact of_decide_eq_true hother rfl

namespace CutsInto
variable {name package simple : String}

theorem ends (h : CutsInto name package simple) :
    name.toList.rdropWhile (· ≠ '/') = package.toList ∧
      name.toList.rtakeWhile (· ≠ '/') = simple.toList := by
  have hsimple : ∀ c ∈ simple.toList.reverse, decide (c ≠ '/') = true := by
    intro c hc
    exact decide_eq_true fun hslash => h.simple_free (hslash ▸ List.mem_reverse.mp hc)
  rw [List.rdropWhile, List.rtakeWhile, h.parts, String.toList_append, List.reverse_append]
  rcases h.package_end with rfl | ⟨outer, rfl⟩
  · rw [List.takeWhile_append_of_pos hsimple, List.dropWhile_append_of_pos hsimple]
    simp
  · obtain ⟨htake, hdrop⟩ := cut_append_cons hsimple
      (by decide : ¬ decide ('/' ≠ '/') = true) outer.toList.reverse
    have hpackage : (outer ++ "/").toList.reverse = '/' :: outer.toList.reverse := by simp
    rw [hpackage, htake, hdrop, ← hpackage, List.reverse_reverse, List.reverse_reverse]
    exact ⟨rfl, rfl⟩

theorem unique {package' simple' : String} (h : CutsInto name package simple)
    (h' : CutsInto name package' simple') : package = package' ∧ simple = simple' := by
  have hpackage := h.ends.1.symm.trans h'.ends.1
  have hsimple := h.ends.2.symm.trans h'.ends.2
  exact ⟨String.toList_inj.mp hpackage, String.toList_inj.mp hsimple⟩

theorem companionName_eq (h : CutsInto name package simple) :
    companionName name = package ++ companionMark ++ simple := by
  change String.ofList (name.toList.rdropWhile (· ≠ '/') ++ companionMark.toList ++
    name.toList.rtakeWhile (· ≠ '/')) = _
  rw [h.ends.1, h.ends.2, String.ofList_append, String.ofList_append, String.ofList_toList,
    String.ofList_toList, String.ofList_toList]

theorem companion (h : CutsInto name package simple) :
    CutsInto (companionName name) package (companionMark ++ simple) where
  parts := by rw [h.companionName_eq, String.append_assoc]
  package_end := h.package_end
  simple_free := by
    rw [String.toList_append, List.mem_append, not_or]
    exact ⟨by decide, h.simple_free⟩

end CutsInto

theorem companionName_ne (name : String) : companionName name ≠ name := by
  obtain ⟨package, simple, hcut⟩ := exists_cutsInto name
  intro hsame
  have hcompanion := hcut.companion
  rw [hsame] at hcompanion
  have hlen := congrArg (fun text => text.toList.length) (hcut.unique hcompanion).2
  simp only [String.toList_append, List.length_append] at hlen
  have hmark : 0 < companionMark.toList.length := by decide
  omega

theorem companionName_inj {name other : String} (h : companionName name = companionName other) :
    name = other := by
  obtain ⟨package, simple, hcut⟩ := exists_cutsInto name
  obtain ⟨package', simple', hcut'⟩ := exists_cutsInto other
  have hcompanion := hcut.companion
  rw [h] at hcompanion
  obtain ⟨rfl, hmarked⟩ := hcompanion.unique hcut'.companion
  rw [hcut.parts, hcut'.parts, (String.append_right_inj companionMark).mp hmarked]

theorem withReceiver_inj {owner first second descriptor : String}
    (hfirst : withReceiver owner first = .ok descriptor)
    (hsecond : withReceiver owner second = .ok descriptor) : first = second := by
  simp only [withReceiver, except_bind_eq_ok, except_pure_eq_ok] at hfirst hsecond
  obtain ⟨method, hmethod, hdescriptor⟩ := hfirst
  obtain ⟨method', hmethod', rfl⟩ := hsecond
  rw [← MethodDescriptor.descriptor_of_ofDescriptor hmethod,
    ← MethodDescriptor.descriptor_of_ofDescriptor hmethod']
  simpa [MethodDescriptor.descriptor, MethodDescriptor.chars, String.ofList_inj] using hdescriptor

attribute [ext] MemberKey

namespace MemberKey
variable {key moved : MemberKey} {isStatic : Bool}

theorem movedMethod_eq_ok :
    key.movedMethod isStatic = .ok moved ↔ moved.owner = companionName key.owner ∧
      moved.name = key.name ∧ (if isStatic = true then moved.descriptor = key.descriptor
        else withReceiver key.owner key.descriptor = .ok moved.descriptor) := by
  obtain ⟨owner, name, descriptor⟩ := moved
  cases isStatic with
  | false =>
    simp only [movedMethod, Bool.false_eq_true, if_false, except_bind_eq_ok, except_pure_eq_ok,
      mk.injEq]
    constructor
    · rintro ⟨_, hdescriptor, rfl, rfl, rfl⟩
      exact ⟨rfl, rfl, hdescriptor⟩
    · rintro ⟨rfl, rfl, hdescriptor⟩
      exact ⟨_, hdescriptor, rfl, rfl, rfl⟩
  | true =>
    simp only [movedMethod, if_true, except_bind_eq_ok, except_pure_eq_ok, exists_eq_left',
      mk.injEq]
    constructor
    · rintro ⟨rfl, rfl, rfl⟩
      exact ⟨rfl, rfl, rfl⟩
    · rintro ⟨rfl, rfl, rfl⟩
      exact ⟨rfl, rfl, rfl⟩

theorem movedMethod_true :
    key.movedMethod true = .ok ⟨companionName key.owner, key.name, key.descriptor⟩ := rfl

/-- A method of objects gets the new key of a static one exactly if it takes up, with its receiver,
the name and the descriptor of the static one. -/
theorem movedMethod_eq_static_iff {static : MemberKey} (howner : static.owner = key.owner)
    (hmoved : static.movedMethod true = .ok moved) :
    key.movedMethod false = .ok moved ↔
      static.name = key.name ∧ withReceiver key.owner key.descriptor = .ok static.descriptor := by
  obtain rfl := Except.ok.inj hmoved
  rw [movedMethod_eq_ok, if_neg Bool.false_ne_true, howner]
  exact and_iff_right rfl

theorem movedField_inj {other : MemberKey} (h : key.movedField = other.movedField) :
    key = other := by
  obtain ⟨howner, hname, hdescriptor⟩ := MemberKey.mk.inj h
  exact MemberKey.ext (companionName_inj howner) hname hdescriptor

theorem movedMethod_inj {other : MemberKey} (hmoved : key.movedMethod isStatic = .ok moved)
    (hmoved' : other.movedMethod isStatic = .ok moved) : key = other := by
  obtain ⟨hmovedOwner, hname, hdescriptor⟩ := movedMethod_eq_ok.mp hmoved
  obtain ⟨hmovedOwner', hname', hdescriptor'⟩ := movedMethod_eq_ok.mp hmoved'
  have howner : key.owner = other.owner :=
    companionName_inj (hmovedOwner.symm.trans hmovedOwner')
  have hsame : key.descriptor = other.descriptor := by
    cases isStatic with
    | false =>
      rw [if_neg Bool.false_ne_true] at hdescriptor hdescriptor'
      rw [howner] at hdescriptor
      exact withReceiver_inj hdescriptor hdescriptor'
    | true =>
      rw [if_pos rfl] at hdescriptor hdescriptor'
      exact hdescriptor.symm.trans hdescriptor'
  exact MemberKey.ext howner (hname.symm.trans hname') hsame

end MemberKey

/-- The new names of two fields, of two methods of one kind and of two classes are the same only
if the old ones are. A class gets another name, with the mark in front of its simple name and in
the same package. -/
theorem newNames_injective :
    (∀ key other : MemberKey, key.movedField = other.movedField → key = other) ∧
      (∀ (isStatic : Bool) (key other moved : MemberKey), key.movedMethod isStatic = .ok moved →
        other.movedMethod isStatic = .ok moved → key = other) ∧
      (∀ name other : String, companionName name = companionName other → name = other) ∧
      ∀ name : String, companionName name ≠ name ∧
        ∃ package simple, CutsInto name package simple ∧
          CutsInto (companionName name) package (companionMark ++ simple) := by
  refine ⟨fun _ _ => MemberKey.movedField_inj, fun _ _ _ _ => MemberKey.movedMethod_inj,
    fun _ _ => companionName_inj, ?_⟩
  intro name
  obtain ⟨package, simple, hcut⟩ := exists_cutsInto name
  exact ⟨companionName_ne name, package, simple, hcut, hcut.companion⟩

section Marked

def plainKey : MemberKey where
  owner := "p/A"
  name := "m"
  descriptor := "([I)V"

/-- The class of this method has the name of a companion already. -/
def markedKey : MemberKey := { plainKey with owner := "p/DesugarA" }

/-- The companion of a class and the class that has its name have different companions. -/
theorem newNames_injective_of_marked :
    plainKey.movedMethod false = .ok ⟨"p/DesugarA", "m", "(Lp/A;[I)V"⟩ ∧
      markedKey.movedMethod false = .ok ⟨"p/DesugarDesugarA", "m", "(Lp/DesugarA;[I)V"⟩ ∧
      plainKey.movedMethod false ≠ markedKey.movedMethod false ∧
      plainKey.movedField ≠ markedKey.movedField ∧
      companionName markedKey.owner ≠ companionName plainKey.owner ∧
      CutsInto markedKey.owner "p/" "DesugarA" ∧
      CutsInto (companionName markedKey.owner) "p/" "DesugarDesugarA" := by
  obtain ⟨hfields, hmethods, hnames, hpackages⟩ := newNames_injective
  have hplain : plainKey.movedMethod false = .ok ⟨"p/DesugarA", "m", "(Lp/A;[I)V"⟩ := by
    decide +kernel
  have hmarked : markedKey.movedMethod false =
      .ok ⟨"p/DesugarDesugarA", "m", "(Lp/DesugarA;[I)V"⟩ := by
    decide +kernel
  have hkeys : plainKey ≠ markedKey := by decide
  have hcut : CutsInto markedKey.owner "p/" "DesugarA" :=
    ⟨by decide, .inr ⟨"p", by decide⟩, by decide⟩
  obtain ⟨package, simple, hcut', hcompanion⟩ := (hpackages markedKey.owner).2
  obtain ⟨rfl, rfl⟩ := hcut.unique hcut'
  refine ⟨hplain, hmarked, ?_, ?_, ?_, hcut, hcompanion⟩
  · intro hsame
    exact hkeys (hmethods false _ _ _ hplain (hsame.symm.trans hplain))
  · intro hsame
    exact hkeys (hfields _ _ hsame)
  · intro hsame
    have howner := hnames _ _ hsame
    exact absurd howner (by decide)

end Marked

end StaticCompanion
