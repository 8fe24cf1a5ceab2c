import StaticCompanion.Proofs.Descriptors
import StaticCompanion.Proofs.SignatureTrees

namespace StaticCompanion

theorem takeName_eq {ends : Char → Bool} {text rest : List Char} {name : String}
    (h : takeName ends text = (name, rest)) :
    text = name.toList ++ rest ∧ ∀ c ∈ name.toList, ends c = false := by
  obtain ⟨rfl, rfl⟩ := Prod.mk.inj h
  rw [String.toList_ofList]
  refine ⟨List.takeWhile_append_dropWhile.symm, fun c hc => ?_⟩
  simpa using List.all_eq_true.mp List.all_takeWhile _ hc

theorem takeName_append {ends : Char → Bool} {name : String}
    (h : ∀ c ∈ name.toList, ends c = false) {c : Char} (hc : ends c = true) (rest : List Char) :
    takeName ends (name.toList ++ c :: rest) = (name, c :: rest) := by
  have hfront : ∀ a ∈ name.toList, (!ends a) = true := by
    intro a ha
    rw [h a ha]
    rfl
  obtain ⟨htake, hdrop⟩ := cut_append_cons hfront (c := c) (by simp [hc]) rest
  rw [takeName, htake, hdrop, String.ofList_toList]

/-- Whatever the reader takes off the front of a text is what is written for the value, which is
well formed. -/
def Faithful {α : Type} (chars : α → List Char) (wellFormed : α → Prop)
    (reader : List Char → Option (α × List Char)) : Prop :=
  ∀ ⦃text value rest⦄, reader text = some (value, rest) →
    text = chars value ++ rest ∧ wellFormed value

theorem read_bind_eq_some {α β : Type} {first : Option (α × List Char)}
    {next : α × List Char → Option β} {b : β} :
    (first >>= next) = some b ↔ ∃ a rest, first = some (a, rest) ∧ next (a, rest) = some b := by
  rw [Option.bind_eq_bind, Option.bind_eq_some_iff, Prod.exists]

section Readers
variable {budget : Nat} (htypes : Faithful RefType.chars RefType.WellFormed (RefType.parse budget))
  (hsuffixes : Faithful ClassSuffix.chars ClassSuffix.WellFormed (ClassSuffix.parse budget))
  (hlists : Faithful TypeArguments.chars TypeArguments.WellFormed (TypeArguments.parse budget))

include htypes hsuffixes in
theorem faithful_types :
    Faithful RefType.chars RefType.WellFormed (RefType.parse (budget + 1)) := by
  intro text type rest h
  unfold RefType.parse at h
  split at h
  · split at h
    · rename_i name after hname
      cases h
      obtain ⟨rfl, hidentifier⟩ := takeName_eq hname
      exact ⟨by simp [RefType.chars], hidentifier⟩
    · cases h
  · rename_i text hbudget
    cases hbudget
    split at h
    · cases h
    · rename_i letter after
      split at h
      · rename_i element hletter
        cases h
        rw [Primitive.ofLetter?_eq_some_iff.mp hletter]
        exact ⟨rfl, trivial⟩
      · obtain ⟨element, rest, helement, h⟩ := read_bind_eq_some.mp h
        cases h
        obtain ⟨htext, hwell⟩ := htypes helement
        exact ⟨congrArg ('[' :: ·) htext, hwell⟩
  · rename_i text hbudget
    cases hbudget
    split at h
    · cases h
    · rename_i name after hempty hname
      obtain ⟨suffix, rest, hsuffix, h⟩ := read_bind_eq_some.mp h
      cases h
      obtain ⟨rfl, houter⟩ := takeName_eq hname
      obtain ⟨rfl, hwell⟩ := hsuffixes hsuffix
      refine ⟨by simp [RefType.chars], ⟨?_, houter⟩, hwell⟩
      rintro rfl
      exact hempty rfl
  · cases h

include hsuffixes hlists in
theorem faithful_suffixes :
    Faithful ClassSuffix.chars ClassSuffix.WellFormed (ClassSuffix.parse (budget + 1)) := by
  intro text suffix rest h
  unfold ClassSuffix.parse at h
  split at h
  · cases h
    exact ⟨rfl, trivial⟩
  · rename_i text hbudget
    cases hbudget
    cases hname : takeName endsIdentifier text with
    | mk name after =>
      rw [hname] at h
      obtain ⟨member, rest, hmember, h⟩ := read_bind_eq_some.mp h
      cases h
      obtain ⟨rfl, hidentifier⟩ := takeName_eq hname
      obtain ⟨rfl, hwell⟩ := hsuffixes hmember
      exact ⟨by simp [ClassSuffix.chars], hidentifier, hwell⟩
  · rename_i text hbudget
    cases hbudget
    obtain ⟨list, after, hlist, h⟩ := read_bind_eq_some.mp h
    obtain ⟨suffix, rest, hsuffix, h⟩ := read_bind_eq_some.mp h
    cases h
    obtain ⟨rfl, hwell⟩ := hlists hlist
    obtain ⟨rfl, hwell'⟩ := hsuffixes hsuffix
    exact ⟨by simp [ClassSuffix.chars], hwell, hwell'⟩
  · cases h

include htypes hlists in
theorem faithful_argument (bound : Option Bound) {text rest : List Char} {list : TypeArguments}
    (h : (do
      let (type, text) ← RefType.parse budget text
      let (list, rest) ← TypeArguments.parse budget text
      return (TypeArguments.type bound type list, rest)) = some (list, rest)) :
    bound.toList.map Bound.mark ++ text = list.chars ++ rest ∧ list.WellFormed := by
  obtain ⟨type, after, htype, h⟩ := read_bind_eq_some.mp h
  obtain ⟨list, rest, hlist, h⟩ := read_bind_eq_some.mp h
  cases h
  obtain ⟨rfl, hwell⟩ := htypes htype
  obtain ⟨rfl, hwell'⟩ := hlists hlist
  exact ⟨by simp [TypeArguments.chars], hwell, hwell'⟩

include htypes hlists in
theorem faithful_lists :
    Faithful TypeArguments.chars TypeArguments.WellFormed (TypeArguments.parse (budget + 1)) := by
  intro text list rest h
  unfold TypeArguments.parse at h
  split at h
  · cases h
    exact ⟨rfl, trivial⟩
  · rename_i text hbudget
    cases hbudget
    obtain ⟨list, rest, hlist, h⟩ := read_bind_eq_some.mp h
    cases h
    obtain ⟨rfl, hwell⟩ := hlists hlist
    exact ⟨rfl, hwell⟩
  · rename_i hbudget
    cases hbudget
    exact faithful_argument htypes hlists (some .upper) h
  · rename_i hbudget
    cases hbudget
    exact faithful_argument htypes hlists (some .lower) h
  · rename_i hbudget _ _ _ _
    cases hbudget
    exact faithful_argument htypes hlists none h
  · cases h

end Readers

/-- The readers of the trees are faithful, whatever their budget is. -/
theorem faithful_trees (budget : Nat) :
    Faithful RefType.chars RefType.WellFormed (RefType.parse budget) ∧
      Faithful ClassSuffix.chars ClassSuffix.WellFormed (ClassSuffix.parse budget) ∧
      Faithful TypeArguments.chars TypeArguments.WellFormed (TypeArguments.parse budget) := by
  induction budget with
  | zero =>
    refine ⟨?_, ?_, ?_⟩
    · intro text type rest h
      simp [RefType.parse] at h
    · intro text suffix rest h
      simp [ClassSuffix.parse] at h
    · intro text list rest h
      simp [TypeArguments.parse] at h
  | succ budget ih =>
    obtain ⟨htypes, hsuffixes, hlists⟩ := ih
    exact ⟨faithful_types htypes hsuffixes, faithful_suffixes hsuffixes hlists,
      faithful_lists htypes hlists⟩

theorem RefType.faithful_parse (budget : Nat) :
    Faithful RefType.chars RefType.WellFormed (RefType.parse budget) := (faithful_trees budget).1

namespace JavaType

theorem faithful_parse (budget : Nat) :
    Faithful JavaType.chars JavaType.WellFormed (JavaType.parse budget) := by
  intro text type rest h
  unfold JavaType.parse at h
  split at h
  · cases h
  · split at h
    · rename_i primitive hletter
      cases h
      rw [Primitive.ofLetter?_eq_some_iff.mp hletter]
      exact ⟨rfl, trivial⟩
    · obtain ⟨type, rest, htype, h⟩ := read_bind_eq_some.mp h
      cases h
      exact RefType.faithful_parse budget htype

end JavaType

theorem faithful_marked {mark : Char} {budget : Nat} {text rest : List Char}
    {types : List RefType} (h : parseMarked mark budget text = some (types, rest)) :
    text = (types.flatMap fun type => mark :: type.chars) ++ rest ∧
      (∀ type ∈ types, type.WellFormed) ∧ rest.head? ≠ some mark := by
  induction budget generalizing text types with
  | zero =>
    cases text with
    | nil =>
      cases h
      simp
    | cons => cases h
  | succ budget ih =>
    cases text with
    | nil =>
      cases h
      simp
    | cons c text =>
      rw [parseMarked] at h
      split at h
      · rename_i hmark
        subst hmark
        obtain ⟨type, after, htype, h⟩ := read_bind_eq_some.mp h
        obtain ⟨types, rest, htypes, h⟩ := read_bind_eq_some.mp h
        cases h
        obtain ⟨rfl, hwell⟩ := RefType.faithful_parse budget htype
        obtain ⟨rfl, hwells, hend⟩ := ih htypes
        exact ⟨by simp, List.forall_mem_cons.mpr ⟨hwell, hwells⟩, hend⟩
      · rename_i hmark
        cases h
        exact ⟨rfl, by simp, by simpa using hmark⟩

theorem faithful_parameterTypes {budget : Nat} {text rest : List Char} {types : List JavaType}
    (h : parseParameterTypes budget text = some (types, rest)) :
    text = types.flatMap JavaType.chars ++ ')' :: rest ∧ ∀ type ∈ types, type.WellFormed := by
  induction budget generalizing text types with
  | zero => cases h
  | succ budget ih =>
    unfold parseParameterTypes at h
    split at h
    · cases h
      simp
    · rename_i hbudget _
      cases hbudget
      obtain ⟨type, after, htype, h⟩ := read_bind_eq_some.mp h
      obtain ⟨types, rest, htypes, h⟩ := read_bind_eq_some.mp h
      cases h
      obtain ⟨rfl, hwell⟩ := JavaType.faithful_parse budget htype
      obtain ⟨rfl, hwells⟩ := ih htypes
      exact ⟨by simp, List.forall_mem_cons.mpr ⟨hwell, hwells⟩⟩
    · cases h

theorem faithful_refTypes {budget : Nat} {text : List Char} {types : List RefType}
    (h : parseRefTypes budget text = some types) :
    text = types.flatMap RefType.chars ∧ ∀ type ∈ types, type.WellFormed := by
  induction budget generalizing text types with
  | zero =>
    cases text with
    | nil =>
      cases h
      simp
    | cons => cases h
  | succ budget ih =>
    unfold parseRefTypes at h
    split at h
    · cases h
      simp
    · rename_i hbudget _
      cases hbudget
      obtain ⟨type, after, htype, h⟩ := read_bind_eq_some.mp h
      obtain ⟨types, htypes, h⟩ := Option.bind_eq_some_iff.mp h
      cases h
      obtain ⟨rfl, hwell⟩ := RefType.faithful_parse budget htype
      obtain ⟨rfl, hwells⟩ := ih htypes
      exact ⟨by simp, List.forall_mem_cons.mpr ⟨hwell, hwells⟩⟩
    · cases h

namespace TypeParameter

theorem faithful_parse {budget : Nat} {text rest : List Char} {parameter : TypeParameter}
    (h : TypeParameter.parse budget text = some (parameter, rest)) :
    text = parameter.chars ++ rest ∧ parameter.WellFormed ∧ rest.head? ≠ some ':' := by
  unfold TypeParameter.parse at h
  split at h
  · rename_i name text hname
    obtain ⟨bounds, rest, hbounds, h⟩ := read_bind_eq_some.mp h
    cases h
    obtain ⟨rfl, hidentifier⟩ := takeName_eq hname
    obtain ⟨htext, hwells, hend⟩ := faithful_marked hbounds
    refine ⟨?_, ⟨hidentifier, by simp, hwells, fun _ => ?_⟩, hend⟩
    · rw [htext]
      simp [chars]
    · rintro rfl
      rw [List.flatMap_nil, List.nil_append] at htext
      exact hend (htext ▸ rfl)
  · rename_i name text _ hname
    obtain ⟨bound, after, hbound, h⟩ := read_bind_eq_some.mp h
    obtain ⟨bounds, rest, hbounds, h⟩ := read_bind_eq_some.mp h
    cases h
    obtain ⟨rfl, hidentifier⟩ := takeName_eq hname
    obtain ⟨rfl, hwell⟩ := RefType.faithful_parse budget hbound
    obtain ⟨rfl, hwells, hend⟩ := faithful_marked hbounds
    exact ⟨by simp [chars], ⟨hidentifier, by simpa using hwell, hwells, by simp⟩, hend⟩
  · cases h

end TypeParameter

theorem faithful_typeParameters {budget : Nat} {text rest : List Char}
    {parameters : List TypeParameter}
    (h : parseTypeParameters budget text = some (parameters, rest)) :
    text = parameters.flatMap TypeParameter.chars ++ '>' :: rest ∧
      WellFormedParameters parameters ∧
      (text.head? ≠ some ':' → ∀ parameter ∈ parameters, parameter.name ≠ "") := by
  induction budget generalizing text parameters with
  | zero => cases h
  | succ budget ih =>
    unfold parseTypeParameters at h
    split at h
    · cases h
      exact ⟨rfl, ⟨by simp, by simp⟩, by simp⟩
    · rename_i hbudget _
      cases hbudget
      obtain ⟨parameter, after, hparameter, h⟩ := read_bind_eq_some.mp h
      obtain ⟨parameters, rest, hparameters, h⟩ := read_bind_eq_some.mp h
      cases h
      obtain ⟨rfl, hwell, hend⟩ := TypeParameter.faithful_parse hparameter
      obtain ⟨rfl, hwells, hnamed⟩ := ih hparameters
      refine ⟨by simp, ⟨List.forall_mem_cons.mpr ⟨hwell, hwells.wellFormed⟩, hnamed hend⟩,
        fun hhead => List.forall_mem_cons.mpr ⟨?_, hnamed hend⟩⟩
      intro hempty
      rw [TypeParameter.chars, hempty] at hhead
      exact hhead rfl
    · cases h

namespace SignatureBody

theorem faithful_result {budget : Nat} {text rest : List Char} {result : Option JavaType}
    (h : parseResult budget text = some (result, rest)) :
    text = result.elim ['V'] JavaType.chars ++ rest ∧ ∀ type ∈ result, type.WellFormed := by
  unfold parseResult at h
  split at h
  · cases h
    simp
  · obtain ⟨type, rest, htype, h⟩ := read_bind_eq_some.mp h
    cases h
    obtain ⟨rfl, hwell⟩ := JavaType.faithful_parse budget htype
    exact ⟨rfl, by simpa using hwell⟩

theorem faithful_parse {budget : Nat} {text : List Char} {body : SignatureBody}
    (h : SignatureBody.parse budget text = some body) : text = body.chars ∧ body.WellFormed := by
  unfold SignatureBody.parse at h
  split at h
  · obtain ⟨parameters, after, hparameters, h⟩ := read_bind_eq_some.mp h
    obtain ⟨result, after, hresult, h⟩ := read_bind_eq_some.mp h
    obtain ⟨throws, rest, hthrows, h⟩ := read_bind_eq_some.mp h
    split at h
    · rename_i hdone
      cases hdone
      cases h
      obtain ⟨rfl, hwells⟩ := faithful_parameterTypes hparameters
      obtain ⟨rfl, hwell⟩ := faithful_result hresult
      obtain ⟨rfl, hthrown, -⟩ := faithful_marked hthrows
      exact ⟨by simp [chars], hwells, hwell, hthrown⟩
    · cases h
  · obtain ⟨first, after, hfirst, h⟩ := read_bind_eq_some.mp h
    obtain ⟨types, htypes, h⟩ := Option.bind_eq_some_iff.mp h
    cases h
    obtain ⟨rfl, hwell⟩ := RefType.faithful_parse budget hfirst
    obtain ⟨rfl, hwells⟩ := faithful_refTypes htypes
    exact ⟨rfl, hwell, hwells⟩

end SignatureBody

namespace Signature

theorem faithful_parseWithin {budget : Nat} {text : List Char} {signature : Signature}
    (h : parseWithin budget text = some signature) :
    text = signature.chars ∧ signature.WellFormed := by
  unfold parseWithin at h
  split at h
  · obtain ⟨parameters, after, hparameters, h⟩ := read_bind_eq_some.mp h
    obtain ⟨body, hbody, h⟩ := Option.bind_eq_some_iff.mp h
    cases h
    obtain ⟨rfl, hwells, -⟩ := faithful_typeParameters hparameters
    obtain ⟨rfl, hwell⟩ := SignatureBody.faithful_parse hbody
    exact ⟨by simp [chars], by simpa using hwells, hwell⟩
  · obtain ⟨body, hbody, h⟩ := Option.bind_eq_some_iff.mp h
    cases h
    obtain ⟨rfl, hwell⟩ := SignatureBody.faithful_parse hbody
    exact ⟨rfl, by simp, hwell⟩

theorem faithful_parse {text : List Char} {signature : Signature}
    (h : parse text = some signature) : text = signature.chars ∧ signature.WellFormed :=
  faithful_parseWithin h

end Signature

end StaticCompanion
