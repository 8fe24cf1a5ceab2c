import StaticCompanion.Proofs.SignatureWriting

/-!
# Renaming signatures one after the other

Whether a signature can be read does not depend on the renaming, and a renaming that changes no
name gives the text back. Renamings that follow each other do what one renaming does, if the names
that the first one gives can stand for a class in a signature: then what the first one has written
is read as the tree that it was written for.
-/
namespace StaticCompanion

instance (name : String) : Decidable (IsOuterName name) :=
  @instDecidableAnd _ _ inferInstance (List.decidableBAll _ _)

/-- What two renamings make of a name, one after the other. -/
def Renaming.andThen (first second : Renaming) : Renaming := fun name =>
  match first name with
  | some middle => some (second.apply middle)
  | none => second name

theorem Renaming.apply_andThen (first second : Renaming) (name : String) :
    (first.andThen second).apply name = second.apply (first.apply name) := by
  rw [apply, apply.eq_def first, andThen]
  cases first name <;> rfl

/-- The renaming of one class. -/
def renamingOf (old new : String) : Renaming := fun name => if name = old then some new else none

theorem renamingOf_eq_some {old new name image : String} :
    renamingOf old new name = some image ↔ name = old ∧ new = image := by
  simp [renamingOf]

section Trees
variable {first second both : Renaming}

mutual

theorem RefType.rename_rename (h : ∀ name, second.apply (first.apply name) = both.apply name) :
    ∀ type : RefType, (type.rename first).rename second = type.rename both
  | .typeVariable _ => rfl
  | .primitiveArray _ => rfl
  | .array element => congrArg RefType.array (RefType.rename_rename h element)
  | .object name suffix => by
    rw [RefType.rename, RefType.rename, RefType.rename, h, ClassSuffix.rename_rename h suffix]

theorem ClassSuffix.rename_rename (h : ∀ name, second.apply (first.apply name) = both.apply name) :
    ∀ suffix : ClassSuffix, (suffix.rename first).rename second = suffix.rename both
  | .done => rfl
  | .member name rest => congrArg (ClassSuffix.member name) (ClassSuffix.rename_rename h rest)
  | .arguments list rest =>
    congrArg₂ ClassSuffix.arguments (TypeArguments.rename_rename h list)
      (ClassSuffix.rename_rename h rest)

theorem TypeArguments.rename_rename
    (h : ∀ name, second.apply (first.apply name) = both.apply name) :
    ∀ list : TypeArguments, (list.rename first).rename second = list.rename both
  | .done => rfl
  | .wildcard rest => congrArg TypeArguments.wildcard (TypeArguments.rename_rename h rest)
  | .type bound type rest =>
    congrArg₂ (TypeArguments.type bound) (RefType.rename_rename h type)
      (TypeArguments.rename_rename h rest)

end

variable (h : ∀ name, second.apply (first.apply name) = both.apply name)
include h

theorem map_rename_rename (types : List RefType) :
    (types.map (RefType.rename first)).map (RefType.rename second) =
      types.map (RefType.rename both) := by
  rw [List.map_map]
  exact List.map_congr_left fun type _ => type.rename_rename h

theorem JavaType.rename_rename (type : JavaType) :
    (type.rename first).rename second = type.rename both := by
  cases type with
  | primitive type => rfl
  | reference type => exact congrArg JavaType.reference (type.rename_rename h)

theorem TypeParameter.rename_rename (parameter : TypeParameter) :
    (parameter.rename first).rename second = parameter.rename both := by
  obtain ⟨name, classBound, bounds⟩ := parameter
  have hbounds := map_rename_rename h bounds
  cases classBound with
  | none => simp only [TypeParameter.rename, Option.map_none, hbounds]
  | some bound => simp only [TypeParameter.rename, Option.map_some, hbounds, bound.rename_rename h]

theorem SignatureBody.rename_rename (body : SignatureBody) :
    (body.rename first).rename second = body.rename both := by
  cases body with
  | method parameters result throws =>
    have hparameters : (parameters.map (JavaType.rename first)).map (JavaType.rename second) =
        parameters.map (JavaType.rename both) := by
      rw [List.map_map]
      exact List.map_congr_left fun type _ => type.rename_rename h
    have hresult : (result.map (JavaType.rename first)).map (JavaType.rename second) =
        result.map (JavaType.rename both) := by
      rw [Option.map_map]
      exact Option.map_congr fun type _ => type.rename_rename h
    simp only [SignatureBody.rename, hparameters, hresult, map_rename_rename h throws]
  | types type rest =>
    simp only [SignatureBody.rename, type.rename_rename h, map_rename_rename h rest]

theorem Signature.rename_rename (signature : Signature) :
    (signature.rename first).rename second = signature.rename both := by
  obtain ⟨parameters, body⟩ := signature
  have hparameters : (parameters.map (List.map (TypeParameter.rename first))).map
      (List.map (TypeParameter.rename second)) =
        parameters.map (List.map (TypeParameter.rename both)) := by
    rw [Option.map_map]
    refine Option.map_congr fun list _ => ?_
    rw [Function.comp_apply, List.map_map]
    exact List.map_congr_left fun parameter _ => parameter.rename_rename h
  simp only [Signature.rename, hparameters, body.rename_rename h]

end Trees

namespace Signature
variable {names first second : Renaming} {text renamed : String}

theorem rename_of_unchanged (h : ∀ name, names.apply name = name) (signature : Signature) :
    signature.rename names = signature := by
  have hnone : signature.rename (fun _ => none) = signature := rename_eq_self fun _ _ => rfl
  have hagain : (signature.rename fun _ => none).rename names = signature.rename fun _ => none :=
    rename_rename (fun name => h name) signature
  rwa [hnone] at hagain

theorem renameText_eq_ok : renameText names text = .ok renamed ↔
    ∃ tree, parse text.toList = some tree ∧ renamed = (tree.rename names).render := by
  unfold renameText
  split
  · rename_i tree htree
    simp [htree, eq_comm]
  · rename_i hnone
    simp [hnone]

theorem render_of_parse {tree : Signature} (h : parse text.toList = some tree) :
    tree.render = text := by
  rw [render, ← (faithful_parse h).1, String.ofList_toList]

/-- What is written for a well-formed tree is renamed as the tree is. -/
theorem renameText_render {tree : Signature} (hwell : tree.WellFormed) (names : Renaming) :
    renameText names tree.render = .ok (tree.rename names).render := by
  rw [renameText_eq_ok]
  refine ⟨tree, ?_, rfl⟩
  rw [render, String.toList_ofList, parse_chars hwell]

/-- Renaming signatures is a homomorphism: all renamings accept the same texts, one that changes no
name changes no text, and two that follow each other give what both of them give at once. -/
theorem renameText_homomorphic (first second : Renaming) (text : String) :
    ((∃ renamed, renameText first text = .ok renamed) ↔
      ∃ renamed, renameText second text = .ok renamed) ∧
    ((∀ name, first.apply name = name) →
      ∀ renamed, renameText first text = .ok renamed → renamed = text) ∧
    ((∀ old new, first old = some new → IsOuterName new) →
      (renameText first text >>= renameText second) = renameText (first.andThen second) text) := by
  refine ⟨?_, fun hsame renamed hrename => ?_, fun hnames => ?_⟩
  · simp only [renameText_eq_ok, exists_comm (α := String), exists_and_left, exists_eq, and_true]
  · obtain ⟨tree, htree, rfl⟩ := renameText_eq_ok.mp hrename
    rw [rename_of_unchanged hsame, render_of_parse htree]
  · cases htree : parse text.toList with
    | none => simp only [renameText, htree, bind, Except.bind]
    | some tree =>
      have hwell := (faithful_parse htree).2.rename hnames
      have hboth := rename_rename (fun name => (first.apply_andThen second name).symm) tree
      have hfirst : renameText first text = .ok (tree.rename first).render :=
        renameText_eq_ok.mpr ⟨tree, htree, rfl⟩
      calc
        (renameText first text >>= renameText second) =
            renameText second (tree.rename first).render := by rw [hfirst]; rfl
        _ = .ok (tree.rename (first.andThen second)).render := by
            rw [renameText_render hwell, hboth]
        _ = renameText (first.andThen second) text :=
            (renameText_eq_ok.mpr ⟨tree, htree, rfl⟩).symm

/-- The class of a bound and of an argument is renamed twice; the type variable and the member class
have its names and stay. -/
def renamedText : String := "<Old:LOld;>Lp/Base<-LOld;*>.Old<TOld;>;"

theorem renameText_homomorphic_of_chain :
    renameText (fun _ => none) renamedText = .ok renamedText ∧
    (∃ renamed, renameText (renamingOf "Old" "q/Mid") renamedText = .ok renamed) ∧
    (renameText (renamingOf "Old" "q/Mid") renamedText >>= renameText (renamingOf "q/Mid" "New")) =
      .ok "<Old:LNew;>Lp/Base<-LNew;*>.Old<TOld;>;" := by
  have hread : (parse renamedText.toList).isSome = true := by decide +kernel
  obtain ⟨tree, htree⟩ := Option.isSome_iff_exists.mp hread
  have hplain : renameText (fun _ => none) renamedText = .ok (tree.rename fun _ => none).render :=
    renameText_eq_ok.mpr ⟨tree, htree, rfl⟩
  obtain ⟨hiff, hsame, -⟩ :=
    renameText_homomorphic (fun _ => none) (renamingOf "Old" "q/Mid") renamedText
  obtain ⟨-, -, hboth⟩ :=
    renameText_homomorphic (renamingOf "Old" "q/Mid") (renamingOf "q/Mid" "New") renamedText
  have hnames : ∀ old new, renamingOf "Old" "q/Mid" old = some new → IsOuterName new := by
    intro old new hnew
    obtain ⟨-, rfl⟩ := renamingOf_eq_some.mp hnew
    decide
  have hresult : (renameText ((renamingOf "Old" "q/Mid").andThen (renamingOf "q/Mid" "New"))
      renamedText).toOption = some "<Old:LNew;>Lp/Base<-LNew;*>.Old<TOld;>;" := by decide +kernel
  refine ⟨?_, hiff.mp ⟨_, hplain⟩, (hboth hnames).trans (toOption_eq_some.mp hresult)⟩
  rw [hsame (fun _ => rfl) _ hplain] at hplain
  exact hplain

end Signature

end StaticCompanion
