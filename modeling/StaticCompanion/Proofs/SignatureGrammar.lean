import StaticCompanion.Proofs.SuccessiveRenaming

/-!
# The grammar of signatures

Signatures are told by their grammar, apart from the reader and its trees: which texts they are, and
what becomes of a text when the outer names of its class types are replaced and the rest is copied.
Every text of the grammar is renamed that way if each of its type parameters has a bound. The
grammar also has type parameters without one, and these the reader refuses or takes for something
else: the colon behind their names makes it look for a bound in what follows.
-/
namespace StaticCompanion

/-! ### Phrases -/

/-- A text with what becomes of it under a renaming of classes. -/
structure Phrase where
  text : List Char
  image : Renaming → List Char

namespace Phrase

/-- A text that is copied. -/
def kept (text : List Char) : Phrase := ⟨text, fun _ => text⟩

/-- The name of a class, which is replaced. -/
def className (name : String) : Phrase := ⟨name.toList, fun names => (names.apply name).toList⟩

instance : Append Phrase where
  append first second :=
    ⟨first.text ++ second.text, fun names => first.image names ++ second.image names⟩

/-- Phrases one behind the other. -/
def row (phrases : List Phrase) : Phrase := phrases.foldr (· ++ ·) (kept [])

variable (first second third : Phrase)

@[simp]
theorem text_append : (first ++ second).text = first.text ++ second.text := rfl

@[simp]
theorem image_append (names : Renaming) :
    (first ++ second).image names = first.image names ++ second.image names := rfl

@[simp]
theorem text_kept (text : List Char) : (kept text).text = text := rfl

@[simp]
theorem image_kept (text : List Char) (names : Renaming) : (kept text).image names = text := rfl

@[simp]
theorem row_nil : row [] = kept [] := rfl

@[simp]
theorem row_cons (phrases : List Phrase) : row (first :: phrases) = first ++ row phrases := rfl

theorem append_assoc : first ++ second ++ third = first ++ (second ++ third) := by
  change Phrase.mk _ _ = Phrase.mk _ _
  congr 1
  · exact List.append_assoc _ _ _
  · funext names
    exact List.append_assoc _ _ _

end Phrase

open Phrase

/-! ### The rules -/

/-- The characters that no name of the grammar holds. -/
def signatureMarks : List Char := ['.', ';', '[', '/', '<', '>', ':']

/-- A name of a type variable, of a package, or of a class in its package or in another class. -/
def IsSimpleName (name : String) : Prop :=
  name ≠ "" ∧ ∀ c ∈ name.toList, c ∉ signatureMarks

instance (name : String) : Decidable (IsSimpleName name) :=
  @instDecidableAnd _ _ inferInstance (List.decidableBAll _ _)

/-- The name of a class behind the names of the packages that it is in. -/
inductive IsQualifiedName : String → Prop
  | simple {name : String} (h : IsSimpleName name) : IsQualifiedName name
  | within {package name : String} (hpackage : IsSimpleName package) (h : IsQualifiedName name) :
    IsQualifiedName (package ++ "/" ++ name)

/-- The parts that signatures consist of. -/
inductive SignaturePart where
  | javaType | reference | classType | typeVariable
  /-- One type argument. -/
  | argument
  /-- The type arguments of a class in their brackets, or nothing. -/
  | arguments
  /-- The member classes behind a class type, or nothing. -/
  | members

inductive IsPart : SignaturePart → Phrase → Prop
  | primitive {c : Char} (h : c ∈ ['B', 'C', 'D', 'F', 'I', 'J', 'S', 'Z']) :
    IsPart .javaType (kept [c])
  | reference {p : Phrase} (h : IsPart .reference p) : IsPart .javaType p
  | classType {p : Phrase} (h : IsPart .classType p) : IsPart .reference p
  | typeVariable {p : Phrase} (h : IsPart .typeVariable p) : IsPart .reference p
  | array {element : Phrase} (h : IsPart .javaType element) :
    IsPart .reference (kept ['['] ++ element)
  | «variable» {name : String} (hname : IsSimpleName name) :
    IsPart .typeVariable (kept ('T' :: name.toList ++ [';']))
  | «class» {name : String} {arguments members : Phrase} (hname : IsQualifiedName name)
    (harguments : IsPart .arguments arguments) (hmembers : IsPart .members members) :
    IsPart .classType (kept ['L'] ++ className name ++ arguments ++ members ++ kept [';'])
  | noArguments : IsPart .arguments (kept [])
  | arguments {list : List Phrase} (hne : list ≠ []) (hlist : ∀ p ∈ list, IsPart .argument p) :
    IsPart .arguments (kept ['<'] ++ row list ++ kept ['>'])
  | wildcard : IsPart .argument (kept ['*'])
  | type {p : Phrase} (h : IsPart .reference p) : IsPart .argument p
  | bounded {mark : Char} {p : Phrase} (hmark : mark ∈ ['+', '-']) (h : IsPart .reference p) :
    IsPart .argument (kept [mark] ++ p)
  | noMembers : IsPart .members (kept [])
  | member {name : String} {arguments members : Phrase} (hname : IsSimpleName name)
    (harguments : IsPart .arguments arguments) (hmembers : IsPart .members members) :
    IsPart .members (kept ('.' :: name.toList) ++ arguments ++ members)

/-- A type parameter with a class bound, or none, and with interface bounds. -/
structure ParameterPhrase where
  name : String
  classBound : Option Phrase
  interfaceBounds : List Phrase

namespace ParameterPhrase

def phrase (parameter : ParameterPhrase) : Phrase :=
  kept (parameter.name.toList ++ [':']) ++ row parameter.classBound.toList ++
    row (parameter.interfaceBounds.map (kept [':'] ++ ·))

structure IsParameter (parameter : ParameterPhrase) : Prop where
  name : IsSimpleName parameter.name
  classBound : ∀ p ∈ parameter.classBound, IsPart .reference p
  interfaceBounds : ∀ p ∈ parameter.interfaceBounds, IsPart .reference p

/-- The parameter has a bound of one kind or the other. -/
def IsBounded (parameter : ParameterPhrase) : Prop :=
  parameter.classBound ≠ none ∨ parameter.interfaceBounds ≠ []

/-- Type parameters in their brackets, or nothing. -/
def listPhrase : List ParameterPhrase → Phrase
  | [] => kept []
  | parameters => kept ['<'] ++ row (parameters.map phrase) ++ kept ['>']

end ParameterPhrase

open ParameterPhrase

/-- The signatures of fields, of classes and of methods, with their type parameters. -/
inductive IsSignature : List ParameterPhrase → Phrase → Prop
  | field {type : Phrase} (htype : IsPart .reference type) : IsSignature [] type
  | «class» {parameters : List ParameterPhrase} {superclass : Phrase} {interfaces : List Phrase}
    (hparameters : ∀ p ∈ parameters, p.IsParameter) (hsuperclass : IsPart .classType superclass)
    (hinterfaces : ∀ p ∈ interfaces, IsPart .classType p) :
    IsSignature parameters (listPhrase parameters ++ (superclass ++ row interfaces))
  | method {parameters : List ParameterPhrase} {types thrown : List Phrase} {result : Phrase}
    (hparameters : ∀ p ∈ parameters, p.IsParameter) (htypes : ∀ p ∈ types, IsPart .javaType p)
    (hresult : result = kept ['V'] ∨ IsPart .javaType result)
    (hthrown : ∀ p ∈ thrown, IsPart .classType p ∨ IsPart .typeVariable p) :
    IsSignature parameters (listPhrase parameters ++ (kept ['('] ++ row types ++ kept [')'] ++
      result ++ row (thrown.map (kept ['^'] ++ ·))))

/-! ### Trees for phrases -/

/-- The tree is well formed, and the text and its image are written for it. -/
structure SpelledBy {α : Type} (chars : α → List Char) (rename : Renaming → α → α)
    (wellFormed : α → Prop) (tree : α) (phrase : Phrase) : Prop where
  wellFormed : wellFormed tree
  text : chars tree = phrase.text
  image : ∀ names, chars (rename names tree) = phrase.image names

abbrev RefType.Spells : RefType → Phrase → Prop :=
  SpelledBy RefType.chars RefType.rename RefType.WellFormed

abbrev JavaType.Spells : JavaType → Phrase → Prop :=
  SpelledBy JavaType.chars JavaType.rename JavaType.WellFormed

abbrev ClassSuffix.Spells : ClassSuffix → Phrase → Prop :=
  SpelledBy ClassSuffix.chars ClassSuffix.rename ClassSuffix.WellFormed

abbrev TypeArguments.Spells : TypeArguments → Phrase → Prop :=
  SpelledBy TypeArguments.chars TypeArguments.rename TypeArguments.WellFormed

theorem endsIdentifier_iff {c : Char} : endsIdentifier c = true ↔ c ∈ signatureMarks := by
  simp [endsIdentifier, signatureMarks, or_assoc]

theorem IsSimpleName.isIdentifier {name : String} (h : IsSimpleName name) : IsIdentifier name := by
  intro c hc
  rw [← Bool.not_eq_true, endsIdentifier_iff]
  exact h.2 c hc

theorem IsSimpleName.exists_cons {name : String} (h : IsSimpleName name) :
    ∃ c text, name.toList = c :: text ∧ c ∉ signatureMarks ∧ ∀ d ∈ text, d ∉ signatureMarks := by
  obtain ⟨c, text, htext⟩ := List.exists_cons_of_ne_nil (mt String.toList_eq_nil_iff.mp h.1)
  have hplain := h.2
  rw [htext] at hplain
  exact ⟨c, text, htext, List.forall_mem_cons.mp hplain⟩

theorem IsQualifiedName.isOuterName {name : String} (h : IsQualifiedName name) :
    IsOuterName name := by
  have hsimple {name : String} (h : IsSimpleName name) :
      ∀ c ∈ name.toList, endsClassName c = false := by
    intro c hc
    have hplain := h.2 c hc
    simp only [signatureMarks, List.mem_cons, List.not_mem_nil, or_false, not_or] at hplain
    simp [endsClassName, hplain]
  induction h with
  | simple h => exact ⟨h.1, hsimple h⟩
  | @within package name hpackage h ih =>
    refine ⟨by simp, ?_⟩
    simp only [String.toList_append, List.forall_mem_append]
    exact ⟨⟨hsimple hpackage, List.forall_mem_singleton.mpr rfl⟩, ih.2⟩

/-- What a part stands for: a type, or what it puts in front of the rest of a list. -/
def SignaturePart.HasTree : SignaturePart → Phrase → Prop
  | .javaType, p => ∃ type : JavaType, type.Spells p
  | .reference, p | .classType, p | .typeVariable, p => ∃ type : RefType, type.Spells p
  | .argument, p => ∀ (rest : TypeArguments) (after : Phrase), rest.Spells after →
    ∃ list : TypeArguments, list.Spells (p ++ after)
  | .arguments, p | .members, p => ∀ (rest : ClassSuffix) (after : Phrase), rest.Spells after →
    ∃ suffix : ClassSuffix, suffix.Spells (p ++ after)

theorem TypeArguments.exists_spells {list : List Phrase}
    (h : ∀ p ∈ list, SignaturePart.argument.HasTree p) :
    ∃ tree : TypeArguments, tree.Spells (row list ++ kept ['>']) := by
  induction list with
  | nil => exact ⟨.done, trivial, rfl, fun _ => rfl⟩
  | cons p list ih =>
    obtain ⟨hp, hlist⟩ := List.forall_mem_cons.mp h
    obtain ⟨rest, hrest⟩ := ih hlist
    rw [row_cons, append_assoc]
    exact hp rest _ hrest

theorem IsPart.hasTree {part : SignaturePart} {p : Phrase} (h : IsPart part p) :
    part.HasTree p := by
  induction h with
  | @primitive c hc =>
    have hsome : (Primitive.ofLetter? c).isSome := by
      simp only [List.mem_cons, List.not_mem_nil, or_false] at hc
      rcases hc with rfl | rfl | rfl | rfl | rfl | rfl | rfl | rfl <;> rfl
    obtain ⟨type, htype⟩ := Option.isSome_iff_exists.mp hsome
    obtain rfl := Primitive.ofLetter?_eq_some_iff.mp htype
    exact ⟨.primitive type, trivial, rfl, fun _ => rfl⟩
  | reference _ ih =>
    obtain ⟨type, htype⟩ := ih
    exact ⟨.reference type, htype.wellFormed, htype.text, htype.image⟩
  | classType _ ih => exact ih
  | typeVariable _ ih => exact ih
  | array _ ih =>
    obtain ⟨element, hwell, htext, himage⟩ := ih
    cases element with
    | primitive type =>
      exact ⟨.primitiveArray type, trivial, congrArg ('[' :: ·) htext,
        fun names => congrArg ('[' :: ·) (himage names)⟩
    | reference type =>
      exact ⟨.array type, hwell, congrArg ('[' :: ·) htext,
        fun names => congrArg ('[' :: ·) (himage names)⟩
  | «variable» hname => exact ⟨.typeVariable _, hname.isIdentifier, rfl, fun _ => rfl⟩
  | @«class» name _ _ hname _ _ iharguments ihmembers =>
    have hdone : ClassSuffix.done.Spells (kept [';']) := ⟨trivial, rfl, fun _ => rfl⟩
    obtain ⟨members, hmembers⟩ := ihmembers .done _ hdone
    obtain ⟨suffix, hsuffix⟩ := iharguments members _ hmembers
    refine ⟨.object name suffix, ⟨hname.isOuterName, hsuffix.wellFormed⟩, ?_, fun names => ?_⟩
    · simp [RefType.chars, className, hsuffix.text]
    · simp [RefType.rename, RefType.chars, className, hsuffix.image]
  | noArguments =>
    intro rest after hrest
    exact ⟨rest, hrest⟩
  | arguments _ _ ih =>
    intro rest after hrest
    obtain ⟨list, hlist⟩ := TypeArguments.exists_spells ih
    refine ⟨.arguments list rest, ⟨hlist.wellFormed, hrest.wellFormed⟩, ?_, fun names => ?_⟩
    · simp [ClassSuffix.chars, hlist.text, hrest.text]
    · simp [ClassSuffix.rename, ClassSuffix.chars, hlist.image, hrest.image]
  | wildcard =>
    intro rest after hrest
    exact ⟨.wildcard rest, hrest.wellFormed, congrArg ('*' :: ·) hrest.text,
      fun names => congrArg ('*' :: ·) (hrest.image names)⟩
  | type _ ih =>
    intro rest after hrest
    obtain ⟨type, htype⟩ := ih
    refine ⟨.type none type rest, ⟨htype.wellFormed, hrest.wellFormed⟩, ?_, fun names => ?_⟩
    · simp [TypeArguments.chars, htype.text, hrest.text]
    · simp [TypeArguments.rename, TypeArguments.chars, htype.image, hrest.image]
  | @bounded mark _ hmark _ ih =>
    intro rest after hrest
    obtain ⟨type, htype⟩ := ih
    obtain ⟨bound, rfl⟩ : ∃ bound : Bound, bound.mark = mark := by
      rcases List.mem_pair.mp hmark with rfl | rfl
      · exact ⟨.upper, rfl⟩
      · exact ⟨.lower, rfl⟩
    refine ⟨.type (some bound) type rest, ⟨htype.wellFormed, hrest.wellFormed⟩, ?_,
      fun names => ?_⟩
    · simp [TypeArguments.chars, htype.text, hrest.text]
    · simp [TypeArguments.rename, TypeArguments.chars, htype.image, hrest.image]
  | noMembers =>
    intro rest after hrest
    exact ⟨rest, hrest⟩
  | @member name _ _ hname _ _ iharguments ihmembers =>
    intro rest after hrest
    obtain ⟨members, hmembers⟩ := ihmembers rest after hrest
    obtain ⟨suffix, hsuffix⟩ := iharguments members _ hmembers
    refine ⟨.member name suffix, ⟨hname.isIdentifier, hsuffix.wellFormed⟩, ?_, fun names => ?_⟩
    · simp [ClassSuffix.chars, hsuffix.text]
    · simp [ClassSuffix.rename, ClassSuffix.chars, hsuffix.image]

theorem exists_trees {α : Type} {chars : α → List Char} {rename : Renaming → α → α}
    {wellFormed : α → Prop} {phrases : List Phrase}
    (h : ∀ p ∈ phrases, ∃ tree, SpelledBy chars rename wellFormed tree p) :
    ∃ trees : List α, SpelledBy (List.flatMap chars) (fun names => List.map (rename names))
      (fun trees => ∀ tree ∈ trees, wellFormed tree) trees (row phrases) := by
  induction phrases with
  | nil => exact ⟨[], by simp, rfl, fun _ => rfl⟩
  | cons p phrases ih =>
    obtain ⟨⟨tree, htree⟩, hphrases⟩ := List.forall_mem_cons.mp h
    obtain ⟨trees, htrees⟩ := ih hphrases
    refine ⟨tree :: trees, List.forall_mem_cons.mpr ⟨htree.wellFormed, htrees.wellFormed⟩, ?_,
      fun names => ?_⟩
    · rw [List.flatMap_cons, htree.text, htrees.text]
      rfl
    · rw [List.map_cons, List.flatMap_cons, htree.image, htrees.image]
      rfl

theorem exists_markedTypes (mark : Char) {phrases : List Phrase}
    (h : ∀ p ∈ phrases, ∃ type : RefType, type.Spells p) :
    ∃ types : List RefType, SpelledBy (List.flatMap fun type => mark :: type.chars)
      (fun names => List.map (RefType.rename names)) (fun types => ∀ type ∈ types, type.WellFormed)
      types (row (phrases.map (kept [mark] ++ ·))) := by
  refine exists_trees fun p hp => ?_
  obtain ⟨p, hmem, rfl⟩ := List.mem_map.mp hp
  obtain ⟨type, hwell, htext, himage⟩ := h p hmem
  exact ⟨type, hwell, congrArg (mark :: ·) htext, fun names => congrArg (mark :: ·) (himage names)⟩

namespace ParameterPhrase
variable {parameter : ParameterPhrase} {parameters : List ParameterPhrase}

theorem IsParameter.exists_tree (h : parameter.IsParameter) (hbounded : parameter.IsBounded) :
    ∃ tree : TypeParameter, tree.name = parameter.name ∧
      SpelledBy TypeParameter.chars TypeParameter.rename TypeParameter.WellFormed tree
        parameter.phrase := by
  obtain ⟨name, classBound, interfaceBounds⟩ := parameter
  obtain ⟨bounds, hwells, htexts, himages⟩ :=
    exists_markedTypes ':' fun p hp => (h.interfaceBounds p hp).hasTree
  have hidentifier := h.name.isIdentifier
  cases classBound with
  | none =>
    have hsome : bounds ≠ [] := by
      rintro rfl
      obtain ⟨p, more, rfl⟩ := List.exists_cons_of_ne_nil (hbounded.resolve_left fun hne => hne rfl)
      cases htexts
    refine ⟨⟨name, none, bounds⟩, rfl, ⟨hidentifier, by simp, hwells, fun _ => hsome⟩, ?_,
      fun names => ?_⟩
    · simp [TypeParameter.chars, phrase, ← htexts]
    · simp [TypeParameter.chars, TypeParameter.rename, phrase, ← himages]
  | some p =>
    obtain ⟨bound, hwell, htext, himage⟩ := (h.classBound p rfl).hasTree
    refine ⟨⟨name, some bound, bounds⟩, rfl,
      ⟨hidentifier, by simpa using hwell, hwells, by simp⟩, ?_, fun names => ?_⟩
    · simp [TypeParameter.chars, phrase, ← htexts, ← htext]
    · simp [TypeParameter.chars, TypeParameter.rename, phrase, ← himages, ← himage]

theorem exists_parameterTrees (h : ∀ p ∈ parameters, p.IsParameter)
    (hbounded : ∀ p ∈ parameters, p.IsBounded) :
    ∃ trees : List TypeParameter, (∀ tree ∈ trees, tree.name ≠ "") ∧
      SpelledBy (List.flatMap TypeParameter.chars)
        (fun names => List.map (TypeParameter.rename names))
        (fun trees => ∀ tree ∈ trees, tree.WellFormed) trees (row (parameters.map phrase)) := by
  have htrees : ∀ p ∈ parameters.map phrase, ∃ tree : TypeParameter,
      SpelledBy TypeParameter.chars TypeParameter.rename
        (fun tree => tree.WellFormed ∧ tree.name ≠ "") tree p := by
    intro p hp
    obtain ⟨parameter, hmem, rfl⟩ := List.mem_map.mp hp
    obtain ⟨tree, hname, htree⟩ := (h parameter hmem).exists_tree (hbounded parameter hmem)
    exact ⟨tree, ⟨htree.wellFormed, hname ▸ (h parameter hmem).name.1⟩, htree.text, htree.image⟩
  obtain ⟨trees, hwells, htexts, himages⟩ := exists_trees htrees
  exact ⟨trees, fun tree hmem => (hwells tree hmem).2,
    ⟨fun tree hmem => (hwells tree hmem).1, htexts, himages⟩⟩

end ParameterPhrase

namespace Signature
variable {parameters : List ParameterPhrase} {phrase body : Phrase}

theorem exists_tree_of_body (tree : SignatureBody)
    (h : ∀ p ∈ parameters, p.IsParameter) (hbounded : ∀ p ∈ parameters, p.IsBounded)
    (hbody : SpelledBy SignatureBody.chars SignatureBody.rename SignatureBody.WellFormed tree
      body) :
    ∃ tree : Signature, SpelledBy Signature.chars Signature.rename Signature.WellFormed tree
      (listPhrase parameters ++ body) := by
  cases parameters with
  | nil => exact ⟨⟨none, tree⟩, ⟨by simp, hbody.wellFormed⟩, hbody.text, hbody.image⟩
  | cons parameter parameters =>
    obtain ⟨trees, hnamed, htrees⟩ := exists_parameterTrees h hbounded
    have hwell : WellFormedParameters trees :=
      ⟨htrees.wellFormed, fun tree hmem => hnamed tree (List.mem_of_mem_tail hmem)⟩
    refine ⟨⟨some trees, tree⟩, ⟨by simpa using hwell, hbody.wellFormed⟩, ?_, fun names => ?_⟩
    · simp only [Signature.chars, listPhrase, text_append, text_kept, Option.elim_some,
        htrees.text, hbody.text]
      rfl
    · simp only [Signature.chars, Signature.rename, listPhrase, image_append, image_kept,
        Option.map_some, Option.elim_some, htrees.image, hbody.image]
      rfl

/-- A signature whose type parameters all have bounds has a tree. -/
theorem exists_tree (h : IsSignature parameters phrase)
    (hbounded : ∀ p ∈ parameters, p.IsBounded) :
    ∃ tree : Signature, SpelledBy Signature.chars Signature.rename Signature.WellFormed tree
      phrase := by
  cases h with
  | field htype =>
    obtain ⟨type, htype⟩ := htype.hasTree
    refine ⟨⟨none, .types type []⟩, ⟨by simp, htype.wellFormed, by simp⟩, ?_, fun names => ?_⟩
    · simp [Signature.chars, SignatureBody.chars, htype.text]
    · simp [Signature.chars, SignatureBody.chars, Signature.rename, SignatureBody.rename,
        htype.image]
  | «class» hparameters hsuperclass hinterfaces =>
    obtain ⟨superclass, hsuper⟩ := hsuperclass.hasTree
    obtain ⟨interfaces, hinter⟩ := exists_trees fun p hp => (hinterfaces p hp).hasTree
    refine exists_tree_of_body (.types superclass interfaces) hparameters hbounded
      ⟨⟨hsuper.wellFormed, hinter.wellFormed⟩, ?_, fun names => ?_⟩
    · simp only [SignatureBody.chars, text_append, hsuper.text, hinter.text]
    · simp only [SignatureBody.chars, SignatureBody.rename, image_append, hsuper.image,
        hinter.image]
  | @method _ _ _ result hparameters htypes hresult hthrown =>
    obtain ⟨types, htypes⟩ := exists_trees fun p hp => (htypes p hp).hasTree
    obtain ⟨thrown, hthrown⟩ := exists_markedTypes '^' fun p hp =>
      (hthrown p hp).elim IsPart.hasTree IsPart.hasTree
    obtain ⟨type, hwell, htext, himage⟩ : ∃ type : Option JavaType,
        (∀ t ∈ type, t.WellFormed) ∧ type.elim ['V'] JavaType.chars = result.text ∧
          ∀ names, (type.map (JavaType.rename names)).elim ['V'] JavaType.chars =
            result.image names := by
      rcases hresult with rfl | hresult
      · exact ⟨none, by simp, rfl, fun _ => rfl⟩
      · obtain ⟨type, htype⟩ := hresult.hasTree
        exact ⟨some type, by simpa using htype.wellFormed, htype.text, htype.image⟩
    refine exists_tree_of_body (.method types type thrown) hparameters hbounded
      ⟨⟨htypes.wellFormed, hwell, hthrown.wellFormed⟩, ?_, fun names => ?_⟩
    · simp [SignatureBody.chars, htypes.text, htext, hthrown.text]
    · simp [SignatureBody.chars, SignatureBody.rename, htypes.image, himage, hthrown.image]

end Signature

/-! ### Names without a colon -/

section Colons
variable {names : Renaming} (hnames : ∀ name : String, ':' ∉ name.toList → names.apply name = name)

theorem IsSimpleName.no_colon {name : String} (h : IsSimpleName name) : ':' ∉ name.toList :=
  fun hmem => h.2 _ hmem (by decide)

theorem IsQualifiedName.no_colon {name : String} (h : IsQualifiedName name) :
    ':' ∉ name.toList := by
  induction h with
  | simple h => exact h.no_colon
  | within hpackage _ ih => simp [hpackage.no_colon, ih]

theorem image_row_of_unchanged {phrases : List Phrase}
    (h : ∀ p ∈ phrases, p.image names = p.text) :
    (row phrases).image names = (row phrases).text := by
  induction phrases with
  | nil => rfl
  | cons p phrases ih =>
    obtain ⟨hp, hphrases⟩ := List.forall_mem_cons.mp h
    rw [row_cons, image_append, text_append, hp, ih hphrases]

theorem image_marked_of_unchanged (mark : Char) {phrases : List Phrase}
    (h : ∀ p ∈ phrases, p.image names = p.text) :
    (row (phrases.map (kept [mark] ++ ·))).image names =
      (row (phrases.map (kept [mark] ++ ·))).text := by
  refine image_row_of_unchanged fun p hp => ?_
  obtain ⟨p, hmem, rfl⟩ := List.mem_map.mp hp
  exact congrArg (mark :: ·) (h p hmem)

include hnames

theorem IsPart.image_of_unchanged {part : SignaturePart} {p : Phrase} (h : IsPart part p) :
    p.image names = p.text := by
  induction h with
  | primitive | «variable» | noArguments | wildcard | noMembers => rfl
  | reference _ ih | classType _ ih | typeVariable _ ih | type _ ih => exact ih
  | array _ ih | bounded _ _ ih => exact congrArg (_ :: ·) ih
  | «class» hname _ _ iharguments ihmembers =>
    simp [className, hnames _ hname.no_colon, iharguments, ihmembers]
  | arguments _ _ ih => simp [image_row_of_unchanged ih]
  | member _ _ _ iharguments ihmembers => simp [iharguments, ihmembers]

theorem ParameterPhrase.image_of_unchanged {parameters : List ParameterPhrase}
    (h : ∀ p ∈ parameters, p.IsParameter) :
    (listPhrase parameters).image names = (listPhrase parameters).text := by
  have hphrase : ∀ p ∈ parameters.map phrase, p.image names = p.text := by
    intro p hp
    obtain ⟨parameter, hmem, rfl⟩ := List.mem_map.mp hp
    have hclass : ∀ p ∈ parameter.classBound.toList, p.image names = p.text := fun p hp =>
      ((h parameter hmem).classBound p (Option.mem_toList.mp hp)).image_of_unchanged hnames
    have hbounds : ∀ p ∈ parameter.interfaceBounds, p.image names = p.text := fun p hp =>
      ((h parameter hmem).interfaceBounds p hp).image_of_unchanged hnames
    simp only [phrase, image_append, text_append, image_kept, text_kept,
      image_row_of_unchanged hclass, image_marked_of_unchanged ':' hbounds]
  cases parameters with
  | nil => rfl
  | cons parameter parameters =>
    simp only [listPhrase, image_append, text_append, image_kept, text_kept,
      image_row_of_unchanged hphrase]

theorem IsSignature.image_of_unchanged {parameters : List ParameterPhrase} {phrase : Phrase}
    (h : IsSignature parameters phrase) : phrase.image names = phrase.text := by
  cases h with
  | field htype => exact htype.image_of_unchanged hnames
  | «class» hparameters hsuperclass hinterfaces =>
    have hrow := image_row_of_unchanged fun p hp => (hinterfaces p hp).image_of_unchanged hnames
    simp only [image_append, text_append, ParameterPhrase.image_of_unchanged hnames hparameters,
      hsuperclass.image_of_unchanged hnames, hrow]
  | @method _ _ _ result hparameters htypes hresult hthrown =>
    have hrow := image_row_of_unchanged fun p hp => (htypes p hp).image_of_unchanged hnames
    have hmarked := image_marked_of_unchanged '^' fun p hp => (hthrown p hp).elim
      (fun h => h.image_of_unchanged hnames) fun h => h.image_of_unchanged hnames
    have hkept : result.image names = result.text := by
      rcases hresult with rfl | hresult
      · rfl
      · exact hresult.image_of_unchanged hnames
    simp only [image_append, text_append, image_kept, text_kept,
      ParameterPhrase.image_of_unchanged hnames hparameters, hrow, hkept, hmarked]

end Colons

/-! ### Parameters without a bound -/

theorem mem_of_append_cons_eq {α : Type} {a b after more : List α} {x y : α} (hx : x ∉ b)
    (hne : x ≠ y) (h : a ++ x :: after = b ++ y :: more) : y ∈ a := by
  rcases List.append_eq_append_iff.mp h with ⟨middle, rfl, hmiddle⟩ | ⟨middle, rfl, hmiddle⟩
  · cases middle with
    | nil => exact absurd (List.cons.inj hmiddle).1 hne
    | cons z middle =>
      obtain ⟨rfl, -⟩ := List.cons.inj hmiddle
      exact absurd (List.mem_append_right _ List.mem_cons_self) hx
  · cases middle with
    | nil => exact absurd (List.cons.inj hmiddle).1.symm hne
    | cons z middle =>
      obtain ⟨rfl, -⟩ := List.cons.inj hmiddle
      exact List.mem_append_right _ List.mem_cons_self

/-- A name with a colon behind it is no type variable, and as a class it takes the colon in. -/
theorem RefType.exists_colon_of_parse {name : String} (hname : IsSimpleName name) {budget : Nat}
    {more rest : List Char} {type : RefType}
    (h : RefType.parse budget (name.toList ++ ':' :: more) = some (type, rest)) :
    ∃ name ∈ type.classNames, ':' ∈ name.toList := by
  obtain ⟨hchars, hwell⟩ := RefType.faithful_parse budget h
  obtain ⟨c, text, htext, hc, hplain⟩ := hname.exists_cons
  have hends {d : Char} (hd : d ∈ signatureMarks) : d ∉ text := fun hmem => hplain d hmem hd
  rw [htext, List.cons_append] at hchars
  cases type with
  | typeVariable «variable» =>
    have hbehind : «variable».toList ++ ';' :: rest = text ++ ':' :: more := by
      simpa [RefType.chars] using (List.cons.inj hchars).2.symm
    have hcolon := hwell _ (mem_of_append_cons_eq (hends (by decide)) (by decide) hbehind)
    cases hcolon
  | primitiveArray element =>
    obtain ⟨rfl, -⟩ := List.cons.inj hchars
    exact absurd (by decide) hc
  | array element =>
    obtain ⟨rfl, -⟩ := List.cons.inj hchars
    exact absurd (by decide) hc
  | object outer suffix =>
    obtain ⟨d, after, hsuffix, hd, hd'⟩ := suffix.chars_cons
    have hbehind : outer.toList ++ d :: (after ++ rest) = text ++ ':' :: more := by
      simpa [RefType.chars, hsuffix] using (List.cons.inj hchars).2.symm
    have hmark : d ∈ signatureMarks := endsIdentifier_iff.mp hd'
    have hne : d ≠ ':' := by
      rintro rfl
      cases hd
    exact ⟨outer, List.mem_cons_self, mem_of_append_cons_eq (hends hmark) hne hbehind⟩

namespace ParameterPhrase
variable {parameter : ParameterPhrase} {parameters : List ParameterPhrase}

theorem exists_text (parameter : ParameterPhrase) :
    ∃ more, parameter.phrase.text = parameter.name.toList ++ ':' :: more :=
  ⟨_, by simp [phrase]; rfl⟩

theorem text_of_not_bounded (h : ¬ parameter.IsBounded) :
    parameter.phrase.text = parameter.name.toList ++ [':'] := by
  obtain ⟨name, classBound, interfaceBounds⟩ := parameter
  simp only [IsBounded, not_or, ne_eq, not_not] at h
  obtain ⟨rfl, rfl⟩ := h
  simp [phrase]

theorem exists_following (parameters : List ParameterPhrase) (rest : List Char) :
    (row (parameters.map phrase)).text ++ '>' :: rest = '>' :: rest ∨
      ∃ next ∈ parameters, ∃ more,
        (row (parameters.map phrase)).text ++ '>' :: rest = next.name.toList ++ ':' :: more := by
  cases parameters with
  | nil => exact .inl rfl
  | cons next parameters =>
    obtain ⟨more, hmore⟩ := next.exists_text
    exact .inr ⟨next, List.mem_cons_self, _, by simp [hmore]; rfl⟩

theorem head?_following (h : ∀ p ∈ parameters, p.IsParameter) (rest : List Char) :
    ((row (parameters.map phrase)).text ++ '>' :: rest).head? ≠ some ':' := by
  rcases exists_following parameters rest with hend | ⟨next, hmem, more, hnext⟩
  · simp [hend]
  · obtain ⟨c, text, htext, hc, -⟩ := (h next hmem).name.exists_cons
    rw [hnext, htext]
    intro hcolon
    obtain rfl := Option.some.inj hcolon
    exact hc (by decide)

/-- Behind the colon of a parameter without a bound, the reader takes what follows for one. -/
theorem exists_colon_of_unbounded (h : parameter.IsParameter) (hun : ¬ parameter.IsBounded)
    (hothers : ∀ p ∈ parameters, p.IsParameter) {budget : Nat} {rest after : List Char}
    {tree : TypeParameter}
    (hparse : TypeParameter.parse budget (parameter.phrase.text ++
      ((row (parameters.map phrase)).text ++ '>' :: rest)) = some (tree, after)) :
    ∃ name ∈ tree.classNames, ':' ∈ name.toList := by
  have hhead := head?_following hothers rest
  have hfollowing := exists_following parameters rest
  generalize (row (parameters.map phrase)).text ++ '>' :: rest = following at *
  rw [text_of_not_bounded hun, List.append_assoc, List.singleton_append, TypeParameter.parse,
    takeName_append h.name.isIdentifier rfl] at hparse
  split at hparse
  · rename_i hname
    cases hname
    exact absurd rfl hhead
  · rename_i hname
    cases hname
    obtain ⟨bound, text, hbound, hparse⟩ := read_bind_eq_some.mp hparse
    obtain ⟨bounds, text', -, hparse⟩ := read_bind_eq_some.mp hparse
    cases hparse
    rcases hfollowing with rfl | ⟨next, hmem, more, rfl⟩
    · cases budget <;> cases hbound
    · obtain ⟨name, hname, hcolon⟩ := RefType.exists_colon_of_parse (hothers next hmem).name hbound
      exact ⟨name, List.mem_append_left _ hname, hcolon⟩
  · cases hparse

/-- Where a parameter without a bound is read at all, it is read with a class that the grammar does
not have. -/
theorem exists_colon_of_parse (h : ∀ p ∈ parameters, p.IsParameter)
    (hun : ∃ p ∈ parameters, ¬ p.IsBounded) {budget : Nat} {rest after : List Char}
    {trees : List TypeParameter}
    (hbudget : 2 * (row (parameters.map phrase)).text.length < budget)
    (hparse : parseTypeParameters budget ((row (parameters.map phrase)).text ++ '>' :: rest) =
      some (trees, after)) :
    ∃ name ∈ trees.flatMap TypeParameter.classNames, ':' ∈ name.toList := by
  induction parameters generalizing budget trees with
  | nil => simp at hun
  | cons parameter parameters ih =>
    obtain ⟨hparameter, hothers⟩ := List.forall_mem_cons.mp h
    obtain ⟨budget, rfl⟩ := Nat.exists_eq_add_one_of_ne_zero (Nat.ne_zero_of_lt hbudget)
    rw [List.map_cons, row_cons, text_append] at hbudget hparse
    rw [List.append_assoc] at hparse
    unfold parseTypeParameters at hparse
    split at hparse
    · rename_i hname
      obtain ⟨more, hmore⟩ := parameter.exists_text
      obtain ⟨c, text, htext, hc, -⟩ := hparameter.name.exists_cons
      rw [hmore, htext] at hname
      obtain ⟨rfl, -⟩ := List.cons.inj hname
      exact absurd (by decide) hc
    · rename_i hbudget' _
      cases hbudget'
      obtain ⟨tree, text, hfirst, hparse⟩ := read_bind_eq_some.mp hparse
      obtain ⟨trees, text', hrest, hparse⟩ := read_bind_eq_some.mp hparse
      cases hparse
      by_cases hbounded : parameter.IsBounded
      · obtain ⟨tree', -, htree⟩ := hparameter.exists_tree hbounded
        rw [← htree.text, List.length_append] at hbudget
        have hread := TypeParameter.parse_chars budget htree.wellFormed (by omega)
          (head?_following hothers rest)
        rw [htree.text, hfirst] at hread
        cases hread
        have hun' : ∃ p ∈ parameters, ¬ p.IsBounded := by
          obtain ⟨p, hmem, hp⟩ := hun
          rcases List.mem_cons.mp hmem with rfl | hmem
          · exact absurd hbounded hp
          · exact ⟨p, hmem, hp⟩
        have hlen : 0 < tree.chars.length := by
          obtain ⟨more, hmore⟩ := parameter.exists_text
          rw [htree.text, hmore, List.length_append, List.length_cons]
          omega
        obtain ⟨name, hname, hcolon⟩ := ih hothers hun' (by omega) hrest
        exact ⟨name, List.mem_append_right _ hname, hcolon⟩
      · obtain ⟨name, hname, hcolon⟩ :=
          exists_colon_of_unbounded hparameter hbounded hothers hfirst
        exact ⟨name, List.mem_append_left _ hname, hcolon⟩
    · cases hparse

end ParameterPhrase

namespace Signature
variable {parameters : List ParameterPhrase} {phrase : Phrase}

theorem exists_colon_of_parse (h : IsSignature parameters phrase)
    (hun : ∃ p ∈ parameters, ¬ p.IsBounded) {tree : Signature}
    (hparse : parse phrase.text = some tree) : ∃ name ∈ tree.classNames, ':' ∈ name.toList := by
  obtain ⟨hparameters, body, hbody⟩ : (∀ p ∈ parameters, p.IsParameter) ∧
      ∃ body : Phrase, phrase = listPhrase parameters ++ body := by
    cases h with
    | field => simp at hun
    | «class» hparameters => exact ⟨hparameters, _, rfl⟩
    | method hparameters => exact ⟨hparameters, _, rfl⟩
  obtain ⟨parameter, more, rfl⟩ := List.exists_cons_of_ne_nil (l := parameters) <| by
    rintro rfl
    simp at hun
  have htext : phrase.text =
      '<' :: ((row ((parameter :: more).map ParameterPhrase.phrase)).text ++ '>' :: body.text) := by
    simp [hbody, listPhrase]
  rw [htext, parse] at hparse
  generalize hbudget : 2 * List.length _ + 1 = budget at hparse
  simp only [List.length_cons, List.length_append] at hbudget
  obtain ⟨trees, text, htrees, hparse⟩ := read_bind_eq_some.mp hparse
  obtain ⟨body, -, hparse⟩ := Option.bind_eq_some_iff.mp hparse
  cases hparse
  obtain ⟨name, hname, hcolon⟩ :=
    ParameterPhrase.exists_colon_of_parse hparameters hun (by omega) htrees
  exact ⟨name, List.mem_append_left _ hname, hcolon⟩

/-- A signature of the grammar is renamed, class by class and without any other change, exactly if
each of its type parameters has a bound. -/
theorem renameText_exact_iff (h : IsSignature parameters phrase) :
    (∀ names, renameText names (String.ofList phrase.text) =
      .ok (String.ofList (phrase.image names))) ↔ ∀ p ∈ parameters, p.IsBounded := by
  constructor
  · intro hrenames
    by_contra hall
    have hun : ∃ p ∈ parameters, ¬ p.IsBounded := by simpa using hall
    obtain ⟨tree, htree, -⟩ := renameText_eq_ok.mp (hrenames fun _ => none)
    rw [String.toList_ofList] at htree
    obtain ⟨hchars, hwell⟩ := faithful_parse htree
    obtain ⟨name, hmem, hcolon⟩ := exists_colon_of_parse h hun htree
    have hsame : phrase.image (renamingOf name "A") = phrase.text := by
      refine h.image_of_unchanged fun other hother => ?_
      have hne : other ≠ name := fun hsame => hother (hsame ▸ hcolon)
      simp [Renaming.apply, renamingOf, hne]
    have hnames : ∀ old new, renamingOf name "A" old = some new → IsOuterName new := by
      intro old new hnew
      obtain ⟨-, rfl⟩ := renamingOf_eq_some.mp hnew
      decide
    -- Only the class with the colon is renamed, so the text must stay, but its tree does not.
    obtain ⟨tree', htree', hrender⟩ := renameText_eq_ok.mp (hrenames (renamingOf name "A"))
    rw [String.toList_ofList, htree] at htree'
    obtain rfl := Option.some.inj htree'
    rw [hsame] at hrender
    have hfixed : tree.rename (renamingOf name "A") = tree := by
      have hagain := parse_chars (hwell.rename hnames)
      rw [← String.ofList_injective hrender, htree] at hagain
      exact (Option.some.inj hagain).symm
    have hclasses : tree.classNames.map (Renaming.apply (renamingOf name "A")) =
        tree.classNames.map id := by rw [← classNames_rename, hfixed, List.map_id]
    have happly : Renaming.apply (renamingOf name "A") name = name :=
      List.map_inj_left.mp hclasses name hmem
    rw [Renaming.apply, renamingOf, if_pos rfl, Option.getD_some] at happly
    rw [← happly] at hcolon
    exact absurd hcolon (by decide)
  · intro hbounded names
    obtain ⟨tree, hwell, htext, himage⟩ := exists_tree h hbounded
    rw [← htext, ← himage]
    exact renameText_render hwell names

/-- The phrase of a class of a package that is not generic. -/
def plainClass (package name : String) : Phrase :=
  kept ['L'] ++ className (package ++ "/" ++ name) ++ kept [] ++ kept [] ++ kept [';']

theorem isPart_plainClass {package name : String} (hpackage : IsSimpleName package)
    (hname : IsSimpleName name) : IsPart .classType (plainClass package name) :=
  .class (.within hpackage (.simple hname)) .noArguments .noMembers

/-- A type parameter with a bound of each kind. -/
def boundedParameters : List ParameterPhrase :=
  [⟨"T", some (plainClass "p" "Old"), []⟩,
    ⟨"U", none, [kept ['L'] ++ className ("q" ++ "/" ++ "I") ++
      (kept ['<'] ++ row [kept ['-'] ++ kept ['T', 'T', ';']] ++ kept ['>']) ++ kept [] ++
        kept [';']]⟩]

/-- A superclass with arguments, and with a member class that has the name of a renamed class. -/
def genericSuperclass : Phrase :=
  kept ['L'] ++ className ("p" ++ "/" ++ "Base") ++
    (kept ['<'] ++ row [plainClass "p" "Old", kept ['*']] ++ kept ['>']) ++
    (kept ('.' :: "Old".toList) ++ (kept ['<'] ++ row [kept ['['] ++ kept ['I']] ++ kept ['>']) ++
      kept []) ++ kept [';']

theorem isSignature_generic : IsSignature boundedParameters
    (listPhrase boundedParameters ++ (genericSuperclass ++ row [])) := by
  have hnames : ∀ name ∈ ["p", "q", "T", "U", "I", "Base", "Old"], IsSimpleName name := by
    decide +kernel
  have hold : IsPart .classType (plainClass "p" "Old") :=
    isPart_plainClass (hnames _ (by simp)) (hnames _ (by simp))
  have hlower : ∀ p ∈ [kept ['-'] ++ kept ['T', 'T', ';']], IsPart .argument p := by
    rintro p hp
    obtain rfl := List.mem_singleton.mp hp
    exact .bounded (by decide) (.typeVariable (.variable (hnames "T" (by simp))))
  have hints : ∀ p ∈ [kept ['['] ++ kept ['I']], IsPart .argument p := by
    rintro p hp
    obtain rfl := List.mem_singleton.mp hp
    exact .type (.array (.primitive (by decide)))
  have harguments : ∀ p ∈ [plainClass "p" "Old", kept ['*']], IsPart .argument p := by
    rintro p hp
    rcases List.mem_pair.mp hp with rfl | rfl
    · exact .type (.classType hold)
    · exact .wildcard
  refine .class ?_ ?_ (by simp)
  · rintro p hp
    rcases List.mem_pair.mp hp with rfl | rfl
    · exact ⟨hnames _ (by simp), by simpa using .classType hold, by simp⟩
    · refine ⟨hnames _ (by simp), by simp, ?_⟩
      rintro p hp
      obtain rfl := List.mem_singleton.mp hp
      exact .classType (.class (.within (hnames _ (by simp)) (.simple (hnames _ (by simp))))
        (.arguments (by simp) hlower) .noMembers)
  · exact .class (.within (hnames _ (by simp)) (.simple (hnames _ (by simp))))
      (.arguments (by simp) harguments)
      (.member (hnames _ (by simp)) (.arguments (by simp) hints) .noMembers)

theorem renameText_exact_of_generic :
    (∀ p ∈ boundedParameters, p.IsBounded) ∧
    renameText (renamingOf "p/Old" "New")
      "<T:Lp/Old;U::Lq/I<-TT;>;>Lp/Base<Lp/Old;*>.Old<[I>;" =
        .ok "<T:LNew;U::Lq/I<-TT;>;>Lp/Base<LNew;*>.Old<[I>;" := by
  have hbounded : ∀ p ∈ boundedParameters, p.IsBounded := by
    rintro p hp
    rcases List.mem_pair.mp hp with rfl | rfl
    · exact .inl (by simp)
    · exact .inr (by simp)
  have hrenamed := (renameText_exact_iff isSignature_generic).mpr hbounded
    (renamingOf "p/Old" "New")
  exact ⟨hbounded, hrenamed⟩

/-- A type parameter without a bound is refused, although the grammar has it. -/
theorem renameText_refuses_unbounded :
    ∃ phrase, IsSignature [⟨"T", none, []⟩] phrase ∧
      String.ofList phrase.text = "<T:>Lp/Base;" ∧
      String.ofList (phrase.image fun _ => none) = "<T:>Lp/Base;" ∧
      renameText (fun _ => none) "<T:>Lp/Base;" = .error ⟨"<T:>Lp/Base;"⟩ := by
  refine ⟨listPhrase [⟨"T", none, []⟩] ++ (plainClass "p" "Base" ++ row []), ?_, ?_, ?_, ?_⟩
  · refine .class ?_ (isPart_plainClass (by decide +kernel) (by decide +kernel)) (by simp)
    rintro p hp
    obtain rfl := List.mem_singleton.mp hp
    exact ⟨by decide +kernel, by simp, by simp⟩
  · decide +kernel
  · decide +kernel
  · have hnone : parse "<T:>Lp/Base;".toList = none :=
      Option.isNone_iff_eq_none.mp (by decide +kernel)
    rw [renameText, hnone]

end Signature

end StaticCompanion
