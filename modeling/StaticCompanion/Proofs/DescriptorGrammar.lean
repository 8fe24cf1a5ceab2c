import StaticCompanion.Proofs.Descriptors

/-!
# The grammar of descriptors

A text is a descriptor by its form alone, and the readers accept just the texts of that form. What
they read is written as the text again, and a text they refuse is reported whole. A name may hold
any characters but the semicolon that ends it, brackets and parentheses among them; still no text
is a row of descriptors in two ways.
-/
namespace StaticCompanion

/-- What stands behind the brackets of a field descriptor. -/
inductive IsBaseDescriptor : List Char → Prop
  | letter {c : Char} (h : c ∈ ['Z', 'C', 'F', 'D', 'B', 'S', 'I', 'J']) : IsBaseDescriptor [c]
  | name {name : List Char} (hne : name ≠ []) (hplain : ';' ∉ name) :
    IsBaseDescriptor ('L' :: name ++ [';'])

def IsFieldDescriptor (text : List Char) : Prop :=
  ∃ (depth : Nat) (base : List Char),
    IsBaseDescriptor base ∧ text = List.replicate depth '[' ++ base

def IsMethodDescriptor (text : List Char) : Prop :=
  ∃ (parts : List (List Char)) (result : List Char), (∀ part ∈ parts, IsFieldDescriptor part) ∧
    (result = ['V'] ∨ IsFieldDescriptor result) ∧ text = '(' :: parts.flatten ++ ')' :: result

/-- A reader of whole texts accepts those of a form, and reads what has been written. -/
structure ReadsExactly {α : Type} (read : String → Except InvalidDescriptor α)
    (write : α → String) (classNames : α → List String) (form : List Char → Prop) : Prop where
  accepts : ∀ text, (∃ a, read text = .ok a) ↔ form text.toList
  writes : ∀ text a, read text = .ok a → write a = text
  refuses : ∀ text fault, read text = .error fault → fault = ⟨text⟩
  reads : ∀ a, (∀ name ∈ classNames a, IsObjectName name) → read (write a) = .ok a

namespace FieldType
variable {type : FieldType}

theorem isFieldDescriptor_chars (h : ∀ name ∈ type.classNames, IsObjectName name) :
    IsFieldDescriptor type.chars := by
  induction type with
  | primitive type =>
    have hletter : type.letter ∈ ['Z', 'C', 'F', 'D', 'B', 'S', 'I', 'J'] := by
      cases type <;> simp [Primitive.letter]
    exact ⟨0, _, .letter hletter, rfl⟩
  | object name =>
    obtain ⟨hne, hplain⟩ := h name List.mem_cons_self
    have hchars : name.toList ≠ [] := by simpa using hne
    exact ⟨0, _, .name hchars hplain, rfl⟩
  | array element ih =>
    obtain ⟨depth, base, hbase, hchars⟩ := ih h
    exact ⟨depth + 1, base, hbase, by rw [chars, hchars, List.replicate_succ, List.cons_append]⟩

theorem exists_of_isBaseDescriptor {base : List Char} (h : IsBaseDescriptor base) :
    ∃ type : FieldType, (∀ name ∈ type.classNames, IsObjectName name) ∧ type.chars = base := by
  cases h with
  | @letter c hc =>
    have hsome : (Primitive.ofLetter? c).isSome := by
      simp only [List.mem_cons, List.not_mem_nil, or_false] at hc
      rcases hc with rfl | rfl | rfl | rfl | rfl | rfl | rfl | rfl <;> rfl
    obtain ⟨letter, hletter⟩ := Option.isSome_iff_exists.mp hsome
    have hc' := Primitive.ofLetter?_eq_some_iff.mp hletter
    exact ⟨.primitive letter, by simp [classNames], by rw [chars, hc']⟩
  | @name name hne hplain =>
    have hname : IsObjectName (String.ofList name) := by
      simpa [IsObjectName] using And.intro hne hplain
    exact ⟨.object (String.ofList name), by simpa [classNames] using hname, by simp [chars]⟩

theorem isFieldDescriptor_iff {text : List Char} :
    IsFieldDescriptor text ↔
      ∃ type : FieldType, (∀ name ∈ type.classNames, IsObjectName name) ∧ type.chars = text := by
  constructor
  · intro h
    obtain ⟨depth, base, hbase, htext⟩ := h
    induction depth generalizing text with
    | zero =>
      have hexists := exists_of_isBaseDescriptor hbase
      simpa [htext] using hexists
    | succ depth ih =>
      obtain ⟨element, hnames, hchars⟩ := ih rfl
      exact ⟨.array element, hnames, by
        rw [chars, hchars, htext, List.replicate_succ, List.cons_append]⟩
  · intro h
    obtain ⟨type, hnames, htext⟩ := h
    rw [← htext]
    exact isFieldDescriptor_chars hnames

theorem exists_row {parts : List (List Char)} (h : ∀ part ∈ parts, IsFieldDescriptor part) :
    ∃ types : List FieldType, (∀ type ∈ types, ∀ name ∈ type.classNames, IsObjectName name) ∧
      types.map chars = parts := by
  induction parts with
  | nil => exact ⟨[], by simp, rfl⟩
  | cons part parts ih =>
    obtain ⟨hpart, hparts⟩ := List.forall_mem_cons.mp h
    obtain ⟨type, hnames, hchars⟩ := isFieldDescriptor_iff.mp hpart
    obtain ⟨types, hall, hmap⟩ := ih hparts
    exact ⟨type :: types, by simpa using ⟨hnames, hall⟩, by rw [List.map_cons, hchars, hmap]⟩

theorem eq_of_ofDescriptor_error {text : String} {fault : InvalidDescriptor}
    (h : ofDescriptor text = .error fault) : fault = ⟨text⟩ := by
  unfold ofDescriptor at h
  split at h
  · cases h
  · exact (Except.error.inj h).symm

end FieldType

/-- The reader of parameters takes a row apart, so two rows with one text are the same. -/
theorem eq_of_flatten_eq {parts parts' : List (List Char)}
    (h : ∀ part ∈ parts, IsFieldDescriptor part) (h' : ∀ part ∈ parts', IsFieldDescriptor part)
    (hflatten : parts.flatten = parts'.flatten) : parts = parts' := by
  obtain ⟨types, hnames, hparts⟩ := FieldType.exists_row h
  obtain ⟨types', hnames', hparts'⟩ := FieldType.exists_row h'
  have hread := MethodDescriptor.parseParameters_chars hnames [] []
  have hread' := MethodDescriptor.parseParameters_chars hnames' [] []
  have htexts : types.flatMap FieldType.chars = types'.flatMap FieldType.chars := by
    rw [List.flatMap_def, List.flatMap_def, hparts, hparts', hflatten]
  rw [htexts, hread'] at hread
  have htypes : types' = types := by simpa using hread
  rw [← hparts, ← hparts', htypes]

namespace ReturnType

theorem form_iff {text : List Char} :
    (text = ['V'] ∨ IsFieldDescriptor text) ↔
      ∃ type : ReturnType, (∀ name ∈ type.classNames, IsObjectName name) ∧ type.chars = text := by
  rw [FieldType.isFieldDescriptor_iff]
  constructor
  · intro h
    rcases h with hvoid | ⟨type, hnames, hchars⟩
    · exact ⟨.void, by simp [classNames], hvoid.symm⟩
    · exact ⟨.value type, hnames, hchars⟩
  · intro h
    obtain ⟨type, hnames, hchars⟩ := h
    cases type with
    | void => exact .inl hchars.symm
    | value type => exact .inr ⟨type, hnames, hchars⟩

end ReturnType

namespace MethodDescriptor

theorem isMethodDescriptor_iff {text : List Char} :
    IsMethodDescriptor text ↔ ∃ method : MethodDescriptor,
      (∀ name ∈ method.classNames, IsObjectName name) ∧ method.chars = text := by
  constructor
  · intro h
    obtain ⟨parts, result, hparts, hresult, htext⟩ := h
    obtain ⟨types, hnames, hmap⟩ := FieldType.exists_row hparts
    obtain ⟨type, hnames', hchars⟩ := ReturnType.form_iff.mp hresult
    refine ⟨⟨types, type⟩, List.forall_mem_append.mpr ⟨?_, hnames'⟩, ?_⟩
    · intro name hname
      obtain ⟨parameter, hmem, hname⟩ := List.mem_flatMap.mp hname
      exact hnames parameter hmem name hname
    · rw [chars, htext, hchars, List.flatMap_def, hmap]
  · intro h
    obtain ⟨method, hnames, htext⟩ := h
    obtain ⟨hparameters, hresult⟩ := List.forall_mem_append.mp hnames
    refine ⟨method.parameters.map FieldType.chars, method.result.chars, ?_,
      ReturnType.form_iff.mpr ⟨_, hresult, rfl⟩, ?_⟩
    · intro part hpart
      obtain ⟨type, htype, hchars⟩ := List.mem_map.mp hpart
      rw [← hchars]
      exact FieldType.isFieldDescriptor_chars fun name hname =>
        hparameters name (List.mem_flatMap.mpr ⟨type, htype, hname⟩)
    · rw [← htext, chars, List.flatMap_def]

theorem eq_of_ofDescriptor_error {text : String} {fault : InvalidDescriptor}
    (h : ofDescriptor text = .error fault) : fault = ⟨text⟩ := by
  unfold ofDescriptor at h
  split at h
  · split at h
    · split at h
      · cases h
      · exact (Except.error.inj h).symm
    · exact (Except.error.inj h).symm
  · exact (Except.error.inj h).symm

end MethodDescriptor

theorem ReadsExactly.of_form {α : Type} {read : String → Except InvalidDescriptor α}
    {chars : α → List Char} {classNames : α → List String} {form : List Char → Prop}
    (hform : ∀ {text}, form text ↔
      ∃ a, (∀ name ∈ classNames a, IsObjectName name) ∧ chars a = text)
    (hwrites : ∀ {text a}, read text = .ok a → String.ofList (chars a) = text)
    (hnames : ∀ {text a}, read text = .ok a → ∀ name ∈ classNames a, IsObjectName name)
    (hrefuses : ∀ {text fault}, read text = .error fault → fault = ⟨text⟩)
    (hreads : ∀ {a}, (∀ name ∈ classNames a, IsObjectName name) →
      read (String.ofList (chars a)) = .ok a) :
    ReadsExactly read (fun a => String.ofList (chars a)) classNames form := by
  refine ⟨fun text => ?_, fun _ _ => hwrites, fun _ _ => hrefuses, fun _ => hreads⟩
  rw [hform]
  constructor
  · intro h
    obtain ⟨a, hread⟩ := h
    have htext := congrArg String.toList (hwrites hread)
    rw [String.toList_ofList] at htext
    exact ⟨a, hnames hread, htext⟩
  · intro h
    obtain ⟨a, hok, htext⟩ := h
    have hread := hreads hok
    rw [htext, String.ofList_toList] at hread
    exact ⟨a, hread⟩

/-- The readers of descriptors accept just the texts of the grammar and are inverse to writing, and
no text is a row of field descriptors in two ways. -/
theorem descriptors_readExactly :
    ReadsExactly FieldType.ofDescriptor FieldType.descriptor FieldType.classNames
        IsFieldDescriptor ∧
      ReadsExactly MethodDescriptor.ofDescriptor MethodDescriptor.descriptor
        MethodDescriptor.classNames IsMethodDescriptor ∧
      ∀ parts parts' : List (List Char), (∀ part ∈ parts, IsFieldDescriptor part) →
        (∀ part ∈ parts', IsFieldDescriptor part) → parts.flatten = parts'.flatten →
          parts = parts' := by
  refine ⟨?_, ?_, fun _ _ => eq_of_flatten_eq⟩
  · exact .of_form FieldType.isFieldDescriptor_iff FieldType.descriptor_of_ofDescriptor
      FieldType.isObjectName_of_ofDescriptor FieldType.eq_of_ofDescriptor_error
      FieldType.ofDescriptor_descriptor
  · exact .of_form MethodDescriptor.isMethodDescriptor_iff
      MethodDescriptor.descriptor_of_ofDescriptor
      MethodDescriptor.isObjectName_of_ofDescriptor MethodDescriptor.eq_of_ofDescriptor_error
      MethodDescriptor.ofDescriptor_descriptor

/-- The marks of descriptors stand in a name here, and the name ends at its semicolon. -/
theorem descriptors_readExactly_of_marks :
    MethodDescriptor.ofDescriptor "(L)[;[[J)V" =
        .ok ⟨[.object ")[", .array (.array (.primitive .long))], .void⟩ ∧
      IsMethodDescriptor "(L)[;[[J)V".toList ∧ ¬ IsMethodDescriptor "(L;)V".toList ∧
      ∀ parts : List (List Char), (∀ part ∈ parts, IsFieldDescriptor part) →
        parts.flatten = "L)[;[[J".toList → parts = ["L)[;".toList, "[[J".toList] := by
  obtain ⟨hfield, hmethod, hrows⟩ := descriptors_readExactly
  have hread : MethodDescriptor.ofDescriptor "(L)[;[[J)V" =
      .ok ⟨[.object ")[", .array (.array (.primitive .long))], .void⟩ := by
    decide +kernel
  have hrefused : MethodDescriptor.ofDescriptor "(L;)V" = .error ⟨"(L;)V"⟩ := by
    decide +kernel
  refine ⟨hread, (hmethod.accepts _).mp ⟨_, hread⟩, ?_, ?_⟩
  · rw [← hmethod.accepts, hrefused]
    simp
  · intro parts hparts hflatten
    have hobject : IsFieldDescriptor "L)[;".toList :=
      (hfield.accepts _).mp ⟨.object ")[", by decide +kernel⟩
    have harray : IsFieldDescriptor "[[J".toList :=
      (hfield.accepts _).mp ⟨.array (.array (.primitive .long)), by decide +kernel⟩
    exact hrows _ _ hparts (by simpa using ⟨hobject, harray⟩) hflatten

end StaticCompanion
