import StaticCompanion.Descriptor.Parser
import StaticCompanion.Proofs.Steps

namespace StaticCompanion

theorem FieldType.chars_of_parse {text rest : List Char} {type : FieldType}
    (hparse : parse text = some (type, rest)) : text = type.chars ++ rest := by
  fun_induction parse text generalizing type with
  | case1 => cases hparse
  | case2 text ih =>
    obtain ⟨⟨element, rest'⟩, helement, hsame⟩ := Option.map_eq_some_iff.mp hparse
    obtain ⟨rfl, rfl⟩ := Prod.mk.inj hsame
    rw [chars, List.cons_append, ← ih helement]
  | case3 text first name end' rest' hbehind hname =>
    obtain ⟨rfl, rfl⟩ := Prod.mk.inj (Option.some.inj hparse)
    -- The name ends where something other than its characters comes, which is the semicolon.
    have hend : end' = ';' := by
      have hstop := List.head?_dropWhile_not (fun c => decide (c ≠ ';')) text
      rw [hbehind] at hstop
      simpa using hstop
    have hparts := List.takeWhile_append_dropWhile (p := fun c => decide (c ≠ ';')) (l := text)
    rw [hname, hbehind, hend] at hparts
    rw [← hparts]
    simp [chars]
  | case4 => cases hparse
  | case5 letter text =>
    obtain ⟨primitive, hletter, hsame⟩ := Option.map_eq_some_iff.mp hparse
    obtain ⟨rfl, rfl⟩ := Prod.mk.inj hsame
    rw [Primitive.ofLetter?_eq_some_iff.mp hletter]
    rfl

theorem FieldType.descriptor_of_ofDescriptor {text : String} {type : FieldType}
    (hread : ofDescriptor text = .ok type) : type.descriptor = text := by
  unfold ofDescriptor at hread
  split at hread
  · rename_i hparse
    obtain rfl := Except.ok.inj hread
    have hchars := chars_of_parse hparse
    rw [List.append_nil] at hchars
    rw [descriptor, ← hchars, String.ofList_toList]
  · cases hread

theorem ReturnType.descriptor_of_ofDescriptor {text : String} {type : ReturnType}
    (hread : ofDescriptor text = .ok type) : type.descriptor = text := by
  unfold ofDescriptor at hread
  split at hread
  · rename_i hvoid
    obtain rfl := Except.ok.inj hread
    rw [hvoid]
    rfl
  · obtain ⟨value, hvalue, rfl⟩ := except_map_eq_ok.mp hread
    exact FieldType.descriptor_of_ofDescriptor hvalue

namespace MethodDescriptor

theorem chars_of_parseParameters {taken parameters : List FieldType} {text rest : List Char}
    (hparse : parseParameters taken text = some (parameters, rest)) :
    ∃ more, parameters = taken.reverse ++ more ∧
      text = more.flatMap FieldType.chars ++ ')' :: rest := by
  fun_induction parseParameters taken text with
  | case1 taken rest' =>
    obtain ⟨rfl, rfl⟩ := Prod.mk.inj (Option.some.inj hparse)
    exact ⟨[], (List.append_nil _).symm, rfl⟩
  | case2 taken text _ type rest' htype ih =>
    obtain ⟨more, rfl, hrest⟩ := ih hparse
    refine ⟨type :: more, ?_, ?_⟩
    · rw [List.reverse_cons, List.append_assoc, List.singleton_append]
    · rw [FieldType.chars_of_parse htype, hrest, List.flatMap_cons, List.append_assoc]
  | case3 => cases hparse

theorem ofDescriptor_eq_ok {text : String} {method : MethodDescriptor} :
    ofDescriptor text = .ok method ↔ ∃ rest, text.toList = '(' :: rest ∧
      ∃ result, parseParameters [] rest = some (method.parameters, result) ∧
        ReturnType.ofDescriptor (String.ofList result) = .ok method.result := by
  constructor
  · intro h
    unfold ofDescriptor at h
    split at h
    · rename_i rest htext
      split at h
      · rename_i parameters result hparameters
        split at h
        · rename_i type hresult
          obtain rfl := Except.ok.inj h
          exact ⟨rest, htext, result, hparameters, hresult⟩
        · cases h
      · cases h
    · cases h
  · rintro ⟨rest, htext, result, hparameters, hresult⟩
    rw [ofDescriptor, htext]
    simp only [hparameters, hresult]

theorem descriptor_of_ofDescriptor {text : String} {method : MethodDescriptor}
    (hread : ofDescriptor text = .ok method) : method.descriptor = text := by
  obtain ⟨rest, htext, result, hparameters, hresult⟩ := ofDescriptor_eq_ok.mp hread
  obtain ⟨more, hmore, hchars⟩ := chars_of_parseParameters hparameters
  have hresult := congrArg String.toList (ReturnType.descriptor_of_ofDescriptor hresult)
  rw [ReturnType.descriptor, String.toList_ofList, String.toList_ofList] at hresult
  rw [descriptor, chars, hmore, hresult, List.reverse_nil, List.nil_append, List.cons_append,
    ← hchars, ← htext, String.ofList_toList]

end MethodDescriptor

/-- A name that can stand in a descriptor. -/
def IsObjectName (name : String) : Prop := name ≠ "" ∧ ';' ∉ name.toList

theorem cut_append_cons {p : Char → Bool} {front : List Char} {c : Char}
    (hfront : ∀ a ∈ front, p a = true) (hc : ¬p c = true) (rest : List Char) :
    (front ++ c :: rest).takeWhile p = front ∧ (front ++ c :: rest).dropWhile p = c :: rest := by
  rw [List.takeWhile_append_of_pos hfront, List.dropWhile_append_of_pos hfront,
    List.takeWhile_cons_of_neg hc, List.dropWhile_cons_of_neg hc, List.append_nil]
  exact ⟨rfl, rfl⟩

namespace FieldType
variable {names : Renaming}

/-- The classes that a type mentions. -/
def classNames : FieldType → List String
  | primitive _ => []
  | object name => [name]
  | array element => element.classNames

theorem classNames_rename (type : FieldType) :
    (type.rename names).classNames = type.classNames.map names.apply := by
  induction type with
  | primitive => rfl
  | object => rfl
  | array element ih => exact ih

theorem rename_eq_self {type : FieldType} (h : ∀ name ∈ type.classNames, names name = none) :
    type.rename names = type := by
  induction type with
  | primitive => rfl
  | object name => rw [rename, Renaming.apply, h name List.mem_cons_self, Option.getD_none]
  | array element ih => rw [rename, ih h]

theorem isObjectName_of_parse {text rest : List Char} {type : FieldType}
    (hparse : parse text = some (type, rest)) : ∀ name ∈ type.classNames, IsObjectName name := by
  fun_induction parse text generalizing type with
  | case1 => cases hparse
  | case2 text ih =>
    obtain ⟨⟨element, rest'⟩, helement, hsame⟩ := Option.map_eq_some_iff.mp hparse
    obtain ⟨rfl, rfl⟩ := Prod.mk.inj hsame
    have hnames := ih helement
    exact hnames
  | case3 text first name end' rest' _ hname =>
    obtain ⟨rfl, rfl⟩ := Prod.mk.inj (Option.some.inj hparse)
    intro other hother
    obtain rfl := List.mem_singleton.mp hother
    refine ⟨?_, ?_⟩
    · intro hempty
      have hchars := congrArg String.toList hempty
      rw [String.toList_ofList] at hchars
      cases hchars
    · intro hend
      rw [String.toList_ofList, ← hname] at hend
      simpa using List.all_eq_true.mp List.all_takeWhile _ hend
  | case4 => cases hparse
  | case5 letter text =>
    obtain ⟨primitive, hletter, hsame⟩ := Option.map_eq_some_iff.mp hparse
    obtain ⟨rfl, rfl⟩ := Prod.mk.inj hsame
    intro name hname
    cases hname

/-- What is written for a type is read as that type, whatever comes behind it. -/
theorem parse_chars {type : FieldType} (h : ∀ name ∈ type.classNames, IsObjectName name)
    (rest : List Char) : parse (type.chars ++ rest) = some (type, rest) := by
  induction type with
  | primitive type => cases type <;> rfl
  | object name =>
    obtain ⟨hne, hplain⟩ := h name List.mem_cons_self
    have hfront : ∀ c ∈ name.toList, decide (c ≠ ';') = true := by
      intro c hc
      exact decide_eq_true fun hend => hplain (hend ▸ hc)
    obtain ⟨htake, hdrop⟩ := cut_append_cons hfront (c := ';') (by decide) rest
    have htext : (object name).chars ++ rest = 'L' :: (name.toList ++ ';' :: rest) := by
      simp [chars]
    rw [htext, parse, htake, hdrop]
    cases hchars : name.toList with
    | nil => exact absurd (String.toList_eq_nil_iff.mp hchars) hne
    | cons c cs =>
      dsimp only
      rw [← hchars, String.ofList_toList]
  | array element ih =>
    rw [chars, List.cons_append, parse, ih h, Option.map_some]

theorem ofDescriptor_descriptor {type : FieldType}
    (h : ∀ name ∈ type.classNames, IsObjectName name) :
    ofDescriptor type.descriptor = .ok type := by
  have hparse := parse_chars h []
  rw [List.append_nil] at hparse
  rw [ofDescriptor, descriptor, String.toList_ofList, hparse]

end FieldType

namespace ReturnType
variable {names : Renaming}

def classNames : ReturnType → List String
  | void => []
  | value type => type.classNames

theorem classNames_rename (type : ReturnType) :
    (type.rename names).classNames = type.classNames.map names.apply := by
  cases type with
  | void => rfl
  | value type => exact type.classNames_rename

theorem rename_eq_self {type : ReturnType} (h : ∀ name ∈ type.classNames, names name = none) :
    type.rename names = type := by
  cases type with
  | void => rfl
  | value type => rw [rename, FieldType.rename_eq_self h]

theorem ofDescriptor_descriptor {type : ReturnType}
    (h : ∀ name ∈ type.classNames, IsObjectName name) :
    ofDescriptor type.descriptor = .ok type := by
  cases type with
  | void => rfl
  | value type =>
    have hread := FieldType.ofDescriptor_descriptor h
    have hvalue : type.descriptor ≠ "V" := by
      intro hvoid
      rw [hvoid] at hread
      cases hread
    change ofDescriptor type.descriptor = .ok (.value type)
    rw [ofDescriptor, if_neg hvalue, hread]
    rfl

end ReturnType

theorem FieldType.isObjectName_of_ofDescriptor {text : String} {type : FieldType}
    (hread : ofDescriptor text = .ok type) : ∀ name ∈ type.classNames, IsObjectName name := by
  unfold ofDescriptor at hread
  split at hread
  · rename_i hparse
    obtain rfl := Except.ok.inj hread
    exact isObjectName_of_parse hparse
  · cases hread

theorem ReturnType.isObjectName_of_ofDescriptor {text : String} {type : ReturnType}
    (hread : ofDescriptor text = .ok type) : ∀ name ∈ type.classNames, IsObjectName name := by
  unfold ofDescriptor at hread
  split at hread
  · obtain rfl := Except.ok.inj hread
    intro name hname
    cases hname
  · obtain ⟨value, hvalue, rfl⟩ := except_map_eq_ok.mp hread
    exact FieldType.isObjectName_of_ofDescriptor hvalue

namespace MethodDescriptor
variable {names : Renaming} {method : MethodDescriptor}

def classNames (method : MethodDescriptor) : List String :=
  method.parameters.flatMap FieldType.classNames ++ method.result.classNames

theorem classNames_rename (method : MethodDescriptor) :
    (method.rename names).classNames = method.classNames.map names.apply := by
  simp only [classNames, rename, List.flatMap_map, List.map_append, List.map_flatMap,
    FieldType.classNames_rename, ReturnType.classNames_rename]

theorem rename_eq_self (h : ∀ name ∈ method.classNames, names name = none) :
    method.rename names = method := by
  obtain ⟨hparameters, hresult⟩ := List.forall_mem_append.mp h
  have hsame : method.parameters.map (FieldType.rename names) = method.parameters := by
    rw [List.map_congr_left fun type htype => FieldType.rename_eq_self fun name hname =>
      hparameters name (List.mem_flatMap.mpr ⟨type, htype, hname⟩), List.map_id']
  rw [rename, hsame, ReturnType.rename_eq_self hresult]

theorem isObjectName_of_parseParameters {taken parameters : List FieldType}
    {text rest : List Char} (hparse : parseParameters taken text = some (parameters, rest))
    (htaken : ∀ type ∈ taken, ∀ name ∈ type.classNames, IsObjectName name) :
    ∀ type ∈ parameters, ∀ name ∈ type.classNames, IsObjectName name := by
  fun_induction parseParameters taken text with
  | case1 taken rest' =>
    obtain ⟨rfl, rfl⟩ := Prod.mk.inj (Option.some.inj hparse)
    intro type htype
    exact htaken type (List.mem_reverse.mp htype)
  | case2 taken text _ type rest' htype ih =>
    apply ih hparse
    intro other hother
    rcases List.mem_cons.mp hother with rfl | hother
    · exact FieldType.isObjectName_of_parse htype
    · exact htaken other hother
  | case3 => cases hparse

theorem parseParameters_of_parse {text rest : List Char} {type : FieldType}
    (htype : FieldType.parse text = some (type, rest)) (taken : List FieldType) :
    parseParameters taken text = parseParameters (type :: taken) rest := by
  rw [parseParameters.eq_def taken text]
  split
  · cases htype
  · split
    · rename_i hparsed
      rw [htype] at hparsed
      cases hparsed
      rfl
    · rename_i hparsed
      rw [htype] at hparsed
      cases hparsed

theorem parseParameters_chars {parameters : List FieldType}
    (h : ∀ type ∈ parameters, ∀ name ∈ type.classNames, IsObjectName name)
    (taken : List FieldType) (rest : List Char) :
    parseParameters taken (parameters.flatMap FieldType.chars ++ ')' :: rest) =
      some (taken.reverse ++ parameters, rest) := by
  induction parameters generalizing taken with
  | nil =>
    rw [List.flatMap_nil, List.nil_append, List.append_nil, parseParameters]
  | cons type parameters ih =>
    obtain ⟨htype, hparameters⟩ := List.forall_mem_cons.mp h
    have hparse := FieldType.parse_chars htype (parameters.flatMap FieldType.chars ++ ')' :: rest)
    rw [List.flatMap_cons, List.append_assoc]
    rw [parseParameters_of_parse hparse, ih hparameters, List.reverse_cons, List.append_assoc,
      List.singleton_append]

theorem isObjectName_of_ofDescriptor {text : String} (hread : ofDescriptor text = .ok method) :
    ∀ name ∈ method.classNames, IsObjectName name := by
  obtain ⟨rest, -, result, hparameters, hresult⟩ := ofDescriptor_eq_ok.mp hread
  have htypes := isObjectName_of_parseParameters hparameters (by simp)
  intro name hname
  rcases List.mem_append.mp hname with hname | hname
  · obtain ⟨type, htype, hname⟩ := List.mem_flatMap.mp hname
    exact htypes type htype name hname
  · exact ReturnType.isObjectName_of_ofDescriptor hresult name hname

theorem ofDescriptor_descriptor (h : ∀ name ∈ method.classNames, IsObjectName name) :
    ofDescriptor method.descriptor = .ok method := by
  obtain ⟨hparameters, hresult⟩ := List.forall_mem_append.mp h
  refine ofDescriptor_eq_ok.mpr ⟨_, String.toList_ofList, method.result.chars, ?_,
    ReturnType.ofDescriptor_descriptor hresult⟩
  exact parseParameters_chars (fun type htype name hname =>
    hparameters name (List.mem_flatMap.mpr ⟨type, htype, hname⟩)) [] method.result.chars

end MethodDescriptor

end StaticCompanion
