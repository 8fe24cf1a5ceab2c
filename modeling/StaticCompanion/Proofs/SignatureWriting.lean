import StaticCompanion.Proofs.SignatureReading

/-!
# Signatures are read as they were written

What is written for a well-formed tree is read as the same tree. The budget of the readers is
measured by the length of the text: each call of a reader takes one off the budget, and there are
two calls at most for each character.
-/
namespace StaticCompanion

/-- A character that a reference type can begin with. -/
def BeginsType (c : Char) : Prop := c = 'T' ∨ c = '[' ∨ c = 'L'

theorem BeginsType.ofLetter? {c : Char} (h : BeginsType c) : Primitive.ofLetter? c = none := by
  rcases h with rfl | rfl | rfl <;> rfl

theorem BeginsType.ne {c d : Char} (h : BeginsType c) (hd : ¬BeginsType d) : c ≠ d := by
  rintro rfl
  exact hd h

theorem RefType.chars_cons (type : RefType) :
    ∃ c text, type.chars = c :: text ∧ BeginsType c := by
  cases type with
  | typeVariable name => exact ⟨_, _, rfl, .inl rfl⟩
  | primitiveArray element => exact ⟨_, _, rfl, .inr (.inl rfl)⟩
  | array element => exact ⟨_, _, rfl, .inr (.inl rfl)⟩
  | object name suffix => exact ⟨_, _, rfl, .inr (.inr rfl)⟩

theorem ClassSuffix.chars_cons (suffix : ClassSuffix) :
    ∃ c text, suffix.chars = c :: text ∧ endsClassName c = true ∧ endsIdentifier c = true := by
  cases suffix with
  | done => exact ⟨_, _, rfl, rfl, rfl⟩
  | member name rest => exact ⟨_, _, rfl, rfl, rfl⟩
  | arguments list rest => exact ⟨_, _, rfl, rfl, rfl⟩

theorem RefType.length_chars_pos (type : RefType) : 0 < type.chars.length := by
  obtain ⟨c, text, htext, -⟩ := type.chars_cons
  rw [htext]
  exact Nat.succ_pos _

theorem ClassSuffix.length_chars_pos (suffix : ClassSuffix) : 0 < suffix.chars.length := by
  obtain ⟨c, text, htext, -⟩ := suffix.chars_cons
  rw [htext]
  exact Nat.succ_pos _

theorem TypeArguments.length_chars_pos (list : TypeArguments) : 0 < list.chars.length := by
  cases list with
  | done => exact Nat.one_pos
  | wildcard rest => exact Nat.succ_pos _
  | type bound type rest =>
    have hlen := type.length_chars_pos
    simp only [TypeArguments.chars, List.length_append]
    omega

/-- An argument is read behind the mark of its bound; without a bound it is told by its first
character. -/
theorem TypeArguments.parse_argument (bound : Option Bound) (type : RefType) (budget : Nat)
    (rest : List Char) :
    TypeArguments.parse (budget + 1) (bound.toList.map Bound.mark ++ (type.chars ++ rest)) = (do
      let (argument, text) ← RefType.parse budget (type.chars ++ rest)
      let (list, rest) ← TypeArguments.parse budget text
      return (.type bound argument list, rest)) := by
  cases bound with
  | some bound => cases bound <;> rfl
  | none =>
    obtain ⟨c, text, htext, hc⟩ := type.chars_cons
    change TypeArguments.parse (budget + 1) (type.chars ++ rest) = _
    rw [htext]
    rcases hc with rfl | rfl | rfl <;> rfl

mutual

/-- A budget of about twice the length of the text is enough to read the type. -/
theorem RefType.parse_chars : ∀ (type : RefType) (budget : Nat), type.WellFormed →
    2 * type.chars.length ≤ budget + 1 → ∀ rest,
      RefType.parse budget (type.chars ++ rest) = some (type, rest)
  | type, 0, _, hbudget, _ => by
    have hlen := type.length_chars_pos
    omega
  | .typeVariable name, budget + 1, hwell, _, rest => by
    have htext : (RefType.typeVariable name).chars ++ rest =
        'T' :: (name.toList ++ ';' :: rest) := by simp [RefType.chars]
    rw [htext, RefType.parse, takeName_append hwell rfl]
    rfl
  | .primitiveArray element, budget + 1, _, _, rest => by
    change RefType.parse (budget + 1) ('[' :: element.letter :: rest) = _
    rw [RefType.parse, Primitive.ofLetter?_eq_some_iff.mpr rfl]
  | .array element, budget + 1, hwell, hbudget, rest => by
    have helement := RefType.parse_chars element budget hwell
      (by simp only [RefType.chars, List.length_cons] at hbudget; omega) rest
    obtain ⟨c, text, htext, hc⟩ := element.chars_cons
    rw [RefType.chars]
    rw [htext] at helement ⊢
    change RefType.parse (budget + 1) ('[' :: c :: (text ++ rest)) = _
    rw [RefType.parse]
    simp only [hc.ofLetter?]
    exact read_bind_eq_some.mpr ⟨element, rest, helement, rfl⟩
  | .object name suffix, budget + 1, hwell, hbudget, rest => by
    have hsuffix := ClassSuffix.parse_chars suffix budget hwell.2
      (by simp only [RefType.chars, List.length_append, List.length_cons] at hbudget; omega) rest
    obtain ⟨c, text, htext, hc, -⟩ := suffix.chars_cons
    rw [RefType.chars, List.append_assoc]
    rw [htext] at hsuffix ⊢
    change RefType.parse (budget + 1) ('L' :: (name.toList ++ c :: (text ++ rest))) = _
    rw [RefType.parse, takeName_append hwell.1.2 hc]
    split
    · rename_i hempty
      cases hempty
      exact absurd rfl hwell.1.1
    · rename_i hname
      cases hname
      rw [← List.cons_append, hsuffix]
      rfl

theorem ClassSuffix.parse_chars : ∀ (suffix : ClassSuffix) (budget : Nat), suffix.WellFormed →
    2 * suffix.chars.length ≤ budget + 1 → ∀ rest,
      ClassSuffix.parse budget (suffix.chars ++ rest) = some (suffix, rest)
  | suffix, 0, _, hbudget, _ => by
    have hlen := suffix.length_chars_pos
    omega
  | .done, budget + 1, _, _, rest => rfl
  | .member name after, budget + 1, hwell, hbudget, rest => by
    have hafter := ClassSuffix.parse_chars after budget hwell.2
      (by simp only [ClassSuffix.chars, List.length_append, List.length_cons] at hbudget; omega)
      rest
    obtain ⟨c, text, htext, -, hc⟩ := after.chars_cons
    rw [ClassSuffix.chars, List.append_assoc]
    rw [htext] at hafter ⊢
    change ClassSuffix.parse (budget + 1) ('.' :: (name.toList ++ c :: (text ++ rest))) = _
    rw [ClassSuffix.parse, takeName_append hwell.1 hc, ← List.cons_append]
    simp only [hafter]
    rfl
  | .arguments list after, budget + 1, hwell, hbudget, rest => by
    simp only [ClassSuffix.chars, List.length_append, List.length_cons] at hbudget
    have hlist := TypeArguments.parse_chars list budget hwell.1 (by omega) (after.chars ++ rest)
    have hafter := ClassSuffix.parse_chars after budget hwell.2 (by omega) rest
    rw [ClassSuffix.chars, List.append_assoc, List.cons_append, ClassSuffix.parse]
    exact read_bind_eq_some.mpr ⟨list, _, hlist, read_bind_eq_some.mpr ⟨after, rest, hafter, rfl⟩⟩

theorem TypeArguments.parse_chars : ∀ (list : TypeArguments) (budget : Nat), list.WellFormed →
    2 * list.chars.length ≤ budget + 1 → ∀ rest,
      TypeArguments.parse budget (list.chars ++ rest) = some (list, rest)
  | list, 0, _, hbudget, _ => by
    have hlen := list.length_chars_pos
    omega
  | .done, budget + 1, _, _, rest => rfl
  | .wildcard after, budget + 1, hwell, hbudget, rest => by
    simp only [TypeArguments.chars, List.length_cons] at hbudget
    have hafter := TypeArguments.parse_chars after budget hwell (by omega) rest
    rw [TypeArguments.chars, List.cons_append, TypeArguments.parse, hafter]
    rfl
  | .type bound type after, budget + 1, hwell, hbudget, rest => by
    simp only [TypeArguments.chars, List.length_append] at hbudget
    have hlen := type.length_chars_pos
    have hlen' := after.length_chars_pos
    have htype := RefType.parse_chars type budget hwell.1 (by omega) (after.chars ++ rest)
    have hafter := TypeArguments.parse_chars after budget hwell.2 (by omega) rest
    rw [TypeArguments.chars, List.append_assoc, List.append_assoc,
      TypeArguments.parse_argument bound type]
    exact read_bind_eq_some.mpr ⟨type, _, htype, read_bind_eq_some.mpr ⟨after, rest, hafter, rfl⟩⟩

end

namespace JavaType

theorem chars_cons (type : JavaType) :
    ∃ c text, type.chars = c :: text ∧ c ≠ ')' ∧ c ≠ 'V' := by
  cases type with
  | primitive type => exact ⟨_, _, rfl, by cases type <;> decide, by cases type <;> decide⟩
  | reference type =>
    obtain ⟨c, text, htext, hc⟩ := type.chars_cons
    exact ⟨c, text, htext, hc.ne (by simp [BeginsType]), hc.ne (by simp [BeginsType])⟩

theorem parse_chars {type : JavaType} (budget : Nat) (hwell : type.WellFormed)
    (hbudget : 2 * type.chars.length ≤ budget + 1) (rest : List Char) :
    JavaType.parse budget (type.chars ++ rest) = some (type, rest) := by
  cases type with
  | primitive type =>
    change JavaType.parse budget (type.letter :: rest) = _
    rw [JavaType.parse, Primitive.ofLetter?_eq_some_iff.mpr rfl]
  | reference type =>
    have htype := type.parse_chars budget hwell hbudget rest
    obtain ⟨c, text, htext, hc⟩ := type.chars_cons
    rw [JavaType.chars]
    rw [htext, List.cons_append] at htype ⊢
    rw [JavaType.parse, hc.ofLetter?]
    dsimp only
    rw [htype]
    rfl

end JavaType

theorem parseMarked_chars {mark : Char} {types : List RefType}
    (hwells : ∀ type ∈ types, type.WellFormed) (budget : Nat)
    (hbudget : 2 * (types.flatMap fun type => mark :: type.chars).length < budget)
    {rest : List Char} (hend : rest.head? ≠ some mark) :
    parseMarked mark budget ((types.flatMap fun type => mark :: type.chars) ++ rest) =
      some (types, rest) := by
  induction types generalizing budget with
  | nil =>
    obtain ⟨budget, rfl⟩ := Nat.exists_eq_add_one_of_ne_zero (Nat.ne_zero_of_lt hbudget)
    cases rest with
    | nil => rfl
    | cons c rest =>
      have hother : c ≠ mark := by simpa using hend
      change parseMarked mark (budget + 1) (c :: rest) = _
      rw [parseMarked, if_neg hother]
  | cons type types ih =>
    obtain ⟨budget, rfl⟩ := Nat.exists_eq_add_one_of_ne_zero (Nat.ne_zero_of_lt hbudget)
    obtain ⟨hwell, hwells⟩ := List.forall_mem_cons.mp hwells
    simp only [List.flatMap_cons, List.length_append, List.length_cons] at hbudget
    have htype := type.parse_chars budget hwell (by omega)
      ((types.flatMap fun type => mark :: type.chars) ++ rest)
    have htypes := ih hwells budget (by omega)
    rw [List.flatMap_cons, List.append_assoc, List.cons_append, parseMarked, if_pos rfl]
    exact read_bind_eq_some.mpr ⟨type, _, htype, read_bind_eq_some.mpr ⟨types, rest, htypes, rfl⟩⟩

theorem parseParameterTypes_chars {types : List JavaType}
    (hwells : ∀ type ∈ types, type.WellFormed) (budget : Nat)
    (hbudget : 2 * (types.flatMap JavaType.chars).length < budget) (rest : List Char) :
    parseParameterTypes budget (types.flatMap JavaType.chars ++ ')' :: rest) =
      some (types, rest) := by
  induction types generalizing budget with
  | nil =>
    obtain ⟨budget, rfl⟩ := Nat.exists_eq_add_one_of_ne_zero (Nat.ne_zero_of_lt hbudget)
    rfl
  | cons type types ih =>
    obtain ⟨budget, rfl⟩ := Nat.exists_eq_add_one_of_ne_zero (Nat.ne_zero_of_lt hbudget)
    obtain ⟨hwell, hwells⟩ := List.forall_mem_cons.mp hwells
    obtain ⟨c, text, htext, hc, -⟩ := type.chars_cons
    simp only [List.flatMap_cons, List.length_append] at hbudget
    have hlen : 0 < type.chars.length := by rw [htext]; exact Nat.succ_pos _
    have htype := JavaType.parse_chars budget hwell (by omega)
      (types.flatMap JavaType.chars ++ ')' :: rest)
    have htypes := ih hwells budget (by omega)
    rw [List.flatMap_cons, List.append_assoc]
    rw [htext, List.cons_append] at htype ⊢
    rw [parseParameterTypes]
    · exact read_bind_eq_some.mpr
        ⟨type, _, htype, read_bind_eq_some.mpr ⟨types, rest, htypes, rfl⟩⟩
    · intro rest' hsame
      exact hc (List.cons.inj hsame).1

theorem parseRefTypes_chars {types : List RefType} (hwells : ∀ type ∈ types, type.WellFormed)
    (budget : Nat) (hbudget : 2 * (types.flatMap RefType.chars).length < budget) :
    parseRefTypes budget (types.flatMap RefType.chars) = some types := by
  induction types generalizing budget with
  | nil =>
    obtain ⟨budget, rfl⟩ := Nat.exists_eq_add_one_of_ne_zero (Nat.ne_zero_of_lt hbudget)
    rfl
  | cons type types ih =>
    obtain ⟨budget, rfl⟩ := Nat.exists_eq_add_one_of_ne_zero (Nat.ne_zero_of_lt hbudget)
    obtain ⟨hwell, hwells⟩ := List.forall_mem_cons.mp hwells
    obtain ⟨c, text, htext, -⟩ := type.chars_cons
    simp only [List.flatMap_cons, List.length_append] at hbudget
    have hlen := type.length_chars_pos
    have htype := type.parse_chars budget hwell (by omega) (types.flatMap RefType.chars)
    have htypes := ih hwells budget (by omega)
    rw [List.flatMap_cons]
    rw [htext, List.cons_append] at htype ⊢
    rw [parseRefTypes]
    · exact read_bind_eq_some.mpr
        ⟨type, _, htype, Option.bind_eq_some_iff.mpr ⟨types, htypes, rfl⟩⟩
    · exact List.cons_ne_nil _ _

namespace TypeParameter

theorem chars_cons {parameter : TypeParameter} (h : IsIdentifier parameter.name) :
    ∃ c text, parameter.chars = c :: text ∧ c ≠ '>' ∧ (parameter.name ≠ "" → c ≠ ':') := by
  cases hname : parameter.name.toList with
  | nil =>
    refine ⟨':', _, by rw [chars, hname]; rfl, by decide, fun hne => ?_⟩
    exact absurd (String.toList_eq_nil_iff.mp hname) hne
  | cons c text =>
    have hc : endsIdentifier c = false := h c (hname ▸ List.mem_cons_self)
    refine ⟨c, _, by rw [chars, hname]; rfl, ?_, fun _ => ?_⟩
    · rintro rfl
      cases hc
    · rintro rfl
      cases hc

theorem parse_chars {parameter : TypeParameter} (budget : Nat) (hwell : parameter.WellFormed)
    (hbudget : 2 * parameter.chars.length ≤ budget + 1) {rest : List Char}
    (hend : rest.head? ≠ some ':') :
    TypeParameter.parse budget (parameter.chars ++ rest) = some (parameter, rest) := by
  obtain ⟨name, classBound, bounds⟩ := parameter
  have hname (text : List Char) :
      takeName endsIdentifier (name.toList ++ ':' :: text) = (name, ':' :: text) :=
    takeName_append hwell.name rfl text
  simp only [chars, List.length_append, List.length_cons] at hbudget
  have hfew : 2 * (bounds.flatMap fun type => ':' :: type.chars).length < budget := by omega
  have hbounds := parseMarked_chars hwell.interfaceBounds budget hfew hend
  dsimp only at hbounds
  cases classBound with
  | none =>
    cases bounds with
    | nil => exact absurd rfl (hwell.bounded rfl)
    | cons bound bounds =>
      rw [List.flatMap_cons, List.cons_append, List.cons_append] at hbounds
      have htext : chars ⟨name, none, bound :: bounds⟩ ++ rest = name.toList ++ ':' :: ':' ::
          (bound.chars ++ (bounds.flatMap fun type => ':' :: type.chars) ++ rest) := by
        simp [chars]
      rw [htext, TypeParameter.parse, hname]
      exact read_bind_eq_some.mpr ⟨bound :: bounds, rest, hbounds, rfl⟩
  | some bound =>
    have hbound := bound.parse_chars budget (hwell.classBound bound rfl)
      (by simp only [Option.elim_some] at hbudget; omega)
      ((bounds.flatMap fun type => ':' :: type.chars) ++ rest)
    obtain ⟨c, text, hchars, hc⟩ := bound.chars_cons
    have htext : chars ⟨name, some bound, bounds⟩ ++ rest = name.toList ++ ':' ::
        (bound.chars ++ ((bounds.flatMap fun type => ':' :: type.chars) ++ rest)) := by
      simp [chars]
    rw [htext, TypeParameter.parse, hname]
    split
    · rename_i hcolon
      rw [hchars] at hcolon
      simp only [Prod.mk.injEq, List.cons_append, List.cons.injEq, true_and] at hcolon
      exact absurd hcolon.2.1 (hc.ne (by simp [BeginsType]))
    · rename_i hcolon
      cases hcolon
      exact read_bind_eq_some.mpr
        ⟨bound, _, hbound, read_bind_eq_some.mpr ⟨bounds, rest, hbounds, rfl⟩⟩
    · rename_i hnone
      exact absurd rfl (hnone _ _)

end TypeParameter

theorem parseTypeParameters_chars {parameters : List TypeParameter}
    (hwells : WellFormedParameters parameters) (budget : Nat)
    (hbudget : 2 * (parameters.flatMap TypeParameter.chars).length < budget) (rest : List Char) :
    parseTypeParameters budget (parameters.flatMap TypeParameter.chars ++ '>' :: rest) =
      some (parameters, rest) := by
  induction parameters generalizing budget with
  | nil =>
    obtain ⟨budget, rfl⟩ := Nat.exists_eq_add_one_of_ne_zero (Nat.ne_zero_of_lt hbudget)
    rfl
  | cons parameter parameters ih =>
    obtain ⟨budget, rfl⟩ := Nat.exists_eq_add_one_of_ne_zero (Nat.ne_zero_of_lt hbudget)
    obtain ⟨hwell, hwells'⟩ := List.forall_mem_cons.mp hwells.wellFormed
    simp only [List.flatMap_cons, List.length_append] at hbudget
    obtain ⟨c, text, htext, hc, -⟩ := TypeParameter.chars_cons hwell.name
    have hlen : 0 < parameter.chars.length := by
      rw [htext]
      exact Nat.succ_pos _
    have hend : (parameters.flatMap TypeParameter.chars ++ '>' :: rest).head? ≠ some ':' := by
      cases parameters with
      | nil => simp
      | cons next parameters =>
        obtain ⟨d, more, hnext, -, hd⟩ :=
          TypeParameter.chars_cons (hwells' next List.mem_cons_self).name
        rw [List.flatMap_cons, hnext]
        simpa using hd (hwells.named next List.mem_cons_self)
    have hparameter := TypeParameter.parse_chars budget hwell (by omega) hend
    have hparameters := ih ⟨hwells', fun other hother =>
      hwells.named other (List.mem_of_mem_tail hother)⟩ budget (by omega)
    rw [List.flatMap_cons, List.append_assoc]
    rw [htext, List.cons_append] at hparameter ⊢
    rw [parseTypeParameters]
    · exact read_bind_eq_some.mpr
        ⟨parameter, _, hparameter, read_bind_eq_some.mpr ⟨parameters, rest, hparameters, rfl⟩⟩
    · intro rest' hsame
      exact hc (List.cons.inj hsame).1

namespace SignatureBody

theorem parseResult_chars {result : Option JavaType} (budget : Nat)
    (hwell : ∀ type ∈ result, type.WellFormed)
    (hbudget : 2 * (result.elim ['V'] JavaType.chars).length ≤ budget + 1) (rest : List Char) :
    parseResult budget (result.elim ['V'] JavaType.chars ++ rest) = some (result, rest) := by
  cases result with
  | none => rfl
  | some type =>
    have htype := JavaType.parse_chars budget (hwell type rfl) hbudget rest
    obtain ⟨c, text, htext, -, hc⟩ := type.chars_cons
    rw [Option.elim_some]
    rw [htext, List.cons_append] at htype ⊢
    rw [parseResult]
    · rw [htype]
      rfl
    · intro rest' hsame
      exact hc (List.cons.inj hsame).1

theorem head?_chars (body : SignatureBody) : body.chars.head? ≠ some '<' := by
  cases body with
  | method parameters result throws => simp [chars]
  | types first rest =>
    obtain ⟨c, text, htext, hc⟩ := first.chars_cons
    rw [chars, htext]
    simpa using hc.ne (by simp [BeginsType])

theorem parse_chars {body : SignatureBody} (hwell : body.WellFormed) (budget : Nat)
    (hbudget : 2 * body.chars.length < budget) :
    SignatureBody.parse budget body.chars = some body := by
  cases body with
  | method parameters result throws =>
    obtain ⟨hparameters, hresult, hthrows⟩ := hwell
    simp only [chars, List.length_append, List.length_cons] at hbudget
    have hthrown : parseMarked '^' budget ((throws.flatMap fun type => '^' :: type.chars) ++ []) =
        some (throws, []) := parseMarked_chars hthrows budget (by omega) (by simp)
    have htext : chars (method parameters result throws) =
        '(' :: (parameters.flatMap JavaType.chars ++ ')' :: (result.elim ['V'] JavaType.chars ++
          ((throws.flatMap fun type => '^' :: type.chars) ++ []))) := by simp [chars]
    rw [htext, SignatureBody.parse]
    refine read_bind_eq_some.mpr
      ⟨parameters, _, parseParameterTypes_chars hparameters budget (by omega) _, ?_⟩
    refine read_bind_eq_some.mpr
      ⟨result, _, parseResult_chars budget hresult (by omega) _, ?_⟩
    exact read_bind_eq_some.mpr ⟨throws, [], hthrown, rfl⟩
  | types first rest =>
    obtain ⟨hfirst, hrest⟩ := hwell
    obtain ⟨c, text, htext, hc⟩ := first.chars_cons
    simp only [chars, List.length_append] at hbudget
    have htype := first.parse_chars budget hfirst (by omega) (rest.flatMap RefType.chars)
    rw [chars]
    rw [htext, List.cons_append] at htype ⊢
    rw [SignatureBody.parse]
    · exact read_bind_eq_some.mpr ⟨first, _, htype, Option.bind_eq_some_iff.mpr
        ⟨rest, parseRefTypes_chars hrest budget (by omega), rfl⟩⟩
    · intro rest' hsame
      exact hc.ne (by simp [BeginsType]) (List.cons.inj hsame).1

end SignatureBody

namespace Signature

theorem parseWithin_chars {signature : Signature} (hwell : signature.WellFormed) {budget : Nat}
    (hbudget : 2 * signature.chars.length < budget) :
    parseWithin budget signature.chars = some signature := by
  obtain ⟨parameters, body⟩ := signature
  cases parameters with
  | none =>
    have hbody := SignatureBody.parse_chars hwell.body budget hbudget
    change parseWithin budget body.chars = _
    unfold parseWithin
    split
    · rename_i text htext
      exact absurd (congrArg List.head? htext) body.head?_chars
    · rw [hbody]
      rfl
  | some parameters =>
    have htext : chars ⟨some parameters, body⟩ =
        '<' :: (parameters.flatMap TypeParameter.chars ++ '>' :: body.chars) := by simp [chars]
    rw [htext] at hbudget ⊢
    simp only [List.length_cons, List.length_append] at hbudget
    have hparameters := parseTypeParameters_chars (hwell.typeParameters parameters rfl) budget
      (by omega) body.chars
    have hbody := SignatureBody.parse_chars hwell.body budget (by dsimp only; omega)
    rw [parseWithin]
    exact read_bind_eq_some.mpr ⟨parameters, _, hparameters, Option.bind_eq_some_iff.mpr
      ⟨body, hbody, rfl⟩⟩

theorem parse_chars {signature : Signature} (hwell : signature.WellFormed) :
    parse signature.chars = some signature := parseWithin_chars hwell (Nat.lt_succ_self _)

theorem parseWithin_eq_parse {text : List Char} {budget : Nat}
    (hbudget : 2 * text.length < budget) : parseWithin budget text = parse text := by
  apply Option.ext
  intro signature
  constructor
  · intro h
    obtain ⟨rfl, hwell⟩ := faithful_parseWithin h
    exact parse_chars hwell
  · intro h
    obtain ⟨rfl, hwell⟩ := faithful_parse h
    exact parseWithin_chars hwell hbudget

end Signature

end StaticCompanion
