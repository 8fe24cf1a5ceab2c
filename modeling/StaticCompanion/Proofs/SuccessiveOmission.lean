import StaticCompanion.Proofs.Omitted
import StaticCompanion.Proofs.Payloads
import StaticCompanion.Proofs.SuccessiveFilters

/-!
# Omitting annotations again

Whether annotations can be omitted from a class does not depend on which ones are, and omitting
some after others leaves what omitting all of them at once leaves. An attribute may keep its bytes
in one case and be encoded anew in the other, but a payload has one spelling only: each treatment
of an attribute is told as filtering the value that the payload spells.
-/
namespace StaticCompanion

namespace Omission

section Lists
variable {α : Type} {omitted : NameSet} {pool : ConstantPool} {use : α → AnnotationUse}

/-- An item of a list of annotations, unless it is omitted. -/
def keepOne (pool : ConstantPool) (use : α → AnnotationUse) (omitted : NameSet) (item : α) :
    Except ClassFault (Option α) := do
  return if ← omits omitted pool (use item) then none else some item

theorem keepOne_eq_ok {item : α} {kept : Option α} :
    keepOne pool use omitted item = .ok kept ↔ ∃ descriptor,
      (use item).descriptorIn pool = .ok descriptor ∧
        kept = if descriptor ∈ omitted then none else some item := by
  simp only [keepOne, omits, except_bind_eq_ok, except_pure_eq_ok,
    ← Std.ExtTreeSet.contains_iff_mem]
  constructor
  · rintro ⟨_, ⟨descriptor, hdescriptor, rfl⟩, rfl⟩
    exact ⟨descriptor, hdescriptor, rfl⟩
  · rintro ⟨descriptor, hdescriptor, rfl⟩
    exact ⟨_, ⟨descriptor, hdescriptor, rfl⟩, rfl⟩

theorem filterAuxM_append {ε : Type} {f : α → Except ε Bool} (items kept : List α) :
    items.filterAuxM f kept = (· ++ kept) <$> items.filterAuxM f [] := by
  induction items generalizing kept with
  | nil => rfl
  | cons item items ih =>
    simp only [List.filterAuxM]
    cases f item with
    | error fault => rfl
    | ok hold =>
      change items.filterAuxM f (cond hold (item :: kept) kept) =
        (· ++ kept) <$> items.filterAuxM f (cond hold [item] [])
      cases hold with
      | false => exact ih kept
      | true =>
        rw [cond_true, cond_true, ih (item :: kept), ih [item]]
        cases items.filterAuxM f [] with
        | error fault => rfl
        | ok rest => simp [Functor.map, Except.map]

theorem filterM_cons {ε : Type} {f : α → Except ε Bool} (item : α) (items : List α) :
    (item :: items).filterM f = do
      let hold ← f item
      let rest ← items.filterM f
      return if hold then item :: rest else rest := by
  simp only [List.filterM, List.filterAuxM]
  cases f item with
  | error fault => rfl
  | ok hold =>
    change (items.filterAuxM f (cond hold [item] []) >>= _) = (items.filterAuxM f [] >>= _) >>= _
    rw [filterAuxM_append]
    cases items.filterAuxM f [] with
    | error fault => rfl
    | ok rest =>
      cases hold with
      | false => simp [Functor.map, Except.map, bind, Except.bind, pure, Except.pure]
      | true => simp [Functor.map, Except.map, bind, Except.bind, pure, Except.pure]

theorem keep_eq_filterMapM (items : List α) :
    keep omitted pool use items = items.filterMapM (keepOne pool use omitted) := by
  unfold keep
  induction items with
  | nil => rfl
  | cons item items ih =>
    rw [List.filterMapM_cons, filterM_cons, ih]
    unfold keepOne
    cases omits omitted pool (use item) with
    | error fault => rfl
    | ok out =>
      cases out with
      | false => rfl
      | true => exact bind_pure (m := Except ClassFault) _

theorem composes_keep (items : List α) :
    Composes (fun omitted items => keep omitted pool use items) items := by
  simp only [keep_eq_filterMapM]
  refine Composes.filterMapM fun item _ => ?_
  cases htype : (use item).descriptorIn pool with
  | error fault =>
    refine .refused fault fun omitted => ?_
    simp only [onKept, keepOne, omits, htype]
    rfl
  | ok type =>
    have hone (omitted : NameSet) : keepOne pool use omitted item =
        .ok (if omitted.contains type then none else some item) := by
      simp only [keepOne, omits, htype]
      rfl
    refine .filtered (fun omitted => if omitted.contains type then none else some item) hone
      fun first second => ?_
    by_cases hfirst : first.contains type
    · simp [hfirst, onKept]
    · simp [hfirst, onKept, hone]

theorem sublist_of_keep {items kept : List α} (h : keep omitted pool use items = .ok kept) :
    kept.Sublist items := by
  rw [keep_eq_filterMapM, except_filterMapM_eq_ok] at h
  obtain ⟨options, hoptions, rfl⟩ := h
  induction hoptions with
  | nil => exact .slnil
  | @cons item option items options hitem _ ih =>
    simp only [keepOne, except_bind_eq_ok, except_pure_eq_ok] at hitem
    obtain ⟨out, -, rfl⟩ := hitem
    cases out with
    | true => exact ih.cons item
    | false => exact ih.cons_cons item

end Lists

section Kinds
variable {α : Type} {pool : ConstantPool} {use : α → AnnotationUse}

theorem filterList_eq_recode {fits : List α → Prop} {format : Format (List α)}
    (hformat : format.Exact fits) : (fun omitted => filterList omitted pool format use) =
      recode format (fun omitted items => liftM (keep omitted pool use items))
        (fun _ kept => kept.isEmpty) := by
  funext omitted attr
  cases hdecode : format.decode attr.info with
  | error fault =>
    simp only [filterList, recode, hdecode]
    rfl
  | ok items =>
    simp only [filterList, recode, hdecode, lift_class_ok_bind]
    cases hkeep : keep omitted pool use items with
    | error fault => rfl
    | ok kept =>
      simp only [lift_class_ok_bind]
      refine if_congr Iff.rfl rfl ?_
      split
      · rename_i hlen
        rw [(sublist_of_keep hkeep).eq_of_length hlen, encode_decoded hformat hdecode]
        rfl
      · rfl

theorem listFits_of_sublist {fits : α → Prop} {width : Nat} {items kept : List α}
    (h : Format.ListFits width fits items) (hsub : kept.Sublist items) :
    Format.ListFits width fits kept :=
  ⟨Nat.lt_of_le_of_lt hsub.length_le h.length_lt, fun item hmem => h.fits item (hsub.mem hmem)⟩

theorem composes_filterList {fits : α → Prop} {item : Format α} (hitem : item.Exact fits)
    (pool : ConstantPool) (use : α → AnnotationUse) (attr : Attribute) :
    Composes (onKept fun omitted => filterList omitted pool (Format.list 2 item) use)
      (some attr) := by
  rw [filterList_eq_recode (hitem.list 2)]
  refine composes_recode (hitem.list 2) (fun items => (composes_keep items).mapError _) ?_ ?_ attr
  · intro omitted items kept hfits hkeep
    exact listFits_of_sublist hfits (sublist_of_keep (lift_class_eq_ok.mp hkeep))
  · intro first second items a b _ hsecond
    -- nothing is left of an empty list
    have hsub := sublist_of_keep (lift_class_eq_ok.mp hsecond)
    simp only [List.isEmpty_iff]
    refine ⟨.inr, ?_⟩
    rintro (rfl | hb)
    · exact List.sublist_nil.mp hsub
    · exact hb

theorem sublists_of_keep {omitted : NameSet} {lists kept : List (List AnnotationUse)}
    (h : lists.mapM (keep omitted pool id) = .ok kept) :
    List.Forall₂ List.Sublist kept lists :=
  ((except_mapM_eq_ok.mp h).imp fun _ _ => sublist_of_keep).flip

theorem eq_of_sublists {lists kept : List (List AnnotationUse)}
    (h : List.Forall₂ List.Sublist kept lists)
    (hlen : kept.map List.length = lists.map List.length) : kept = lists := by
  induction h with
  | nil => rfl
  | cons hsub _ ih =>
    obtain ⟨hhead, htail⟩ := List.cons.inj hlen
    rw [hsub.eq_of_length hhead, ih htail]

theorem all_isEmpty_of_sublists {lists kept : List (List AnnotationUse)}
    (h : List.Forall₂ List.Sublist kept lists) (hempty : lists.all List.isEmpty) :
    kept.all List.isEmpty := by
  simp only [List.all_eq_true, List.isEmpty_iff] at hempty ⊢
  intro list hmem
  obtain ⟨before, hbefore, hsub⟩ := forall₂_mem_left h hmem
  obtain rfl := hempty before hbefore
  exact List.sublist_nil.mp hsub

theorem lengths_of_all_isEmpty {lists kept : List (List AnnotationUse)}
    (h : List.Forall₂ List.Sublist kept lists) (hempty : lists.all List.isEmpty) :
    kept.map List.length = lists.map List.length := by
  induction h with
  | nil => rfl
  | @cons list before _ _ hsub _ ih =>
    simp only [List.all_cons, Bool.and_eq_true, List.isEmpty_iff] at hempty
    obtain ⟨rfl, hrest⟩ := hempty
    obtain rfl := List.sublist_nil.mp hsub
    rw [List.map_cons, List.map_cons, ih hrest]

theorem exact_parameters :
    AnnotationUse.parametersFormat.Exact
      (Format.ListFits 1 (Format.ListFits 2 AnnotationUse.Fits)) :=
  (AnnotationUse.exact_format.list 2).list 1

theorem filterParameters_eq_recode : (fun omitted => filterParameters omitted pool) =
    recode AnnotationUse.parametersFormat
      (fun omitted lists => liftM (lists.mapM (keep omitted pool id) : Except ClassFault _))
      (fun lists kept => kept.all List.isEmpty ∧ ¬ lists.all List.isEmpty) := by
  funext omitted attr
  cases hdecode : AnnotationUse.parametersFormat.decode attr.info with
  | error fault =>
    simp only [filterParameters, recode, hdecode]
    rfl
  | ok lists =>
    simp only [filterParameters, recode, hdecode, lift_class_ok_bind]
    cases hkeep : lists.mapM (keep omitted pool id) with
    | error fault => rfl
    | ok kept =>
      have hsub := sublists_of_keep hkeep
      simp only [lift_class_ok_bind]
      by_cases hlen : kept.map List.length = lists.map List.length
      · obtain rfl := eq_of_sublists hsub hlen
        rw [if_pos rfl, if_neg (fun h => h.2 h.1), encode_decoded exact_parameters hdecode]
        rfl
      · have hfull : ¬ lists.all List.isEmpty := fun h => hlen (lengths_of_all_isEmpty hsub h)
        rw [if_neg hlen]
        exact if_congr (and_iff_left hfull).symm rfl rfl

theorem composes_filterParameters (pool : ConstantPool) (attr : Attribute) :
    Composes (onKept fun omitted => filterParameters omitted pool) (some attr) := by
  rw [filterParameters_eq_recode]
  refine composes_recode exact_parameters
    (fun lists => (Composes.mapM fun items _ => composes_keep items).mapError _) ?_ ?_ attr
  · intro omitted lists kept hfits hkeep
    have hsub := sublists_of_keep (lift_class_eq_ok.mp hkeep)
    refine ⟨hsub.length_eq ▸ hfits.length_lt, fun items hmem => ?_⟩
    obtain ⟨before, hbefore, hitems⟩ := forall₂_mem_left hsub hmem
    exact listFits_of_sublist (hfits.fits before hbefore) hitems
  · intro first second lists a b hfirst hsecond
    have ha := all_isEmpty_of_sublists (sublists_of_keep (lift_class_eq_ok.mp hfirst))
    have hb := all_isEmpty_of_sublists (sublists_of_keep (lift_class_eq_ok.mp hsecond))
    tauto

theorem length_write_le_of_sublist {item : Format α} {width : Nat} {items kept : List α}
    (hsub : kept.Sublist items) {bytes bytes' : Bytes}
    (hwrite : (Format.list width item).write items = .ok bytes)
    (hwrite' : (Format.list width item).write kept = .ok bytes') :
    bytes'.length ≤ bytes.length := by
  obtain ⟨-, parts, hparts, rfl⟩ := Format.list_write_eq_ok.mp hwrite
  obtain ⟨-, parts', hparts', rfl⟩ := Format.list_write_eq_ok.mp hwrite'
  have hflat : parts'.flatten.length ≤ parts.flatten.length := by
    clear hwrite hwrite'
    induction hsub generalizing parts parts' with
    | slnil =>
      cases hparts'
      exact Nat.zero_le _
    | cons value _ ih =>
      cases hparts with
      | cons _ hrest =>
        have hle := ih _ hrest _ hparts'
        rw [List.flatten_cons, List.length_append]
        omega
    | cons_cons value _ ih =>
      cases hparts with
      | cons hpart hrest =>
        cases hparts' with
        | cons hpart' hrest' =>
          obtain rfl := Except.ok.inj (hpart.symm.trans hpart')
          have hle := ih _ hrest _ hrest'
          simp only [List.flatten_cons, List.length_append]
          omega
  simp only [List.length_append, length_bigEndian]
  omega

theorem length_le_of_filterList {fits : α → Prop} {item : Format α} (hitem : item.Exact fits)
    {omitted : NameSet} {attr kept : Attribute}
    (h : filterList omitted pool (Format.list 2 item) use attr = .ok (some kept)) :
    kept.info.length ≤ attr.info.length := by
  simp only [filterList, except_bind_eq_ok, lift_class_eq_ok] at h
  obtain ⟨items, hdecode, others, hkeep, h⟩ := h
  split at h
  · cases except_pure_eq_ok.mp h
  split at h
  · obtain rfl := Option.some.inj (except_pure_eq_ok.mp h)
    exact Nat.le_refl _
  · simp only [except_bind_eq_ok, lift_write_eq_ok, except_pure_eq_ok, Option.some.injEq] at h
    obtain ⟨_, hencode, rfl⟩ := h
    obtain ⟨info, hwrite, rfl⟩ := Attribute.encode_eq_ok_iff.mp hencode
    exact length_write_le_of_sublist (sublist_of_keep hkeep)
      (write_of_decode (hitem.list 2) hdecode) hwrite

end Kinds

section Attributes
variable {pool : ConstantPool} {attr : Attribute}

/-- What is done, under any names, with the attributes of one sort in one place. -/
inductive Treatment (pool : ConstantPool) :
    (NameSet → Attribute → Except RelocationFault (Option Attribute)) → Prop where
  | stays : Treatment pool fun _ attr => .ok (some attr)
  | goes : Treatment pool fun _ _ => .ok none
  | annotations : Treatment pool fun omitted =>
      filterList omitted pool AnnotationUse.listFormat id
  | typeAnnotations : Treatment pool fun omitted =>
      filterList omitted pool TypeAnnotationUse.listFormat TypeAnnotationUse.content
  | parameters : Treatment pool fun omitted => filterParameters omitted pool

theorem exists_treatment (pool : ConstantPool) (place : Place) (sort : Option AttributeName) :
    ∃ run, Treatment pool run ∧ ∀ omitted attr, attr.sort pool = .ok sort →
      filterPlain omitted pool place attr = run omitted attr := by
  unfold filterPlain
  cases sort with
  | none => exact ⟨_, .stays, fun _ _ hsort => by rw [hsort]; rfl⟩
  | some sort =>
    cases sort <;> cases place <;> first
      | exact ⟨_, .stays, fun _ _ hsort => by rw [hsort]; rfl⟩
      | exact ⟨_, .goes, fun _ _ hsort => by rw [hsort]; rfl⟩
      | exact ⟨_, .annotations, fun _ _ hsort => by rw [hsort]; rfl⟩
      | exact ⟨_, .typeAnnotations, fun _ _ hsort => by rw [hsort]; rfl⟩
      | exact ⟨_, .parameters, fun _ _ hsort => by rw [hsort]; rfl⟩

theorem Treatment.composes
    {run : NameSet → Attribute → Except RelocationFault (Option Attribute)}
    (h : Treatment pool run) (attr : Attribute) : Composes (onKept run) (some attr) := by
  cases h with
  | stays => exact .filtered (fun _ => some attr) (fun _ => rfl) fun _ _ => rfl
  | goes => exact .filtered (fun _ => none) (fun _ => rfl) fun _ _ => rfl
  | annotations => exact composes_filterList AnnotationUse.exact_format pool id attr
  | typeAnnotations =>
    exact composes_filterList TypeAnnotationUse.exact_format pool TypeAnnotationUse.content attr
  | parameters => exact composes_filterParameters pool attr

theorem Composes.of_name
    {run run' : NameSet → Attribute → Except RelocationFault (Option Attribute)}
    (h : Composes (onKept run) (some attr))
    (hname : ∀ omitted kept, run omitted attr = .ok kept → attr.KeepsName kept)
    (hsame : ∀ omitted (other : Attribute), other.name = attr.name →
      run' omitted other = run omitted other) : Composes (onKept run') (some attr) := by
  refine h.agree attr.KeepsName attr.keepsName_self hname fun omitted other hother => ?_
  cases other with
  | none => rfl
  | some other => exact hsame omitted other hother

theorem composes_filterPlain (pool : ConstantPool) (place : Place) (attr : Attribute) :
    Composes (onKept fun omitted => filterPlain omitted pool place) (some attr) := by
  cases hsort : attr.sort pool with
  | error fault =>
    refine .refused (.parse fault) fun omitted => ?_
    simp only [onKept, filterPlain, hsort]
    rfl
  | ok sort =>
    obtain ⟨run, htreatment, hrun⟩ := exists_treatment pool place sort
    refine (htreatment.composes attr).of_name (fun omitted kept hkept => ?_)
      fun omitted other hname => hrun omitted other ((Attribute.sort_of_name hname).trans hsort)
    exact (filterPlain_eq_ok ((hrun omitted attr hsort).trans hkept)).1

theorem length_le_of_filterPlain {omitted : NameSet} {kept : Attribute}
    (h : filterPlain omitted pool .code attr = .ok (some kept)) :
    kept.info.length ≤ attr.info.length := by
  have hself (h : (pure (some attr) : Except RelocationFault _) = .ok (some kept)) :
      kept.info.length ≤ attr.info.length := by
    obtain rfl := Option.some.inj (except_pure_eq_ok.mp h)
    exact Nat.le_refl _
  simp only [filterPlain, except_bind_eq_ok, reduceCtorEq, ne_eq, not_false_eq_true, if_true,
    if_false] at h
  obtain ⟨sort, -, h⟩ := h
  split at h
  case h_3 | h_4 => exact length_le_of_filterList TypeAnnotationUse.exact_format h
  all_goals exact hself h

/-- Filters the attributes of code. -/
def keepInCode (pool : ConstantPool) (omitted : NameSet) (code : Code) :
    Except RelocationFault Code :=
  (fun attributes => { code with attributes }) <$>
    code.attributes.filterMapM (filterPlain omitted pool .code)

theorem filterCode_eq_recode :
    (fun omitted attr => some <$> filterCode omitted pool attr) =
      recode Code.format (keepInCode pool) fun _ _ => False := by
  funext omitted attr
  cases hdecode : Code.format.decode attr.info with
  | error fault =>
    simp only [filterCode, recode, hdecode]
    rfl
  | ok code =>
    simp only [filterCode, recode, hdecode, keepInCode, lift_class_ok_bind]
    cases hkeep : code.attributes.filterMapM (filterPlain omitted pool .code) with
    | error fault => rfl
    | ok kept =>
      change (some <$> if kept = code.attributes then _ else _) =
        (liftM (attr.encode Code.format { code with attributes := kept }) >>= _)
      split
      · rename_i hsame
        rw [hsame, encode_decoded Code.exact_format hdecode]
        rfl
      · cases attr.encode Code.format { code with attributes := kept } <;> rfl

theorem fits_of_keepInCode {omitted : NameSet} {code kept : Code} (hfits : code.Fits)
    (h : keepInCode pool omitted code = .ok kept) : kept.Fits := by
  obtain ⟨attributes, hattributes, rfl⟩ := except_map_eq_ok.mp h
  refine ⟨hfits.bytes, hfits.handlers, ?_, fun attr hmem => ?_⟩
  · obtain ⟨options, hoptions, rfl⟩ := except_filterMapM_eq_ok.mp hattributes
    have hle := List.reduceOption_length_le options
    rw [← hoptions.length_eq] at hle
    exact Nat.lt_of_le_of_lt hle hfits.attributes.length_lt
  · obtain ⟨before, hbefore, hfilter⟩ := (mem_of_filterMapM hattributes).mp hmem
    exact Nat.lt_of_le_of_lt (length_le_of_filterPlain hfilter)
      (hfits.attributes.fits before hbefore)

theorem composes_filterCode (pool : ConstantPool) (attr : Attribute) :
    Composes (onKept fun omitted attr => some <$> filterCode omitted pool attr) (some attr) := by
  rw [filterCode_eq_recode]
  refine composes_recode Code.exact_format (fun code => ?_) (fun _ _ _ => fits_of_keepInCode)
    (by simp) attr
  exact Composes.within Code.attributes (fun code attributes => { code with attributes })
    (fun _ _ => rfl) (fun _ _ _ => rfl)
    (Composes.filterMapM fun attr _ => composes_filterPlain pool .code attr)

theorem composes_filterAttribute (pool : ConstantPool) (place : Place) (attr : Attribute) :
    Composes (onKept fun omitted => filterAttribute omitted pool place) (some attr) := by
  cases hsort : attr.sort pool with
  | error fault =>
    refine .refused (.parse fault) fun omitted => ?_
    simp only [onKept, filterAttribute, hsort]
    rfl
  | ok sort =>
    by_cases hcode : place = .method ∧ sort = some .code
    · refine (composes_filterCode pool attr).of_name (fun omitted kept hkept => ?_)
        fun omitted other hname => ?_
      · obtain ⟨attr', hattr', rfl⟩ := except_map_eq_ok.mp hkept
        exact (filterCode_eq_ok hattr').1
      simp only [filterAttribute, Attribute.sort_of_name hname, hsort, lift_class_ok_bind,
        if_pos hcode]
      cases filterCode omitted pool other <;> rfl
    · refine (composes_filterPlain pool place attr).of_name
        (fun _ _ hkept => (filterPlain_eq_ok hkept).1) fun omitted other hname => ?_
      simp only [filterAttribute, Attribute.sort_of_name hname, hsort, lift_class_ok_bind,
        if_neg hcode]

theorem composes_filterAttributes (pool : ConstantPool) (place : Place)
    (attributes : List Attribute) :
    Composes (fun omitted => filterAttributes omitted pool place) attributes :=
  Composes.filterMapM fun attr _ => composes_filterAttribute pool place attr

end Attributes

theorem composes_filterMember (pool : ConstantPool) (place : Place) (member : Member) :
    Composes (fun omitted => filterMember omitted pool place) member := by
  have hmember := (composes_filterAttributes pool place member.attributes).within
    Member.attributes (fun member attributes => { member with attributes }) (fun _ _ => rfl)
    (fun _ _ _ => rfl)
  exact hmember

theorem composes_omitAnnotations (file : ClassFile) :
    Composes (fun omitted (file : ClassFile) => file.omitAnnotations omitted) file := by
  have hattributes := composes_filterAttributes file.pool .class file.attributes
  have hfields := Composes.mapM fun field (_ : field ∈ file.fields) =>
    composes_filterMember file.pool .field field
  have hmethods := Composes.mapM fun method (_ : method ∈ file.methods) =>
    composes_filterMember file.pool .method method
  have hfile := (hattributes.pair (hfields.pair hmethods)).within
    (fun file : ClassFile => (file.attributes, file.fields, file.methods))
    (fun file (attributes, fields, methods) => { file with fields, methods, attributes })
    (fun _ _ => rfl) (fun _ _ _ => rfl)
  refine hfile.agree (fun other => other.pool = file.pool) rfl ?_ ?_
  · intro omitted other hother
    obtain ⟨parts, -, rfl⟩ := except_map_eq_ok.mp hother
    rfl
  · intro omitted other hpool
    simp only [ClassFile.omitAnnotations, hpool]
    cases filterAttributes omitted file.pool .class other.attributes with
    | error fault => rfl
    | ok attributes =>
      cases other.fields.mapM (filterMember omitted file.pool .field) with
      | error fault => rfl
      | ok fields => cases other.methods.mapM (filterMember omitted file.pool .method) <;> rfl

end Omission

/-- Whether annotations can be omitted from a class does not depend on which ones are. Omitting some
and then others comes to omitting all of them at once; so omitting the same ones again changes
nothing, and the order is of no account. -/
theorem ClassFile.omitAnnotations_twice (file : ClassFile) (first second : NameSet) :
    ((∃ left, file.omitAnnotations first = .ok left) ↔
      ∃ left, file.omitAnnotations second = .ok left) ∧
    (file.omitAnnotations first >>= fun left => left.omitAnnotations second) =
      file.omitAnnotations (first ∪ second) ∧
    (file.omitAnnotations first >>= fun left => left.omitAnnotations first) =
      file.omitAnnotations first ∧
    (file.omitAnnotations first >>= fun left => left.omitAnnotations second) =
      file.omitAnnotations second >>= fun left => left.omitAnnotations first := by
  have h := Omission.composes_omitAnnotations file
  have hself : first ∪ first = first := Std.ExtTreeSet.ext_mem (by simp)
  have hcomm : second ∪ first = first ∪ second := Std.ExtTreeSet.ext_mem (by simp [or_comm])
  refine ⟨h.succeeds_iff first second, h.twice first second, ?_, ?_⟩
  · exact (h.twice first first).trans (congrArg file.omitAnnotations hself)
  · refine (h.twice first second).trans (Eq.trans ?_ (h.twice second first).symm)
    exact congrArg file.omitAnnotations hcomm.symm

end StaticCompanion
