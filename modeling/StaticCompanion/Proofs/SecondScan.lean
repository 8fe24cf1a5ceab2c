import StaticCompanion.Proofs.Frame
import StaticCompanion.Proofs.MappedMembers
import StaticCompanion.Proofs.SuccessiveOmission

/-!
# Scanning what was adapted

The marks of members that move are annotations, and they are left out when a class is adapted. Marks
are searched by internal name in the first attribute of a name; they are left out by descriptor from
all attributes. Neither following moved members nor replacing types brings one back, so there is
nothing to be found in a class that has been adapted.
-/
namespace StaticCompanion

namespace Omission
variable {omitted : NameSet} {p : ConstantPool} {place : Place} {attr attr' : Attribute}

theorem of_mem_keep {α : Type} {use : α → AnnotationUse} {items kept : List α}
    (h : keep omitted p use items = .ok kept) {item : α} (hmem : item ∈ kept) :
    ∃ descriptor, (use item).descriptorIn p = .ok descriptor ∧ descriptor ∉ omitted := by
  rw [keep_eq_filterMapM] at h
  obtain ⟨item', -, hkept⟩ := (mem_of_filterMapM h).mp hmem
  obtain ⟨descriptor, hdescriptor, hkept⟩ := keepOne_eq_ok.mp hkept
  by_cases homitted : descriptor ∈ omitted
  · simp [homitted] at hkept
  · rw [if_neg homitted] at hkept
    obtain rfl := Option.some.inj hkept
    exact ⟨descriptor, hdescriptor, homitted⟩

theorem decode_of_filterList {α : Type} {format : Format (List α)} {use : α → AnnotationUse}
    (hformat : format.ReadsBack) (h : filterList omitted p format use attr = .ok (some attr')) :
    ∃ items kept, keep omitted p use items = .ok kept ∧ format.decode attr'.info = .ok kept := by
  simp only [filterList, except_bind_eq_ok, lift_class_eq_ok] at h
  obtain ⟨items, hitems, kept, hkept, h⟩ := h
  refine ⟨items, kept, hkept, ?_⟩
  split at h
  · cases except_pure_eq_ok.mp h
  split at h
  · rename_i hlen
    obtain rfl := Option.some.inj (except_pure_eq_ok.mp h)
    rwa [(sublist_of_keep hkept).eq_of_length hlen]
  · simp only [except_bind_eq_ok, lift_write_eq_ok, except_pure_eq_ok] at h
    obtain ⟨encoded, hencode, hsame⟩ := h
    obtain rfl := Option.some.inj hsame
    exact (Attribute.encode_eq_ok hformat hencode).2

end Omission

/-- The annotations of the attribute can be read, and none of them is omitted. -/
def Attribute.HoldsNone (omitted : NameSet) (pool : ConstantPool) (attr : Attribute) : Prop :=
  ∃ uses, AnnotationUse.listFormat.decode attr.info = .ok uses ∧
    ∀ use ∈ uses, ∃ descriptor,
      AnnotationUse.descriptorIn use pool = .ok descriptor ∧ descriptor ∉ omitted

/-- If the attribute is one in which marks are searched, it holds no omitted annotation. -/
def Attribute.IsCleared (omitted : NameSet) (pool : ConstantPool) (attr : Attribute) : Prop :=
  ∃ sort, attr.sort pool = .ok sort ∧
    (sort = some .visibleAnnotations ∨ sort = some .invisibleAnnotations →
      attr.HoldsNone omitted pool)

section Clearing
variable {omitted : NameSet} {options : Options} {analysis : Analysis} {p pool q : ConstantPool}
  {place : Omission.Place} {attr attr' : Attribute}

theorem Omission.isCleared_of_filterPlain (hplace : place ≠ .code)
    (h : Omission.filterPlain omitted p place attr = .ok (some attr')) :
    attr'.IsCleared omitted p := by
  have hname := (Omission.filterPlain_eq_ok h).1
  simp only [Omission.filterPlain, except_bind_eq_ok, lift_class_eq_ok] at h
  obtain ⟨sort, hsort, h⟩ := h
  refine ⟨sort, (Attribute.sort_of_name hname).trans hsort, ?_⟩
  have hholds (h : Omission.filterList omitted p AnnotationUse.listFormat id attr =
      .ok (some attr')) : attr'.HoldsNone omitted p := by
    obtain ⟨items, kept, hkept, hdecode⟩ :=
      Omission.decode_of_filterList (AnnotationUse.exact_format.list 2).readsBack h
    exact ⟨kept, hdecode, fun use hmem => Omission.of_mem_keep hkept hmem⟩
  rintro (rfl | rfl)
  · exact hholds (by simpa [hplace] using h)
  · exact hholds (by simpa [hplace] using h)

theorem Omission.isCleared_of_pass (hplace : place ≠ .code)
    (h : Omission.pass omitted p place attr (some attr')) : attr'.IsCleared omitted p := by
  simp only [Omission.pass, Omission.filterAttribute, except_bind_eq_ok, lift_class_eq_ok] at h
  obtain ⟨sort, hsort, h⟩ := h
  split at h
  · rename_i hcode
    simp only [except_bind_eq_ok, except_pure_eq_ok] at h
    obtain ⟨left, hfilter, hsame⟩ := h
    obtain rfl := Option.some.inj hsame
    have hname := (Omission.filterCode_eq_ok hfilter).1
    refine ⟨sort, (Attribute.sort_of_name hname).trans hsort, ?_⟩
    simp [hcode.2]
  · exact Omission.isCleared_of_filterPlain hplace h

theorem Attribute.IsCleared.rewriting (h : attr.IsCleared omitted p) (hle : p ≤ pool)
    (hkeeps : pool.KeepsPlaces q)
    (hrun : rewriting options analysis pool q place attr (some attr')) :
    attr'.IsCleared omitted q := by
  obtain ⟨sort, hsort, hholds⟩ := h
  have hlast := ConstantPool.keepsPlaces_of_le_left hle hkeeps
  obtain ⟨_, hsame, hname, hkept⟩ := framed_of_rewriting hle hkeeps hsort hrun
  obtain rfl := Option.some.inj hsame
  refine ⟨sort, (Attribute.sort_of_name hname).trans (hlast.sort hsort), ?_⟩
  intro hannotations
  have hother : sort.any place.rewrites = false := by
    rcases hannotations with rfl | rfl <;> rfl
  rw [hkept hother]
  obtain ⟨uses, hdecode, hnone⟩ := hholds hannotations
  refine ⟨uses, hdecode, ?_⟩
  intro use hmem
  obtain ⟨descriptor, hdescriptor, hleft⟩ := hnone use hmem
  have htext := hlast.text (mapError_eq_ok.mp hdescriptor)
  exact ⟨descriptor, mapError_eq_ok.mpr htext, hleft⟩

theorem isCleared_of_adaptation (hle : p ≤ pool) (hkeeps : pool.KeepsPlaces q)
    (hplace : place ≠ .code)
    (h : adaptation options analysis p pool q place attr (some attr')) :
    attr'.IsCleared options.omitted q := by
  obtain ⟨middle, hfiltered, hrest⟩ := h
  cases middle with
  | none => cases hrest
  | some attr₁ =>
    exact (Omission.isCleared_of_pass hplace hfiltered).rewriting hle hkeeps hrest

theorem not_isMarked_of_isCleared {supported : NameSet} {attributes : List Attribute}
    (homit : ∀ name ∈ supported, "L" ++ name ++ ";" ∈ omitted)
    (h : ∀ attr ∈ attributes, attr.IsCleared omitted q) : ¬ IsMarked q supported attributes := by
  rintro ⟨sort, attr, uses, use, type, hannotations, hfind, hdecode, hmem, hdescriptor, htype⟩
  obtain ⟨hattr, hname⟩ := Attribute.of_find?_eq_some hfind
  obtain ⟨sort', hsort, hholds⟩ := h attr hattr
  obtain rfl := Except.ok.inj (hsort.symm.trans (Attribute.sort_eq_some_iff.mpr hname))
  obtain ⟨uses', hdecode', hnone⟩ := hholds (by simpa using hannotations)
  obtain rfl := Except.ok.inj (hdecode.symm.trans hdecode')
  obtain ⟨descriptor, hdescriptor', hleft⟩ := hnone use hmem
  obtain rfl := Except.ok.inj (hdescriptor.symm.trans hdescriptor')
  exact hleft (homit type htype)

end Clearing

section Adapted
variable {supported : NameSet} {options : Options} {analysis : Analysis}
  {file adapted : ClassFile}

/-- No member of a class that has been adapted is marked. -/
theorem not_isMarked_of_adapt (hfits : file.pool.Fits)
    (h : file.adapt options analysis = .ok adapted)
    (homit : ∀ name ∈ supported, "L" ++ name ++ ";" ∈ options.omitted) :
    (∀ field ∈ adapted.fields, ¬ IsMarked adapted.pool supported field.attributes) ∧
      ∀ method ∈ adapted.methods, ¬ IsMarked adapted.pool supported method.attributes := by
  obtain ⟨pool, hle, hkeeps, hpassed⟩ := ClassFile.passedBy_of_adapt hfits h
  have hmember {place : Omission.Place} (hplace : place ≠ .code) {member member' : Member}
      (hmember : Member.PassedBy (adaptation options analysis file.pool pool adapted.pool place)
        member member') : ¬ IsMarked adapted.pool supported member'.attributes := by
    apply not_isMarked_of_isCleared homit
    intro attr' hattr
    obtain ⟨attr, -, hadaptation⟩ := hmember.attributes.exists_of_mem hattr
    exact isCleared_of_adaptation hle hkeeps hplace hadaptation
  constructor
  · intro field hfield
    obtain ⟨before, -, hbefore⟩ := forall₂_mem_right hpassed.fields hfield
    exact hmember (by decide) hbefore
  · intro method hmethod
    obtain ⟨before, -, hbefore⟩ := forall₂_mem_right hpassed.methods hmethod
    exact hmember (by decide) hbefore

end Adapted

namespace Scan
variable {supported : NameSet} {file : ClassFile} {state state' : Analysis}

theorem eq_of_not_isMarked
    (hfields : ∀ field ∈ file.fields, ¬ IsMarked file.pool supported field.attributes)
    (hmethods : ∀ method ∈ file.methods, ¬ IsMarked file.pool supported method.attributes)
    (hscan : scan supported file state = .ok () state') : state' = state := by
  obtain ⟨survey, hsurvey, -, hgains⟩ := Survey.scan_eq_ok_iff.mp hscan
  have hreaches (key : MemberKey) : ¬ survey.Reaches (· ∈ state.methods) key := by
    intro hreaches
    induction hreaches with
    | seed hseed _ =>
      obtain ⟨method, hmem, -, hmarked, -⟩ := (Survey.mem_staged_iff hsurvey).mp hseed
      exact hmethods method hmem hmarked
    | need _ _ _ _ ih => exact ih
  have hmarked (key : MemberKey) : key ∉ markedFields survey.fields := by
    intro hmem
    obtain ⟨field, hfield, -, hmarked⟩ := (Survey.mem_markedFields_iff hsurvey).mp hmem
    exact hfields field hfield hmarked
  have hsameMethods : state'.methods = state.methods := by
    apply Std.ExtTreeMap.ext_getElem?
    intro key
    apply Option.ext
    intro value
    rw [hgains.methods]
    simp [hreaches]
  have hsameFields : state'.fields = state.fields := by
    apply Std.ExtTreeMap.ext_getElem?
    intro key
    apply Option.ext
    intro value
    rw [hgains.fields]
    simp [hreaches, hmarked]
  have htypes := hgains.types
  cases state
  cases state'
  simp_all

theorem exists_key_of_scan {owner : String} (hname : file.name = .ok owner)
    (hscan : scan supported file state = .ok () state') :
    (∀ field ∈ file.fields, ∃ key, field.keyIn owner file.pool = .ok key) ∧
      ∀ method ∈ file.methods, ∃ key, method.keyIn owner file.pool = .ok key := by
  obtain ⟨survey, hsurvey, -⟩ := Survey.scan_eq_ok_iff.mp hscan
  obtain ⟨howner, hfields, -, hmethods, -⟩ := Survey.ofFile_eq_ok.mp hsurvey
  obtain rfl := Except.ok.inj (howner.symm.trans hname)
  constructor
  · intro field hmem
    obtain ⟨header, -, hread⟩ := forall₂_mem_left (except_mapM_eq_ok.mp hfields) hmem
    exact ⟨header.key, (Header.read_eq_ok hread).2.1⟩
  · intro method hmem
    obtain ⟨header, -, hread⟩ := forall₂_mem_left (except_mapM_eq_ok.mp hmethods) hmem
    exact ⟨header.key, (Header.read_eq_ok hread).2.1⟩

end Scan

theorem Companion.companion_eq_none {analysis : Analysis} {file : ClassFile} {owner : String}
    (hname : file.name = .ok owner)
    (hfields : ∀ field ∈ file.fields, ∃ key, field.keyIn owner file.pool = .ok key)
    (hmethods : ∀ method ∈ file.methods, ∃ key, method.keyIn owner file.pool = .ok key)
    (hnothing : analysis.MovesNothingFrom owner) : file.companion analysis = .ok none := by
  have hstays (field : Member) (hmem : field ∈ file.fields) :
      movingField? analysis file.pool owner field = .ok none := by
    obtain ⟨key, hkey⟩ := hfields field hmem
    have hunmapped := (hnothing key (Member.keyIn_eq_ok.mp hkey).1).1
    simp [movingField?, hkey, hunmapped]
  have hstays' (method : Member) (hmem : method ∈ file.methods) :
      movingMethod? analysis file.pool owner method = .ok none := by
    obtain ⟨key, hkey⟩ := hmethods method hmem
    have hunmapped := (hnothing key (Member.keyIn_eq_ok.mp hkey).1).2
    simp [movingMethod?, hkey, hunmapped]
  simp [ClassFile.companion, hname, except_filterMapM_eq_nil hstays,
    except_filterMapM_eq_nil hstays']

/-- Nothing is found in an adapted class or companion, be it scanned as it is or after it has been
written and read back. If nothing is known to move from a class of its name, it has no companion
again. -/
theorem ClassFile.scan_adapted {supported : NameSet} {options : Options}
    {analysis state state' : Analysis} {base file adapted scanned : ClassFile}
    (hfits : base.pool.Fits)
    (hfile : file = base ∨ ∃ moved, base.companion moved = .ok (some file))
    (hadapt : file.adapt options analysis = .ok adapted)
    (hscanned : scanned = adapted ∨ ConstantPool.empty ≤ base.pool ∧
      ∃ bytes, adapted.toBytes = .ok bytes ∧ ClassFile.ofBytes bytes = .ok scanned)
    (homit : ∀ name ∈ supported, "L" ++ name ++ ";" ∈ options.omitted)
    (hscan : Scan.scan supported scanned state = .ok () state') :
    state' = state ∧ ∀ owner, scanned.name = .ok owner → state.MovesNothingFrom owner →
      scanned.companion state' = .ok none := by
  have hgrown : base.pool ≤ file.pool ∧ file.pool.Fits := by
    rcases hfile with rfl | ⟨moved, hcompanion⟩
    · exact ⟨ConstantPool.le_refl _, hfits⟩
    · obtain ⟨_, hof⟩ := Companion.companionOf_of_companion hfits hcompanion
      exact ⟨hof.grows, hof.fits⟩
  have hsame : scanned = adapted := by
    rcases hscanned with rfl | ⟨hpool, bytes, hwrite, hread⟩
    · rfl
    · have hback := ofBytes_of_adapt (ConstantPool.le_trans hpool hgrown.1) hgrown.2 hadapt hwrite
      exact Except.ok.inj (hread.symm.trans hback)
  subst hsame
  obtain ⟨hfields, hmethods⟩ := not_isMarked_of_adapt hgrown.2 hadapt homit
  have hstays := Scan.eq_of_not_isMarked hfields hmethods hscan
  refine ⟨hstays, ?_⟩
  intro owner hname hnothing
  obtain ⟨hfieldKeys, hmethodKeys⟩ := Scan.exists_key_of_scan hname hscan
  exact hstays ▸ Companion.companion_eq_none hname hfieldKeys hmethodKeys hnothing

/-- The marked method is found in the class, and no longer once the class has been adapted. -/
theorem scan_adapted_of_markedUser :
    ∃ found adapted, Scan.scan userOptions.supported markedUser .empty = .ok () found ∧
      found.methods[(⟨"p/B", "run", "()V"⟩ : MemberKey)]? = some ⟨"p/DesugarB", "run", "()V"⟩ ∧
      markedUser.adapt userOptions userAnalysis = .ok adapted ∧
      Scan.scan userOptions.supported adapted .empty = .ok () .empty ∧
      adapted.companion .empty = .ok none := by
  have hfirst : ((Scan.extend userOptions.supported .empty markedUser).toOption.bind
      fun found => found.methods[(⟨"p/B", "run", "()V"⟩ : MemberKey)]?) =
        some ⟨"p/DesugarB", "run", "()V"⟩ := by decide +kernel
  have hsecond : ((markedUser.adapt userOptions userAnalysis).toOption.bind fun adapted =>
      (Scan.extend userOptions.supported .empty adapted).toOption.bind fun _ =>
        adapted.name.toOption) = some "p/B" := by decide +kernel
  obtain ⟨found, hfound, hvalue⟩ := Option.bind_eq_some_iff.mp hfirst
  obtain ⟨adapted, hadapt, hrest⟩ := Option.bind_eq_some_iff.mp hsecond
  obtain ⟨state', hextend, hname⟩ := Option.bind_eq_some_iff.mp hrest
  have hadapt := toOption_eq_some.mp hadapt
  have hscan := Scan.extend_eq_ok.mp (toOption_eq_some.mp hextend)
  have homit : ∀ name ∈ userOptions.supported, "L" ++ name ++ ";" ∈ userOptions.omitted := by
    intro name hname
    obtain rfl : "p/Api" = name := by simpa [userOptions] using hname
    decide
  obtain ⟨rfl, hnone⟩ := ClassFile.scan_adapted (by decide) (.inl rfl) hadapt (.inl rfl) homit hscan
  exact ⟨found, adapted, Scan.extend_eq_ok.mp (toOption_eq_some.mp hfound), hvalue, hadapt, hscan,
    hnone _ (toOption_eq_some.mp hname) (Analysis.movesNothingFrom_empty _)⟩

end StaticCompanion
