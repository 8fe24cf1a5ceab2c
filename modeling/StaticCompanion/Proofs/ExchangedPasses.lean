import StaticCompanion.Proofs.Frame
import StaticCompanion.Proofs.SharedConstants
import StaticCompanion.Proofs.SuccessiveOmission

/-!
# Omitting annotations before or after following moved members

What comes of omitting the annotations of a class and then following the members that it uses comes
of the two passes in the other order as well, down to the places of the constants. The first pass
reads constants, and these stay where they are when the second one puts others behind them. The
second one reads the bytes of code, which the first one leaves alone, so it puts the same constants
in the same order. Both may encode the same code anew, but a value has one spelling only.
-/
namespace StaticCompanion

namespace ConstantPool
variable {p q : ConstantPool}

theorem Extends.keepsPlaces (h : p.Extends q) : p.KeepsPlaces q := by
  intro i entry hentry
  rw [entry_eq_ok] at hentry
  have hlt := (Array.getElem?_eq_some_iff.mp hentry).1
  refine ⟨entry, entry_eq_ok.mpr ?_, .refl (fun _ _ => trivial) entry⟩
  rw [h.slots hlt, hentry]

/-- A change that succeeds has put constants behind those that were there, or none. -/
def Extending {ε α : Type} (change : PoolM ε α) : Prop :=
  ∀ ⦃p a q⦄, change p = .ok a q → p.Extends q

section Changes
variable {ε α β : Type}

theorem extending_pure (a : α) : Extending (pure a : PoolM ε α) := by
  intro p b q hrun
  obtain ⟨-, rfl⟩ := state_pure_eq_ok.mp hrun
  exact .refl p

theorem extending_get : Extending (get : PoolM ε ConstantPool) := by
  intro p pool q hrun
  obtain ⟨-, rfl⟩ := state_get_eq_ok.mp hrun
  exact .refl p

theorem Extending.bind {change : PoolM ε α} {next : α → PoolM ε β} (h : Extending change)
    (hnext : ∀ a, Extending (next a)) : Extending (change >>= next) := by
  intro p b r hrun
  obtain ⟨a, q, ha, hb⟩ := state_bind_eq_ok.mp hrun
  exact (h ha).trans (hnext a hb)

theorem Extending.mapM {change : α → PoolM ε β} (h : ∀ a, Extending (change a)) (as : List α) :
    Extending (as.mapM change) := by
  induction as with
  | nil => exact extending_pure []
  | cons a as ih =>
    rw [List.mapM_cons]
    exact (h a).bind fun _ => ih.bind fun _ => extending_pure _

theorem extending_lift {m : Type → Type} [MonadLiftT m (Except RelocationFault)] (step : m α) :
    Extending (liftM step : Relocation α) := by
  intro p a q hrun
  obtain ⟨-, rfl⟩ := state_lift_eq_ok.mp hrun
  exact .refl p

theorem extending_item (item : PoolItem) : Extending (liftM item.put : Relocation UInt16) :=
  fun p _ _ hrun => after_of_ok (lift_change_eq_ok.mp hrun) ▸ extends_item item p

end Changes

end ConstantPool

open ConstantPool (Extending extending_pure extending_get extending_lift extending_item)

namespace Retarget
variable {analysis : Analysis} {owners : Option NameSet}

theorem turnInstruction_extending (instruction : Instruction) :
    Extending (turnInstruction analysis owners instruction) := by
  unfold turnInstruction
  split
  · refine extending_get.bind fun pool => (extending_lift (pool.member _)).bind fun key => ?_
    split
    · exact (extending_item (.member .field _)).bind fun _ => extending_pure _
    · exact extending_pure _
  · refine extending_get.bind fun pool => (extending_lift (pool.member _)).bind fun key => ?_
    split
    · exact (extending_item (.member .method _)).bind fun _ => extending_pure _
    · exact extending_pure _
  · exact extending_pure _

theorem turnCode_extending (code : Bytes) : Extending (turnCode analysis owners code) :=
  (extending_lift _).bind fun instructions =>
    (Extending.mapM turnInstruction_extending instructions).bind fun _ => extending_pure _

theorem turnBootstrap_extending (bootstrap : Bootstrap) :
    Extending (turnBootstrap analysis bootstrap) := by
  refine extending_get.bind fun pool => (extending_lift (pool.methodHandle _)).bind ?_
  rintro ⟨kind, factory⟩
  dsimp only
  split
  · exact extending_pure _
  refine extending_get.bind fun pool => (extending_lift (lambdaBody pool _)).bind fun body => ?_
  split
  · exact extending_pure _
  split
  · exact extending_pure _
  · exact (extending_item (.member .method _)).bind fun reference =>
      (extending_item (.methodHandle staticHandle reference)).bind fun _ => extending_pure _

end Retarget

namespace Omission

section Places
variable {omitted : NameSet} {p q : ConstantPool} (hkeeps : p.KeepsPlaces q) {place : Place}
  {attr : Attribute} {left : Option Attribute}
include hkeeps

theorem keep_of_keepsPlaces {α : Type} {use : α → AnnotationUse} {items kept : List α}
    (h : keep omitted p use items = .ok kept) : keep omitted q use items = .ok kept := by
  rw [keep_eq_filterMapM] at h ⊢
  apply except_filterMapM_imp _ h
  intro item option hitem
  obtain ⟨descriptor, hdescriptor, rfl⟩ := keepOne_eq_ok.mp hitem
  have htext := hkeeps.text (mapError_eq_ok.mp hdescriptor)
  exact keepOne_eq_ok.mpr ⟨descriptor, mapError_eq_ok.mpr htext, rfl⟩

theorem filterList_of_keepsPlaces {α : Type} {format : Format (List α)} {use : α → AnnotationUse}
    (h : filterList omitted p format use attr = .ok left) :
    filterList omitted q format use attr = .ok left := by
  simp only [filterList, except_bind_eq_ok, lift_class_eq_ok] at h ⊢
  obtain ⟨items, hdecode, kept, hkeep, h⟩ := h
  exact ⟨items, hdecode, kept, keep_of_keepsPlaces hkeeps hkeep, h⟩

theorem filterParameters_of_keepsPlaces (h : filterParameters omitted p attr = .ok left) :
    filterParameters omitted q attr = .ok left := by
  simp only [filterParameters, except_bind_eq_ok, lift_class_eq_ok] at h ⊢
  obtain ⟨lists, hdecode, kept, hkept, h⟩ := h
  exact ⟨lists, hdecode, kept, except_mapM_imp (fun _ _ => keep_of_keepsPlaces hkeeps) hkept, h⟩

theorem filterPlain_of_keepsPlaces (h : filterPlain omitted p place attr = .ok left) :
    filterPlain omitted q place attr = .ok left := by
  simp only [filterPlain, except_bind_eq_ok, lift_class_eq_ok] at h ⊢
  obtain ⟨sort, hsort, h⟩ := h
  refine ⟨sort, hkeeps.sort hsort, ?_⟩
  cases sort with
  | none => exact h
  | some sort =>
    cases sort <;> cases place <;> first
      | exact h
      | exact filterList_of_keepsPlaces hkeeps h
      | exact filterParameters_of_keepsPlaces hkeeps h

theorem filterCode_of_keepsPlaces {attr' : Attribute} (h : filterCode omitted p attr = .ok attr') :
    filterCode omitted q attr = .ok attr' := by
  simp only [filterCode, except_bind_eq_ok, lift_class_eq_ok] at h ⊢
  obtain ⟨code, hdecode, kept, hkept, h⟩ := h
  exact ⟨code, hdecode, kept,
    except_filterMapM_imp (fun _ _ => filterPlain_of_keepsPlaces hkeeps) hkept, h⟩

theorem filterAttribute_of_keepsPlaces (h : filterAttribute omitted p place attr = .ok left) :
    filterAttribute omitted q place attr = .ok left := by
  obtain ⟨sort, hsort, h⟩ := filterAttribute_eq_ok.mp h
  refine filterAttribute_eq_ok.mpr ⟨sort, hkeeps.sort hsort, ?_⟩
  split at h
  · rename_i hcode
    obtain ⟨attr', hfilter, rfl⟩ := h
    rw [if_pos hcode]
    exact ⟨attr', filterCode_of_keepsPlaces hkeeps hfilter, rfl⟩
  · rename_i hother
    rw [if_neg hother]
    exact filterPlain_of_keepsPlaces hkeeps h

theorem filterAttributes_of_keepsPlaces {attributes kept : List Attribute}
    (h : filterAttributes omitted p place attributes = .ok kept) :
    filterAttributes omitted q place attributes = .ok kept :=
  except_filterMapM_imp (fun _ _ => filterAttribute_of_keepsPlaces hkeeps) h

theorem filterMember_of_keepsPlaces {member member' : Member}
    (h : filterMember omitted p place member = .ok member') :
    filterMember omitted q place member = .ok member' := by
  simp only [filterMember, except_bind_eq_ok] at h ⊢
  obtain ⟨attributes, hattributes, h⟩ := h
  exact ⟨attributes, filterAttributes_of_keepsPlaces hkeeps hattributes, h⟩

end Places

end Omission

/-- What a reading of a pool makes of a value, and a change of the pool of that, comes out as well
if the change comes first. The reading may then take place once further constants have been put. -/
def Exchanges {α β : Type} (read : ConstantPool → α → Except RelocationFault β)
    (turn : α → Relocation α) (turn' : β → Relocation β) (a : α) : Prop :=
  ∀ ⦃p q q' : ConstantPool⦄ ⦃b b' : β⦄, p.Extends q → read p a = .ok b → turn' b q = .ok b' q' →
    q.Extends q' ∧ ∃ a', turn a q = .ok a' q' ∧ ∀ r, q'.Extends r → read r a' = .ok b'

/-- A change of what is left of a value, if something is. -/
def turnLeft {α : Type} (turn : α → Relocation α) : Option α → Relocation (Option α)
  | none => return none
  | some a => return some (← turn a)

section Lists
variable {α β : Type} {turn : α → Relocation α}

theorem Exchanges.mapM {read : ConstantPool → α → Except RelocationFault β}
    {turn' : β → Relocation β} (h : ∀ a, Exchanges read turn turn' a) (as : List α) :
    Exchanges (fun p (as : List α) => as.mapM (read p)) (fun as => as.mapM turn)
      (fun bs => bs.mapM turn') as := by
  intro p q q' bs bs' hext hread hturn
  have hrows := except_mapM_eq_ok.mp hread
  clear hread
  induction hrows generalizing q bs' with
  | nil =>
    obtain ⟨rfl, rfl⟩ := state_pure_eq_ok.mp hturn
    exact ⟨.refl _, [], rfl, fun _ _ => rfl⟩
  | @cons a b as bs hread _ ih =>
    obtain ⟨b', q₁, rest, hb, hbs, rfl⟩ := state_mapM_cons_eq_ok.mp hturn
    obtain ⟨hext₁, a', ha, hlater⟩ := h a hext hread hb
    obtain ⟨hext₂, as', has, hrest⟩ := ih (hext.trans hext₁) hbs
    refine ⟨hext₁.trans hext₂, a' :: as', ?_, ?_⟩
    · exact state_mapM_cons_eq_ok.mpr ⟨a', q₁, as', ha, has, rfl⟩
    · intro r hr
      have hread' := hlater r (hext₂.trans hr)
      exact except_mapM_eq_ok.mpr (.cons hread' (except_mapM_eq_ok.mp (hrest r hr)))

theorem exists_turnLeft {options : List (Option α)} {kept : List α} {q q' : ConstantPool}
    (h : options.reduceOption.mapM turn q = .ok kept q') :
    ∃ options', options.mapM (turnLeft turn) q = .ok options' q' ∧
      kept = options'.reduceOption := by
  induction options generalizing q kept with
  | nil =>
    obtain ⟨rfl, rfl⟩ := state_pure_eq_ok.mp h
    exact ⟨[], rfl, rfl⟩
  | cons option options ih =>
    cases option with
    | none =>
      rw [List.reduceOption_cons_of_none] at h
      obtain ⟨options', hturn, rfl⟩ := ih h
      exact ⟨none :: options', state_mapM_cons_eq_ok.mpr ⟨none, q, options', rfl, hturn, rfl⟩,
        (List.reduceOption_cons_of_none _).symm⟩
    | some a =>
      rw [List.reduceOption_cons_of_some] at h
      obtain ⟨a', q₁, rest, ha, hrest, rfl⟩ := state_mapM_cons_eq_ok.mp h
      obtain ⟨options', hturn, rfl⟩ := ih hrest
      have ha' : turnLeft turn (some a) q = .ok (some a') q₁ :=
        state_bind_eq_ok.mpr ⟨a', q₁, ha, rfl⟩
      exact ⟨some a' :: options', state_mapM_cons_eq_ok.mpr ⟨_, q₁, options', ha', hturn, rfl⟩,
        (List.reduceOption_cons_of_some _ _).symm⟩

theorem Exchanges.filterMapM {read : ConstantPool → α → Except RelocationFault (Option α)}
    (h : ∀ a, Exchanges read turn (turnLeft turn) a) (as : List α) :
    Exchanges (fun p (as : List α) => as.filterMapM (read p)) (fun as => as.mapM turn)
      (fun as => as.mapM turn) as := by
  intro p q q' kept kept' hext hread hturn
  obtain ⟨options, hoptions, rfl⟩ := except_filterMapM_eq_ok.mp hread
  obtain ⟨options', hturn', rfl⟩ := exists_turnLeft hturn
  obtain ⟨hext', as', has, hlater⟩ :=
    Exchanges.mapM h as hext (except_mapM_eq_ok.mpr hoptions) hturn'
  refine ⟨hext', as', has, fun r hr => ?_⟩
  exact except_filterMapM_eq_ok.mpr ⟨options', except_mapM_eq_ok.mp (hlater r hr), rfl⟩

end Lists

section Methods
variable {omitted : NameSet} {analysis : Analysis} {owners : Option NameSet}
  {p q q' : ConstantPool} {attr attr' : Attribute}

theorem Omission.filterCode_iff : filterCode omitted p attr = .ok attr' ↔
    ∃ code kept, Code.format.decode attr.info = .ok code ∧
      code.attributes.filterMapM (filterPlain omitted p .code) = .ok kept ∧
      attr.encode Code.format { code with attributes := kept } = .ok attr' := by
  have hrecode : some <$> filterCode omitted p attr =
      recode Code.format (keepInCode p) (fun _ _ => False) omitted attr :=
    congrFun (congrFun filterCode_eq_recode omitted) attr
  have hsome : filterCode omitted p attr = .ok attr' ↔
      some <$> filterCode omitted p attr = .ok (some attr') := by
    simp only [except_map_eq_ok, Option.some.injEq, exists_eq_right]
  rw [hsome, hrecode]
  simp only [recode, keepInCode, except_bind_eq_ok, except_map_eq_ok, lift_class_eq_ok, if_false,
    lift_write_eq_ok, except_pure_eq_ok, Option.some.injEq, exists_eq_right]
  constructor
  · rintro ⟨code, hdecode, _, ⟨kept, hkept, rfl⟩, hencode⟩
    exact ⟨code, kept, hdecode, hkept, hencode⟩
  · rintro ⟨code, kept, hdecode, hkept, hencode⟩
    exact ⟨code, hdecode, _, ⟨kept, hkept, rfl⟩, hencode⟩

namespace Retarget

theorem turnAttribute_other {sort : Option AttributeName} (hsort : attr.sort q = .ok sort)
    (hother : sort ≠ some .code) : turnAttribute analysis owners attr q = .ok attr q := by
  simp only [turnAttribute, state_bind_eq_ok, state_get_eq_ok, state_lift_eq_ok, lift_class_eq_ok]
  refine ⟨q, q, ⟨rfl, rfl⟩, sort, q, ⟨hsort, rfl⟩, ?_⟩
  rw [if_pos hother]
  exact state_pure_eq_ok.mpr ⟨rfl, rfl⟩

theorem turnLeft_other {sort : Option AttributeName} {left : Option Attribute}
    (hname : attr.KeepsName left) (hsort : attr.sort q = .ok sort) (hother : sort ≠ some .code) :
    turnLeft (turnAttribute analysis owners) left q = .ok left q := by
  cases left with
  | none => rfl
  | some kept =>
    have hsort' := (Attribute.sort_of_name hname).trans hsort
    exact state_bind_eq_ok.mpr ⟨kept, q, turnAttribute_other hsort' hother, rfl⟩

theorem turnAttribute_iff (hcode : attr.sort q = .ok (some .code)) :
    turnAttribute analysis owners attr q = .ok attr' q' ↔
      ∃ code bytes, Code.format.decode attr.info = .ok code ∧
        turnCode analysis owners code.bytes q = .ok bytes q' ∧
        attr.encode Code.format { code with bytes } = .ok attr' := by
  simp only [turnAttribute, state_bind_eq_ok, state_get_eq_ok, state_lift_eq_ok, lift_class_eq_ok]
  constructor
  · rintro ⟨_, _, ⟨rfl, rfl⟩, sort, _, ⟨hsort, rfl⟩, h⟩
    obtain rfl := Except.ok.inj (hcode.symm.trans hsort)
    rw [if_neg (not_not.mpr rfl)] at h
    simp only [state_bind_eq_ok, state_lift_eq_ok, lift_class_eq_ok] at h
    obtain ⟨code, _, ⟨hdecode, rfl⟩, bytes, q₁, hturned, h⟩ := h
    refine ⟨code, bytes, hdecode, ?_⟩
    split at h
    · rename_i hsame
      obtain ⟨rfl, rfl⟩ := state_pure_eq_ok.mp h
      rw [hsame] at hturned ⊢
      exact ⟨hturned, Omission.encode_decoded Code.exact_format hdecode⟩
    · obtain ⟨hencode, rfl⟩ := state_lift_eq_ok.mp h
      exact ⟨hturned, lift_write_eq_ok.mp hencode⟩
  · rintro ⟨code, bytes, hdecode, hturned, hencode⟩
    refine ⟨q, q, ⟨rfl, rfl⟩, some .code, q, ⟨hcode, rfl⟩, ?_⟩
    rw [if_neg (not_not.mpr rfl)]
    refine state_bind_eq_ok.mpr
      ⟨code, q, state_lift_eq_ok.mpr ⟨lift_class_eq_ok.mpr hdecode, rfl⟩, ?_⟩
    refine state_bind_eq_ok.mpr ⟨bytes, q', hturned, ?_⟩
    split
    · rename_i hsame
      rw [hsame] at hencode
      have hkept := (Omission.encode_decoded Code.exact_format hdecode).symm.trans hencode
      exact state_pure_eq_ok.mpr ⟨Except.ok.inj hkept, rfl⟩
    · exact state_lift_eq_ok.mpr ⟨lift_write_eq_ok.mpr hencode, rfl⟩

end Retarget

open Omission Retarget

/-- Code whose attributes are filtered and whose bytes are turned comes out the same in either
order. -/
theorem exists_turned_code (hsort : attr.sort q = .ok (some .code)) (hext : p.Extends q)
    {kept last : Attribute} (hfilter : filterCode omitted p attr = .ok kept)
    (hturn : turnAttribute analysis owners kept q = .ok last q') :
    q.Extends q' ∧ ∃ turned, turnAttribute analysis owners attr q = .ok turned q' ∧
      turned.name = attr.name ∧ ∀ r, q'.Extends r → filterCode omitted r turned = .ok last := by
  obtain ⟨code, attributes, hdecode, hattributes, hencode⟩ := filterCode_iff.mp hfilter
  obtain ⟨hname, hdecode'⟩ := Attribute.encode_eq_ok Code.readsBack hencode
  obtain ⟨_, bytes, hsame, hbytes, hlast⟩ :=
    (turnAttribute_iff ((Attribute.sort_of_name hname).trans hsort)).mp hturn
  obtain rfl := Except.ok.inj (hdecode'.symm.trans hsame)
  obtain ⟨info', hinfo', rfl⟩ := Attribute.encode_eq_ok_iff.mp hlast
  -- the turned bytes fit with the attributes that are left, and those before fit as well
  have hfits := (Code.exact_format.writes _).mp ⟨_, write_of_decode Code.exact_format hdecode⟩
  have hfits' := (Code.exact_format.writes _).mp ⟨_, hinfo'⟩
  obtain ⟨info, hinfo⟩ := (Code.exact_format.writes { code with bytes }).mpr
    ⟨hfits'.bytes, hfits.handlers, hfits.attributes⟩
  have hext' := turnCode_extending _ hbytes
  refine ⟨hext', ⟨attr.name, info⟩, ?_, rfl, ?_⟩
  · have hturned : attr.encode Code.format { code with bytes } = .ok ⟨attr.name, info⟩ :=
      Attribute.encode_eq_ok_iff.mpr ⟨info, hinfo, rfl⟩
    exact (turnAttribute_iff hsort).mpr ⟨code, bytes, hdecode, hbytes, hturned⟩
  · intro r hr
    have hkeeps := ((hext.trans hext').trans hr).keepsPlaces
    refine filterCode_iff.mpr ⟨_, attributes, (Code.readsBack _).decode hinfo, ?_, ?_⟩
    · exact except_filterMapM_imp (fun _ _ => filterPlain_of_keepsPlaces hkeeps) hattributes
    · exact Attribute.encode_eq_ok_iff.mpr ⟨info', hinfo', by rw [hname]⟩

theorem exchanges_filterAttribute (attr : Attribute) :
    Exchanges (fun p => filterAttribute omitted p .method) (turnAttribute analysis owners)
      (turnLeft (turnAttribute analysis owners)) attr := by
  intro p q q' left last hext hfilter hturn
  obtain ⟨sort, hsort, h⟩ := filterAttribute_eq_ok.mp hfilter
  have hsort' := hext.keepsPlaces.sort hsort
  split at h
  · rename_i hcode
    obtain ⟨-, rfl⟩ := hcode
    obtain ⟨kept, hkept, rfl⟩ := h
    simp only [turnLeft, state_bind_eq_ok, state_pure_eq_ok] at hturn
    obtain ⟨attr', _, hturn, rfl, rfl⟩ := hturn
    obtain ⟨hext', turned, hturned, hname, hlater⟩ := exists_turned_code hsort' hext hkept hturn
    refine ⟨hext', turned, hturned, ?_⟩
    intro r hr
    have hsort'' := (hext'.trans hr).keepsPlaces.sort hsort'
    refine filterAttribute_eq_ok.mpr
      ⟨some .code, (Attribute.sort_of_name hname).trans hsort'', ?_⟩
    rw [if_pos ⟨rfl, rfl⟩]
    exact ⟨attr', hlater r hr, rfl⟩
  · rename_i hother
    replace hother : sort ≠ some .code := fun hcode => hother ⟨rfl, hcode⟩
    rw [turnLeft_other (filterPlain_eq_ok h).1 hsort' hother] at hturn
    cases hturn
    refine ⟨.refl _, attr, turnAttribute_other hsort' hother, ?_⟩
    intro r hr
    exact filterAttribute_of_keepsPlaces (hext.trans hr).keepsPlaces hfilter

theorem exchanges_filterMember (method : Member) :
    Exchanges (fun p => filterMember omitted p .method) (turnMethod analysis owners)
      (turnMethod analysis owners) method := by
  intro p q q' left last hext hfilter hturn
  simp only [filterMember, except_bind_eq_ok, except_pure_eq_ok] at hfilter
  obtain ⟨attributes, hattributes, rfl⟩ := hfilter
  simp only [turnMethod, state_bind_eq_ok, state_pure_eq_ok] at hturn
  obtain ⟨attributes', _, hattributes', rfl, rfl⟩ := hturn
  obtain ⟨hext', turned, hturned, hlater⟩ :=
    Exchanges.filterMapM exchanges_filterAttribute method.attributes hext hattributes hattributes'
  refine ⟨hext', { method with attributes := turned }, ?_, ?_⟩
  · exact state_bind_eq_ok.mpr ⟨turned, _, hturned, rfl⟩
  · intro r hr
    exact except_bind_eq_ok.mpr ⟨attributes', hlater r hr, rfl⟩

end Methods

section Tables
variable {omitted : NameSet} {p q : ConstantPool} {table : List Bootstrap} {attr : Attribute}

open Omission Retarget

theorem Retarget.withTable_other {sort : Option AttributeName} (hsort : attr.sort q = .ok sort)
    (hother : sort ≠ some .bootstrapMethods) : withTable q table attr = .ok attr := by
  simp only [withTable, except_bind_eq_ok, lift_class_eq_ok]
  refine ⟨sort, hsort, ?_⟩
  rw [if_neg hother]
  rfl

/-- Tables of bootstrap methods are not omitted, and no other attributes are written. -/
theorem exists_written {last : Option Attribute} (hkeeps : p.KeepsPlaces q)
    (h : (pass omitted p .class).andThen
      (.replacing fun attr attr' => withTable q table attr = .ok attr') attr last) :
    ∃ written, withTable q table attr = .ok written ∧
      filterAttribute omitted q .class written = .ok last := by
  obtain ⟨left, hfilter, hrest⟩ := h
  have hfilter' := filterAttribute_of_keepsPlaces hkeeps hfilter
  obtain ⟨hname, hstays⟩ := table_of_filterAttribute hfilter'
  obtain ⟨sort, hsort, -⟩ := filterAttribute_eq_ok.mp hfilter'
  by_cases htable : sort = some .bootstrapMethods
  · subst htable
    obtain rfl := hstays (Attribute.sort_eq_some_iff.mp hsort)
    obtain ⟨written, rfl, hwritten⟩ := hrest
    have hsort' := (Attribute.sort_of_name (withTable_eq_ok hwritten).1).trans hsort
    refine ⟨written, hwritten, ?_⟩
    simp [filterAttribute, filterPlain, hsort']
  · have hkept {other : Attribute} (hname : other.name = attr.name) :
        withTable q table other = .ok other :=
      withTable_other ((Attribute.sort_of_name hname).trans hsort) htable
    refine ⟨attr, hkept rfl, ?_⟩
    cases left with
    | none =>
      subst hrest
      exact hfilter'
    | some kept =>
      obtain ⟨written, rfl, hwritten⟩ := hrest
      obtain rfl := Except.ok.inj (hwritten.symm.trans (hkept hname))
      exact hfilter'

theorem exists_written_attributes {turned : List Bootstrap} {attributes kept last : List Attribute}
    (hkeeps : p.KeepsPlaces q) (hkept : filterAttributes omitted p .class attributes = .ok kept)
    (hlast : WithTurned q table turned kept last) :
    ∃ written, WithTurned q table turned attributes written ∧
      filterAttributes omitted q .class written = .ok last := by
  unfold WithTurned at hlast ⊢
  split at hlast
  · rename_i hsame
    subst hlast
    refine ⟨attributes, by rw [if_pos hsame], ?_⟩
    exact filterAttributes_of_keepsPlaces hkeeps hkept
  · rename_i hother
    have hfirst : (pass omitted p .class).OnList attributes kept :=
      except_filterMapM_eq_ok.mp hkept
    obtain ⟨options, hoptions, rfl⟩ :=
      hfirst.andThen (.of_forall₂ (except_mapM_eq_ok.mp hlast))
    obtain ⟨written, hwritten, hfilter⟩ :=
      exists_forall₂_of_comp (hoptions.imp fun _ _ => exists_written hkeeps)
    refine ⟨written, ?_, except_filterMapM_eq_ok.mpr ⟨options, hfilter, rfl⟩⟩
    rw [if_neg hother]
    exact except_mapM_eq_ok.mpr hwritten

theorem Omission.bootstraps_of_omitAnnotations {file left : ClassFile}
    (h : file.omitAnnotations omitted = .ok left) (htable : left.bootstraps = .ok table) :
    file.bootstraps = .ok table := by
  simp only [ClassFile.omitAnnotations, except_bind_eq_ok, except_pure_eq_ok] at h
  obtain ⟨attributes, hattributes, fields, -, methods, -, rfl⟩ := h
  obtain ⟨options, hoptions, rfl⟩ := except_filterMapM_eq_ok.mp hattributes
  have hnamed : ∀ attr ∈ file.attributes, ∃ text, attr.nameIn file.pool = .ok text := by
    intro attr hmem
    obtain ⟨_, -, hfilter⟩ := forall₂_mem_left hoptions hmem
    obtain ⟨sort, hsort, -⟩ := filterAttribute_eq_ok.mp hfilter
    exact Attribute.exists_nameIn_of_sort hsort
  obtain ⟨found, hfound⟩ := Attribute.exists_find? hnamed
  have hfound' := Attribute.find?_of_kept
    (hoptions.imp fun _ _ hfilter => table_of_filterAttribute hfilter) hfound
  obtain ⟨_, hsame, hread⟩ := ClassFile.bootstraps_eq_ok.mp htable
  obtain rfl := Except.ok.inj (hfound'.symm.trans hsame)
  exact ClassFile.bootstraps_eq_ok.mpr ⟨found, hfound, hread⟩

end Tables

section Classes
variable {file : ClassFile} {omitted : NameSet} {analysis : Analysis} {owners : Option NameSet}

/-- Omitting annotations and following moved members are independent of each other. What comes of
the first pass before the second one comes of the second one before the first one as well, with the
same pool. -/
theorem ClassFile.omitAnnotations_exchange {turned : ClassFile}
    (h : (file.omitAnnotations omitted >>= fun left => left.retarget analysis owners) =
      .ok turned) :
    (file.retarget analysis owners >>= fun left => left.omitAnnotations omitted) = .ok turned := by
  obtain ⟨left, hleft, hturned⟩ := except_bind_eq_ok.mp h
  obtain ⟨table, methods', p₁, table', p₂, attributes', htable, hmethods', htable', hattributes',
    rfl⟩ := Retarget.retarget_eq_ok.mp hturned
  replace htable := Omission.bootstraps_of_omitAnnotations hleft htable
  simp only [ClassFile.omitAnnotations, except_bind_eq_ok, except_pure_eq_ok] at hleft
  obtain ⟨attributes, hattributes, fields, hfields, methods, hmethods, rfl⟩ := hleft
  obtain ⟨hext₁, between, hbetween, hlater⟩ :=
    Exchanges.mapM exchanges_filterMember file.methods (.refl _) hmethods hmethods'
  have hext₂ := Extending.mapM Retarget.turnBootstrap_extending table htable'
  have hkeeps := (hext₁.trans hext₂).keepsPlaces
  obtain ⟨written, hwritten, hleft⟩ := exists_written_attributes hkeeps hattributes hattributes'
  have hfields' := except_mapM_imp
    (fun _ _ => Omission.filterMember_of_keepsPlaces hkeeps) hfields
  have hfirst := Retarget.retarget_eq_ok.mpr
    ⟨table, between, p₁, table', p₂, written, htable, hbetween, htable', hwritten, rfl⟩
  refine except_bind_eq_ok.mpr ⟨_, hfirst, ?_⟩
  simp only [ClassFile.omitAnnotations, except_bind_eq_ok, except_pure_eq_ok]
  exact ⟨attributes', hleft, fields, hfields', methods', hlater p₂ hext₂, rfl⟩

end Classes

/-- The class `markedUser` with an annotation on a type in its code, in front of the table of
lines. -/
def typedUser : ClassFile :=
  let typeAnnotations : Bytes := [0, 16, 0, 0, 0, 10, 0, 1, 0x44, 0, 0, 0, 0, 14, 0, 0]
  let lines : Bytes := [0, 15, 0, 0, 0, 6, 0, 1, 0, 5, 0, 7]
  { markedUser with
    pool := ⟨markedUser.pool.slots.push
      (.entry (.utf8 (.valid AttributeName.visibleTypeAnnotations.text)))⟩
    methods := [⟨⟨0x0009⟩, 3, 4, [⟨13, [0, 1, 0, 14, 0, 0]⟩,
      ⟨5, [0, 1, 0, 0, 0, 0, 0, 6, 0xB9, 0, 10, 1, 0, 0xB1, 0, 0, 0, 2] ++ typeAnnotations ++
        lines⟩]⟩] }

/-- Both annotations go and the call in the code is turned, in either order. -/
theorem omitAnnotations_exchange_of_typedUser :
    ∃ turned, (typedUser.omitAnnotations userOptions.omitted >>= fun left =>
        left.retarget userAnalysis none) = .ok turned ∧
      (typedUser.retarget userAnalysis none >>= fun left =>
        left.omitAnnotations userOptions.omitted) = .ok turned ∧
      turned.methods.map (fun method => method.attributes.map fun attr =>
        (attr.name, attr.info.drop 8)) =
        [[(5, [0xB8, 0, 21, 0, 0, 0xB1, 0, 0, 0, 1, 0, 15, 0, 0, 0, 6, 0, 1, 0, 5, 0, 7])]] := by
  have hrun : (typedUser.omitAnnotations userOptions.omitted >>= fun left =>
      left.retarget userAnalysis none).toOption.map (fun turned =>
        turned.methods.map fun method => method.attributes.map fun attr =>
          (attr.name, attr.info.drop 8)) =
      some [[(5, [0xB8, 0, 21, 0, 0, 0xB1, 0, 0, 0, 1, 0, 15, 0, 0, 0, 6, 0, 1, 0, 5, 0, 7])]] := by
    decide +kernel
  obtain ⟨turned, hfound, hmethods⟩ := Option.map_eq_some_iff.mp hrun
  have hturned := toOption_eq_some.mp hfound
  exact ⟨turned, hturned, ClassFile.omitAnnotations_exchange hturned, hmethods⟩

end StaticCompanion
