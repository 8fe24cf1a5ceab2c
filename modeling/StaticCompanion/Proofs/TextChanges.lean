import StaticCompanion.Proofs.RelatedClasses

/-!
# Changing the texts of types

Replacing types points the users of a text at another one. Each step relates the texts that it is
about to their changed forms, and adds nothing to the pool but texts, so the class that comes out is
related to the one that went in. Constants are changed in place, one after the other, while members
and attributes are changed over a pool that only grows.
-/
namespace StaticCompanion

namespace ConstantPool
variable {p q r : ConstantPool}

/-- The pool `q` has the slots of `p`, and behind them further texts. -/
def Gains (p q : ConstantPool) : Prop :=
  ∃ texts : List String, q.slots.toList = p.slots.toList ++ texts.map textSlot

theorem Gains.refl (p : ConstantPool) : p.Gains p := ⟨[], by simp⟩

theorem Gains.trans (hpq : p.Gains q) (hqr : q.Gains r) : p.Gains r := by
  obtain ⟨first, hq⟩ := hpq
  obtain ⟨second, hr⟩ := hqr
  exact ⟨first ++ second, by rw [hr, hq, List.map_append, List.append_assoc]⟩

theorem Gains.le (h : p.Gains q) : p ≤ q := by
  obtain ⟨texts, hq⟩ := h
  refine ⟨texts.map fun text => .utf8 (.valid text), ?_, ?_⟩
  · simp only [List.forall_mem_map]
    intro text _
    exact PoolText.ofBytes_encode text
  · rw [hq, List.flatMap_map, List.map_eq_flatMap]
    rfl

/-- Whenever the change succeeds on a pool that fits, the pool has gained texts and still fits. What
is stated of the result holds in that pool and in every pool that gains further texts. -/
def GainsTexts {ε α : Type} (change : PoolM ε α) (post : α → ConstantPool → Prop) : Prop :=
  ∀ ⦃p a p'⦄, p.Fits → change p = .ok a p' → p.Gains p' ∧ p'.Fits ∧ ∀ r, p'.Gains r → post a r

theorem putText_gains (text : String) :
    GainsTexts (putText text) fun i r => r.text i = .ok text := by
  intro p i p' hfits hrun
  obtain ⟨-, hfits', htext⟩ := putText_grows text hfits hrun
  refine ⟨?_, hfits', fun r hr => text_of_le hr.le htext⟩
  rcases put_eq_ok.mp hrun with ⟨k, -, -, rfl⟩ | ⟨-, -, -, rfl⟩
  · exact Gains.refl _
  · exact ⟨[text], append_slots p _⟩

theorem GainsTexts.mapM {ε α β : Type} {change : α → PoolM ε β} {R : α → β → ConstantPool → Prop}
    (h : ∀ a, GainsTexts (change a) (R a)) (as : List α) :
    GainsTexts (as.mapM change) fun bs r => List.Forall₂ (fun a b => R a b r) as bs := by
  induction as with
  | nil =>
    intro p bs p' hfits hrun
    simp only [List.mapM_nil, state_pure_eq_ok] at hrun
    obtain ⟨rfl, rfl⟩ := hrun
    exact ⟨Gains.refl p, hfits, fun _ _ => .nil⟩
  | cons a as ih =>
    intro p bs p' hfits hrun
    obtain ⟨b, p₁, rest, ha, has, rfl⟩ := state_mapM_cons_eq_ok.mp hrun
    obtain ⟨hgains₁, hfits₁, hb⟩ := h a hfits ha
    obtain ⟨hgains₂, hfits₂, hrest⟩ := ih hfits₁ has
    exact ⟨hgains₁.trans hgains₂, hfits₂, fun r hr => .cons (hb r (hgains₂.trans hr)) (hrest r hr)⟩

/-- The constants of a row of slots, the first of which has this position. -/
def entriesFrom (position : Nat) : List Slot → List (UInt16 × Entry)
  | [] => []
  | .entry entry :: slots => (UInt16.ofNat position, entry) :: entriesFrom (position + 1) slots
  | .gap :: slots => entriesFrom (position + 1) slots

theorem entries_eq_entriesFrom (p : ConstantPool) : p.entries = entriesFrom 0 p.slots.toList := by
  unfold entries
  generalize p.slots.toList = slots
  generalize 0 = position
  induction slots generalizing position with
  | nil => rfl
  | cons slot slots ih =>
    cases slot <;> simp only [List.zipIdx_cons, List.filterMap_cons, entriesFrom, ih]

theorem mem_of_mem_entriesFrom {position : Nat} {slots : List Slot} {index : UInt16} {entry : Entry}
    (h : (index, entry) ∈ entriesFrom position slots) : .entry entry ∈ slots := by
  induction slots generalizing position with
  | nil => cases h
  | cons slot slots ih =>
    cases slot with
    | gap => exact List.mem_cons_of_mem _ (ih h)
    | entry first =>
      rcases List.mem_cons.mp h with hfirst | hrest
      · cases hfirst
        exact List.mem_cons_self
      · exact List.mem_cons_of_mem _ (ih hrest)

theorem fits_of_length_eq (hfits : p.Fits)
    (hlen : q.slots.toList.length = p.slots.toList.length) : q.Fits := by
  rw [Array.length_toList, Array.length_toList] at hlen
  rwa [Fits, hlen]

theorem slots_of_replace {index : UInt16} {old new : Entry} {done rest : List Slot} {u : Unit}
    (hslots : p.slots.toList = done ++ .entry old :: rest) (hindex : index.toNat = done.length)
    (hrun : replace index new p = .ok u q) : q.slots.toList = done ++ .entry new :: rest := by
  unfold replace at hrun
  split at hrun
  · cases hrun
  · split at hrun
    · cases hrun
      rw [Array.toList_setIfInBounds, hslots, hindex, List.set_append_right _ _ (Nat.le_refl _),
        Nat.sub_self, List.set_cons_zero]
    · cases hrun

theorem text_of_slots {old new : Entry} {done rest : List Slot}
    (hslots : p.slots.toList = done ++ .entry old :: rest)
    (hslots' : q.slots.toList = done ++ .entry new :: rest) (hold : ∀ text, old ≠ .utf8 text)
    {i : UInt16} {text : String} (htext : p.text i = .ok text) : q.text i = .ok text := by
  rw [text_eq_ok, entry_eq_ok, ← Array.getElem?_toList, hslots] at htext
  rw [text_eq_ok, entry_eq_ok, ← Array.getElem?_toList, hslots']
  rcases Nat.lt_trichotomy i.toNat done.length with hlt | heq | hgt
  · rwa [List.getElem?_append_left hlt] at htext ⊢
  · rw [List.getElem?_append_right (Nat.le_of_eq heq.symm), heq, Nat.sub_self,
      List.getElem?_cons_zero] at htext
    cases htext
    exact absurd rfl (hold _)
  · obtain ⟨k, hk⟩ := Nat.exists_eq_add_of_lt hgt
    rw [List.getElem?_append_right (Nat.le_of_lt hgt), hk, Nat.add_assoc, Nat.add_sub_cancel_left,
      List.getElem?_cons_succ] at htext ⊢
    exact htext

end ConstantPool

namespace TypeSubstitution
open ConstantPool

section Run
variable {names : Renaming}

theorem changeText_gains (kind : TextKind) (i : UInt16) :
    GainsTexts (changeText (kind.change names) i) fun i' r => Changed names r kind i i' := by
  intro p i' p' hfits hrun
  simp only [changeText, state_bind_eq_ok, state_get_eq_ok, state_lift_eq_ok, lift_pool_eq_ok,
    lift_descriptor_eq_ok] at hrun
  obtain ⟨_, _, ⟨rfl, rfl⟩, text, _, ⟨htext, rfl⟩, changed, _, ⟨hchange, rfl⟩, hrun⟩ := hrun
  split at hrun
  · rename_i hsame
    obtain ⟨rfl, rfl⟩ := state_pure_eq_ok.mp hrun
    refine ⟨Gains.refl p, hfits, fun r hr => ?_⟩
    have htext' := text_of_le hr.le htext
    exact ⟨text, changed, htext', hchange, hsame ▸ htext'⟩
  · obtain ⟨hgains, hfits', hchanged⟩ := putText_gains changed hfits (lift_change_eq_ok.mp hrun)
    refine ⟨hgains, hfits', fun r hr => ?_⟩
    exact ⟨text, changed, text_of_le (hgains.trans hr).le htext, hchange, hchanged r hr⟩

theorem relatedPayload_of_encode {α : Type} {format : Format α} (hformat : format.ReadsBack)
    {S : α → α → Prop} {attr attr' : Attribute} {value changed : α} {same : Prop} [Decidable same]
    (hsame : same → changed = value) (hdecode : format.decode attr.info = .ok value)
    (hrelated : S value changed) {p p' : ConstantPool}
    (hrun : (if same then pure attr else
      liftM (attr.encode format changed) : Relocation Attribute) p = .ok attr' p') :
    p = p' ∧ RelatedPayload format S attr attr' := by
  split at hrun
  · rename_i hunchanged
    obtain ⟨rfl, hp⟩ := state_pure_eq_ok.mp hrun
    exact ⟨hp, rfl, value, value, hdecode, hdecode, hsame hunchanged ▸ hrelated⟩
  · simp only [state_lift_eq_ok, lift_write_eq_ok] at hrun
    obtain ⟨hencode, hp⟩ := hrun
    obtain ⟨hname, hdecode'⟩ := Attribute.encode_eq_ok hformat hencode
    exact ⟨hp, hname, value, changed, hdecode, hdecode', hrelated⟩

theorem changeSignature_gains (attr : Attribute) :
    GainsTexts (changeSignature names attr) fun attr' r =>
      RelatedSignature r (Changed names r) attr attr' := by
  intro p attr' p' hfits hrun
  simp only [changeSignature, state_bind_eq_ok, state_get_eq_ok, state_lift_eq_ok,
    lift_class_eq_ok] at hrun
  obtain ⟨_, _, ⟨rfl, rfl⟩, sort, _, ⟨hsort, rfl⟩, hrun⟩ := hrun
  split at hrun
  · rename_i hother
    obtain ⟨rfl, rfl⟩ := state_pure_eq_ok.mp hrun
    refine ⟨Gains.refl p, hfits, fun r hr => ⟨sort, Attribute.sort_of_le hr.le hsort, ?_⟩⟩
    rw [if_neg hother]
  · rename_i hsignature
    simp only [state_bind_eq_ok, state_lift_eq_ok, lift_class_eq_ok] at hrun
    obtain ⟨i, _, ⟨hdecode, rfl⟩, i', p₁, htext, hrun⟩ := hrun
    obtain ⟨hgains, hfits', hchanged⟩ := changeText_gains .signature i hfits htext
    have hpayload {r : ConstantPool} (hr : p₁.Gains r) :=
      relatedPayload_of_encode Format.readsBack_u16 id hdecode (hchanged r hr) hrun
    obtain ⟨rfl, -⟩ := hpayload (Gains.refl p₁)
    refine ⟨hgains, hfits', fun r hr =>
      ⟨sort, Attribute.sort_of_le (hgains.trans hr).le hsort, ?_⟩⟩
    rw [if_pos (not_not.mp hsignature)]
    exact (hpayload hr).2

theorem changeTable_gains (kind : TextKind) (attr : Attribute) :
    GainsTexts (changeTable (kind.change names) attr) fun attr' r =>
      RelatedTable (Changed names r) kind attr attr' := by
  intro p attr' p' hfits hrun
  simp only [changeTable, state_bind_eq_ok, state_lift_eq_ok, lift_class_eq_ok] at hrun
  obtain ⟨table, _, ⟨hdecode, rfl⟩, changed, p₁, hvars, hrun⟩ := hrun
  have hvar (var : LocalVariable) : GainsTexts
      (do return { var with type := ← changeText (kind.change names) var.type })
      fun var' r => ∃ type, var' = { var with type } ∧ Changed names r kind var.type type := by
    intro p var' p' hfits hrun
    simp only [state_bind_eq_ok, state_pure_eq_ok] at hrun
    obtain ⟨type, _, htext, rfl, rfl⟩ := hrun
    obtain ⟨hgains, hfits', hchanged⟩ := changeText_gains kind var.type hfits htext
    exact ⟨hgains, hfits', fun r hr => ⟨type, rfl, hchanged r hr⟩⟩
  obtain ⟨hgains, hfits', hrelated⟩ := GainsTexts.mapM hvar table hfits hvars
  have hpayload {r : ConstantPool} (hr : p₁.Gains r) :=
    relatedPayload_of_encode LocalVariable.readsBack_table id hdecode (hrelated r hr) hrun
  obtain ⟨rfl, -⟩ := hpayload (Gains.refl p₁)
  exact ⟨hgains, hfits', fun r hr => (hpayload hr).2⟩

theorem changeCodeAttribute_gains (attr : Attribute) :
    GainsTexts (changeCodeAttribute names attr) fun attr' r =>
      RelatedCodeAttribute r (Changed names r) attr attr' := by
  intro p attr' p' hfits hrun
  simp only [changeCodeAttribute, state_bind_eq_ok, state_get_eq_ok, state_lift_eq_ok,
    lift_class_eq_ok] at hrun
  obtain ⟨_, _, ⟨rfl, rfl⟩, sort, _, ⟨hsort, rfl⟩, hrun⟩ := hrun
  split at hrun
  · obtain ⟨hgains, hfits', htable⟩ := changeTable_gains .descriptor attr hfits hrun
    exact ⟨hgains, hfits', fun r hr =>
      ⟨_, Attribute.sort_of_le (hgains.trans hr).le hsort, htable r hr⟩⟩
  · obtain ⟨hgains, hfits', htable⟩ := changeTable_gains .signature attr hfits hrun
    exact ⟨hgains, hfits', fun r hr =>
      ⟨_, Attribute.sort_of_le (hgains.trans hr).le hsort, htable r hr⟩⟩
  · rename_i hother hother'
    obtain ⟨rfl, rfl⟩ := state_pure_eq_ok.mp hrun
    refine ⟨Gains.refl p, hfits, fun r hr => ⟨sort, Attribute.sort_of_le hr.le hsort, ?_⟩⟩
    split
    · exact absurd rfl hother
    · exact absurd rfl hother'
    · rfl

theorem changeCode_gains (attr : Attribute) :
    GainsTexts (changeCode names attr) fun attr' r =>
      RelatedCode r (Changed names r) attr attr' := by
  intro p attr' p' hfits hrun
  simp only [changeCode, state_bind_eq_ok, state_get_eq_ok, state_lift_eq_ok,
    lift_class_eq_ok] at hrun
  obtain ⟨_, _, ⟨rfl, rfl⟩, sort, _, ⟨hsort, rfl⟩, hrun⟩ := hrun
  split at hrun
  · rename_i hother
    obtain ⟨rfl, rfl⟩ := state_pure_eq_ok.mp hrun
    refine ⟨Gains.refl p, hfits, fun r hr => ⟨sort, Attribute.sort_of_le hr.le hsort, ?_⟩⟩
    rw [if_neg hother]
  · rename_i hcode
    simp only [state_bind_eq_ok, state_lift_eq_ok, lift_class_eq_ok] at hrun
    obtain ⟨code, _, ⟨hdecode, rfl⟩, attributes, p₁, hattributes, hrun⟩ := hrun
    obtain ⟨hgains, hfits', hrelated⟩ :=
      GainsTexts.mapM changeCodeAttribute_gains code.attributes hfits hattributes
    have hbody {r : ConstantPool} (hr : p₁.Gains r) :
        RelatedBody r (Changed names r) code { code with attributes } :=
      ⟨attributes, rfl, hrelated r hr⟩
    have hpayload {r : ConstantPool} (hr : p₁.Gains r) :=
      relatedPayload_of_encode Code.readsBack (fun hsame => by rw [hsame]) hdecode (hbody hr) hrun
    obtain ⟨rfl, -⟩ := hpayload (Gains.refl p₁)
    refine ⟨hgains, hfits', fun r hr =>
      ⟨sort, Attribute.sort_of_le (hgains.trans hr).le hsort, ?_⟩⟩
    rw [if_pos (not_not.mp hcode)]
    exact (hpayload hr).2

theorem changeField_gains (field : Member) :
    GainsTexts (changeField names field) fun field' r =>
      RelatedField r (Changed names r) field field' := by
  intro p field' p' hfits hrun
  simp only [changeField, state_bind_eq_ok, state_pure_eq_ok] at hrun
  obtain ⟨type, p₁, htype, attributes, _, hattributes, rfl, rfl⟩ := hrun
  obtain ⟨hgains₁, hfits₁, htype⟩ := changeText_gains .descriptor field.descriptor hfits htype
  obtain ⟨hgains₂, hfits₂, hattributes⟩ :=
    GainsTexts.mapM changeSignature_gains field.attributes hfits₁ hattributes
  exact ⟨hgains₁.trans hgains₂, hfits₂, fun r hr =>
    ⟨type, attributes, rfl, htype r (hgains₂.trans hr), hattributes r hr⟩⟩

/-- The two changes of a method's attributes concern different ones. -/
theorem relatedMethodAttribute_of_steps {pool : ConstantPool} {R : TextRelation}
    {attr middle attr' : Attribute} (hsignature : RelatedSignature pool R attr middle)
    (hcode : RelatedCode pool R middle attr') : RelatedMethodAttribute pool R attr attr' := by
  obtain ⟨sort, hsort, hsignature⟩ := hsignature
  obtain ⟨sort', hsort', hcode⟩ := hcode
  have hname : middle.name = attr.name := by
    split at hsignature
    · exact hsignature.1
    · rw [hsignature]
  obtain rfl : sort' = sort := by
    rw [Attribute.sort_of_name hname, hsort] at hsort'
    exact (Except.ok.inj hsort').symm
  refine ⟨sort', hsort, ?_⟩
  split
  · rw [if_pos rfl] at hsignature
    rw [if_neg (by decide)] at hcode
    exact hcode ▸ hsignature
  · rw [if_neg (by decide)] at hsignature
    rw [if_pos rfl, hsignature] at hcode
    exact hcode
  · rename_i hnone hnone'
    rw [if_neg hnone] at hsignature
    rw [if_neg hnone'] at hcode
    exact hcode.trans hsignature

theorem changeMethod_gains (method : Member) :
    GainsTexts (changeMethod names method) fun method' r =>
      RelatedMethod r (Changed names r) method method' := by
  intro p method' p' hfits hrun
  simp only [changeMethod, state_bind_eq_ok, state_pure_eq_ok] at hrun
  obtain ⟨middle, p₁, hmiddle, attributes, _, hattributes, rfl, rfl⟩ := hrun
  obtain ⟨hgains₁, hfits₁, hmiddle⟩ := changeField_gains method hfits hmiddle
  obtain ⟨hgains₂, hfits₂, hattributes⟩ :=
    GainsTexts.mapM changeCode_gains middle.attributes hfits₁ hattributes
  refine ⟨hgains₁.trans hgains₂, hfits₂, fun r hr => ?_⟩
  obtain ⟨type, signed, rfl, htype, hsignatures⟩ := hmiddle r (hgains₂.trans hr)
  refine ⟨type, attributes, rfl, htype,
    (forall₂_comp hsignatures (hattributes r hr)).imp fun _ _ hsteps => ?_⟩
  obtain ⟨_, hsignature, hcode⟩ := hsteps
  exact relatedMethodAttribute_of_steps hsignature hcode

/-- What one step of the pool's change makes of the slots: the one of the constant, between `done`
and `rest`, holds a related constant, texts come behind all others, and no text is lost. -/
structure EntryStep (names : Renaming) (p p' : ConstantPool) (done rest : List Slot)
    (entry : Entry) : Prop where
  fits : p'.Fits
  slots : ∃ (entry' : Entry) (texts : List String), p'.slots.toList =
      done ++ .entry entry' :: (rest ++ texts.map textSlot) ∧
    RelatedEntry (Changed names p') entry entry'
  text : ∀ {i text}, p.text i = .ok text → p'.text i = .ok text

theorem step_of_changeText (kind : TextKind) (constant : UInt16 → Entry)
    (hrelated : ∀ (R : TextRelation) i i', R kind i i' → RelatedEntry R (constant i) (constant i'))
    (hconstant : ∀ i text, constant i ≠ .utf8 text) {p p' : ConstantPool} {index i : UInt16}
    {done rest : List Slot} {u : Unit} (hfits : p.Fits)
    (hslots : p.slots.toList = done ++ .entry (constant i) :: rest)
    (hindex : index.toNat = done.length)
    (hrun : (do
      let changed ← changeText (kind.change names) i
      if changed ≠ i then ConstantPool.replace index (constant changed) : Relocation Unit) p =
        .ok u p') : EntryStep names p p' done rest (constant i) := by
  obtain ⟨i', p₁, htext, hrun⟩ := state_bind_eq_ok.mp hrun
  obtain ⟨hgains, hfits₁, hchanged⟩ := changeText_gains kind i hfits htext
  obtain ⟨texts, hgained⟩ := id hgains
  rw [hslots, List.append_assoc, List.cons_append] at hgained
  split at hrun
  · have hreplace := lift_change_eq_ok.mp hrun
    have hslots' := slots_of_replace hgained hindex hreplace
    have hkept {j : UInt16} {text : String} (h : p₁.text j = .ok text) : p'.text j = .ok text :=
      text_of_slots hgained hslots' (hconstant i) h
    refine ⟨?_, ⟨constant i', texts, hslots', hrelated _ i i' ?_⟩, fun h => hkept ?_⟩
    · apply fits_of_length_eq hfits₁
      rw [hslots', hgained, List.length_append, List.length_append, List.length_cons,
        List.length_cons]
    · obtain ⟨text, changed, hi, hchange, hi'⟩ := hchanged p₁ (Gains.refl p₁)
      exact ⟨text, changed, hkept hi, hchange, hkept hi'⟩
    · exact text_of_le hgains.le h
  · rename_i hsame
    obtain ⟨-, rfl⟩ := state_pure_eq_ok.mp hrun
    refine ⟨hfits₁, ⟨constant i, texts, hgained, hrelated _ i i ?_⟩, text_of_le hgains.le⟩
    have hi := hchanged p₁ (Gains.refl p₁)
    rwa [not_not.mp hsame] at hi

theorem changeEntry_step {p p' : ConstantPool} {index : UInt16} {entry : Entry}
    {done rest : List Slot} {u : Unit} (hfits : p.Fits)
    (hslots : p.slots.toList = done ++ .entry entry :: rest) (hindex : index.toNat = done.length)
    (hrun : changeEntry names index entry p = .ok u p') : EntryStep names p p' done rest entry := by
  cases entry with
  | «class» name =>
    exact step_of_changeText .className .class (fun _ _ i' h => ⟨i', rfl, h⟩) (by simp) hfits hslots
      hindex hrun
  | nameAndType name type =>
    exact step_of_changeText .descriptor (.nameAndType name) (fun _ _ i' h => ⟨i', rfl, h⟩)
      (by simp) hfits hslots hindex hrun
  | methodType type =>
    exact step_of_changeText .descriptor .methodType (fun _ _ i' h => ⟨i', rfl, h⟩) (by simp)
      hfits hslots hindex hrun
  | _ =>
    obtain ⟨-, rfl⟩ := state_pure_eq_ok.mp hrun
    exact ⟨hfits, ⟨_, [], by simpa using hslots, rfl⟩, id⟩

/-- A run over the constants of `slots`, which come behind the slots of `done` and in front of
those of `tail`. -/
theorem changeEntries_slots {slots done tail : List Slot} {p p' : ConstantPool} {u : Unit}
    (hfits : p.Fits) (hslots : p.slots.toList = done ++ (slots ++ tail))
    (hrun : ((entriesFrom done.length slots).forM fun (index, entry) =>
      changeEntry names index entry) p = .ok u p') :
    ∃ (slots' : List Slot) (texts : List String),
      p'.slots.toList = done ++ (slots' ++ tail ++ texts.map textSlot) ∧ p'.Fits ∧
      List.Forall₂ (RelatedSlot (Changed names p')) slots slots' ∧
      ∀ {i text}, p.text i = .ok text → p'.text i = .ok text := by
  induction slots generalizing done tail p with
  | nil =>
    obtain ⟨-, rfl⟩ := state_pure_eq_ok.mp hrun
    exact ⟨[], [], by simpa using hslots, hfits, .nil, id⟩
  | cons slot slots ih =>
    have hlength (slot' : Slot) : done.length + 1 = (done ++ [slot']).length := by simp
    cases slot with
    | gap =>
      rw [entriesFrom, hlength .gap] at hrun
      obtain ⟨slots', texts, hslots', hfits', hrelated, htext⟩ :=
        ih hfits (by simpa using hslots) hrun
      exact ⟨.gap :: slots', texts, by simpa using hslots', hfits', .cons rfl hrelated, htext⟩
    | entry entry =>
      obtain ⟨_, p₁, hstep, hrun⟩ := state_bind_eq_ok.mp hrun
      have hindex : (UInt16.ofNat done.length).toNat = done.length := by
        apply toNat_ofNat_of_fits hfits
        rw [← Array.length_toList, hslots]
        simp
      obtain ⟨hfits₁, ⟨entry', texts, hslots₁, hentry⟩, htext₁⟩ :=
        changeEntry_step hfits hslots hindex hstep
      rw [hlength (.entry entry')] at hrun
      obtain ⟨slots', texts', hslots', hfits', hrelated, htext⟩ :=
        ih hfits₁ (by simpa using hslots₁) hrun
      refine ⟨.entry entry' :: slots', texts ++ texts', by simpa using hslots', hfits',
        .cons ⟨entry', rfl, hentry.imp ?_⟩ hrelated, fun h => htext (htext₁ h)⟩
      rintro kind i i' ⟨text, changed, hi, hchange, hi'⟩
      exact ⟨text, changed, htext hi, hchange, htext hi'⟩

theorem changeClass_related {file file' : ClassFile} {pool : ConstantPool} (hfits : file.pool.Fits)
    (hrun : changeClass names file file.pool = .ok file' pool) :
    file'.pool.Fits ∧ RelatedClass (Changed names file'.pool) file file' := by
  simp only [changeClass, state_bind_eq_ok, state_get_eq_ok, state_pure_eq_ok] at hrun
  obtain ⟨_, p₁, hentries, attributes, p₂, hattributes, fields, p₃, hfields, methods, p₄, hmethods,
    _, _, ⟨rfl, rfl⟩, rfl, rfl⟩ := hrun
  rw [entries_eq_entriesFrom] at hentries
  have hstart : file.pool.slots.toList = [] ++ (file.pool.slots.toList ++ []) :=
    (List.append_nil _).symm
  obtain ⟨slots, texts, hslots, hfits₁, hrelated, -⟩ :=
    changeEntries_slots hfits hstart hentries
  obtain ⟨hgains₂, hfits₂, hattributes⟩ :=
    GainsTexts.mapM changeSignature_gains file.attributes hfits₁ hattributes
  obtain ⟨hgains₃, hfits₃, hfields⟩ :=
    GainsTexts.mapM changeField_gains file.fields hfits₂ hfields
  obtain ⟨hgains₄, hfits₄, hmethods⟩ :=
    GainsTexts.mapM changeMethod_gains file.methods hfits₃ hmethods
  have hgains : p₁.Gains p₄ := (hgains₂.trans hgains₃).trans hgains₄
  refine ⟨hfits₄, rfl, ?_, hattributes p₄ (hgains₃.trans hgains₄), hfields p₄ hgains₄,
    hmethods p₄ (Gains.refl p₄)⟩
  obtain ⟨further, hfurther⟩ := id hgains
  refine ⟨slots, texts ++ further, ?_, hrelated.imp fun _ _ h => h.imp ?_⟩
  · rw [hfurther, hslots]
    simp
  · rintro kind i i' ⟨text, changed, hi, hchange, hi'⟩
    exact ⟨text, changed, text_of_le hgains.le hi, hchange, text_of_le hgains.le hi'⟩

end Run

end TypeSubstitution

/-- Either there is nothing to replace, or the class is related to the one it was. -/
theorem ClassFile.related_of_replaceTypes {analysis : Analysis} {file replaced : ClassFile}
    (hfits : file.pool.Fits) (hrun : file.replaceTypes analysis = .ok replaced) :
    (analysis.types.isEmpty = true ∧ replaced = file) ∨
      (analysis.types.isEmpty = false ∧ replaced.pool.Fits ∧ TypeSubstitution.RelatedClass
        (TypeSubstitution.Changed analysis.replacementType replaced.pool) file replaced) := by
  unfold ClassFile.replaceTypes at hrun
  split at hrun
  · rename_i hempty
    exact .inl ⟨hempty, (except_pure_eq_ok.mp hrun).symm⟩
  · rename_i htypes
    simp only [except_bind_eq_ok, except_pure_eq_ok, runOn_eq_ok, Prod.exists] at hrun
    obtain ⟨_, pool, hrun, rfl⟩ := hrun
    exact .inr ⟨(Bool.not_eq_true _).mp htypes,
      TypeSubstitution.changeClass_related hfits hrun⟩

end StaticCompanion
