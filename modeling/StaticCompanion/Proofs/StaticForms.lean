import Mathlib.Data.List.Forall2
import StaticCompanion.Proofs.FailedSteps
import StaticCompanion.Proofs.ShiftedParameters

/-!
# The static form is exact

The static form of an object's method differs from the method in its flags, in its descriptor,
which has the object in front, and in the attributes that tell of parameters. It costs the pool one
text at most. A method without a body and an initializer have no static form: they are refused
before the pool is touched, and nothing else is refused in this way.
-/
namespace StaticCompanion

open ConstantPool

section Attributes
variable {p q : ConstantPool} {attr : Attribute} {sorts : List AttributeName}

/-- Whether the attribute is of one of some sorts. -/
def Attribute.isOf (sorts : List AttributeName) (pool : ConstantPool) (attr : Attribute) : Bool :=
  match attr.sort pool with
  | .ok (some sort) => sorts.contains sort
  | _ => false

theorem Attribute.isOf_iff :
    attr.isOf sorts p = true ↔ ∃ sort ∈ sorts, attr.sort p = .ok (some sort) := by
  unfold isOf
  split
  · rename_i sort hsort
    simp [hsort]
  · rename_i hnone
    simp only [Bool.false_eq_true, false_iff, not_exists, not_and]
    intro sort _ hsort
    exact hnone sort hsort

theorem Attribute.isOf_congr
    (h : ∀ sort, attr.sort p = .ok (some sort) ↔ attr.sort q = .ok (some sort)) :
    attr.isOf sorts p = attr.isOf sorts q := by
  rw [Bool.eq_iff_iff, isOf_iff, isOf_iff]
  simp only [h]

/-- An attribute before and after there is one more parameter in front. One that has a list for
each parameter has an empty list in front; any other one is the same byte for byte. -/
structure Attribute.MakesRoom (pool : ConstantPool) (before after : Attribute) : Prop where
  name : after.name = before.name
  listing : before.isOf Member.listingSorts pool = true →
    ∃ lists, AnnotationUse.parametersFormat.decode before.info = .ok lists ∧
      AnnotationUse.parametersFormat.decode after.info = .ok ([] :: lists)
  other : before.isOf Member.listingSorts pool = false → after = before

namespace Member

theorem exists_makesRoom_of_shift {shifted : Option Attribute}
    (hkept : attr.isOf droppedSorts p = false) (h : shiftParameters p attr = .ok shifted) :
    ∃ attr', shifted = some attr' ∧ attr.MakesRoom p attr' := by
  obtain ⟨sort, hsort, ⟨⟨name, hname, rfl⟩, -⟩ | ⟨⟨name, hname, rfl⟩, hlists⟩ | ⟨hother, rfl⟩⟩ :=
    shiftParameters_eq_ok h
  · have hdropped : attr.isOf droppedSorts p = true := Attribute.isOf_iff.mpr ⟨name, hname, hsort⟩
    rw [hdropped] at hkept
    cases hkept
  · obtain ⟨lists, attr', hdecode, hencode, rfl⟩ := hlists
    have hlisting : attr.isOf listingSorts p = true := Attribute.isOf_iff.mpr ⟨name, hname, hsort⟩
    have hformat : AnnotationUse.parametersFormat.ReadsBack :=
      ((AnnotationUse.exact_format.list 2).list 1).readsBack
    have hdecode' := (Attribute.encode_eq_ok hformat hencode).2
    refine ⟨attr', rfl, Attribute.name_of_encode hencode, fun _ => ⟨lists, hdecode, hdecode'⟩, ?_⟩
    intro hnot
    rw [hlisting] at hnot
    cases hnot
  · have hplain : attr.isOf listingSorts p ≠ true := by
      intro hlisting
      obtain ⟨name, hname, hsame⟩ := Attribute.isOf_iff.mp hlisting
      exact hother name hname (Except.ok.inj (hsort.symm.trans hsame))
    exact ⟨attr, rfl, rfl, fun hlisting => absurd hlisting hplain, fun _ => rfl⟩

theorem eq_none_of_shift {shifted : Option Attribute}
    (hdropped : attr.isOf droppedSorts p = true) (h : shiftParameters p attr = .ok shifted) :
    shifted = none := by
  obtain ⟨name, hname, hsort⟩ := Attribute.isOf_iff.mp hdropped
  simp only [shiftParameters, except_bind_eq_ok, lift_class_eq_ok] at h
  obtain ⟨sort, hsort', h⟩ := h
  obtain rfl := Except.ok.inj (hsort.symm.trans hsort')
  rcases List.mem_pair.mp hname with rfl | rfl
  · exact (except_pure_eq_ok.mp h).symm
  · exact (except_pure_eq_ok.mp h).symm

end Member

theorem forall₂_filter_of_filterMapM {ε α β : Type} {step : α → Except ε (Option β)}
    {drop : α → Bool} {R : α → β → Prop} {as : List α} {bs : List β}
    (hdrop : ∀ a o, drop a = true → step a = .ok o → o = none)
    (hkeep : ∀ a o, drop a = false → step a = .ok o → ∃ b, o = some b ∧ R a b)
    (h : as.filterMapM step = .ok bs) : List.Forall₂ R (as.filter fun a => !drop a) bs := by
  obtain ⟨options, hoptions, rfl⟩ := except_filterMapM_eq_ok.mp h
  clear h
  induction hoptions with
  | nil => exact .nil
  | @cons a o as options hstep _ ih =>
    cases hcase : drop a with
    | true =>
      rw [hdrop a o hcase hstep, List.reduceOption_cons_of_none,
        List.filter_cons_of_neg (by simp [hcase])]
      exact ih
    | false =>
      obtain ⟨b, rfl, hrel⟩ := hkeep a o hcase hstep
      rw [List.reduceOption_cons_of_some, List.filter_cons_of_pos (by simp [hcase])]
      exact .cons hrel ih

end Attributes

namespace Member
variable {owner : String} {pool left : ConstantPool} {method copy : Member} {key : MemberKey}

/-- What the static form of an object's method is, as a whole. -/
structure IsStaticForm (owner : String) (pool left : ConstantPool) (method copy : Member) :
    Prop where
  flags : copy.flags = method.flags.toPublic.set AccessFlags.isStatic
  name : copy.name = method.name
  receiver : HasReceiverInFront owner pool left method copy
  /-- What is not dropped stays in its order. -/
  attributes : List.Forall₂ (Attribute.MakesRoom pool)
    (method.attributes.filter fun attr => !attr.isOf droppedSorts pool) copy.attributes
  /-- Nothing but the new descriptor is added to the pool. -/
  pool : ∃ text, left.text copy.descriptor = .ok text ∧
    (left = pool ∨ left = pool.append (.utf8 (.valid text)))

theorem isStaticForm_of_toStatic (hfits : pool.Fits) (hinstance : method.isStatic = false)
    (hrun : method.toStatic owner pool = .ok copy left) :
    IsStaticForm owner pool left method copy := by
  obtain ⟨key, hkey, -, -, ⟨hstatic, -⟩ |
    ⟨-, hflags, hname, descriptor, hreceiver, hput, hshift⟩⟩ := toStatic_eq_ok hrun
  · rw [hinstance] at hstatic
    cases hstatic
  obtain ⟨-, -, htext⟩ := keyIn_eq_ok.mp hkey
  obtain ⟨-, -, hnew⟩ := putText_grows descriptor hfits hput
  have hgrown : left = pool ∨ left = pool.append (.utf8 (.valid descriptor)) := by
    rcases put_eq_ok.mp hput with ⟨k, -, -, hsame⟩ | ⟨-, -, -, hsame⟩
    · exact .inl hsame
    · exact .inr hsame
  -- The attributes are looked at in the grown pool, where they have the sorts that they had.
  have hsort (sorts : List AttributeName) (attr : Attribute) :
      attr.isOf sorts left = attr.isOf sorts pool :=
    (Attribute.isOf_congr (Attribute.sort_of_putText hput (text_ne_of_withReceiver hreceiver))).symm
  have hattributes : List.Forall₂ (Attribute.MakesRoom left)
      (method.attributes.filter fun attr => !attr.isOf droppedSorts left) copy.attributes :=
    forall₂_filter_of_filterMapM (fun attr shifted => eq_none_of_shift)
      (fun attr shifted => exists_makesRoom_of_shift) hshift
  simp only [hsort] at hattributes
  refine ⟨hflags, hname, hasReceiverInFront_of_withReceiver htext hreceiver hnew,
    hattributes.imp ?_, descriptor, hnew, hgrown⟩
  intro attr attr' hroom
  have hlisting := hroom.listing
  have hother := hroom.other
  rw [hsort] at hlisting hother
  exact ⟨hroom.name, hlisting, hother⟩

section Refusals
variable {fault : RelocationFault} {attr : Attribute}

/-- What is left to do for a method of an object that nothing speaks against. -/
def takeReceiver (owner descriptor : String) (method : Member) : Relocation Member := do
  let descriptor ← ConstantPool.putText (← withReceiver owner descriptor)
  let attributes ← shiftAllParameters (← get) method.attributes
  return { flags := method.flags.toPublic.set AccessFlags.isStatic, name := method.name,
           descriptor, attributes }

/-- The checks in their order. None of them touches the pool. -/
theorem toStatic_eq (owner : String) (pool : ConstantPool) (method : Member) :
    method.toStatic owner pool =
      match method.keyIn owner pool with
      | .error cause => .error (.parse cause) pool
      | .ok key =>
        if method.flags.hasAny (AccessFlags.isAbstract ||| AccessFlags.isNative) then
          .error (.noBody key) pool
        else if initializerNames.contains key.name then .error (.initializer key) pool
        else if method.isStatic then .ok { method with flags := method.flags.toPublic } pool
        else method.takeReceiver owner key.descriptor pool := by
  change (liftM (method.keyIn owner pool) >>= _ : Relocation Member) pool = _
  cases hkey : method.keyIn owner pool with
  | error cause => rfl
  | ok key =>
    change (if _ then _ else _ : Relocation Member) pool = _
    dsimp only
    split
    · rfl
    · split
      · rfl
      · split
        · rfl
        · rfl

theorem isCarried_of_shiftParameters (h : shiftParameters pool attr = .error fault) :
    fault.IsCarried := by
  have hencoded (h : (do
        let lists ← AnnotationUse.parametersFormat.decode attr.info
        return some (← attr.encode AnnotationUse.parametersFormat ([] :: lists)) :
          Except RelocationFault (Option Attribute)) = .error fault) : fault.IsCarried := by
    simp only [except_bind_eq_error] at h
    rcases h with hdecode | ⟨lists, -, hencode | ⟨attr', -, hpure⟩⟩
    · exact RelocationFault.isCarried_of_mapError .parse (fun _ => trivial) hdecode
    · exact RelocationFault.isCarried_of_mapError .generate (fun _ => trivial) hencode
    · cases hpure
  simp only [shiftParameters, except_bind_eq_error] at h
  rcases h with hsort | ⟨sort, -, h⟩
  · exact RelocationFault.isCarried_of_mapError .parse (fun _ => trivial) hsort
  · split at h
    · cases h
    · cases h
    · exact hencoded h
    · exact hencoded h
    · cases h

theorem isCarried_of_takeReceiver {descriptor : String}
    (h : method.takeReceiver owner descriptor pool = .error fault left) : fault.IsCarried := by
  simp only [takeReceiver, state_bind_eq_error, state_lift_eq_error] at h
  rcases h with ⟨hreceiver, -⟩ | ⟨text, _, -, hput | ⟨index, _, -, hget | ⟨grown, _, -,
    ⟨hshift, -⟩ | ⟨attributes, _, -, hpure⟩⟩⟩⟩
  · exact RelocationFault.isCarried_of_mapError .descriptor (fun _ => trivial) hreceiver
  · exact isCarried_of_change hput
  · cases hget
  · obtain ⟨attr, -, hattr⟩ := exists_of_filterMapM_eq_error hshift
    exact isCarried_of_shiftParameters hattr
  · cases hpure

/-- Whether the method has no code to move. -/
def IsBodiless (method : Member) : Prop :=
  method.flags.has AccessFlags.isAbstract = true ∨ method.flags.has AccessFlags.isNative = true

theorem isBodiless_iff : method.IsBodiless ↔
    method.flags.hasAny (AccessFlags.isAbstract ||| AccessFlags.isNative) = true := by
  rw [AccessFlags.hasAny_or, AccessFlags.hasAny_eq_has (i := 10) (by decide) (by decide),
    AccessFlags.hasAny_eq_has (i := 8) (by decide) (by decide), IsBodiless]

/-- A method is refused for one of two reasons. All other faults come from below. -/
theorem refused_of_toStatic (h : method.toStatic owner pool = .error fault left) :
    fault.IsCarried ∨ left = pool ∧ ∃ key, method.keyIn owner pool = .ok key ∧
      (method.IsBodiless ∧ fault = .noBody key ∨
        ¬ method.IsBodiless ∧ key.name ∈ initializerNames ∧ fault = .initializer key) := by
  rw [toStatic_eq] at h
  cases hkey : method.keyIn owner pool with
  | error cause =>
    simp only [hkey, EStateM.Result.error.injEq] at h
    rw [← h.1]
    exact .inl trivial
  | ok key =>
    simp only [hkey] at h
    split at h
    · rename_i hbody
      cases h
      exact .inr ⟨rfl, key, rfl, .inl ⟨isBodiless_iff.mpr hbody, rfl⟩⟩
    · rename_i hnot
      have hbody : ¬ method.IsBodiless := fun hbody => hnot (isBodiless_iff.mp hbody)
      split at h
      · rename_i hname
        cases h
        exact .inr ⟨rfl, key, rfl, .inr ⟨hbody, List.contains_iff_mem.mp hname, rfl⟩⟩
      · split at h
        · cases h
        · exact .inl (isCarried_of_takeReceiver h)

theorem toStatic_eq_noBody : method.toStatic owner pool = .error (.noBody key) left ↔
    left = pool ∧ method.keyIn owner pool = .ok key ∧ method.IsBodiless := by
  constructor
  · intro h
    rcases refused_of_toStatic h with hcarried |
      ⟨hleft, key', hkey, ⟨hbody, hfault⟩ | ⟨-, -, hfault⟩⟩
    · cases hcarried
    · cases hfault
      exact ⟨hleft, hkey, hbody⟩
    · cases hfault
  · rintro ⟨rfl, hkey, hbody⟩
    rw [toStatic_eq, hkey]
    exact if_pos (isBodiless_iff.mp hbody)

theorem toStatic_eq_initializer : method.toStatic owner pool = .error (.initializer key) left ↔
    left = pool ∧ method.keyIn owner pool = .ok key ∧ ¬ method.IsBodiless ∧
      (key.name = "<init>" ∨ key.name = "<clinit>") := by
  rw [← List.mem_pair]
  constructor
  · intro h
    rcases refused_of_toStatic h with hcarried |
      ⟨hleft, key', hkey, ⟨-, hfault⟩ | ⟨hbody, hname, hfault⟩⟩
    · cases hcarried
    · cases hfault
    · cases hfault
      exact ⟨hleft, hkey, hbody, hname⟩
  · rintro ⟨rfl, hkey, hbody, hname⟩
    rw [toStatic_eq, hkey]
    rw [isBodiless_iff] at hbody
    dsimp only
    rw [if_neg hbody]
    exact if_pos (List.contains_iff_mem.mpr hname)

end Refusals

/-- The static form of an object's method differs from the method in what takes the object in, and
nothing else. A method is refused for having no code, or else for being an initializer, exactly if
that is so, and the pool stays as it is then. -/
theorem toStatic_isExact (owner : String) (pool : ConstantPool) (method : Member) :
    (pool.Fits → method.isStatic = false → ∀ copy left,
      method.toStatic owner pool = .ok copy left → IsStaticForm owner pool left method copy) ∧
    (∀ key left, method.toStatic owner pool = .error (.noBody key) left ↔
      left = pool ∧ method.keyIn owner pool = .ok key ∧ method.IsBodiless) ∧
    (∀ key left, method.toStatic owner pool = .error (.initializer key) left ↔
      left = pool ∧ method.keyIn owner pool = .ok key ∧ ¬ method.IsBodiless ∧
        (key.name = "<init>" ∨ key.name = "<clinit>")) := by
  refine ⟨?_, fun key left => toStatic_eq_noBody, fun key left => toStatic_eq_initializer⟩
  intro hfits hinstance copy left hrun
  exact isStaticForm_of_toStatic hfits hinstance hrun

section Forms

def formsPool : ConstantPool :=
  ⟨#[.gap, .entry (.utf8 (.valid "m")), .entry (.utf8 (.valid "(J[I)V")),
    .entry (.utf8 (.valid "Signature")), .entry (.utf8 (.valid "Deprecated")),
    .entry (.utf8 (.valid "RuntimeInvisibleParameterAnnotations")),
    .entry (.utf8 (.valid "Lp/Note;")), .entry (.utf8 (.valid "<init>"))]⟩

/-- A method with attributes of all kinds, some of them more than once. -/
def variedMethod : Member :=
  ⟨⟨0x0004⟩, 1, 2, [⟨4, []⟩, ⟨3, [0, 1]⟩, ⟨5, [2, 0, 0, 0, 1, 0, 6, 0, 0]⟩, ⟨3, []⟩, ⟨4, [9]⟩,
    ⟨5, [0]⟩]⟩

def movedVariedMethod : Member :=
  ⟨⟨0x0009⟩, 1, 8, [⟨4, []⟩, ⟨5, [3, 0, 0, 0, 0, 0, 1, 0, 6, 0, 0]⟩, ⟨4, [9]⟩, ⟨5, [1, 0, 0]⟩]⟩

def nativeInitializer : Member := ⟨⟨0x0100⟩, 7, 2, []⟩

theorem toStatic_isExact_of_variedMethod :
    formsPool.Fits ∧ variedMethod.isStatic = false ∧
      IsStaticForm "p/A" formsPool (formsPool.append (.utf8 (.valid "(Lp/A;J[I)V"))) variedMethod
        movedVariedMethod ∧
      nativeInitializer.toStatic "p/A" formsPool =
        .error (.noBody ⟨"p/A", "<init>", "(J[I)V"⟩) formsPool ∧
      Member.toStatic "p/A" { nativeInitializer with flags := ⟨0x0001⟩ } formsPool =
        .error (.initializer ⟨"p/A", "<init>", "(J[I)V"⟩) formsPool := by
  have hfits : formsPool.Fits := by decide
  have hinstance : variedMethod.isStatic = false := by decide
  have hrun : variedMethod.toStatic "p/A" formsPool =
      .ok movedVariedMethod (formsPool.append (.utf8 (.valid "(Lp/A;J[I)V"))) := by
    rw [← runOn_eq_ok, ← toOption_eq_some]
    decide +kernel
  refine ⟨hfits, hinstance, (toStatic_isExact _ _ _).1 hfits hinstance _ _ hrun, ?_, ?_⟩
  · exact ((toStatic_isExact _ _ _).2.1 _ _).mpr ⟨rfl, rfl, .inr (by decide)⟩
  · refine ((toStatic_isExact _ _ _).2.2 _ _).mpr ⟨rfl, rfl, ?_, .inl rfl⟩
    unfold IsBodiless
    decide

end Forms

end Member

end StaticCompanion
