import StaticCompanion.Proofs.Omitted
import StaticCompanion.Proofs.TurnedClass
import StaticCompanion.Run.Output

namespace StaticCompanion

namespace ClassFile

/-- At the same place in the same method, the classes access different fields. -/
inductive RedirectsField (before after : ClassFile) (key key' : MemberKey) : Prop
  | access {method method' : Member} {instruction instruction' : Instruction}
      {access access' : FieldAccess} {index index' : UInt16}
      (hmethods : (method, method') ∈ before.methods.zip after.methods)
      (hbefore : method.HasInstruction before.pool instruction)
      (hafter : method'.HasInstruction after.pool instruction')
      (hplace : instruction'.pc = instruction.pc)
      (haction : instruction.action = .field access index)
      (hkey : before.pool.member index = .ok key)
      (haction' : instruction'.action = .field access' index')
      (hkey' : after.pool.member index' = .ok key') (hother : key' ≠ key)

/-- At the same place in the same method, the classes call different methods, or they make lambdas
of different methods by the same bootstrap. -/
inductive RedirectsMethod (before after : ClassFile) (key key' : MemberKey) : Prop
  | call {method method' : Member} {instruction instruction' : Instruction}
      {kind kind' : CallKind} {index index' : UInt16}
      (hmethods : (method, method') ∈ before.methods.zip after.methods)
      (hbefore : method.HasInstruction before.pool instruction)
      (hafter : method'.HasInstruction after.pool instruction')
      (hplace : instruction'.pc = instruction.pc)
      (haction : instruction.action = .call kind index)
      (hkey : before.pool.member index = .ok key)
      (haction' : instruction'.action = .call kind' index')
      (hkey' : after.pool.member index' = .ok key') (hother : key' ≠ key)
  | lambda {table table' : List Bootstrap} {bootstrap bootstrap' : Bootstrap}
      (htable : before.bootstraps = .ok table) (htable' : after.bootstraps = .ok table')
      (hbootstraps : (bootstrap, bootstrap') ∈ table.zip table')
      (hbody : lambdaBody before.pool bootstrap = .ok (some key))
      (hbody' : lambdaBody after.pool bootstrap' = .ok (some key')) (hother : key' ≠ key)

/-- The class declares this field, and anyone may use it without an object. -/
def OffersField (file : ClassFile) (key : MemberKey) : Prop :=
  file.name = .ok key.owner ∧ ∃ field ∈ file.fields,
    field.keyIn key.owner file.pool = .ok key ∧ field.isPublic = true ∧ field.isStatic = true

/-- The class declares this method, and anyone may use it without an object. -/
def OffersMethod (file : ClassFile) (key : MemberKey) : Prop :=
  file.name = .ok key.owner ∧ ∃ method ∈ file.methods,
    method.keyIn key.owner file.pool = .ok key ∧ method.isPublic = true ∧ method.isStatic = true

section Adapt
variable {options : Options} {analysis : Analysis} {before after : ClassFile}

structure Adapted (analysis : Analysis) (owners : Option NameSet) (before after : ClassFile) :
    Prop where
  grows : before.pool ≤ after.pool
  fits : after.pool.Fits
  thisClass : after.thisClass = before.thisClass
  fields : List.Forall₂ Member.SameHeader before.fields after.fields
  methods : List.Forall₂ (fun method method' => ∃ kept,
    Omission.OmittedMethod before.pool method kept ∧
      Retarget.TurnedMethod analysis owners after.pool kept method') before.methods after.methods
  table : ∀ table, before.bootstraps = .ok table → ∃ table', after.bootstraps = .ok table' ∧
    List.Forall₂ (Retarget.TurnedBootstrap analysis after.pool) table table'

theorem adapted_of_adapt (hfits : before.pool.Fits) (htypes : analysis.types = ∅)
    (h : before.adapt options analysis = .ok after) :
    Adapted analysis options.owners before after := by
  simp only [adapt, except_bind_eq_ok, replaceTypes, htypes] at h
  obtain ⟨kept, homit, turned, hturn, h⟩ := h
  obtain rfl : turned = after := by simpa using h
  have homitted := Omission.omittedClass_of_omitAnnotations homit
  have hturned := Retarget.turnedClass_of_retarget (homitted.pool ▸ hfits) hturn
  refine ⟨homitted.pool ▸ hturned.grows, hturned.fits,
    hturned.thisClass.trans homitted.thisClass, hturned.fields ▸ homitted.fields,
    forall₂_comp homitted.methods hturned.methods, ?_⟩
  intro table htable
  obtain ⟨table', turned', htable', hturned', hrel⟩ := hturned.table
  obtain rfl := Except.ok.inj (htable'.symm.trans (homitted.table table htable))
  exact ⟨turned', hturned', hrel⟩

namespace Adapted
variable {owners : Option NameSet} {key key' : MemberKey}
  (h : Adapted analysis owners before after)
include h

theorem turned_at {method method' : Member} {instruction instruction' : Instruction}
    (hmethods : (method, method') ∈ before.methods.zip after.methods)
    (hbefore : method.HasInstruction before.pool instruction)
    (hafter : method'.HasInstruction after.pool instruction')
    (hplace : instruction'.pc = instruction.pc) (hrefers : instruction'.action ≠ .other) :
    ∃ row, Retarget.TurnedInstruction analysis owners after.pool instruction row ∧
      instruction' ∈ row := by
  obtain ⟨kept, homitted, hturned⟩ := (List.forall₂_iff_zip.mp h.methods).2 hmethods
  obtain ⟨code, instructions, hcode, hdecode, hmem⟩ := hbefore
  obtain ⟨code', hcode', hbytes⟩ := homitted.code code hcode
  exact hturned.turned_at
    ⟨code', instructions, Member.codeIn_of_le h.grows hcode', hbytes ▸ hdecode, hmem⟩ hafter hplace
    hrefers

/-- Only an access to a field that moves is redirected, and it goes where the field moves. -/
theorem of_redirectsField (hredirects : before.RedirectsField after key key') :
    analysis.fields[key]? = some key' := by
  obtain ⟨hmethods, hbefore, hafter, hplace, haction, hkey, haction', hkey', hother⟩ := hredirects
  obtain ⟨row, hturned, hmem⟩ := h.turned_at hmethods hbefore hafter hplace (by simp [haction'])
  obtain ⟨_, _, origin, haction'', horigin, hmoved⟩ := hturned.field_of_mem hmem haction' hkey'
  obtain ⟨rfl, rfl⟩ := Action.field.inj (haction.symm.trans haction'')
  obtain rfl := Except.ok.inj (horigin.symm.trans (ConstantPool.member_of_le h.grows hkey))
  exact hmoved.resolve_left hother

/-- Only a use of a method that moves is redirected, and it goes where the method moves. -/
theorem of_redirectsMethod (hredirects : before.RedirectsMethod after key key') :
    analysis.methods[key]? = some key' := by
  cases hredirects with
  | call hmethods hbefore hafter hplace haction hkey haction' hkey' hother =>
    obtain ⟨row, hturned, hmem⟩ := h.turned_at hmethods hbefore hafter hplace (by simp [haction'])
    obtain ⟨_, _, origin, haction'', horigin, hmoved⟩ := hturned.call_of_mem hmem haction' hkey'
    obtain ⟨rfl, rfl⟩ := Action.call.inj (haction.symm.trans haction'')
    obtain rfl := Except.ok.inj (horigin.symm.trans (ConstantPool.member_of_le h.grows hkey))
    exact hmoved.resolve_left hother
  | lambda htable htable' hbootstraps hbody hbody' hother =>
    obtain ⟨turned, hturned, hrel⟩ := h.table _ htable
    obtain rfl := Except.ok.inj (hturned.symm.trans htable')
    have hbootstrap := (List.forall₂_iff_zip.mp hrel).2 hbootstraps
    exact (hbootstrap.lambdaBody_eq (lambdaBody_of_le h.grows hbody) hbody').resolve_left hother

theorem offersField (hoffers : before.OffersField key) : after.OffersField key := by
  obtain ⟨hname, field, hmem, hkey, hpublic, hstatic⟩ := hoffers
  obtain ⟨field', hmem', hheader⟩ := forall₂_mem_left h.fields hmem
  refine ⟨name_of_le h.grows h.thisClass hname, field', hmem', ?_, ?_, ?_⟩
  · exact (hheader.keyIn _ _).trans (Member.keyIn_of_le h.grows hkey)
  · rwa [Member.isPublic, hheader.flags]
  · rwa [Member.isStatic, hheader.flags]

theorem offersMethod (hoffers : before.OffersMethod key) : after.OffersMethod key := by
  obtain ⟨hname, method, hmem, hkey, hpublic, hstatic⟩ := hoffers
  obtain ⟨method', hmem', kept, homitted, hturned⟩ := forall₂_mem_left h.methods hmem
  have hheader : method.SameHeader method' :=
    ⟨hturned.flags.trans homitted.header.flags, hturned.name.trans homitted.header.name,
      hturned.descriptor.trans homitted.header.descriptor⟩
  refine ⟨name_of_le h.grows h.thisClass hname, method', hmem', ?_, ?_, ?_⟩
  · exact (hheader.keyIn _ _).trans (Member.keyIn_of_le h.grows hkey)
  · rwa [Member.isPublic, hheader.flags]
  · rwa [Member.isStatic, hheader.flags]

end Adapted

end Adapt

end ClassFile

end StaticCompanion
