import StaticCompanion.Proofs.TurnedClass

namespace StaticCompanion

/-- The method that links the call sites of the bootstrap and the method that it makes lambdas of
can be read, as far as it has one. -/
structure Bootstrap.Readable (pool : ConstantPool) (bootstrap : Bootstrap) : Prop where
  factory : ∃ handle, pool.methodHandle bootstrap.method = .ok handle
  body : ∃ body, lambdaBody pool bootstrap = .ok body

namespace Retarget

/-- The bootstrap makes plain lambdas of a method that has moved to this one. -/
structure LambdaMoves (analysis : Analysis) (pool : ConstantPool) (bootstrap : Bootstrap)
    (moved : MemberKey) : Prop where
  factory : ∃ kind factory, pool.methodHandle bootstrap.method = .ok (kind, factory) ∧
    factory.owner = metafactoryOwner ∧ factory.name = metafactory
  body : ∃ argument kind key, bootstrap.arguments[1]? = some argument ∧
    pool.methodHandle argument = .ok (kind, key) ∧ analysis.methods[key]? = some moved

/-- A bootstrap after the class has been turned: only the handle of a method that has moved is
exchanged, for a static one of the method that it has moved to. -/
structure BootstrapInPlace (analysis : Analysis) (pool : ConstantPool)
    (bootstrap bootstrap' : Bootstrap) : Prop where
  method : bootstrap'.method = bootstrap.method
  length : bootstrap'.arguments.length = bootstrap.arguments.length
  others : ∀ i ≠ 1, bootstrap'.arguments[i]? = bootstrap.arguments[i]?
  turned : ∀ moved, LambdaMoves analysis pool bootstrap moved →
    ∃ handle, bootstrap'.arguments[1]? = some handle ∧ StaticHandle pool handle moved
  kept : (∀ moved, ¬ LambdaMoves analysis pool bootstrap moved) → bootstrap' = bootstrap

section Bootstraps
variable {analysis : Analysis} {p q : ConstantPool} {bootstrap bootstrap' : Bootstrap}
  {moved : MemberKey}

theorem lambdaBody_eq_some {key : MemberKey} :
    lambdaBody p bootstrap = .ok (some key) ↔ ∃ argument kind,
      bootstrap.arguments[1]? = some argument ∧ p.methodHandle argument = .ok (kind, key) := by
  unfold lambdaBody
  cases bootstrap.arguments[1]? with
  | none => simp
  | some argument => simp [handleAt?_eq_ok]

theorem lambdaMoves_iff : LambdaMoves analysis p bootstrap moved ↔
    (∃ kind factory, p.methodHandle bootstrap.method = .ok (kind, factory) ∧
      factory.owner = metafactoryOwner ∧ factory.name = metafactory) ∧
    ∃ key, lambdaBody p bootstrap = .ok (some key) ∧ analysis.methods[key]? = some moved := by
  constructor
  · intro h
    obtain ⟨argument, kind, key, hargument, hhandle, hmoved⟩ := h.body
    exact ⟨h.factory, key, lambdaBody_eq_some.mpr ⟨argument, kind, hargument, hhandle⟩, hmoved⟩
  · rintro ⟨hfactory, key, hbody, hmoved⟩
    obtain ⟨argument, kind, hargument, hhandle⟩ := lambdaBody_eq_some.mp hbody
    exact ⟨hfactory, argument, kind, key, hargument, hhandle, hmoved⟩

theorem lambdaMoves_iff_of_le (hle : p ≤ q) (hread : bootstrap.Readable p) :
    LambdaMoves analysis q bootstrap moved ↔ LambdaMoves analysis p bootstrap moved := by
  obtain ⟨⟨handle, hfactory⟩, body, hbody⟩ := hread
  rw [lambdaMoves_iff, lambdaMoves_iff, ConstantPool.methodHandle_of_le hle hfactory, hfactory,
    lambdaBody_of_le hle hbody, hbody]

theorem bootstrapInPlace_self (hstays : ∀ moved, ¬ LambdaMoves analysis p bootstrap moved) :
    BootstrapInPlace analysis p bootstrap bootstrap where
  method := rfl
  length := rfl
  others _ _ := rfl
  turned moved hmoves := absurd hmoves (hstays moved)
  kept _ := rfl

theorem TurnedBootstrap.inPlace (h : TurnedBootstrap analysis p bootstrap bootstrap') :
    BootstrapInPlace analysis p bootstrap bootstrap' := by
  cases h with
  | @otherFactory kind factory hfactory hother =>
    apply bootstrapInPlace_self
    intro moved hmoves
    obtain ⟨kind', factory', hfactory', hplain⟩ := hmoves.factory
    obtain ⟨-, rfl⟩ := Prod.mk.inj (Except.ok.inj (hfactory.symm.trans hfactory'))
    exact (not_and_or.mpr hother) hplain
  | @kept kind factory body hfactory hplain hbody hkept =>
    apply bootstrapInPlace_self
    intro moved hmoves
    obtain ⟨-, key, hbody', hmoved⟩ := lambdaMoves_iff.mp hmoves
    have hnone := hkept key (Except.ok.inj (hbody.symm.trans hbody'))
    cases hnone.symm.trans hmoved
  | @turned kind factory key moved handle hfactory hplain hbody hmoved hnew =>
    have hmoves : LambdaMoves analysis p bootstrap moved :=
      lambdaMoves_iff.mpr ⟨⟨kind, factory, hfactory, hplain⟩, key, hbody, hmoved⟩
    obtain ⟨argument, _, hargument, -⟩ := lambdaBody_eq_some.mp hbody
    have hlen := (List.getElem?_eq_some_iff.mp hargument).1
    refine ⟨rfl, List.length_set, ?_, ?_, fun hstays => absurd hmoves (hstays moved)⟩
    · intro i hi
      exact List.getElem?_set_ne hi.symm
    · intro other hother
      obtain ⟨-, key', hbody', hmoved'⟩ := lambdaMoves_iff.mp hother
      obtain rfl := Option.some.inj (Except.ok.inj (hbody.symm.trans hbody'))
      obtain rfl := Option.some.inj (hmoved.symm.trans hmoved')
      exact ⟨handle, List.getElem?_set_self hlen, hnew⟩

end Bootstraps

/-- Lambdas are followed exactly, and their table stays as it is apart from that. Handles are read
in the pool of the turned class, where all that can be read in the pool of the class is the same. -/
theorem retarget_bootstraps {analysis : Analysis} {owners : Option NameSet}
    {file turned : ClassFile} (hfits : file.pool.Fits)
    (h : file.retarget analysis owners = .ok turned) :
    ∃ table table', file.bootstraps = .ok table ∧ turned.bootstraps = .ok table' ∧
      List.Forall₂ (BootstrapInPlace analysis turned.pool) table table' ∧
      (∀ bootstrap ∈ table, bootstrap.Readable file.pool → ∀ moved,
        LambdaMoves analysis turned.pool bootstrap moved ↔
          LambdaMoves analysis file.pool bootstrap moved) ∧
      ∀ site position nameAndType,
        file.pool.entry site = .ok (.invokeDynamic position nameAndType) →
        turned.pool.entry site = .ok (.invokeDynamic position nameAndType) := by
  have hturned := turnedClass_of_retarget hfits h
  obtain ⟨table, table', htable, htable', hrows⟩ := hturned.table
  refine ⟨table, table', htable, htable', hrows.imp fun _ _ hrow => hrow.inPlace, ?_, ?_⟩
  · intro bootstrap _ hread moved
    exact lambdaMoves_iff_of_le hturned.grows hread
  · intro site position nameAndType hsite
    exact ConstantPool.entry_of_le hturned.grows hsite

/-- A class whose bootstraps make a plain lambda and a special one of the same method, and a plain
one of nothing. -/
def lambdaUser : ClassFile :=
  let text (s : String) : Slot := .entry (.utf8 (.valid s))
  let table : List Bootstrap := [⟨11, [12, 17, 12]⟩, ⟨14, [12, 17, 12]⟩, ⟨11, [12]⟩]
  { minorVersion := 0
    majorVersion := 52
    pool := ⟨#[.gap, text "p/B", .entry (.class 1), text "java/lang/Object", .entry (.class 3),
      text metafactoryOwner, .entry (.class 5), text "()V", text metafactory,
      .entry (.nameAndType 8 7), .entry (.memberRef .method 6 9), .entry (.methodHandle 6 10),
      .entry (.methodType 7), .entry (.memberRef .method 6 21), .entry (.methodHandle 6 13),
      text "m", .entry (.memberRef .method 2 18), .entry (.methodHandle 7 16),
      .entry (.nameAndType 15 7), .entry (.invokeDynamic 0 18), text alternativeMetafactory,
      .entry (.nameAndType 20 7), text AttributeName.bootstrapMethods.text]⟩
    flags := ⟨0x0021⟩
    thisClass := 2
    superClass := 4
    interfaces := []
    fields := []
    methods := []
    attributes := [⟨22, ((Bootstrap.tableFormat.write table).toOption).getD []⟩] }

def movedLambda : Analysis where
  fields := ∅
  methods := (∅ : MemberMap).insert ⟨"p/B", "m", "()V"⟩ ⟨"p/DesugarB", "m", "(Lp/B;)V"⟩
  types := ∅

/-- Only the plain lambda is turned, also if calls of the method may not be. -/
theorem retarget_bootstraps_of_lambdaUser :
    ∃ turned table table', lambdaUser.retarget movedLambda (some ∅) = .ok turned ∧
      lambdaUser.bootstraps = .ok table ∧ turned.bootstraps = .ok table' ∧
      table'.map Bootstrap.arguments = [[12, 28, 12], [12, 17, 12], [12]] ∧
      List.Forall₂ (BootstrapInPlace movedLambda turned.pool) table table' := by
  have hrun : (lambdaUser.retarget movedLambda (some ∅)).toOption.bind (fun turned =>
      turned.bootstraps.toOption.map fun table => table.map Bootstrap.arguments) =
        some [[12, 28, 12], [12, 17, 12], [12]] := by
    decide +kernel
  obtain ⟨turned, hfound, hrun⟩ := Option.bind_eq_some_iff.mp hrun
  obtain ⟨found, hread, harguments⟩ := Option.map_eq_some_iff.mp hrun
  have hturned := toOption_eq_some.mp hfound
  obtain ⟨table, table', htable, htable', hrows, -⟩ := retarget_bootstraps (by decide) hturned
  obtain rfl := Except.ok.inj (htable'.symm.trans (toOption_eq_some.mp hread))
  exact ⟨turned, table, table', hturned, htable, htable', harguments, hrows⟩

end Retarget

end StaticCompanion
