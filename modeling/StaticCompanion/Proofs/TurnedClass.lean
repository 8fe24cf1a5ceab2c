import StaticCompanion.Proofs.TurnedCode

namespace StaticCompanion

namespace Retarget
variable {analysis : Analysis} {owners : Option NameSet} {p q : ConstantPool}

/-- The constant with this index is a handle that calls the method as a static one. -/
def StaticHandle (pool : ConstantPool) (handle : UInt16) (key : MemberKey) : Prop :=
  ∃ reference, pool.entry handle = .ok (.methodHandle staticHandle reference) ∧
    pool.Refers .method reference key

theorem StaticHandle.of_le (hle : p ≤ q) {handle : UInt16} {key : MemberKey}
    (h : StaticHandle p handle key) : StaticHandle q handle key := by
  obtain ⟨reference, hentry, hrefers⟩ := h
  exact ⟨reference, ConstantPool.entry_of_le hle hentry, hrefers.of_le hle⟩

theorem StaticHandle.methodHandle {handle : UInt16} {key : MemberKey}
    (h : StaticHandle p handle key) : p.methodHandle handle = .ok (staticHandle, key) := by
  obtain ⟨reference, hentry, hrefers⟩ := h
  exact ConstantPool.methodHandle_eq_ok.mpr ⟨reference, hentry, hrefers.member⟩

inductive TurnedBootstrap (analysis : Analysis) (pool : ConstantPool) (bootstrap : Bootstrap) :
    Bootstrap → Prop
  | otherFactory {kind : UInt8} {factory : MemberKey}
      (hfactory : pool.methodHandle bootstrap.method = .ok (kind, factory))
      (hother : factory.owner ≠ metafactoryOwner ∨ factory.name ≠ metafactory) :
      TurnedBootstrap analysis pool bootstrap bootstrap
  | kept {kind : UInt8} {factory : MemberKey} {body : Option MemberKey}
      (hfactory : pool.methodHandle bootstrap.method = .ok (kind, factory))
      (hplain : factory.owner = metafactoryOwner ∧ factory.name = metafactory)
      (hbody : lambdaBody pool bootstrap = .ok body)
      (hstays : ∀ key, body = some key → analysis.methods[key]? = none) :
      TurnedBootstrap analysis pool bootstrap bootstrap
  | turned {kind : UInt8} {factory key moved : MemberKey} {handle : UInt16}
      (hfactory : pool.methodHandle bootstrap.method = .ok (kind, factory))
      (hplain : factory.owner = metafactoryOwner ∧ factory.name = metafactory)
      (hbody : lambdaBody pool bootstrap = .ok (some key))
      (hmoved : analysis.methods[key]? = some moved)
      (hnew : StaticHandle pool handle moved) :
      TurnedBootstrap analysis pool bootstrap
        { bootstrap with arguments := bootstrap.arguments.set 1 handle }

theorem TurnedBootstrap.of_le (hle : p ≤ q) {bootstrap bootstrap' : Bootstrap}
    (h : TurnedBootstrap analysis p bootstrap bootstrap') :
    TurnedBootstrap analysis q bootstrap bootstrap' := by
  cases h with
  | otherFactory hfactory hother =>
    exact .otherFactory (ConstantPool.methodHandle_of_le hle hfactory) hother
  | kept hfactory hplain hbody hstays =>
    exact .kept (ConstantPool.methodHandle_of_le hle hfactory) hplain (lambdaBody_of_le hle hbody)
      hstays
  | turned hfactory hplain hbody hmoved hnew =>
    exact .turned (ConstantPool.methodHandle_of_le hle hfactory) hplain (lambdaBody_of_le hle hbody)
      hmoved (hnew.of_le hle)

theorem turnBootstrap_grows (bootstrap : Bootstrap) :
    ConstantPool.Grows (turnBootstrap analysis bootstrap) fun bootstrap' pool =>
      TurnedBootstrap analysis pool bootstrap bootstrap' := by
  intro p bootstrap' p' hfits hrun
  simp only [turnBootstrap, state_bind_eq_ok, state_get_eq_ok, state_lift_eq_ok, lift_pool_eq_ok]
    at hrun
  obtain ⟨_, _, ⟨rfl, rfl⟩, ⟨kind, factory⟩, _, ⟨hfactory, rfl⟩, hrun⟩ := hrun
  dsimp only at hrun
  split at hrun
  · rename_i hother
    obtain ⟨rfl, rfl⟩ := state_pure_eq_ok.mp hrun
    exact ⟨ConstantPool.le_refl _, hfits, .otherFactory hfactory hother⟩
  · rename_i hplain
    rw [not_or, not_not, not_not] at hplain
    simp only [state_bind_eq_ok, state_get_eq_ok, state_lift_eq_ok, lift_pool_eq_ok] at hrun
    obtain ⟨_, _, ⟨rfl, rfl⟩, body, _, ⟨hbody, rfl⟩, hrun⟩ := hrun
    cases body with
    | none =>
      obtain ⟨rfl, rfl⟩ := state_pure_eq_ok.mp hrun
      exact ⟨ConstantPool.le_refl _, hfits, .kept hfactory hplain hbody (by simp)⟩
    | some key =>
      cases hmoved : analysis.methods[key]? with
      | none =>
        simp only [hmoved, state_pure_eq_ok] at hrun
        obtain ⟨rfl, rfl⟩ := hrun
        refine ⟨ConstantPool.le_refl _, hfits, .kept hfactory hplain hbody ?_⟩
        intro other hother
        rwa [← Option.some.inj hother]
      | some moved =>
        simp only [hmoved, state_bind_eq_ok, lift_change_eq_ok, state_pure_eq_ok] at hrun
        obtain ⟨reference, p₁, hreference, handle, _, hhandle, rfl, rfl⟩ := hrun
        obtain ⟨hle, hfits₁, hmember⟩ := ConstantPool.putMember_grows .method moved hfits hreference
        obtain ⟨hle₁, hfits', hentry⟩ :=
          ConstantPool.putMethodHandle_grows staticHandle reference hfits₁ hhandle
        have hle' := ConstantPool.le_trans hle hle₁
        have hfactory' := ConstantPool.methodHandle_of_le hle' hfactory
        exact ⟨hle', hfits', .turned hfactory' hplain (lambdaBody_of_le hle' hbody) hmoved
          ⟨reference, hentry, hmember.of_le hle₁⟩⟩

section Lambdas
variable {bootstrap bootstrap' : Bootstrap}

theorem lambdaBody_set {handle : UInt16} {key moved : MemberKey}
    (hbody : lambdaBody p bootstrap = .ok (some key)) (hnew : StaticHandle p handle moved) :
    lambdaBody p { bootstrap with arguments := bootstrap.arguments.set 1 handle } =
      .ok (some moved) := by
  have hargument : ∃ argument, bootstrap.arguments[1]? = some argument := by
    cases hargument : bootstrap.arguments[1]? with
    | none => simp [lambdaBody, hargument] at hbody
    | some argument => exact ⟨argument, rfl⟩
  obtain ⟨argument, hargument⟩ := hargument
  have hlen := (List.getElem?_eq_some_iff.mp hargument).1
  simp only [lambdaBody, List.getElem?_set_self hlen]
  exact handleAt?_eq_ok.mpr (.inl ⟨staticHandle, moved, hnew.methodHandle, rfl⟩)

theorem TurnedBootstrap.method (h : TurnedBootstrap analysis p bootstrap bootstrap') :
    bootstrap'.method = bootstrap.method := by
  cases h <;> rfl

theorem TurnedBootstrap.lambdaBody (h : TurnedBootstrap analysis p bootstrap bootstrap')
    {kind : UInt8} {factory : MemberKey}
    (hfactory : p.methodHandle bootstrap.method = .ok (kind, factory))
    (howner : factory.owner = metafactoryOwner) {body : Option MemberKey}
    (hbody : lambdaBody p bootstrap = .ok body) :
    StaticCompanion.lambdaBody p bootstrap' = .ok (body.map fun key =>
        if factory.name = metafactory then analysis.methods[key]?.getD key else key) := by
  have hsame {kind' : UInt8} {factory' : MemberKey}
      (h : p.methodHandle bootstrap.method = .ok (kind', factory')) : factory' = factory :=
    (Prod.mk.inj (Except.ok.inj (h.symm.trans hfactory))).2
  cases h with
  | otherFactory hfactory' hother =>
    rw [hsame hfactory'] at hother
    have hname : factory.name ≠ metafactory := hother.resolve_left (not_not.mpr howner)
    simp [hname, hbody]
  | kept hfactory' hplain hbody' hstays =>
    obtain rfl := Except.ok.inj (hbody.symm.trans hbody')
    apply hbody.trans
    cases body with
    | none => rfl
    | some key => simp [hstays key rfl]
  | turned hfactory' hplain hbody' hmoved hnew =>
    rw [hsame hfactory'] at hplain
    obtain rfl := Except.ok.inj (hbody.symm.trans hbody')
    apply (lambdaBody_set hbody hnew).trans
    simp [hplain.2, hmoved]

theorem TurnedBootstrap.lambdaBody_eq (h : TurnedBootstrap analysis p bootstrap bootstrap')
    {key key' : MemberKey} (hbody : StaticCompanion.lambdaBody p bootstrap = .ok (some key))
    (hbody' : StaticCompanion.lambdaBody p bootstrap' = .ok (some key')) :
    key' = key ∨ analysis.methods[key]? = some key' := by
  cases h with
  | otherFactory _ _ => exact .inl (Option.some.inj (Except.ok.inj (hbody'.symm.trans hbody)))
  | kept _ _ _ _ => exact .inl (Option.some.inj (Except.ok.inj (hbody'.symm.trans hbody)))
  | turned _ _ hbody'' hmoved hnew =>
    obtain rfl := Option.some.inj (Except.ok.inj (hbody.symm.trans hbody''))
    have hafter := lambdaBody_set hbody hnew
    obtain rfl := Option.some.inj (Except.ok.inj (hbody'.symm.trans hafter))
    exact .inr hmoved

end Lambdas

def RowUses (pool : ConstantPool) (table : List Bootstrap) (row : List Instruction)
    (uses : List Use) : Prop :=
  ∃ options, List.Forall₂ (fun instruction use => instruction.use? pool table = .ok use) row
    options ∧ options.reduceOption = uses

section Rows
variable {table : List Bootstrap} {instruction : Instruction} {front back : List Instruction}
  {uses uses' : List Use}

theorem rowUses_single {use : Option Use} (huse : instruction.use? p table = .ok use) :
    RowUses p table [instruction] use.toList := by
  refine ⟨[use], .cons huse .nil, ?_⟩
  cases use <;> rfl

theorem RowUses.append (hfront : RowUses p table front uses) (hback : RowUses p table back uses') :
    RowUses p table (front ++ back) (uses ++ uses') := by
  obtain ⟨options, hoptions, rfl⟩ := hfront
  obtain ⟨options', hoptions', rfl⟩ := hback
  exact ⟨options ++ options', List.rel_append hoptions hoptions', List.reduceOption_append _ _⟩

theorem rowUses_idle (p : ConstantPool) (table : List Bootstrap) (pc count : Nat) :
    RowUses p table (idle pc count) [] := by
  induction count generalizing pc with
  | zero => exact ⟨[], .nil, rfl⟩
  | succ count ih =>
    have hnop : (⟨pc, Instruction.nop, []⟩ : Instruction).use? p table = .ok none := by
      rw [Instruction.use?_eq_ok, Instruction.action_nop]
    exact (rowUses_single hnop).append (ih (pc + 1))

end Rows

section Uses
variable {table table' : List Bootstrap} {instruction : Instruction}
  (htable : List.Forall₂ (TurnedBootstrap analysis p) table table')
include htable

theorem use?_of_dynamicCall {index : UInt16} (haction : instruction.action = .dynamicCall index)
    {use : Option Use} (huse : instruction.use? p table = .ok use) :
    instruction.use? p table' = .ok (use.map (Use.turn analysis owners)) := by
  rw [Instruction.use?_eq_ok, haction] at huse ⊢
  obtain ⟨found, hfound, huse⟩ := huse
  obtain ⟨position, nameAndType, bootstrap, kind, factory, hentry, hbootstrap, hfactory, rfl⟩ :=
    lambdaBootstrap_eq_ok.mp hfound
  obtain ⟨hlt, rfl⟩ := List.getElem?_eq_some_iff.mp hbootstrap
  have hlt' : position.toNat < table'.length := htable.length_eq ▸ hlt
  have hturned := (List.forall₂_iff_get.mp htable).2 position.toNat hlt hlt'
  have hfactory' : p.methodHandle table'[position.toNat].method = .ok (kind, factory) :=
    hturned.method ▸ hfactory
  by_cases howner : factory.owner = metafactoryOwner
  · rw [if_pos howner] at huse
    obtain ⟨body, hbody, rfl⟩ := huse
    refine ⟨_, lambdaBootstrap_eq_ok.mpr ⟨position, nameAndType, table'[position.toNat], kind,
      factory, hentry, List.getElem?_eq_getElem hlt', hfactory', rfl⟩, ?_⟩
    rw [if_pos howner]
    refine ⟨_, hturned.lambdaBody hfactory howner hbody, ?_⟩
    cases body <;> rfl
  · rw [if_neg howner] at huse
    subst huse
    refine ⟨none, lambdaBootstrap_eq_ok.mpr ⟨position, nameAndType, table'[position.toNat], kind,
      factory, hentry, List.getElem?_eq_getElem hlt', hfactory', ?_⟩, rfl⟩
    rw [if_neg howner]

/-- The row of an instruction uses what the instruction used, where it has moved to. -/
theorem TurnedInstruction.uses {row : List Instruction}
    (h : TurnedInstruction analysis owners p instruction row) {use : Option Use}
    (huse : instruction.use? p table = .ok use) :
    RowUses p table' row (use.map (Use.turn analysis owners)).toList := by
  cases h with
  | other hfield hcall =>
    apply rowUses_single
    cases haction : instruction.action with
    | field access index => exact absurd haction (hfield access index)
    | call kind index => exact absurd haction (hcall kind index)
    | dynamicCall index => exact use?_of_dynamicCall htable haction huse
    | other =>
      rw [Instruction.use?_eq_ok, haction] at huse ⊢
      rw [huse]
      rfl
  | keptField haction hkey hstays =>
    apply rowUses_single
    rw [Instruction.use?_eq_ok, haction] at huse ⊢
    obtain ⟨key, hkey', rfl⟩ := huse
    obtain rfl := Except.ok.inj (hkey.symm.trans hkey')
    exact ⟨_, hkey, by simp [Use.turn, hstays]⟩
  | field haction hkey hmoved hnew =>
    apply rowUses_single
    rw [Instruction.use?_eq_ok, haction] at huse
    obtain ⟨key, hkey', rfl⟩ := huse
    obtain rfl := Except.ok.inj (hkey.symm.trans hkey')
    rw [Instruction.use?_eq_ok, action_withIndex haction]
    exact ⟨_, hnew.member, by simp [Use.turn, hmoved]⟩
  | @keptCall _ _ key haction hkey hstays =>
    apply rowUses_single
    rw [Instruction.use?_eq_ok, haction] at huse ⊢
    obtain ⟨_, hkey', rfl⟩ := huse
    obtain rfl := Except.ok.inj (hkey.symm.trans hkey')
    refine ⟨_, hkey, ?_⟩
    by_cases heligible : eligible owners key = true
    · simp [Use.turn, hstays heligible]
    · simp [Use.turn, heligible]
  | @call _ _ index' key moved haction hkey heligible hmoved hnew =>
    rw [Instruction.use?_eq_ok, haction] at huse
    obtain ⟨_, hkey', rfl⟩ := huse
    obtain rfl := Except.ok.inj (hkey.symm.trans hkey')
    have hstatic : (⟨instruction.pc, CallKind.static.opcode, bigEndian 2 index'.toNat⟩ :
        Instruction).use? p table' = .ok (some (.call moved)) := by
      rw [Instruction.use?_eq_ok, action_static]
      exact ⟨moved, hnew.member, rfl⟩
    have hturned : ((some (Use.call key)).map (Use.turn analysis owners)).toList =
        [Use.call moved] ++ [] := by
      simp [Use.turn, heligible, hmoved]
    rw [hturned]
    exact (rowUses_single hstatic).append (rowUses_idle ..)

theorem uses_of_rows {instructions : List Instruction} {rows : List (List Instruction)}
    (hrows : List.Forall₂ (TurnedInstruction analysis owners p) instructions rows)
    {uses : List Use} (huses : RowUses p table instructions uses) :
    RowUses p table' rows.flatten (uses.map (Use.turn analysis owners)) := by
  obtain ⟨options, hoptions, rfl⟩ := huses
  induction hrows generalizing options with
  | nil =>
    cases hoptions
    exact ⟨[], .nil, rfl⟩
  | cons hrow _ ih =>
    cases hoptions with
    | @cons _ use _ options huse hoptions =>
      have hturned : (use :: options).reduceOption.map (Use.turn analysis owners) =
          (use.map (Use.turn analysis owners)).toList ++
            options.reduceOption.map (Use.turn analysis owners) := by
        cases use <;> simp
      rw [List.flatten_cons, hturned]
      exact (hrow.uses htable huse).append (ih options hoptions)

theorem TurnedMethod.uses {method method' : Member}
    (h : TurnedMethod analysis owners p method method') {uses : List Use}
    (huses : method.uses p table = .ok uses) :
    method'.uses p table' = .ok (uses.map (Use.turn analysis owners)) := by
  obtain ⟨code, hcode, huses⟩ := Member.uses_eq_ok.mp huses
  obtain ⟨code', hcode', hrel⟩ := h.codeIn hcode
  refine Member.uses_eq_ok.mpr ⟨code', hcode', ?_⟩
  cases hrel with
  | none => rw [huses]; rfl
  | some hbytes =>
    obtain ⟨instructions, options, hdecode, hoptions, rfl⟩ := huses
    obtain ⟨instructions', rows, hdecode', hdecode'', hrows⟩ := hbytes
    obtain rfl := Except.ok.inj (hdecode.symm.trans hdecode')
    obtain ⟨options', hoptions', hreduce⟩ := uses_of_rows htable hrows ⟨options, hoptions, rfl⟩
    exact ⟨_, options', hdecode'', hoptions', hreduce.symm⟩

end Uses

structure TurnedClass (analysis : Analysis) (owners : Option NameSet) (file file' : ClassFile) :
    Prop where
  grows : file.pool ≤ file'.pool
  fits : file'.pool.Fits
  rest : file' = { file with
    pool := file'.pool, methods := file'.methods, attributes := file'.attributes }
  methods : List.Forall₂ (TurnedMethod analysis owners file'.pool) file.methods file'.methods
  attributes : List.Forall₂ (fun attr attr' => attr' = attr ∨ attr'.name = attr.name ∧
    attr.nameIn file'.pool = .ok AttributeName.bootstrapMethods.text)
    file.attributes file'.attributes
  table : ∃ table table', file.bootstraps = .ok table ∧ file'.bootstraps = .ok table' ∧
    List.Forall₂ (TurnedBootstrap analysis file'.pool) table table'

theorem TurnedClass.thisClass {file file' : ClassFile} (h : TurnedClass analysis owners file file') :
    file'.thisClass = file.thisClass := by
  rw [h.rest]

theorem TurnedClass.fields {file file' : ClassFile} (h : TurnedClass analysis owners file file') :
    file'.fields = file.fields := by
  rw [h.rest]

section Tables
variable {table table' : List Bootstrap} {attr attr' : Attribute}

theorem withTable_eq_ok (h : withTable p table attr = .ok attr') :
    attr'.name = attr.name ∧ (attr.sort p = .ok (some .bootstrapMethods) →
      Bootstrap.tableFormat.decode attr'.info = .ok table) := by
  simp only [withTable, except_bind_eq_ok, lift_class_eq_ok] at h
  obtain ⟨sort, hsort, h⟩ := h
  split at h
  · obtain ⟨hname, hdecode⟩ :=
      Attribute.encode_eq_ok Bootstrap.readsBack_table (lift_write_eq_ok.mp h)
    exact ⟨hname, fun _ => hdecode⟩
  · rename_i hother
    obtain rfl := except_pure_eq_ok.mp h
    refine ⟨rfl, ?_⟩
    intro htable
    exact absurd (Except.ok.inj (hsort.symm.trans htable)) hother

theorem withTable_keeps (h : withTable p table attr = .ok attr') : attr' = attr ∨
    attr'.name = attr.name ∧ attr.nameIn p = .ok AttributeName.bootstrapMethods.text := by
  have hname := (withTable_eq_ok h).1
  simp only [withTable, except_bind_eq_ok, lift_class_eq_ok] at h
  obtain ⟨sort, hsort, h⟩ := h
  split at h
  · rename_i htable
    exact .inr ⟨hname, Attribute.sort_eq_some_iff.mp (htable ▸ hsort)⟩
  · exact .inl (except_pure_eq_ok.mp h).symm

theorem bootstraps_withTable {file file' : ClassFile} (htable : file.bootstraps = .ok table)
    (hle : file.pool ≤ file'.pool) (hempty : table = [] → table' = [])
    (hattributes : file.attributes.mapM (withTable file'.pool table') = .ok file'.attributes) :
    file'.bootstraps = .ok table' := by
  obtain ⟨found, hfound, htable⟩ := ClassFile.bootstraps_eq_ok.mp htable
  replace hfound := Attribute.find?_of_le hle hfound
  obtain ⟨found', hfound', hrel⟩ := Attribute.find?_forall₂
    (R := fun attr attr' => withTable file'.pool table' attr = .ok attr')
    (fun _ _ h => (withTable_eq_ok h).1) (except_mapM_eq_ok.mp hattributes) hfound
  refine ClassFile.bootstraps_eq_ok.mpr ⟨found', hfound', ?_⟩
  cases hrel with
  | none => exact hempty htable
  | some hattr =>
    exact (withTable_eq_ok hattr).2
      (Attribute.sort_eq_some_iff.mpr (Attribute.of_find?_eq_some hfound).2)

end Tables

/-- The attributes of a class with another table of bootstrap methods, if it is another one. -/
def WithTurned (pool : ConstantPool) (table turned : List Bootstrap)
    (attributes attributes' : List Attribute) : Prop :=
  if turned = table then attributes' = attributes
  else attributes.mapM (withTable pool turned) = .ok attributes'

/-- Members are followed in the methods first and in the table of bootstrap methods then. -/
theorem retarget_eq_ok {file turned : ClassFile} :
    file.retarget analysis owners = .ok turned ↔
      ∃ table methods p₁ table' p₂ attributes, file.bootstraps = .ok table ∧
        file.methods.mapM (turnMethod analysis owners) file.pool = .ok methods p₁ ∧
        table.mapM (turnBootstrap analysis) p₁ = .ok table' p₂ ∧
        WithTurned p₂ table table' file.attributes attributes ∧
        turned = { file with methods, attributes, pool := p₂ } := by
  simp only [ClassFile.retarget, except_bind_eq_ok, except_pure_eq_ok, Prod.exists, runOn_eq_ok,
    turnClass, state_bind_eq_ok, state_lift_eq_ok, lift_class_eq_ok, state_get_eq_ok, WithTurned]
  constructor
  · rintro ⟨_, _, ⟨table, _, ⟨htable, rfl⟩, methods, p₁, hmethods, table', p₂, htable', _, _,
      ⟨rfl, rfl⟩, h⟩, rfl⟩
    refine ⟨table, methods, p₁, table', p₂, ?_⟩
    split at h
    · rename_i hsame
      obtain ⟨rfl, rfl⟩ := state_pure_eq_ok.mp h
      exact ⟨file.attributes, htable, hmethods, htable', by rw [if_pos hsame], rfl⟩
    · rename_i hother
      simp only [state_bind_eq_ok, state_lift_eq_ok, lift_relocation_eq_ok, state_pure_eq_ok] at h
      obtain ⟨attributes, _, ⟨hattributes, rfl⟩, rfl, rfl⟩ := h
      exact ⟨attributes, htable, hmethods, htable', by rwa [if_neg hother], rfl⟩
  · rintro ⟨table, methods, p₁, table', p₂, attributes, htable, hmethods, htable', h, rfl⟩
    refine ⟨_, p₂, ⟨table, _, ⟨htable, rfl⟩, methods, p₁, hmethods, table', p₂, htable', p₂, p₂,
      ⟨rfl, rfl⟩, ?_⟩, rfl⟩
    split at h
    · rename_i hsame
      rw [if_pos hsame, h]
      rfl
    · rename_i hother
      rw [if_neg hother]
      simp only [state_bind_eq_ok, state_lift_eq_ok, lift_relocation_eq_ok, state_pure_eq_ok]
      exact ⟨attributes, p₂, ⟨h, rfl⟩, rfl, rfl⟩

theorem turnedClass_of_retarget {file file' : ClassFile} (hfits : file.pool.Fits)
    (h : file.retarget analysis owners = .ok file') : TurnedClass analysis owners file file' := by
  obtain ⟨table, methods, p₁, turned, p₂, attributes, htable, hmethods, hturned, hattributes,
    rfl⟩ := retarget_eq_ok.mp h
  obtain ⟨hle₁, hfits₁, hmethods⟩ := ConstantPool.mapM_grows
    (fun _ _ _ _ hle hmethod => hmethod.of_le hle) turnMethod_grows file.methods hfits hmethods
  obtain ⟨hle₂, hfits₂, hturned⟩ := ConstantPool.mapM_grows
    (fun _ _ _ _ hle hbootstrap => hbootstrap.of_le hle) turnBootstrap_grows table hfits₁ hturned
  have hle := ConstantPool.le_trans hle₁ hle₂
  replace hmethods := hmethods.imp fun _ _ hmethod => TurnedMethod.of_le hle₂ hmethod
  unfold WithTurned at hattributes
  split at hattributes
  · rename_i hsame
    subst hattributes
    obtain ⟨found, hfound, hread⟩ := ClassFile.bootstraps_eq_ok.mp htable
    refine ⟨hle, hfits₂, rfl, hmethods, List.forall₂_same.mpr fun _ _ => .inl rfl, table, table,
      htable, ?_, hsame ▸ hturned⟩
    exact ClassFile.bootstraps_eq_ok.mpr ⟨found, Attribute.find?_of_le hle hfound, hread⟩
  · have hkept := (except_mapM_eq_ok.mp hattributes).imp fun _ _ hattr => withTable_keeps hattr
    refine ⟨hle, hfits₂, rfl, hmethods, hkept, table, turned, htable, ?_, hturned⟩
    refine bootstraps_withTable htable hle ?_ hattributes
    rintro rfl
    cases hturned
    rfl

/-- The methods of a class that has been turned use what they used before, where it has moved to. -/
theorem TurnedClass.uses {file file' : ClassFile} (h : TurnedClass analysis owners file file')
    {table : List Bootstrap} (htable : file.bootstraps = .ok table) :
    List.Forall₂ (fun method method' => ∀ uses, method.uses file.pool table = .ok uses →
      ∀ use, file'.Uses method' use ↔ use ∈ uses.map (Use.turn analysis owners))
      file.methods file'.methods := by
  obtain ⟨table', turned, htable', hturned, hrel⟩ := h.table
  obtain rfl := Except.ok.inj (htable.symm.trans htable')
  apply h.methods.imp
  intro method method' hmethod uses huses use
  exact ClassFile.uses_iff hturned (hmethod.uses hrel (Member.uses_of_le h.grows huses))

end Retarget

end StaticCompanion
