import StaticCompanion.ClassFile.Instruction
import StaticCompanion.Proofs.Attributes
import StaticCompanion.Relocation.Lambda

namespace StaticCompanion

inductive Use where
  | field (key : MemberKey)
  | call (key : MemberKey)
  /-- A lambda is made of the method, linked by the metafactory's method of that name. -/
  | lambda (factory : String) (key : MemberKey)
  deriving DecidableEq, Repr

namespace Use

def field? : Use → Option MemberKey
  | field key => some key
  | _ => none

/-- The method that is called or made a lambda of. -/
def method? : Use → Option MemberKey
  | call key | lambda _ key => some key
  | _ => none

end Use

def Member.HasInstruction (pool : ConstantPool) (method : Member) (instruction : Instruction) :
    Prop :=
  ∃ code instructions, method.codeIn pool = .ok (some code) ∧
    Instruction.decode code.bytes = .ok instructions ∧ instruction ∈ instructions

/-- The body of the method uses a member. -/
inductive ClassFile.Uses (file : ClassFile) (method : Member) : Use → Prop
  | field {instruction : Instruction} {access : FieldAccess} {index : UInt16} {key : MemberKey}
      (hmem : method.HasInstruction file.pool instruction)
      (haction : instruction.action = .field access index)
      (hkey : file.pool.member index = .ok key) : Uses file method (.field key)
  | call {instruction : Instruction} {kind : CallKind} {index : UInt16} {key : MemberKey}
      (hmem : method.HasInstruction file.pool instruction)
      (haction : instruction.action = .call kind index)
      (hkey : file.pool.member index = .ok key) : Uses file method (.call key)
  | lambda {instruction : Instruction} {index : UInt16} {table : List Bootstrap}
      {factory : String} {bootstrap : Bootstrap} {key : MemberKey}
      (hmem : method.HasInstruction file.pool instruction)
      (haction : instruction.action = .dynamicCall index)
      (htable : file.bootstraps = .ok table)
      (hsite : lambdaBootstrap file.pool table index = .ok (some (factory, bootstrap)))
      (hbody : lambdaBody file.pool bootstrap = .ok (some key)) :
      Uses file method (.lambda factory key)

def Instruction.use? (pool : ConstantPool) (table : List Bootstrap) (instruction : Instruction) :
    Except RelocationFault (Option Use) := do
  match instruction.action with
  | .field _ index => return some (.field (← pool.member index))
  | .call _ index => return some (.call (← pool.member index))
  | .dynamicCall index =>
    match ← lambdaBootstrap pool table index with
    | none => return none
    | some (factory, bootstrap) => return (← lambdaBody pool bootstrap).map (.lambda factory)
  | .other => return none

/-- What the body of a method uses, in the order of its instructions. -/
def Member.uses (pool : ConstantPool) (table : List Bootstrap) (method : Member) :
    Except RelocationFault (List Use) := do
  match ← method.codeIn pool with
  | none => return []
  | some code => (← Instruction.decode code.bytes).filterMapM (Instruction.use? pool table)

section Lambdas
variable {p q : ConstantPool} {table : List Bootstrap} {site : UInt16}

theorem lambdaBootstrap_eq_ok {found : Option (String × Bootstrap)} :
    lambdaBootstrap p table site = .ok found ↔
      ∃ position nameAndType bootstrap kind factory,
        p.entry site = .ok (.invokeDynamic position nameAndType) ∧
        table[position.toNat]? = some bootstrap ∧
        p.methodHandle bootstrap.method = .ok (kind, factory) ∧
        found =
          if factory.owner = metafactoryOwner then some (factory.name, bootstrap) else none := by
  unfold lambdaBootstrap
  cases hentry : p.entry site with
  | error fault => simp
  | ok entry =>
    simp only [except_bind_eq_ok, lift_pool_eq_ok, Except.ok.injEq, exists_eq_left']
    cases entry with
    | invokeDynamic position nameAndType =>
      simp only [Entry.invokeDynamic.injEq]
      cases hbootstrap : table[position.toNat]? with
      | none =>
        simp only [except_throw_ne_ok, false_iff]
        rintro ⟨_, _, _, _, _, ⟨rfl, -⟩, hsome, -⟩
        rw [hbootstrap] at hsome
        cases hsome
      | some bootstrap =>
        simp only [except_bind_eq_ok, lift_pool_eq_ok, except_pure_eq_ok, Prod.exists]
        constructor
        · rintro ⟨kind, factory, hhandle, rfl⟩
          exact ⟨position, nameAndType, bootstrap, kind, factory, ⟨rfl, rfl⟩, hbootstrap, hhandle,
            rfl⟩
        · rintro ⟨_, _, _, kind, factory, ⟨rfl, rfl⟩, hsome, hhandle, rfl⟩
          obtain rfl := Option.some.inj (hbootstrap.symm.trans hsome)
          exact ⟨kind, factory, hhandle, rfl⟩
    | _ => simp

theorem lambdaBootstrap_of_le (hle : p ≤ q) {found : Option (String × Bootstrap)}
    (h : lambdaBootstrap p table site = .ok found) : lambdaBootstrap q table site = .ok found := by
  obtain ⟨position, nameAndType, bootstrap, kind, factory, hentry, hbootstrap, hhandle, hfound⟩ :=
    lambdaBootstrap_eq_ok.mp h
  exact lambdaBootstrap_eq_ok.mpr ⟨position, nameAndType, bootstrap, kind, factory,
    ConstantPool.entry_of_le hle hentry, hbootstrap, ConstantPool.methodHandle_of_le hle hhandle,
    hfound⟩

theorem handleAt?_eq_ok {index : UInt16} {found : Option MemberKey} :
    handleAt? p index = .ok found ↔
      (∃ kind key, p.methodHandle index = .ok (kind, key) ∧ found = some key) ∨
      ∃ entry, p.entry index = .ok entry ∧
        (∀ kind reference, entry ≠ .methodHandle kind reference) ∧ found = none := by
  have hnone {entry : Entry} (hentry : p.entry index = .ok entry)
      (hother : ∀ kind reference, entry ≠ .methodHandle kind reference) (kind : UInt8)
      (key : MemberKey) : p.methodHandle index ≠ .ok (kind, key) := by
    intro hhandle
    obtain ⟨reference, hentry', -⟩ := ConstantPool.methodHandle_eq_ok.mp hhandle
    exact hother kind reference (Except.ok.inj (hentry.symm.trans hentry'))
  unfold handleAt?
  cases hentry : p.entry index with
  | error fault => simp [ConstantPool.methodHandle_eq_ok, hentry]
  | ok entry =>
    cases entry with
    | methodHandle kind reference => simp [eq_comm (b := found)]
    | _ => simp [hnone hentry (by simp), eq_comm (b := found)]

theorem handleAt?_of_le (hle : p ≤ q) {index : UInt16} {found : Option MemberKey}
    (h : handleAt? p index = .ok found) : handleAt? q index = .ok found := by
  rcases handleAt?_eq_ok.mp h with ⟨kind, key, hhandle, hfound⟩ | ⟨entry, hentry, hnone⟩
  · have hhandle' := ConstantPool.methodHandle_of_le hle hhandle
    exact handleAt?_eq_ok.mpr (.inl ⟨kind, key, hhandle', hfound⟩)
  · exact handleAt?_eq_ok.mpr (.inr ⟨entry, ConstantPool.entry_of_le hle hentry, hnone⟩)

theorem lambdaBody_of_le (hle : p ≤ q) {bootstrap : Bootstrap} {found : Option MemberKey}
    (h : lambdaBody p bootstrap = .ok found) : lambdaBody q bootstrap = .ok found := by
  unfold lambdaBody at h ⊢
  split at h
  · exact handleAt?_of_le hle h
  · exact h

end Lambdas

section Bodies
variable {p q : ConstantPool} {table : List Bootstrap} {instruction : Instruction}
  {method : Member}

theorem Instruction.use?_eq_ok {use : Option Use} :
    instruction.use? p table = .ok use ↔
      match instruction.action with
      | .field _ index => ∃ key, p.member index = .ok key ∧ use = some (.field key)
      | .call _ index => ∃ key, p.member index = .ok key ∧ use = some (.call key)
      | .dynamicCall index => ∃ found, lambdaBootstrap p table index = .ok found ∧
        match found with
        | none => use = none
        | some (factory, bootstrap) =>
          ∃ body, lambdaBody p bootstrap = .ok body ∧ use = body.map (.lambda factory)
      | .other => use = none := by
  unfold Instruction.use?
  cases instruction.action with
  | field access index => simp [eq_comm (b := use)]
  | call kind index => simp [eq_comm (b := use)]
  | dynamicCall index =>
    simp only [except_bind_eq_ok]
    apply exists_congr
    intro found
    apply and_congr_right
    intro _
    cases found with
    | none => simp [eq_comm (b := use)]
    | some site => simp [eq_comm (b := use)]
  | other => simp [eq_comm (b := use)]

theorem Instruction.use?_of_le (hle : p ≤ q) {use : Option Use}
    (h : instruction.use? p table = .ok use) : instruction.use? q table = .ok use := by
  rw [Instruction.use?_eq_ok] at h ⊢
  split at h
  · obtain ⟨key, hkey, huse⟩ := h
    exact ⟨key, ConstantPool.member_of_le hle hkey, huse⟩
  · obtain ⟨key, hkey, huse⟩ := h
    exact ⟨key, ConstantPool.member_of_le hle hkey, huse⟩
  · obtain ⟨found, hfound, huse⟩ := h
    refine ⟨found, lambdaBootstrap_of_le hle hfound, ?_⟩
    split at huse
    · exact huse
    · obtain ⟨body, hbody, huse⟩ := huse
      exact ⟨body, lambdaBody_of_le hle hbody, huse⟩
  · exact h

theorem Member.uses_eq_ok {uses : List Use} :
    method.uses p table = .ok uses ↔ ∃ code, method.codeIn p = .ok code ∧
      match code with
      | none => uses = []
      | some code => ∃ instructions options, Instruction.decode code.bytes = .ok instructions ∧
        List.Forall₂ (fun instruction use => instruction.use? p table = .ok use)
          instructions options ∧ uses = options.reduceOption := by
  unfold Member.uses
  simp only [except_bind_eq_ok, lift_class_eq_ok]
  apply exists_congr
  intro code
  apply and_congr_right
  intro _
  cases code with
  | none => simp [eq_comm (b := uses)]
  | some code =>
    simp only [except_bind_eq_ok, lift_malformation_eq_ok, except_filterMapM_eq_ok]
    constructor
    · rintro ⟨instructions, hdecode, options, hoptions, huses⟩
      exact ⟨instructions, options, hdecode, hoptions, huses⟩
    · rintro ⟨instructions, options, hdecode, hoptions, huses⟩
      exact ⟨instructions, hdecode, options, hoptions, huses⟩

theorem Member.uses_of_le (hle : p ≤ q) {uses : List Use} (h : method.uses p table = .ok uses) :
    method.uses q table = .ok uses := by
  obtain ⟨code, hcode, huses⟩ := Member.uses_eq_ok.mp h
  refine Member.uses_eq_ok.mpr ⟨code, Member.codeIn_of_le hle hcode, ?_⟩
  cases code with
  | none => exact huses
  | some code =>
    obtain ⟨instructions, options, hdecode, hoptions, huses⟩ := huses
    exact ⟨instructions, options, hdecode,
      hoptions.imp fun _ _ huse => Instruction.use?_of_le hle huse, huses⟩

theorem Member.mem_uses_iff {uses : List Use} (huses : method.uses p table = .ok uses) {use : Use} :
    use ∈ uses ↔ ∃ instruction, method.HasInstruction p instruction ∧
      instruction.use? p table = .ok (some use) := by
  obtain ⟨code, hcode, huses⟩ := Member.uses_eq_ok.mp huses
  constructor
  · intro huse
    cases code with
    | none =>
      rw [huses] at huse
      cases huse
    | some code =>
      obtain ⟨instructions, options, hdecode, hoptions, rfl⟩ := huses
      have hoption : some use ∈ options := List.reduceOption_mem_iff.mp huse
      obtain ⟨instruction, hmem, hread⟩ := forall₂_mem_right hoptions hoption
      exact ⟨instruction, ⟨code, instructions, hcode, hdecode, hmem⟩, hread⟩
  · rintro ⟨instruction, ⟨body, instructions, hbody, hdecode, hmem⟩, hread⟩
    obtain rfl := Except.ok.inj (hcode.symm.trans hbody)
    obtain ⟨_, options, hdecode', hoptions, rfl⟩ := huses
    obtain rfl := Except.ok.inj (hdecode'.symm.trans hdecode)
    obtain ⟨option, hoption, hread'⟩ := forall₂_mem_left hoptions hmem
    obtain rfl := Except.ok.inj (hread'.symm.trans hread)
    exact List.reduceOption_mem_iff.mpr hoption

theorem ClassFile.uses_of_use? {file : ClassFile} (htable : file.bootstraps = .ok table)
    {use : Use} (hmem : method.HasInstruction file.pool instruction)
    (hread : instruction.use? file.pool table = .ok (some use)) : file.Uses method use := by
  rw [Instruction.use?_eq_ok] at hread
  split at hread
  · rename_i access index haction
    obtain ⟨key, hkey, huse⟩ := hread
    obtain rfl := Option.some.inj huse
    exact .field hmem haction hkey
  · rename_i kind index haction
    obtain ⟨key, hkey, huse⟩ := hread
    obtain rfl := Option.some.inj huse
    exact .call hmem haction hkey
  · rename_i index haction
    obtain ⟨found, hfound, hread⟩ := hread
    split at hread
    · cases hread
    · obtain ⟨body, hbody, hread⟩ := hread
      obtain ⟨key, rfl, rfl⟩ := Option.map_eq_some_iff.mp hread.symm
      exact .lambda hmem haction htable hfound hbody
  · cases hread

theorem ClassFile.exists_use?_of_uses {file : ClassFile} (htable : file.bootstraps = .ok table)
    {use : Use} (h : file.Uses method use) :
    ∃ instruction, method.HasInstruction file.pool instruction ∧
      instruction.use? file.pool table = .ok (some use) := by
  cases h with
  | @field instruction access index key hmem haction hkey =>
    refine ⟨instruction, hmem, ?_⟩
    rw [Instruction.use?_eq_ok, haction]
    exact ⟨key, hkey, rfl⟩
  | @call instruction kind index key hmem haction hkey =>
    refine ⟨instruction, hmem, ?_⟩
    rw [Instruction.use?_eq_ok, haction]
    exact ⟨key, hkey, rfl⟩
  | @lambda instruction index table' factory bootstrap key hmem haction htable' hsite hbody =>
    obtain rfl := Except.ok.inj (htable'.symm.trans htable)
    refine ⟨instruction, hmem, ?_⟩
    rw [Instruction.use?_eq_ok, haction]
    exact ⟨_, hsite, _, hbody, rfl⟩

theorem ClassFile.uses_iff {file : ClassFile} (htable : file.bootstraps = .ok table)
    {uses : List Use} (huses : method.uses file.pool table = .ok uses) {use : Use} :
    file.Uses method use ↔ use ∈ uses := by
  rw [Member.mem_uses_iff huses]
  constructor
  · intro h
    exact ClassFile.exists_use?_of_uses htable h
  · rintro ⟨instruction, hmem, hread⟩
    exact ClassFile.uses_of_use? htable hmem hread

end Bodies

end StaticCompanion
