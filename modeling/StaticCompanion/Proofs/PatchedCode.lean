import StaticCompanion.Proofs.FailedSteps
import StaticCompanion.Proofs.Instructions
import StaticCompanion.Proofs.Payloads
import StaticCompanion.Relocation.Retarget

/-!
# Code that is patched in place

References can be turned by writing over the bytes of the code, one instruction after the other,
while its instructions stay those that were found at first. This gives what cutting the code,
turning its instructions and putting them together again gives, with the same pool and the same
faults.
-/
namespace StaticCompanion

/-- Two steps end alike: with values that belong together or with the same fault, and in the same
state. -/
inductive EndsAlike {ε σ α β : Type} (R : α → β → Prop) :
    EStateM.Result ε σ α → EStateM.Result ε σ β → Prop
  | ok {a : α} {b : β} {s : σ} (h : R a b) : EndsAlike R (.ok a s) (.ok b s)
  | error {e : ε} {s : σ} : EndsAlike R (.error e s) (.error e s)

namespace EndsAlike
variable {ε σ α β γ δ : Type} {R : α → β → Prop} {S : γ → δ → Prop} {s : σ}

theorem bind {x : EStateM ε σ α} {y : EStateM ε σ β} {f : α → EStateM ε σ γ}
    {g : β → EStateM ε σ δ} (h : EndsAlike R (x s) (y s))
    (hnext : ∀ a b s', R a b → EndsAlike S (f a s') (g b s')) :
    EndsAlike S ((x >>= f) s) ((y >>= g) s) := by
  generalize hx : x s = first at h
  generalize hy : y s = second at h
  cases h with
  | ok h =>
    rw [state_bind_of_ok hx, state_bind_of_ok hy]
    exact hnext _ _ _ h
  | error =>
    rw [state_bind_of_error hx, state_bind_of_error hy]
    exact .error

theorem bind_same {x : EStateM ε σ α} {f : α → EStateM ε σ γ} {g : α → EStateM ε σ δ}
    (hnext : ∀ a s', x s = .ok a s' → EndsAlike S (f a s') (g a s')) :
    EndsAlike S ((x >>= f) s) ((x >>= g) s) := by
  cases hx : x s with
  | ok a s' =>
    rw [state_bind_of_ok hx, state_bind_of_ok hx]
    exact hnext a s' hx
  | error e s' =>
    rw [state_bind_of_error hx, state_bind_of_error hx]
    exact .error

theorem map {x : EStateM ε σ α} {y : EStateM ε σ β} {f : α → γ} {S : γ → β → Prop}
    (h : EndsAlike R (x s) (y s)) (hnext : ∀ a b, R a b → S (f a) b) :
    EndsAlike S ((do return f (← x)) s) (y s) := by
  rw [← bind_pure y]
  exact h.bind fun a b _ hab => .ok (hnext a b hab)

theorem refl (result : EStateM.Result ε σ α) : EndsAlike (· = ·) result result := by
  cases result with
  | ok a s => exact .ok rfl
  | error e s => exact .error

theorem eq {first second : EStateM.Result ε σ α} (h : EndsAlike (· = ·) first second) :
    first = second := by
  cases h with
  | ok h => rw [h]
  | error => rfl

end EndsAlike

namespace Retarget

/-- The bytes with others in the place of those that stand there. -/
def overwrite (place : Nat) (new bytes : Bytes) : Bytes :=
  bytes.take place ++ new ++ bytes.drop (place + new.length)

/-- Code on the way, and whether anything has been written into it. -/
structure Patched where
  bytes : Bytes
  changed : Bool

/-- Writes a static call over a call of some kind. -/
def overwriteCall (kind : CallKind) (place : Nat) (new : UInt16) (bytes : Bytes) : Bytes :=
  let bytes := overwrite place [CallKind.static.opcode] bytes
  let bytes := overwrite (place + 1) (bigEndian 2 new.toNat) bytes
  if kind = .interface then overwrite (place + 3) [Instruction.nop, Instruction.nop] bytes
  else bytes

/-- Writes the new reference of an instruction over the old one, if what it refers to moves. -/
def patchInstruction (analysis : Analysis) (owners : Option NameSet) (patched : Patched)
    (instruction : Instruction) : Relocation Patched := do
  match instruction.action with
  | .field _ index =>
    let key ← (← get).member index
    match analysis.fields[key]? with
    | some moved =>
      let new ← ConstantPool.putMember .field moved
      return ⟨overwrite (instruction.pc + 1) (bigEndian 2 new.toNat) patched.bytes, true⟩
    | none => return patched
  | .call kind index =>
    let key ← (← get).member index
    match if eligible owners key then analysis.methods[key]? else none with
    | some moved =>
      let new ← ConstantPool.putMember .method moved
      return ⟨overwriteCall kind instruction.pc new patched.bytes, true⟩
    | none => return patched
  | _ => return patched

def patchCode (analysis : Analysis) (owners : Option NameSet) (code : Bytes) :
    Relocation Patched := do
  let instructions ← (Instruction.decode code : Except Malformation _)
  instructions.foldlM (patchInstruction analysis owners) ⟨code, false⟩

/-- An attribute of a method with its code patched. Code that nothing was written into keeps its
attribute. -/
def patchAttribute (analysis : Analysis) (owners : Option NameSet) (attr : Attribute) :
    Relocation Attribute := do
  if (← attr.sort (← get)) ≠ some .code then return attr
  let code ← Code.format.decode attr.info
  let patched ← patchCode analysis owners code.bytes
  if patched.changed then
    (attr.encode Code.format { code with bytes := patched.bytes } : Except WriteFault Attribute)
  else return attr

theorem overwrite_append (front old new rest : Bytes) (hlen : new.length = old.length) :
    overwrite front.length new (front ++ (old ++ rest)) = front ++ (new ++ rest) := by
  simp [overwrite, hlen]

/-- Between `front` and `rest` some bytes have given way to as many others. If nothing was written,
they are the same ones. -/
structure PatchedIn (front rest : Bytes) (changed : Bool) (before after : Bytes)
    (patched : Patched) : Prop where
  bytes : patched.bytes = front ++ (after ++ rest)
  length : after.length = before.length
  kept : patched.changed = false → changed = false ∧ after = before

section Patches
variable {analysis : Analysis} {owners : Option NameSet} {instruction : Instruction}
  {front rest : Bytes} {changed : Bool}

theorem patchedIn_kept (before : Bytes) :
    PatchedIn front rest changed before before ⟨front ++ (before ++ rest), changed⟩ :=
  ⟨rfl, rfl, fun hsame => ⟨hsame, rfl⟩⟩

theorem patchedIn_field {access : FieldAccess} {index : UInt16}
    (haction : instruction.action = .field access index) (hcomplete : instruction.Complete)
    (new : UInt16) :
    PatchedIn front rest changed instruction.bytes (withIndex instruction new).bytes
      ⟨overwrite (front.length + 1) (bigEndian 2 new.toNat)
        (front ++ (instruction.bytes ++ rest)), true⟩ := by
  obtain ⟨pc, opcode, operands⟩ := instruction
  have hlen : operands.length = 2 := Instruction.length_operands_of_field haction hcomplete
  have hnone : operands.drop 2 = [] := List.drop_eq_nil_of_le (by omega)
  have hpatch := overwrite_append (front ++ [opcode]) operands (bigEndian 2 new.toNat) rest
    (by rw [hlen, length_bigEndian])
  refine ⟨?_, ?_, by simp⟩
  · simpa [Instruction.bytes, withIndex, hnone] using hpatch
  · simp [Instruction.bytes, withIndex, hnone, hlen, length_bigEndian]

theorem patchedIn_call {kind : CallKind} {index : UInt16}
    (haction : instruction.action = .call kind index) (hcomplete : instruction.Complete)
    (new : UInt16) :
    PatchedIn front rest changed instruction.bytes (staticCall instruction new).bytes
      ⟨overwriteCall kind front.length new (front ++ (instruction.bytes ++ rest)), true⟩ := by
  obtain ⟨pc, opcode, operands⟩ := instruction
  obtain ⟨hopcode, high, low, filler, hoperands, -⟩ := Instruction.action_eq_call_iff.mp haction
  dsimp only at hopcode hoperands
  subst hopcode hoperands
  have hlen := Instruction.complete_call_iff.mp hcomplete
  have hopcode := overwrite_append front [kind.opcode] [CallKind.static.opcode]
    ([high, low] ++ (filler ++ rest)) rfl
  have hindex := overwrite_append (front ++ [CallKind.static.opcode]) [high, low]
    (bigEndian 2 new.toNat) (filler ++ rest) (length_bigEndian 2 _)
  have hidle := overwrite_append (front ++ [CallKind.static.opcode] ++ bigEndian 2 new.toNat) filler
    (filler.map fun _ => Instruction.nop) rest (List.length_map _)
  simp only [List.length_append, List.length_singleton, length_bigEndian, List.append_assoc]
    at hindex hidle
  refine ⟨?_, ?_, by simp⟩
  · change overwriteCall kind front.length new
      (front ++ ([kind.opcode] ++ ([high, low] ++ (filler ++ rest)))) = front ++
        ([CallKind.static.opcode] ++ (bigEndian 2 new.toNat ++
          filler.map fun _ => Instruction.nop) ++ rest)
    rw [overwriteCall, hopcode, hindex]
    by_cases hkind : kind = .interface
    · have hfiller :
          (filler.map fun _ => Instruction.nop) = [Instruction.nop, Instruction.nop] := by
        rw [if_pos hkind, List.length_cons, List.length_cons] at hlen
        rw [List.map_const', show filler.length = 2 by omega]
        rfl
      rw [if_pos hkind, hfiller]
      rw [hfiller] at hidle
      simpa using hidle
    · have hnone : filler = [] := by
        rw [if_neg hkind, List.length_cons, List.length_cons] at hlen
        exact List.eq_nil_of_length_eq_zero (by omega)
      rw [if_neg hkind, hnone]
      simp
  · simp [Instruction.bytes, staticCall, length_bigEndian]
    omega

theorem patchInstruction_alike (hpc : instruction.pc = front.length)
    (hcomplete : instruction.Complete) (pool : ConstantPool) :
    EndsAlike (fun turned => PatchedIn front rest changed instruction.bytes turned.bytes)
      (turnInstruction analysis owners instruction pool)
      (patchInstruction analysis owners ⟨front ++ (instruction.bytes ++ rest), changed⟩ instruction
        pool) := by
  unfold turnInstruction patchInstruction
  rw [hpc]
  cases haction : instruction.action with
  | field access index =>
    refine .bind_same fun _ _ _ => .bind_same fun key _ _ => ?_
    cases analysis.fields[key]? with
    | none => exact .ok (patchedIn_kept _)
    | some moved =>
      refine .bind_same fun new _ _ => ?_
      exact .ok (patchedIn_field haction hcomplete new)
  | call kind index =>
    refine .bind_same fun _ _ _ => .bind_same fun key _ _ => ?_
    cases (if eligible owners key then analysis.methods[key]? else none) with
    | none => exact .ok (patchedIn_kept _)
    | some moved =>
      refine .bind_same fun new _ _ => ?_
      exact .ok (patchedIn_call haction hcomplete new)
  | dynamicCall index => exact .ok (patchedIn_kept _)
  | other => exact .ok (patchedIn_kept _)

variable (analysis owners) in
/-- The instructions that are still to come stand where they stood at first, as those before them
take up as many bytes as they did. -/
theorem foldlM_patches {instructions : List Instruction}
    (htiles : Instruction.Tiles front.length instructions) (changed : Bool) (pool : ConstantPool) :
    EndsAlike (fun turned => PatchedIn front [] changed (instructions.flatMap Instruction.bytes)
        (turned.flatMap Instruction.bytes))
      (instructions.mapM (turnInstruction analysis owners) pool)
      (instructions.foldlM (patchInstruction analysis owners)
        ⟨front ++ instructions.flatMap Instruction.bytes, changed⟩ pool) := by
  induction instructions generalizing front changed pool with
  | nil =>
    exact .ok ⟨by simp, rfl, fun hsame => ⟨hsame, rfl⟩⟩
  | cons instruction instructions ih =>
    obtain ⟨hpc, hcomplete, htiles⟩ := htiles
    rw [List.mapM_cons, List.foldlM_cons, List.flatMap_cons]
    refine (patchInstruction_alike hpc hcomplete pool).bind ?_
    rintro turned patched pool' ⟨hbytes, hlength, hkept⟩
    obtain ⟨bytes, changed'⟩ := patched
    dsimp only at hbytes hkept
    subst hbytes
    rw [← hlength, ← List.length_append] at htiles
    have hrest := ih htiles changed' pool'
    rw [List.append_assoc] at hrest
    refine hrest.map fun later patched hlater => ?_
    refine ⟨?_, ?_, ?_⟩
    · rw [hlater.bytes, List.flatMap_cons]
      simp
    · rw [List.flatMap_cons, List.length_append, List.length_append, hlength, hlater.length]
    · intro hsame
      obtain ⟨hstill, hlast⟩ := hlater.kept hsame
      obtain ⟨hchanged, hfirst⟩ := hkept hstill
      rw [List.flatMap_cons, hfirst, hlast]
      exact ⟨hchanged, rfl⟩

end Patches

/-- Patching code in place ends as turning it does. The code is as long as before, and if nothing
was written it is the same. -/
theorem patchCode_alike (analysis : Analysis) (owners : Option NameSet) (code : Bytes)
    (pool : ConstantPool) :
    EndsAlike (fun turned patched => patched.bytes = turned ∧ turned.length = code.length ∧
        (patched.changed = false → turned = code))
      (turnCode analysis owners code pool) (patchCode analysis owners code pool) := by
  unfold turnCode patchCode
  refine .bind_same fun instructions pool' hdecode => ?_
  rw [state_lift_eq_ok, lift_malformation_eq_ok] at hdecode
  obtain ⟨htiles, rfl⟩ := Instruction.decode_eq_ok.mp hdecode.1
  have hpatches := foldlM_patches analysis owners
    (show Instruction.Tiles ([] : Bytes).length instructions from htiles) false pool'
  refine hpatches.map fun turned patched hpatched => ⟨?_, hpatched.length, fun hsame => ?_⟩
  · rw [hpatched.bytes, List.nil_append, List.append_nil]
  · exact (hpatched.kept hsame).2

/-- An attribute is patched as it is turned. If what was written is what stood there before, the
attribute is encoded again, to the same bytes. -/
theorem turnAttribute_eq_patchAttribute (analysis : Analysis) (owners : Option NameSet) :
    turnAttribute analysis owners = patchAttribute analysis owners := by
  funext attr pool
  apply EndsAlike.eq
  unfold patchAttribute turnAttribute
  refine .bind_same fun _ _ _ => .bind_same fun sort pool _ => ?_
  split
  · exact .ok rfl
  · refine .bind_same fun code pool' hdecode => ?_
    rw [state_lift_eq_ok, lift_class_eq_ok] at hdecode
    have hencode (bytes : Bytes) (hsame : bytes = code.bytes) :
        attr.encode Code.format { code with bytes } = .ok attr := by
      subst hsame
      exact Attribute.encode_eq_ok_iff.mpr
        ⟨attr.info, Code.exact_format.writesBack.decode hdecode.1, rfl⟩
    refine (patchCode_alike analysis owners code.bytes pool').bind ?_
    rintro turned patched pool'' ⟨rfl, -, hkept⟩
    cases hchanged : patched.changed with
    | false =>
      rw [if_pos (hkept hchanged)]
      exact .ok rfl
    | true =>
      rw [if_pos rfl]
      split
      · rename_i hsame
        rw [hencode _ hsame]
        exact .ok rfl
      · exact .refl _

end Retarget

end StaticCompanion
