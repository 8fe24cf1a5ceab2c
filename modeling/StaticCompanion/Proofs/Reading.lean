import StaticCompanion.Proofs.Layout

namespace StaticCompanion

theorem PoolText.ofBytes_toBytes_ofBytes (bytes : Bytes) :
    PoolText.ofBytes (PoolText.ofBytes bytes).toBytes = PoolText.ofBytes bytes := by
  cases htext : PoolText.ofBytes bytes with
  | valid text => exact PoolText.ofBytes_encode text
  | invalid kept =>
    have hkept : bytes = kept := by
      unfold PoolText.ofBytes at htext
      split at htext
      · cases htext
      · exact PoolText.invalid.inj htext
    rw [← hkept] at htext ⊢
    exact htext

namespace Entry
open Format

theorem canonical_of_read {bytes rest : Bytes} {entry : Entry}
    (h : Entry.format.read bytes = .ok (entry, rest)) : entry.Canonical := by
  obtain ⟨tag, middle, -, h⟩ := stateT_bind_eq_ok.mp h
  unfold readPayload at h
  split at h
  · obtain ⟨text, htext, rfl⟩ := stateT_map_eq_ok.mp h
    obtain ⟨payload, -, rfl⟩ := stateT_map_eq_ok.mp htext
    exact PoolText.ofBytes_toBytes_ofBytes payload
  all_goals first
    | (obtain ⟨value, -, rfl⟩ := stateT_map_eq_ok.mp h; trivial)
    | cases h

theorem readsBackAt {entry : Entry} (hcanonical : entry.Canonical) :
    Entry.format.ReadsBackAt entry := by
  intro bytes hwrite rest
  simp only [Entry.format, except_bind_eq_ok, except_pure_eq_ok] at hwrite
  obtain ⟨payload, hpayload, rfl⟩ := hwrite
  refine stateT_bind_eq_ok.mpr ⟨entry.kind.tag, payload ++ rest, rfl, ?_⟩
  have hpair := readsBack_u16.seq readsBack_u16
  cases entry with
  | utf8 text =>
    have htext : PoolText.format.ReadsBackAt text := (readsBack_blob 2 _).map hcanonical
    exact stateT_map_eq_ok.mpr ⟨text, htext hpayload rest, rfl⟩
  | integer value =>
    have hvalue : i32.ReadsBack := readsBack_u32.map fun _ => by simp
    exact stateT_map_eq_ok.mpr ⟨value, hvalue _ hpayload rest, rfl⟩
  | float bits => exact stateT_map_eq_ok.mpr ⟨bits, readsBack_u32 _ hpayload rest, rfl⟩
  | long value =>
    have hvalue : i64.ReadsBack := readsBack_u64.map fun _ => by simp
    exact stateT_map_eq_ok.mpr ⟨value, hvalue _ hpayload rest, rfl⟩
  | double bits => exact stateT_map_eq_ok.mpr ⟨bits, readsBack_u64 _ hpayload rest, rfl⟩
  | memberRef kind owner nameAndType =>
    cases kind <;> exact stateT_map_eq_ok.mpr ⟨_, hpair _ hpayload rest, rfl⟩
  | methodHandle kind reference =>
    exact stateT_map_eq_ok.mpr ⟨_, (readsBack_u8.seq readsBack_u16) _ hpayload rest, rfl⟩
  | nameAndType name descriptor =>
    exact stateT_map_eq_ok.mpr ⟨_, hpair _ hpayload rest, rfl⟩
  | dynamic bootstrap nameAndType =>
    exact stateT_map_eq_ok.mpr ⟨_, hpair _ hpayload rest, rfl⟩
  | invokeDynamic bootstrap nameAndType =>
    exact stateT_map_eq_ok.mpr ⟨_, hpair _ hpayload rest, rfl⟩
  | _ => exact stateT_map_eq_ok.mpr ⟨_, readsBack_u16 _ hpayload rest, rfl⟩

end Entry

namespace ConstantPool

/-- Reading constants puts the rows of canonical constants behind the slots that are there. -/
theorem rows_of_readSlots {slots slots' : Array Slot} {free : Nat} {bytes rest : Bytes}
    (h : readSlots slots free bytes = .ok (slots', rest)) :
    (⟨slots⟩ : ConstantPool) ≤ ⟨slots'⟩ := by
  fun_induction readSlots slots free bytes with
  | case1 =>
    obtain ⟨rfl, -⟩ := Prod.mk.inj (Except.ok.inj h)
    exact le_refl _
  | case2 => cases h
  | case3 => cases h
  | case4 slots bytes entry rest hread hslots free ih =>
    refine le_trans ⟨[entry], ?_, ?_⟩ (ih h)
    · simpa using Entry.canonical_of_read hread
    · simp [Entry.row, hslots]
  | case5 slots free bytes entry rest hread hslots ih =>
    refine le_trans ⟨[entry], ?_, ?_⟩ (ih h)
    · simpa using Entry.canonical_of_read hread
    · simp [Entry.row, hslots]

theorem empty_le_of_read {pool : ConstantPool} {bytes rest : Bytes}
    (h : ConstantPool.format.read bytes = .ok (pool, rest)) : empty ≤ pool := by
  obtain ⟨count, middle, -, h⟩ := stateT_bind_eq_ok.mp h
  unfold readCounted at h
  split at h
  · cases h
  · simp only [except_bind_eq_ok, except_pure_eq_ok, Prod.mk.injEq, Prod.exists] at h
    obtain ⟨slots, _, hslots, rfl, -⟩ := h
    exact rows_of_readSlots hslots

def slotBytes : Slot → Except WriteFault Bytes
  | .entry entry => Entry.format.write entry
  | .gap => .ok []

theorem parts_of_rows {entries : List Entry} {constants : List Bytes}
    (h : List.Forall₂ (fun slot part => slotBytes slot = .ok part) (entries.flatMap Entry.row)
      constants) :
    ∃ parts, List.Forall₂ (fun entry part => Entry.format.write entry = .ok part) entries parts ∧
      parts.flatten = constants.flatten := by
  induction entries generalizing constants with
  | nil =>
    cases h
    exact ⟨[], .nil, rfl⟩
  | cons entry entries ih =>
    rw [List.flatMap_cons, Entry.row, List.cons_append, List.forall₂_cons_left_iff] at h
    obtain ⟨part, constants, hpart, hrest, rfl⟩ := h
    split at hrest
    · rw [List.singleton_append, List.forall₂_cons_left_iff] at hrest
      obtain ⟨_, constants, hgap, hrest, rfl⟩ := hrest
      obtain rfl := Except.ok.inj hgap
      obtain ⟨parts, hparts, hflatten⟩ := ih hrest
      exact ⟨part :: parts, .cons hpart hparts, by simp [hflatten]⟩
    · obtain ⟨parts, hparts, hflatten⟩ := ih hrest
      exact ⟨part :: parts, .cons hpart hparts, by simp [hflatten]⟩

theorem rows_of_parts {entries : List Entry} {parts : List Bytes}
    (h : List.Forall₂ (fun entry part => Entry.format.write entry = .ok part) entries parts) :
    ∃ constants, List.Forall₂ (fun slot part => slotBytes slot = .ok part)
      (entries.flatMap Entry.row) constants ∧ constants.flatten = parts.flatten := by
  induction h with
  | nil => exact ⟨[], .nil, rfl⟩
  | @cons entry part entries parts hpart _ ih =>
    obtain ⟨constants, hconstants, hflatten⟩ := ih
    rw [List.flatMap_cons, Entry.row, List.cons_append]
    split
    · exact ⟨part :: [] :: constants, .cons hpart (.cons rfl hconstants), by simp [hflatten]⟩
    · exact ⟨part :: constants, .cons hpart hconstants, by simp [hflatten]⟩

theorem write_eq_ok {pool : ConstantPool} {entries : List Entry} {bytes : Bytes}
    (hslots : pool.slots.toList = .gap :: entries.flatMap Entry.row) :
    ConstantPool.format.write pool = .ok bytes ↔
      ∃ parts, List.Forall₂ (fun entry part => Entry.format.write entry = .ok part) entries parts ∧
        bytes = bigEndian 2 pool.count.toNat ++ parts.flatten := by
  simp only [ConstantPool.format, except_bind_eq_ok, except_pure_eq_ok]
  constructor
  · rintro ⟨constants, hconstants, rfl⟩
    replace hconstants : List.Forall₂ (fun slot part => slotBytes slot = .ok part)
        pool.slots.toList constants := by
      apply (except_mapM_eq_ok.mp hconstants).imp
      intro slot part hpart
      cases slot <;> exact hpart
    rw [hslots, List.forall₂_cons_left_iff] at hconstants
    obtain ⟨_, constants, hgap, hconstants, rfl⟩ := hconstants
    obtain rfl := Except.ok.inj hgap
    obtain ⟨parts, hparts, hflatten⟩ := parts_of_rows hconstants
    exact ⟨parts, hparts, by rw [List.flatten_cons, List.nil_append, hflatten]⟩
  · rintro ⟨parts, hparts, rfl⟩
    obtain ⟨constants, hconstants, hflatten⟩ := rows_of_parts hparts
    refine ⟨[] :: constants, except_mapM_eq_ok.mpr ?_, by
      rw [List.flatten_cons, List.nil_append, hflatten]⟩
    rw [hslots]
    refine .cons rfl (hconstants.imp fun slot part hpart => ?_)
    cases slot <;> exact hpart

theorem readSlots_rows {entries : List Entry} {parts : List Bytes}
    (hparts : List.Forall₂ (fun entry part => Entry.format.write entry = .ok part) entries parts)
    (hcanonical : ∀ entry ∈ entries, entry.Canonical) (slots : Array Slot) (rest : Bytes) :
    readSlots slots (entries.flatMap Entry.row).length (parts.flatten ++ rest) =
      .ok (slots ++ (entries.flatMap Entry.row).toArray, rest) := by
  induction hparts generalizing slots with
  | nil => simp [readSlots]
  | @cons entry part entries parts hwrite _ ih =>
    have hread := Entry.readsBackAt (hcanonical entry List.mem_cons_self) hwrite
      (parts.flatten ++ rest)
    replace ih := ih fun other hother => hcanonical other (List.mem_cons_of_mem _ hother)
    rw [List.flatten_cons, List.append_assoc, List.flatMap_cons, List.length_append]
    by_cases hslots : entry.slots = 2
    · have hrow : entry.row = [.entry entry, .gap] := by rw [Entry.row, if_pos hslots]
      rw [hrow, List.length_cons, List.length_singleton, Nat.add_comm, readSlots, hread]
      simp only [hslots, if_true, ih]
      simp
    · have hrow : entry.row = [.entry entry] := by rw [Entry.row, if_neg hslots]
      rw [hrow, List.length_singleton, Nat.add_comm, readSlots, hread]
      simp only [hslots, if_false, ih]
      simp

theorem readsBackAt {pool : ConstantPool} (hpool : empty ≤ pool) (hfits : pool.Fits) :
    ConstantPool.format.ReadsBackAt pool := by
  intro bytes hwrite rest
  obtain ⟨entries, hcanonical, hslots⟩ := hpool
  rw [show empty.slots.toList = [.gap] from rfl, List.singleton_append] at hslots
  obtain ⟨parts, hparts, rfl⟩ := (write_eq_ok hslots).mp hwrite
  have hsize : pool.slots.size = (entries.flatMap Entry.row).length + 1 := by
    rw [← Array.length_toList, hslots, List.length_cons]
  have hcount : pool.count.toNat = (entries.flatMap Entry.row).length + 1 := by
    rw [← hsize, count, UInt16.toNat_ofNat']
    exact Nat.mod_eq_of_lt (Nat.lt_succ_of_le hfits)
  have hread := readSlots_rows hparts hcanonical #[.gap] rest
  have hpool : (⟨#[.gap] ++ (entries.flatMap Entry.row).toArray⟩ : ConstantPool) = pool :=
    congrArg mk (Array.toList_inj.mp (by simp [hslots]))
  rw [List.append_assoc]
  refine stateT_bind_eq_ok.mpr ⟨pool.count, _, Format.readsBack_u16 _ rfl _, ?_⟩
  rw [readCounted, hcount]
  simp only [hread, except_bind_eq_ok, except_pure_eq_ok, Prod.mk.injEq]
  exact ⟨_, rfl, hpool, rfl⟩

end ConstantPool

namespace ClassFile

theorem empty_le_of_ofBytes {file : ClassFile} {bytes : Bytes}
    (h : ClassFile.ofBytes bytes = .ok file) : ConstantPool.empty ≤ file.pool := by
  obtain ⟨_, _, hpool⟩ := pool_of_ofBytes h
  exact ConstantPool.empty_le_of_read hpool

theorem readsBack_member : Member.format.ReadsBack :=
  ((Format.readsBack_u16.map fun _ => rfl).seq (Format.readsBack_u16.seq
    (Format.readsBack_u16.seq (Attribute.readsBack.list 2)))).map fun _ => rfl

theorem readsBack_magic : magicFormat.ReadsBack := by
  intro _ bytes hwrite rest
  obtain rfl := Except.ok.inj hwrite
  rfl

/-- A class file over a canonical pool is read back as it was written. -/
theorem ofBytes_of_toBytes {file : ClassFile} {bytes : Bytes}
    (hpool : ConstantPool.empty ≤ file.pool) (hfits : file.pool.Fits)
    (hwrite : file.toBytes = .ok bytes) : ClassFile.ofBytes bytes = .ok file := by
  have hflags : AccessFlags.format.ReadsBack := Format.readsBack_u16.map fun _ => rfl
  have hindex := Format.readsBack_u16
  have hmembers := readsBack_member.list 2
  have htail := hflags.seq (hindex.seq (hindex.seq ((hindex.list 2).seq
    (hmembers.seq (hmembers.seq (Attribute.readsBack.list 2))))))
  have hfile : ClassFile.format.ReadsBackAt file := by
    refine Format.ReadsBackAt.map ?_ rfl
    exact (readsBack_magic _).seq ((hindex _).seq ((hindex _).seq
      ((ConstantPool.readsBackAt hpool hfits).seq (htail _))))
  have hread := hfile hwrite []
  rw [List.append_nil] at hread
  exact Format.readAll_eq_ok.mpr hread

end ClassFile

end StaticCompanion
