import Mathlib.Algebra.GroupWithZero.Nat
import StaticCompanion.Proofs.Reading
import StaticCompanion.Proofs.Spelling
import StaticCompanion.Proofs.WritingBack

/-!
# Class files read and written again

The bytes of a class file are cut into what stands in front of the constants, the constants, and
what stands behind them. Reading and writing a class file keeps all of them, except that a text in
plain UTF-8 that is no modified UTF-8 is spelled anew.
-/
namespace StaticCompanion

namespace Entry
open Format

/-- The bytes of the text constant with a payload. -/
def textConstant (payload : Bytes) : Bytes :=
  EntryKind.utf8.tag :: (bigEndian 2 payload.length ++ payload)

theorem textConstant_inj {payload payload' : Bytes} :
    textConstant payload = textConstant payload' ↔ payload = payload' := by
  constructor
  · intro h
    have htail := (List.cons.inj h).2
    exact (List.append_inj htail (by simp)).2
  · rintro rfl
    rfl

theorem kind_eq_of_tag {kind : EntryKind} (h : kind.tag = EntryKind.utf8.tag) : kind = .utf8 := by
  revert h
  cases kind <;> decide

theorem write_eq_ok {entry : Entry} {part : Bytes} : format.write entry = .ok part ↔
    ∃ payload, entry.writePayload = .ok payload ∧ part = entry.kind.tag :: payload := by
  simp only [Entry.format, except_bind_eq_ok, except_pure_eq_ok]
  simp only [eq_comm]

theorem write_text_eq_ok {text : PoolText} {part : Bytes} :
    format.write (.utf8 text) = .ok part ↔
      text.toBytes.length < span 2 ∧ part = textConstant text.toBytes := by
  rw [write_eq_ok]
  constructor
  · rintro ⟨payload, hpayload, rfl⟩
    obtain ⟨hlen, rfl⟩ := blob_write_eq_ok.mp hpayload
    exact ⟨hlen, rfl⟩
  · rintro ⟨hlen, rfl⟩
    exact ⟨_, blob_write_eq_ok.mpr ⟨hlen, rfl⟩, rfl⟩

/-- The bytes that a constant can stand in. A text has several payloads, all other constants
stand as they are written. -/
inductive Spells : Entry → Bytes → Prop
  | text (payload : Bytes) (hlen : payload.length < span 2) :
    Spells (.utf8 (.ofBytes payload)) (textConstant payload)
  | other {entry : Entry} {part : Bytes} (hkind : entry.kind ≠ .utf8)
    (hwrite : format.write entry = .ok part) : Spells entry part

private theorem spells_of_payload {α : Type} {payload : Format α} {make : α → Entry} {tag : UInt8}
    {bytes rest : Bytes} {entry : Entry} (h : (make <$> payload.read) bytes = .ok (entry, rest))
    (hpayload : payload.WritesBack) (htag : ∀ value, (make value).kind.tag = tag)
    (hwrite : ∀ value, (make value).writePayload = payload.write value) (hother : tag ≠ 1) :
    ∃ part, Spells entry part ∧ tag :: bytes = part ++ rest := by
  obtain ⟨value, hvalue, rfl⟩ := stateT_map_eq_ok.mp h
  obtain ⟨front, hfront, rfl⟩ := hpayload hvalue
  have hkind : (make value).kind ≠ .utf8 := by
    intro hkind
    rw [← htag value, hkind] at hother
    exact hother rfl
  refine ⟨tag :: front, .other hkind (write_eq_ok.mpr ⟨front, ?_, ?_⟩), rfl⟩
  · rw [hwrite, hfront]
  · rw [htag]

theorem spells_of_readPayload {tag : UInt8} {bytes rest : Bytes} {entry : Entry}
    (h : readPayload tag bytes = .ok (entry, rest)) :
    ∃ part, Spells entry part ∧ tag :: bytes = part ++ rest := by
  have hint : i32.WritesBack := writesBack_u32.map fun _ => by simp
  have hlong : i64.WritesBack := writesBack_u64.map fun _ => by simp
  have hpair := writesBack_u16.seq writesBack_u16
  have hhandle := writesBack_u8.seq writesBack_u16
  unfold readPayload at h
  split at h
  -- only the payload of a text may be written differently
  · obtain ⟨text, htext, rfl⟩ := stateT_map_eq_ok.mp h
    obtain ⟨payload, hpayload, rfl⟩ := stateT_map_eq_ok.mp htext
    obtain ⟨hlen, rfl⟩ := blob_read_eq_ok.mp hpayload
    exact ⟨textConstant payload, .text payload hlen, by simp [textConstant, EntryKind.tag]⟩
  all_goals first
    | exact spells_of_payload h writesBack_u16 (fun _ => rfl) (fun _ => rfl) (by decide)
    | exact spells_of_payload h hpair (fun _ => rfl) (fun _ => rfl) (by decide)
    | exact spells_of_payload h hint (fun _ => rfl) (fun _ => rfl) (by decide)
    | exact spells_of_payload h hlong (fun _ => rfl) (fun _ => rfl) (by decide)
    | exact spells_of_payload h writesBack_u32 (fun _ => rfl) (fun _ => rfl) (by decide)
    | exact spells_of_payload h writesBack_u64 (fun _ => rfl) (fun _ => rfl) (by decide)
    | exact spells_of_payload h hhandle (fun _ => rfl) (fun _ => rfl) (by decide)
    | cases h

theorem Spells.read_append {entry : Entry} {part : Bytes} (h : Spells entry part) (rest : Bytes) :
    format.read (part ++ rest) = .ok (entry, rest) := by
  cases h with
  | text payload hlen =>
    have hpayload := blob_read_eq_ok.mpr ⟨hlen, List.append_assoc _ payload rest⟩
    have htext : PoolText.format.read _ = _ := stateT_map_eq_ok.mpr ⟨payload, hpayload, rfl⟩
    exact stateT_bind_eq_ok.mpr ⟨1, _, rfl, stateT_map_eq_ok.mpr ⟨_, htext, rfl⟩⟩
  | other hkind hwrite =>
    have hcanonical : entry.Canonical := by
      cases entry with
      | utf8 text => exact absurd rfl hkind
      | _ => trivial
    exact readsBackAt hcanonical hwrite rest

theorem read_eq_ok {bytes rest : Bytes} {entry : Entry} :
    format.read bytes = .ok (entry, rest) ↔ ∃ part, Spells entry part ∧ bytes = part ++ rest := by
  constructor
  · intro hread
    obtain ⟨tag, middle, htag, hpayload⟩ := stateT_bind_eq_ok.mp hread
    obtain ⟨_, hfront, rfl⟩ := writesBack_u8 htag
    obtain rfl := Except.ok.inj hfront
    exact spells_of_readPayload hpayload
  · rintro ⟨part, hspells, rfl⟩
    exact hspells.read_append rest

theorem read_append {part : Bytes} {entry : Entry} (h : format.read part = .ok (entry, []))
    (rest : Bytes) : format.read (part ++ rest) = .ok (entry, rest) := by
  obtain ⟨front, hspells, rfl⟩ := read_eq_ok.mp h
  rw [List.append_nil]
  exact read_eq_ok.mpr ⟨front, hspells, rfl⟩

/-- How a constant is written again: as it stands, or in modified UTF-8 if it is a text that
stands in plain UTF-8 only. -/
inductive Respelled : Bytes → Bytes → Prop
  | kept {part : Bytes} (h : ∀ payload, part = textConstant payload → ¬ Utf8.IsPlainOnly payload) :
    Respelled part part
  | text {payload : Bytes} {text : List Char} (htext : Utf8.decode payload = some text)
    (hplain : Utf8.IsPlainOnly payload) (hfits : (ModifiedUtf8.encode text).length < span 2) :
    Respelled (textConstant payload) (textConstant (ModifiedUtf8.encode text))

theorem respelled_of_not_text {entry : Entry} {part part' : Bytes} (hkind : entry.kind ≠ .utf8)
    (hwrite : format.write entry = .ok part) : Respelled part part' ↔ part' = part := by
  obtain ⟨rest, -, rfl⟩ := write_eq_ok.mp hwrite
  have hother (payload : Bytes) : entry.kind.tag :: rest ≠ textConstant payload := by
    intro h
    exact hkind (kind_eq_of_tag (List.cons.inj h).1)
  constructor
  · intro h
    generalize hpart : entry.kind.tag :: rest = part at h
    cases h with
    | kept _ => rfl
    | text _ _ _ => exact absurd hpart (hother _)
  · rintro rfl
    exact .kept fun payload h => absurd h (hother payload)

theorem respelled_text_iff {payload part' : Bytes} (hlen : payload.length < span 2) :
    Respelled (textConstant payload) part' ↔ (PoolText.ofBytes payload).toBytes.length < span 2 ∧
      part' = textConstant (PoolText.ofBytes payload).toBytes := by
  constructor
  · intro h
    generalize hpart : textConstant payload = part at h
    cases h with
    | kept h =>
      have hkept := PoolText.toBytes_ofBytes_iff.mpr (h payload hpart.symm)
      rw [hkept]
      exact ⟨hlen, hpart.symm⟩
    | text htext hplain hfits =>
      obtain rfl := textConstant_inj.mp hpart
      rw [PoolText.toBytes_ofBytes_of_plain htext]
      exact ⟨hfits, rfl⟩
  · rintro ⟨hfits, rfl⟩
    by_cases hplain : Utf8.IsPlainOnly payload
    · obtain ⟨text, htext, -⟩ := id hplain
      rw [PoolText.toBytes_ofBytes_of_plain htext] at hfits ⊢
      exact .text htext hplain hfits
    · rw [PoolText.toBytes_ofBytes_iff.mpr hplain]
      exact .kept fun other h => textConstant_inj.mp h ▸ hplain

theorem Spells.write_eq_ok {entry : Entry} {part part' : Bytes} (h : Spells entry part) :
    format.write entry = .ok part' ↔ Respelled part part' := by
  cases h with
  | text payload hlen => rw [write_text_eq_ok, respelled_text_iff hlen]
  | other hkind hwrite =>
    rw [hwrite, respelled_of_not_text hkind hwrite, Except.ok.injEq, eq_comm]

theorem writes_iff_respelled {entries : List Entry} {constants parts : List Bytes}
    (h : List.Forall₂ Spells entries constants) :
    List.Forall₂ (fun entry part => format.write entry = .ok part) entries parts ↔
      List.Forall₂ Respelled constants parts := by
  induction h generalizing parts with
  | nil => simp
  | cons hspells _ ih =>
    simp only [List.forall₂_cons_left_iff, hspells.write_eq_ok, ih]

theorem Respelled.eq_or_length_lt {part part' : Bytes} (h : Respelled part part') :
    part' = part ∨ part.length < part'.length := by
  cases h with
  | kept _ => exact .inl rfl
  | @text payload text htext hplain hfits =>
    right
    have hne := PoolText.encode_ne_of_isPlainOnly htext hplain
    obtain rfl := Utf8.decode_eq_some.mp htext
    rcases ModifiedUtf8.map_encodeChar_eq_or text with hsame | hlonger
    · exact absurd (congrArg List.flatten hsame) hne
    · simpa [textConstant] using hlonger

/-- A constant stays as it stands unless it is a text in plain UTF-8 only. -/
theorem respelled_self_iff {part : Bytes} :
    Respelled part part ↔ ∀ payload, part = textConstant payload → ¬ Utf8.IsPlainOnly payload := by
  constructor
  · intro h
    obtain ⟨part', hsame, h⟩ : ∃ part', part' = part ∧ Respelled part part' := ⟨part, rfl, h⟩
    cases h with
    | kept h => exact h
    | text htext hplain _ =>
      exact absurd (textConstant_inj.mp hsame) (PoolText.encode_ne_of_isPlainOnly htext hplain)
  · exact .kept

theorem respelled_of_flatten_eq {constants constants' : List Bytes}
    (h : List.Forall₂ Respelled constants constants')
    (hflatten : constants.flatten = constants'.flatten) :
    List.Forall₂ Respelled constants constants := by
  rcases flatten_eq_or_length_lt (h.imp fun _ _ hpart => hpart.eq_or_length_lt) with rfl | hlonger
  · exact h
  · rw [hflatten] at hlonger
    exact absurd hlonger (Nat.lt_irrefl _)

end Entry

namespace ConstantPool

theorem of_readSlots {slots slots' : Array Slot} {free : Nat} {bytes rest : Bytes}
    (h : readSlots slots free bytes = .ok (slots', rest)) :
    ∃ entries constants, List.Forall₂ Entry.Spells entries constants ∧
      bytes = constants.flatten ++ rest ∧
      slots'.toList = slots.toList ++ entries.flatMap Entry.row ∧
      free = (entries.map Entry.slots).sum := by
  fun_induction readSlots slots free bytes with
  | case1 slots bytes =>
    obtain ⟨rfl, rfl⟩ := Prod.mk.inj (Except.ok.inj h)
    exact ⟨[], [], .nil, rfl, by simp, rfl⟩
  | case2 => cases h
  | case3 => cases h
  | case4 slots bytes entry middle hread hslots free ih =>
    obtain ⟨part, hpart, rfl⟩ := Entry.read_eq_ok.mp hread
    obtain ⟨entries, constants, hconstants, rfl, hrows, rfl⟩ := ih h
    exact ⟨entry :: entries, part :: constants, .cons hpart hconstants, by simp,
      by simp [hrows, Entry.row, hslots], by simp [hslots]; omega⟩
  | case5 slots free bytes entry middle hread hslots ih =>
    obtain ⟨part, hpart, rfl⟩ := Entry.read_eq_ok.mp hread
    obtain ⟨entries, constants, hconstants, rfl, hrows, rfl⟩ := ih h
    have hone : entry.slots = 1 := by
      cases entry <;> first | rfl | exact absurd rfl hslots
    exact ⟨entry :: entries, part :: constants, .cons hpart hconstants, by simp,
      by simp [hrows, Entry.row, hslots], by simp [hone]; omega⟩

theorem of_read {pool : ConstantPool} {bytes rest : Bytes}
    (h : ConstantPool.format.read bytes = .ok (pool, rest)) :
    ∃ entries constants, List.Forall₂ Entry.Spells entries constants ∧
      bytes = bigEndian 2 pool.count.toNat ++ (constants.flatten ++ rest) ∧
      pool.slots.toList = .gap :: entries.flatMap Entry.row ∧
      pool.count.toNat = (entries.map Entry.slots).sum + 1 := by
  obtain ⟨count, middle, hcount, hread⟩ := stateT_bind_eq_ok.mp h
  obtain ⟨_, hfront, rfl⟩ := Format.writesBack_u16 hcount
  obtain rfl := Except.ok.inj hfront
  unfold readCounted at hread
  split at hread
  · cases hread
  · rename_i free hfree
    simp only [except_bind_eq_ok, except_pure_eq_ok, Prod.mk.injEq, Prod.exists] at hread
    obtain ⟨slots, _, hslots, rfl, rfl⟩ := hread
    obtain ⟨entries, constants, hconstants, rfl, hrows, rfl⟩ := of_readSlots hslots
    have hsize : slots.size = count.toNat := by
      rw [hfree, ← Array.length_toList, hrows, List.length_append, List.length_flatMap,
        List.length_singleton, Nat.add_comm]
      simp only [Entry.length_row]
    have hcount : (⟨slots⟩ : ConstantPool).count = count := by
      rw [ConstantPool.count, hsize, UInt16.ofNat_toNat]
    rw [hcount]
    exact ⟨entries, constants, hconstants, rfl, hrows, hfree⟩

end ConstantPool

namespace ClassFile
open Format

/-- Only the pool can be written in another way than it was read. -/
theorem split_of_ofBytes {file : ClassFile} {bytes : Bytes}
    (h : ClassFile.ofBytes bytes = .ok file) : ∃ front middle back, front.length = 8 ∧
      bytes = front ++ middle ∧ ConstantPool.format.read middle = .ok (file.pool, back) ∧
      ∀ out, file.toBytes = .ok out ↔ ∃ pool, ConstantPool.format.write file.pool = .ok pool ∧
        out = front ++ (pool ++ back) := by
  have hmembers := Member.writesBack.list 2
  have htail := AccessFlags.writesBack.seq (writesBack_u16.seq (writesBack_u16.seq
    ((writesBack_u16.list 2).seq (hmembers.seq (hmembers.seq Attribute.writesBack_list)))))
  obtain ⟨⟨_, minor, major, pool, tail⟩, hread, rfl⟩ := stateT_map_eq_ok.mp (readAll_eq_ok.mp h)
  obtain ⟨_, _, hmagic, hread₁, rfl, hwrite⟩ := writesBack_magic.front hread
  obtain ⟨_, _, hminor, hread₂, rfl, hwrite₁⟩ := writesBack_u16.front hread₁
  obtain ⟨_, middle, hmajor, hread₃, rfl, hwrite₂⟩ := writesBack_u16.front hread₂
  obtain ⟨back, hpool, hwrite₃⟩ := htail.back hread₃
  rw [List.append_nil] at hpool
  obtain rfl := Except.ok.inj hmagic
  obtain rfl := Except.ok.inj hminor
  obtain rfl := Except.ok.inj hmajor
  refine ⟨magic ++ (bigEndian 2 minor.toNat ++ bigEndian 2 major.toNat), middle, back,
    by simp [magic], by simp only [List.append_assoc], hpool, fun out => ?_⟩
  constructor
  · intro hout
    obtain ⟨_, hout₁, rfl⟩ := (hwrite out).mp hout
    obtain ⟨_, hout₂, rfl⟩ := (hwrite₁ _).mp hout₁
    obtain ⟨_, hout₃, rfl⟩ := (hwrite₂ _).mp hout₂
    obtain ⟨front, hfront, rfl⟩ := (hwrite₃ _).mp hout₃
    exact ⟨front, hfront, by simp only [List.append_assoc]⟩
  · rintro ⟨front, hfront, rfl⟩
    have hout₃ := (hwrite₃ _).mpr ⟨front, hfront, rfl⟩
    have hout₂ := (hwrite₂ _).mpr ⟨_, hout₃, rfl⟩
    have hout₁ := (hwrite₁ _).mpr ⟨_, hout₂, rfl⟩
    exact (hwrite _).mpr ⟨_, hout₁, by simp only [List.append_assoc]⟩

/-- Where the constants stand in the bytes of a class file: `front` ends with their count, which
is one more than the number of slots that they take up, and `back` is what follows them. -/
structure Cut (bytes front : Bytes) (constants : List Bytes) (back : Bytes) : Prop where
  joined : bytes = front ++ (constants.flatten ++ back)
  length_front : front.length = 10
  counted : ∃ entries, List.Forall₂ (fun entry part => Entry.format.read part = .ok (entry, []))
    entries constants ∧ ofBigEndian (front.drop 8) = (entries.map Entry.slots).sum + 1

theorem exists_cut {file : ClassFile} {bytes : Bytes} (h : ClassFile.ofBytes bytes = .ok file) :
    ∃ front constants back, Cut bytes front constants back ∧
      ∀ out, file.toBytes = .ok out ↔ ∃ constants',
        List.Forall₂ Entry.Respelled constants constants' ∧
          out = front ++ (constants'.flatten ++ back) := by
  obtain ⟨front, _, back, hfront, rfl, hpool, hwrite⟩ := split_of_ofBytes h
  obtain ⟨entries, constants, hconstants, rfl, hrows, hcount⟩ := ConstantPool.of_read hpool
  have hparts : List.Forall₂ (fun entry part => Entry.format.read part = .ok (entry, []))
      entries constants :=
    hconstants.imp fun entry part hpart => Entry.read_eq_ok.mpr ⟨part, hpart, by simp⟩
  have hfield : ofBigEndian (bigEndian 2 file.pool.count.toNat) = file.pool.count.toNat := by
    rw [ofBigEndian_bigEndian]
    exact Nat.mod_eq_of_lt file.pool.count.toNat_lt
  refine ⟨front ++ bigEndian 2 file.pool.count.toNat, constants, back,
    ⟨?_, ?_, entries, hparts, ?_⟩, fun out => ?_⟩
  · rw [List.append_assoc]
  · simp [hfront]
  · rw [List.drop_left' hfront, hfield, hcount]
  · simp only [hwrite, ConstantPool.write_eq_ok hrows, Entry.writes_iff_respelled hconstants]
    constructor
    · rintro ⟨_, ⟨parts, hrespelled, rfl⟩, rfl⟩
      exact ⟨parts, hrespelled, by simp only [List.append_assoc]⟩
    · rintro ⟨parts, hrespelled, rfl⟩
      exact ⟨_, ⟨parts, hrespelled, rfl⟩, by simp only [List.append_assoc]⟩

/-- One run of bytes is cut into constants that take up some number of slots in one way. -/
theorem constants_unique {entries entries' : List Entry} {constants constants' : List Bytes}
    {back back' : Bytes}
    (hparts : List.Forall₂ (fun entry part => Entry.format.read part = .ok (entry, []))
      entries constants)
    (hparts' : List.Forall₂ (fun entry part => Entry.format.read part = .ok (entry, []))
      entries' constants')
    (hslots : (entries.map Entry.slots).sum = (entries'.map Entry.slots).sum)
    (hjoined : constants.flatten ++ back = constants'.flatten ++ back') :
    constants = constants' ∧ back = back' := by
  induction hparts generalizing entries' constants' with
  | nil =>
    cases hparts' with
    | nil => exact ⟨rfl, hjoined⟩
    | @cons entry' =>
      have hpos := entry'.slots_pos
      simp at hslots
      omega
  | @cons entry part entries constants hpart _ ih =>
    cases hparts' with
    | nil =>
      have hpos := entry.slots_pos
      simp at hslots
      omega
    | @cons entry' part' entries' constants' hpart' hrest' =>
      rw [List.flatten_cons, List.flatten_cons, List.append_assoc, List.append_assoc] at hjoined
      have hread := Entry.read_append hpart (constants.flatten ++ back)
      rw [hjoined, Entry.read_append hpart'] at hread
      obtain ⟨rfl, hrest⟩ := Prod.mk.inj (Except.ok.inj hread)
      rw [hrest, List.append_cancel_right_eq] at hjoined
      obtain ⟨rfl, hback⟩ := ih hrest' (by simpa using hslots) hrest.symm
      exact ⟨by rw [hjoined], hback⟩

theorem Cut.unique {bytes front front' back back' : Bytes} {constants constants' : List Bytes}
    (h : Cut bytes front constants back) (h' : Cut bytes front' constants' back') :
    front = front' ∧ constants = constants' ∧ back = back' := by
  obtain ⟨entries, hparts, hcount⟩ := h.counted
  obtain ⟨entries', hparts', hcount'⟩ := h'.counted
  have hjoined := h.joined.symm.trans h'.joined
  obtain ⟨rfl, hrest⟩ := List.append_inj hjoined (h.length_front.trans h'.length_front.symm)
  exact ⟨rfl, constants_unique hparts hparts' (by omega) hrest⟩

/-- A class file that was read is written as the bytes that it was read from exactly if none of its
texts stands in plain UTF-8 only, that is, if all texts stand in modified UTF-8. Otherwise it is
written, if the new spellings are not too long, as the same bytes but for these texts. -/
theorem toBytes_of_ofBytes {file : ClassFile} {bytes : Bytes}
    (h : ClassFile.ofBytes bytes = .ok file) :
    (∃ front constants back, Cut bytes front constants back) ∧
      ∀ front constants back, Cut bytes front constants back →
        (file.toBytes = .ok bytes ↔ ∀ payload, Entry.textConstant payload ∈ constants →
          ¬ Utf8.IsPlainOnly payload) ∧
        (file.toBytes = .ok bytes ↔ ∀ payload, Entry.textConstant payload ∈ constants →
          ∀ text, PoolText.ofBytes payload = .valid text →
            payload = ModifiedUtf8.encode text.toList) ∧
        ∀ out, file.toBytes = .ok out ↔ ∃ constants',
          List.Forall₂ Entry.Respelled constants constants' ∧
            out = front ++ (constants'.flatten ++ back) := by
  obtain ⟨front, constants, back, hcut, hwrite⟩ := exists_cut h
  refine ⟨⟨front, constants, back, hcut⟩, fun front' constants' back' hcut' => ?_⟩
  obtain ⟨rfl, rfl, rfl⟩ := hcut.unique hcut'
  have hsame : file.toBytes = .ok bytes ↔ ∀ payload, Entry.textConstant payload ∈ constants →
      ¬ Utf8.IsPlainOnly payload := by
    rw [hwrite]
    constructor
    · rintro ⟨constants', hrespelled, hout⟩ payload hmem
      rw [hcut.joined, List.append_cancel_left_eq, List.append_cancel_right_eq] at hout
      have hall := List.forall₂_same.mp (Entry.respelled_of_flatten_eq hrespelled hout)
      exact Entry.respelled_self_iff.mp (hall _ hmem) payload rfl
    · intro hplain
      refine ⟨constants, List.forall₂_same.mpr fun part hmem => ?_, hcut.joined⟩
      exact Entry.respelled_self_iff.mpr fun payload hpart => hplain payload (hpart ▸ hmem)
  refine ⟨hsame, hsame.trans ?_, hwrite⟩
  simp only [PoolText.not_isPlainOnly_iff]

/-- The bytes of a class file without members whose constants are texts with these payloads. -/
def withTexts (payloads : List Bytes) : Bytes :=
  magic ++ bigEndian 4 52 ++ bigEndian 2 (payloads.length + 1) ++
    ((payloads.map Entry.textConstant).flatten ++ bigEndian 14 0)

/-- Of two texts, a letter and a plain NUL, the second one is spelled anew. -/
theorem toBytes_of_ofBytes_letter_nul :
    ∃ file, ClassFile.ofBytes (withTexts [[0x41], [0x00]]) = .ok file ∧
      file.toBytes ≠ .ok (withTexts [[0x41], [0x00]]) ∧
      file.toBytes = .ok (withTexts [[0x41], [0xC0, 0x80]]) := by
  have htext : Utf8.decode [0x00] = some [Char.ofNat 0] := by decide
  have hnul : Utf8.IsPlainOnly [0x00] := ⟨_, htext, .inl (by decide)⟩
  have hletter : ¬ Utf8.IsPlainOnly [0x41] := PoolText.toBytes_ofBytes_iff.mp (by decide)
  have hcut : Cut (withTexts [[0x41], [0x00]]) (magic ++ bigEndian 4 52 ++ bigEndian 2 3)
      [Entry.textConstant [0x41], Entry.textConstant [0x00]] (bigEndian 14 0) :=
    ⟨rfl, rfl, [.utf8 (.ofBytes [0x41]), .utf8 (.ofBytes [0x00])],
      .cons rfl (.cons rfl .nil), rfl⟩
  refine ⟨_, rfl, ?_⟩
  obtain ⟨hsame, -, hwrite⟩ := (toBytes_of_ofBytes rfl).2 _ _ _ hcut
  constructor
  · intro h
    exact hsame.mp h [0x00] (by decide) hnul
  · refine (hwrite _).mpr ⟨[Entry.textConstant [0x41], Entry.textConstant [0xC0, 0x80]],
      .cons (.kept ?_) (.cons ?_ .nil), rfl⟩
    · intro payload hpayload
      exact Entry.textConstant_inj.mp hpayload ▸ hletter
    · exact .text htext hnul (by decide)

end ClassFile

end StaticCompanion
