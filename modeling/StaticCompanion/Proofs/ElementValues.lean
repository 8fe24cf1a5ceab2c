import StaticCompanion.ClassFile.Annotations
import StaticCompanion.Proofs.ExactLayout

/-!
# Nested values of annotations

A value is read under a budget of levels, but the budget never decides about the result: whatever is
read is written as the bytes it was read from, whichever budget there was, and the bytes of a value
are at least as many as its levels. So the run of bytes that holds a value is budget enough for it.
-/
namespace StaticCompanion

theorem ConstKind.ofTag?_eq_some_iff {tag : UInt8} {kind : ConstKind} :
    ofTag? tag = some kind ↔ kind.tag = tag := by
  constructor
  · intro h
    unfold ofTag? at h
    split at h <;> cases h <;> rfl
  · rintro rfl
    cases kind <;> rfl

namespace ElementValue
open Format

/-- The layout of values that are no more levels deep than the budget is long. -/
def within (budget : Bytes) : Format ElementValue := ⟨readWithin budget, write⟩

/-- The layout of an annotation's type and elements under a budget. -/
def bodyWithin (budget : Bytes) : Format (UInt16 × List (UInt16 × ElementValue)) :=
  u16.seq (list 2 (u16.seq (within budget)))

/-- What one level of reading takes off the front: the mark of a value and its payload. -/
inductive Level (budget : Bytes) : ElementValue → Bytes → Bytes → Prop
  | const {kind : ConstKind} {index : UInt16} {bytes rest : Bytes}
    (h : u16.read bytes = .ok (index, rest)) :
    Level budget (.const kind index) (kind.tag :: bytes) rest
  | enum {type const : UInt16} {bytes rest : Bytes}
    (h : (u16.seq u16).read bytes = .ok ((type, const), rest)) :
    Level budget (.enum type const) (0x65 :: bytes) rest
  | class {index : UInt16} {bytes rest : Bytes} (h : u16.read bytes = .ok (index, rest)) :
    Level budget (.class index) (0x63 :: bytes) rest
  | nested {type : UInt16} {elements : List (UInt16 × ElementValue)} {bytes rest : Bytes}
    (h : (bodyWithin budget).read bytes = .ok ((type, elements), rest)) :
    Level budget (.nested type elements) (0x40 :: bytes) rest
  | array {values : List ElementValue} {bytes rest : Bytes}
    (h : (list 2 (within budget)).read bytes = .ok (values, rest)) :
    Level budget (.array values) (0x5B :: bytes) rest

variable {budget bytes rest : Bytes} {value : ElementValue}

theorem level_of_readWithin (byte : UInt8)
    (h : readWithin (byte :: budget) bytes = .ok (value, rest)) :
    Level budget value bytes rest := by
  obtain ⟨tag, middle, htag, hrest⟩ := stateT_bind_eq_ok.mp h
  obtain ⟨_, hfront, rfl⟩ := writesBack_u8 htag
  obtain rfl := Except.ok.inj hfront
  clear h
  split at hrest
  · obtain ⟨⟨type, const⟩, _, hpair, hvalue⟩ := stateT_bind_eq_ok.mp hrest
    obtain ⟨rfl, rfl⟩ := stateT_pure_eq_ok.mp hvalue
    exact .enum hpair
  · obtain ⟨index, _, hindex, hvalue⟩ := stateT_bind_eq_ok.mp hrest
    obtain ⟨rfl, rfl⟩ := stateT_pure_eq_ok.mp hvalue
    exact .class hindex
  · obtain ⟨type, _, htype, hrest⟩ := stateT_bind_eq_ok.mp hrest
    obtain ⟨count, _, hcount, hrest⟩ := stateT_bind_eq_ok.mp hrest
    obtain ⟨elements, _, helements, hvalue⟩ := stateT_bind_eq_ok.mp hrest
    obtain ⟨rfl, rfl⟩ := stateT_pure_eq_ok.mp hvalue
    have hlist := stateT_bind_eq_ok.mpr ⟨count, _, hcount, helements⟩
    exact .nested (seq_read_eq_ok.mpr ⟨_, htype, hlist⟩)
  · obtain ⟨count, _, hcount, hrest⟩ := stateT_bind_eq_ok.mp hrest
    obtain ⟨values, _, hvalues, hvalue⟩ := stateT_bind_eq_ok.mp hrest
    obtain ⟨rfl, rfl⟩ := stateT_pure_eq_ok.mp hvalue
    exact .array (stateT_bind_eq_ok.mpr ⟨count, _, hcount, hvalues⟩)
  · cases hkind : ConstKind.ofTag? tag with
    | none =>
      rw [hkind] at hrest
      cases hrest
    | some kind =>
      rw [hkind] at hrest
      obtain ⟨index, _, hindex, hvalue⟩ := stateT_bind_eq_ok.mp hrest
      obtain ⟨rfl, rfl⟩ := stateT_pure_eq_ok.mp hvalue
      obtain rfl := ConstKind.ofTag?_eq_some_iff.mp hkind
      exact .const hindex

theorem readWithin_of_level (byte : UInt8) (h : Level budget value bytes rest) :
    readWithin (byte :: budget) bytes = .ok (value, rest) := by
  cases h with
  | @const kind index middle _ hindex =>
    refine stateT_bind_eq_ok.mpr ⟨kind.tag, middle, rfl, ?_⟩
    have hvalue : (u16.read >>= fun index => pure (const kind index) : Reader ElementValue) middle =
        .ok (const kind index, rest) :=
      stateT_bind_eq_ok.mpr ⟨index, rest, hindex, stateT_pure_eq_ok.mpr ⟨rfl, rfl⟩⟩
    cases kind <;> exact hvalue
  | enum hpair =>
    exact stateT_bind_eq_ok.mpr ⟨0x65, _, rfl, stateT_bind_eq_ok.mpr
      ⟨_, rest, hpair, stateT_pure_eq_ok.mpr ⟨rfl, rfl⟩⟩⟩
  | «class» hindex =>
    exact stateT_bind_eq_ok.mpr ⟨0x63, _, rfl, stateT_bind_eq_ok.mpr
      ⟨_, rest, hindex, stateT_pure_eq_ok.mpr ⟨rfl, rfl⟩⟩⟩
  | nested hbody =>
    obtain ⟨_, htype, hlist⟩ := seq_read_eq_ok.mp hbody
    obtain ⟨count, _, hcount, helements⟩ := stateT_bind_eq_ok.mp hlist
    exact stateT_bind_eq_ok.mpr ⟨0x40, _, rfl, stateT_bind_eq_ok.mpr ⟨_, _, htype,
      stateT_bind_eq_ok.mpr ⟨count, _, hcount, stateT_bind_eq_ok.mpr
        ⟨_, rest, helements, stateT_pure_eq_ok.mpr ⟨rfl, rfl⟩⟩⟩⟩⟩
  | array hlist =>
    obtain ⟨count, _, hcount, hvalues⟩ := stateT_bind_eq_ok.mp hlist
    exact stateT_bind_eq_ok.mpr ⟨0x5B, _, rfl, stateT_bind_eq_ok.mpr ⟨count, _, hcount,
      stateT_bind_eq_ok.mpr ⟨_, rest, hvalues, stateT_pure_eq_ok.mpr ⟨rfl, rfl⟩⟩⟩⟩

theorem writeValues_eq_ok {values : List ElementValue} : writeValues values = .ok bytes ↔
    ∃ parts, List.Forall₂ (fun v b => v.write = .ok b) values parts ∧ bytes = parts.flatten := by
  induction values generalizing bytes with
  | nil => simp [writeValues, eq_comm]
  | cons value values ih =>
    simp only [writeValues, except_bind_eq_ok, except_pure_eq_ok, ih, List.forall₂_cons_left_iff]
    constructor
    · rintro ⟨part, hpart, _, ⟨parts, hparts, rfl⟩, rfl⟩
      exact ⟨_, ⟨part, parts, hpart, hparts, rfl⟩, rfl⟩
    · rintro ⟨_, ⟨part, parts, hpart, hparts, rfl⟩, rfl⟩
      exact ⟨part, hpart, _, ⟨parts, hparts, rfl⟩, rfl⟩

theorem writeElements_eq_ok {elements : List (UInt16 × ElementValue)} (budget : Bytes) :
    writeElements elements = .ok bytes ↔
      ∃ parts, List.Forall₂ (fun e b => (u16.seq (within budget)).write e = .ok b) elements parts ∧
        bytes = parts.flatten := by
  induction elements generalizing bytes with
  | nil => simp [writeElements, eq_comm]
  | cons element elements ih =>
    obtain ⟨name, value⟩ := element
    simp only [writeElements, except_bind_eq_ok, except_pure_eq_ok, ih, seq_write_eq_ok,
      List.forall₂_cons_left_iff]
    constructor
    · rintro ⟨part, hpart, _, ⟨parts, hparts, rfl⟩, rfl⟩
      exact ⟨_, ⟨_, parts, ⟨_, part, rfl, hpart, rfl⟩, hparts, rfl⟩, rfl⟩
    · rintro ⟨_, ⟨_, parts, ⟨_, part, hname, hpart, rfl⟩, hparts, rfl⟩, rfl⟩
      obtain rfl := Except.ok.inj hname
      exact ⟨part, hpart, _, ⟨parts, hparts, rfl⟩, rfl⟩

theorem write_array_eq_ok {values : List ElementValue} (budget : Bytes) :
    (array values).write = .ok bytes ↔
      ∃ part, (list 2 (within budget)).write values = .ok part ∧ bytes = 0x5B :: part := by
  simp only [write, except_bind_eq_ok, except_pure_eq_ok, writeCount_eq_ok, writeValues_eq_ok,
    list_write_eq_ok]
  constructor
  · rintro ⟨_, ⟨hlen, rfl⟩, _, ⟨parts, hparts, rfl⟩, rfl⟩
    exact ⟨_, ⟨hlen, parts, hparts, rfl⟩, rfl⟩
  · rintro ⟨_, ⟨hlen, parts, hparts, rfl⟩, rfl⟩
    exact ⟨_, ⟨hlen, rfl⟩, _, ⟨parts, hparts, rfl⟩, rfl⟩

theorem write_nested_eq_ok {type : UInt16} {elements : List (UInt16 × ElementValue)}
    (budget : Bytes) : (nested type elements).write = .ok bytes ↔
      ∃ part, (bodyWithin budget).write (type, elements) = .ok part ∧ bytes = 0x40 :: part := by
  simp only [write, except_bind_eq_ok, except_pure_eq_ok, writeCount_eq_ok,
    writeElements_eq_ok budget, bodyWithin, seq_write_eq_ok, list_write_eq_ok]
  constructor
  · rintro ⟨_, ⟨hlen, rfl⟩, _, ⟨parts, hparts, rfl⟩, rfl⟩
    exact ⟨_, ⟨_, _, rfl, ⟨hlen, parts, hparts, rfl⟩, rfl⟩, by simp⟩
  · rintro ⟨_, ⟨_, _, htype, ⟨hlen, parts, hparts, rfl⟩, rfl⟩, rfl⟩
    obtain rfl := Except.ok.inj htype
    exact ⟨_, ⟨hlen, rfl⟩, _, ⟨parts, hparts, rfl⟩, by simp⟩

theorem writesBack_within (budget : Bytes) : (within budget).WritesBack := by
  induction budget with
  | nil =>
    intro bytes value rest h
    cases h
  | cons byte budget ih =>
    intro bytes value rest h
    cases level_of_readWithin byte h with
    | @const kind index _ _ hindex =>
      obtain ⟨_, hfront, rfl⟩ := writesBack_u16 hindex
      obtain rfl := Except.ok.inj hfront
      exact ⟨kind.tag :: bigEndian 2 index.toNat, rfl, rfl⟩
    | @enum type const _ _ hpair =>
      obtain ⟨_, hfront, rfl⟩ := (writesBack_u16.seq writesBack_u16) hpair
      obtain ⟨_, _, htype, hconst, rfl⟩ := seq_write_eq_ok.mp hfront
      obtain rfl := Except.ok.inj htype
      obtain rfl := Except.ok.inj hconst
      exact ⟨0x65 :: (bigEndian 2 type.toNat ++ bigEndian 2 const.toNat), rfl, rfl⟩
    | @«class» index _ _ hindex =>
      obtain ⟨_, hfront, rfl⟩ := writesBack_u16 hindex
      obtain rfl := Except.ok.inj hfront
      exact ⟨0x63 :: bigEndian 2 index.toNat, rfl, rfl⟩
    | nested hbody =>
      have hback : (bodyWithin budget).WritesBack :=
        writesBack_u16.seq ((writesBack_u16.seq ih).list 2)
      obtain ⟨part, hpart, rfl⟩ := hback hbody
      exact ⟨0x40 :: part, (write_nested_eq_ok budget).mpr ⟨part, hpart, rfl⟩, rfl⟩
    | array hlist =>
      obtain ⟨part, hpart, rfl⟩ := (ih.list 2) hlist
      exact ⟨0x5B :: part, (write_array_eq_ok budget).mpr ⟨part, hpart, rfl⟩, rfl⟩

theorem length_pos_of_write {part : Bytes} (hwrite : value.write = .ok part) : 0 < part.length := by
  cases value with
  | const kind index =>
    obtain rfl := Except.ok.inj hwrite
    simp
  | enum type const =>
    obtain rfl := Except.ok.inj hwrite
    simp
  | «class» index =>
    obtain rfl := Except.ok.inj hwrite
    simp
  | nested type elements =>
    obtain ⟨body, -, rfl⟩ := (write_nested_eq_ok []).mp hwrite
    simp
  | array values =>
    obtain ⟨items, -, rfl⟩ := (write_array_eq_ok []).mp hwrite
    simp

/-- A value is read back under any budget that is as long as its bytes. -/
theorem readsBackAt_within {part : Bytes} (hwrite : value.write = .ok part)
    (hlen : part.length ≤ budget.length) : (within budget).ReadsBackAt value := by
  induction budget generalizing value part with
  | nil =>
    have hpos := length_pos_of_write hwrite
    rw [List.length_nil] at hlen
    omega
  | cons byte budget ih =>
    intro bytes hbytes rest
    obtain rfl := Except.ok.inj (hwrite.symm.trans hbytes)
    rw [List.length_cons] at hlen
    apply readWithin_of_level byte
    cases value with
    | const kind index =>
      obtain rfl := Except.ok.inj hwrite
      exact .const (readsBack_u16 index rfl rest)
    | enum type const =>
      obtain rfl := Except.ok.inj hwrite
      exact .enum ((readsBack_u16.seq readsBack_u16) (type, const) rfl rest)
    | «class» index =>
      obtain rfl := Except.ok.inj hwrite
      exact .class (readsBack_u16 index rfl rest)
    | nested type elements =>
      obtain ⟨body, hbody, rfl⟩ := (write_nested_eq_ok budget).mp hwrite
      rw [List.length_cons] at hlen
      -- an element's value is written inside the body, so the shorter budget is enough for it
      have hitems : ∀ element ∈ elements, (u16.seq (within budget)).ReadsBackAt element := by
        intro element hmem
        obtain ⟨front, items, -, hlist, rfl⟩ := seq_write_eq_ok.mp hbody
        obtain ⟨item, hitem, hfits⟩ := length_of_list_write hlist hmem
        obtain ⟨name, inner, -, hinner, rfl⟩ := seq_write_eq_ok.mp hitem
        simp only [List.length_append] at hlen hfits
        exact (readsBack_u16 _).seq (ih hinner (by omega))
      exact .nested (((readsBack_u16 type).seq (ReadsBackAt.list 2 hitems)) hbody rest)
    | array values =>
      obtain ⟨items, hlist, rfl⟩ := (write_array_eq_ok budget).mp hwrite
      rw [List.length_cons] at hlen
      have hitems : ∀ inner ∈ values, (within budget).ReadsBackAt inner := by
        intro inner hmem
        obtain ⟨item, hitem, hfits⟩ := length_of_list_write hlist hmem
        exact ih hitem (by omega)
      exact .array (ReadsBackAt.list 2 hitems hlist rest)

/-- The lists of a value fit their counts, at every level. -/
inductive Fits : ElementValue → Prop
  | const (kind : ConstKind) (index : UInt16) : Fits (.const kind index)
  | enum (type const : UInt16) : Fits (.enum type const)
  | class (index : UInt16) : Fits (.class index)
  | nested (type : UInt16) {elements : List (UInt16 × ElementValue)}
    (hlen : elements.length < span 2) (h : ∀ element ∈ elements, Fits element.2) :
    Fits (.nested type elements)
  | array {values : List ElementValue} (hlen : values.length < span 2)
    (h : ∀ value ∈ values, Fits value) : Fits (.array values)

theorem exists_write_of_fits (h : value.Fits) : ∃ part, value.write = .ok part := by
  induction h with
  | const kind index => exact ⟨_, rfl⟩
  | enum type const => exact ⟨_, rfl⟩
  | «class» index => exact ⟨_, rfl⟩
  | @nested type elements hlen _ ih =>
    have hwrites : ∀ element ∈ elements, ∃ part,
        (u16.seq (within [])).write element = .ok part := by
      intro element hmem
      obtain ⟨part, hpart⟩ := ih element hmem
      exact ⟨_, seq_write_eq_ok.mpr ⟨_, part, rfl, hpart, rfl⟩⟩
    obtain ⟨items, hitems⟩ := list_writes_iff.mpr ⟨hlen, hwrites⟩
    have hbody : (bodyWithin []).write (type, elements) = .ok _ :=
      seq_write_eq_ok.mpr ⟨_, items, rfl, hitems, rfl⟩
    exact ⟨_, (write_nested_eq_ok []).mpr ⟨_, hbody, rfl⟩⟩
  | @array values hlen _ ih =>
    have hwrites : ∀ inner ∈ values, ∃ part, (within []).write inner = .ok part := ih
    obtain ⟨items, hitems⟩ := list_writes_iff.mpr ⟨hlen, hwrites⟩
    exact ⟨_, (write_array_eq_ok []).mpr ⟨items, hitems, rfl⟩⟩

theorem fits_of_write {part : Bytes} (hwrite : value.write = .ok part) : value.Fits := by
  induction hn : part.length using Nat.strongRecOn generalizing value part with
  | ind n ih =>
    subst hn
    cases value with
    | const kind index => exact .const kind index
    | enum type const => exact .enum type const
    | «class» index => exact .class index
    | nested type elements =>
      obtain ⟨body, hbody, rfl⟩ := (write_nested_eq_ok []).mp hwrite
      obtain ⟨front, items, -, hlist, rfl⟩ := seq_write_eq_ok.mp hbody
      refine .nested type (list_write_eq_ok.mp hlist).1 fun element hmem => ?_
      obtain ⟨item, hitem, hle⟩ := length_of_list_write hlist hmem
      obtain ⟨name, inner, -, hinner, rfl⟩ := seq_write_eq_ok.mp hitem
      refine ih inner.length ?_ hinner rfl
      simp only [List.length_cons, List.length_append] at hle ⊢
      omega
    | array values =>
      obtain ⟨items, hlist, rfl⟩ := (write_array_eq_ok []).mp hwrite
      refine .array (list_write_eq_ok.mp hlist).1 fun inner hmem => ?_
      obtain ⟨item, hitem, hle⟩ := length_of_list_write hlist hmem
      refine ih item.length ?_ hitem rfl
      rw [List.length_cons]
      omega

theorem exact_format : ElementValue.format.Exact Fits := by
  refine ⟨fun bytes value rest h => ?_, fun value part hwrite rest => ?_, fun value => ?_⟩
  · exact writesBack_within bytes h
  · have hle : part.length ≤ (part ++ rest).length := by simp
    exact readsBackAt_within hwrite hle hwrite rest
  · exact ⟨fun ⟨_, hwrite⟩ => fits_of_write hwrite, exists_write_of_fits⟩

end ElementValue

namespace AnnotationUse
open Format ElementValue

/-- The lists of an annotation fit their counts, at every level. -/
def Fits (use : AnnotationUse) : Prop := ListFits 2 (fun element => element.2.Fits) use.elements

variable {budget bytes rest : Bytes} {use : AnnotationUse}

theorem readWithin_eq_ok : readWithin budget bytes = .ok (use, rest) ↔
    (bodyWithin budget).read bytes = .ok ((use.type, use.elements), rest) := by
  constructor
  · intro h
    obtain ⟨type, _, htype, h⟩ := stateT_bind_eq_ok.mp h
    obtain ⟨count, _, hcount, h⟩ := stateT_bind_eq_ok.mp h
    obtain ⟨elements, _, helements, huse⟩ := stateT_bind_eq_ok.mp h
    obtain ⟨rfl, rfl⟩ := stateT_pure_eq_ok.mp huse
    exact seq_read_eq_ok.mpr ⟨_, htype, stateT_bind_eq_ok.mpr ⟨count, _, hcount, helements⟩⟩
  · intro h
    obtain ⟨_, htype, hlist⟩ := seq_read_eq_ok.mp h
    obtain ⟨count, _, hcount, helements⟩ := stateT_bind_eq_ok.mp hlist
    exact stateT_bind_eq_ok.mpr ⟨_, _, htype, stateT_bind_eq_ok.mpr ⟨count, _, hcount,
      stateT_bind_eq_ok.mpr ⟨_, rest, helements, stateT_pure_eq_ok.mpr ⟨rfl, rfl⟩⟩⟩⟩

theorem write_eq_ok : use.write = .ok bytes ↔
    (nested use.type use.elements).write = .ok (0x40 :: bytes) := by
  simp only [AnnotationUse.write, ElementValue.write, except_bind_eq_ok, except_pure_eq_ok,
    List.cons_append, List.cons.injEq, true_and]

theorem exact_format : AnnotationUse.format.Exact Fits := by
  refine ⟨fun bytes use rest h => ?_, fun use part hwrite rest => ?_, fun use => ?_⟩
  · have hback : (bodyWithin bytes).WritesBack :=
      writesBack_u16.seq ((writesBack_u16.seq (writesBack_within bytes)).list 2)
    obtain ⟨part, hpart, hsplit⟩ := hback (readWithin_eq_ok.mp h)
    have hnested := (write_nested_eq_ok bytes).mpr ⟨part, hpart, rfl⟩
    exact ⟨part, write_eq_ok.mpr hnested, hsplit⟩
  · have hnested := write_eq_ok.mp hwrite
    have hle : (0x40 :: part).length ≤ (0x40 :: (part ++ rest)).length := by simp
    have hread := readsBackAt_within hnested hle hnested rest
    cases level_of_readWithin 0x40 hread with
    | nested hbody => exact readWithin_eq_ok.mpr hbody
  · constructor
    · rintro ⟨part, hwrite⟩
      cases fits_of_write (write_eq_ok.mp hwrite) with
      | nested _ hlen hfits => exact ⟨hlen, hfits⟩
    · rintro ⟨hlen, hfits⟩
      obtain ⟨_, hnested⟩ := exists_write_of_fits (.nested use.type hlen hfits)
      obtain ⟨part, -, rfl⟩ := (write_nested_eq_ok []).mp hnested
      exact ⟨part, write_eq_ok.mpr hnested⟩

end AnnotationUse

end StaticCompanion
