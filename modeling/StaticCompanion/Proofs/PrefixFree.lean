import StaticCompanion.ClassFile.Basic
import StaticCompanion.Proofs.Payloads
import StaticCompanion.Proofs.RoundTrip

/-!
# Where a value ends

The bytes that a value is read from tell where it ends: with fewer of them the reader runs out of
bytes, and what follows them is left alone. All building blocks of layouts keep this law, so an
accepted run of bytes is refused in one way when it is cut and in one way when it goes on.
-/
namespace StaticCompanion

namespace Reader
variable {α β : Type} {read read' : Reader α} {next next' : α → Reader β}

/-- The reader takes `front` off whatever goes on behind it, and runs out of bytes on less. -/
structure Takes (read : Reader α) (front : Bytes) (a : α) : Prop where
  extended : ∀ more, read (front ++ more) = .ok (a, more)
  cut : ∀ short lost, lost ≠ [] → front = short ++ lost → read short = .error .endOfInput

/-- What a reader takes does not depend on the bytes behind it. -/
def PrefixFree (read : Reader α) : Prop :=
  ∀ ⦃bytes a rest⦄, read bytes = .ok (a, rest) → ∃ front, bytes = front ++ rest ∧
    read.Takes front a

theorem bind_of_ok {bytes rest : Bytes} {a : α} (h : read bytes = .ok (a, rest)) :
    (read >>= next) bytes = next a rest := by
  change (read bytes >>= fun result => next result.1 result.2) = _
  rw [h]
  rfl

theorem bind_of_error {bytes : Bytes} {fault : ReadFault} (h : read bytes = .error fault) :
    (read >>= next) bytes = .error fault := by
  change (read bytes >>= fun result => next result.1 result.2) = _
  rw [h]
  rfl

namespace PrefixFree

theorem pure (a : α) : PrefixFree (Pure.pure a) := by
  intro bytes b rest hrun
  obtain ⟨rfl, rfl⟩ := stateT_pure_eq_ok.mp hrun
  refine ⟨[], rfl, fun more => rfl, fun short lost hlost hsplit => ?_⟩
  have hnil := List.append_eq_nil_iff.mp hsplit.symm
  exact absurd hnil.2 hlost

theorem throw (fault : ReadFault) : PrefixFree (throw fault : Reader α) := by
  intro bytes a rest hrun
  cases hrun

theorem bind (h : read.PrefixFree) (hnext : ∀ a, (next a).PrefixFree) :
    (read >>= next).PrefixFree := by
  intro bytes b rest hrun
  obtain ⟨a, middle, ha, hb⟩ := stateT_bind_eq_ok.mp hrun
  obtain ⟨front, hbytes, hfront⟩ := h ha
  obtain ⟨back, hmiddle, hback⟩ := hnext a hb
  refine ⟨front ++ back, by simp [hbytes, hmiddle], fun more => ?_,
    fun short lost hlost hsplit => ?_⟩
  · have hextended := hfront.extended (back ++ more)
    rw [List.append_assoc, bind_of_ok hextended]
    exact hback.extended more
  · rcases List.append_eq_append_iff.mp hsplit with ⟨gap, hshort, hgap⟩ | ⟨gap, hshort, hgap⟩
    · rw [hshort, bind_of_ok (hfront.extended gap)]
      exact hback.cut gap lost hlost hgap
    · by_cases hnil : gap = []
      · have hwhole : read short = .ok (a, []) := by
          simpa [hshort, hnil] using hfront.extended []
        rw [bind_of_ok hwhole]
        exact hback.cut [] lost hlost (by simpa [hnil] using hgap.symm)
      · exact bind_of_error (hfront.cut short gap hnil hshort)

theorem map (f : α → β) (h : read.PrefixFree) : (f <$> read).PrefixFree := by
  rw [map_eq_pure_bind]
  exact h.bind fun a => pure (f a)

end PrefixFree

theorem prefixFree_take (count : Nat) : (take count).PrefixFree := by
  intro bytes front rest hrun
  obtain ⟨hbytes, hlength⟩ := Format.take_eq_ok.mp hrun
  refine ⟨front, hbytes, fun more => Format.take_append front more hlength,
    fun short lost hlost hsplit => ?_⟩
  have hpos := List.length_pos_iff.mpr hlost
  have hlengths := congrArg List.length hsplit
  rw [List.length_append] at hlengths
  have hshort : splitExact count short = none := splitExact_eq_none_iff.mpr (by omega)
  simp [take, hshort]

theorem prefixFree_number (width : Nat) : (number width).PrefixFree :=
  (prefixFree_take width).map _

theorem prefixFree_byte : byte.PrefixFree := by
  intro bytes value rest hrun
  cases bytes with
  | nil => cases hrun
  | cons first bytes =>
    obtain ⟨rfl, rfl⟩ := Prod.mk.inj (Except.ok.inj hrun)
    refine ⟨[first], rfl, fun more => rfl, fun short lost hlost hsplit => ?_⟩
    cases short with
    | nil => rfl
    | cons other short =>
      have hnil := List.append_eq_nil_iff.mp (List.cons.inj hsplit).2.symm
      exact absurd hnil.2 hlost

theorem many_go_succ (item : Reader α) (count : Nat) (taken : List α) :
    (many.go item (count + 1) taken : Reader (List α)) =
      item >>= fun value => many.go item count (value :: taken) := by
  funext bytes
  cases hitem : item bytes with
  | ok result => rw [bind_of_ok hitem, many.go, hitem]
  | error fault => rw [bind_of_error hitem, many.go, hitem]

theorem PrefixFree.many {item : Reader α} (h : item.PrefixFree) (count : Nat) :
    (item.many count).PrefixFree := by
  have hgo (taken : List α) : PrefixFree (many.go item count taken : Reader (List α)) := by
    induction count generalizing taken with
    | zero => exact PrefixFree.pure taken.reverse
    | succ count ih =>
      rw [many_go_succ]
      exact h.bind fun value => ih (value :: taken)
  exact hgo []

/-- A reader does as another one does, or gives up as if the bytes had ended. -/
def StopsShort (read full : Reader α) : Prop :=
  ∀ bytes, read bytes = full bytes ∨ read bytes = .error .endOfInput

namespace StopsShort

theorem refl (read : Reader α) : StopsShort read read := fun _ => .inl rfl

theorem bind (h : StopsShort read read') (hnext : ∀ a, StopsShort (next a) (next' a)) :
    StopsShort (read >>= next) (read' >>= next') := by
  intro bytes
  rcases h bytes with hsame | hend
  · cases hrun : read bytes with
    | ok result =>
      rw [bind_of_ok hrun, bind_of_ok (hsame ▸ hrun)]
      exact hnext result.1 result.2
    | error fault =>
      left
      rw [bind_of_error hrun, bind_of_error (hsame ▸ hrun)]
  · exact .inr (bind_of_error hend)

theorem many (h : StopsShort read read') (count : Nat) :
    StopsShort (read.many count) (read'.many count) := by
  have hgo (taken : List α) :
      StopsShort (many.go read count taken : Reader (List α)) (many.go read' count taken) := by
    induction count generalizing taken with
    | zero => exact refl _
    | succ count ih =>
      rw [many_go_succ, many_go_succ]
      exact h.bind fun value => ih (value :: taken)
  exact hgo []

end StopsShort

end Reader

namespace Format
open Reader
variable {α β : Type}

theorem prefixFree_u8 : u8.read.PrefixFree := prefixFree_byte

theorem prefixFree_u16 : u16.read.PrefixFree := (prefixFree_number 2).map _

theorem prefixFree_u32 : u32.read.PrefixFree := (prefixFree_number 4).map _

theorem prefixFree_u64 : u64.read.PrefixFree := (prefixFree_number 8).map _

theorem prefixFree_blob (width : Nat) : (blob width).read.PrefixFree :=
  (prefixFree_number width).bind prefixFree_take

theorem prefixFree_seq {first : Format α} {second : Format β} (hfirst : first.read.PrefixFree)
    (hsecond : second.read.PrefixFree) : (first.seq second).read.PrefixFree :=
  hfirst.bind fun a => hsecond.bind fun b => .pure (a, b)

theorem prefixFree_map {format : Format α} (into : α → β) (back : β → α)
    (h : format.read.PrefixFree) : (format.map into back).read.PrefixFree :=
  h.map into

theorem prefixFree_list (width : Nat) {item : Format α} (h : item.read.PrefixFree) :
    (list width item).read.PrefixFree :=
  (prefixFree_number width).bind h.many

/-- The run of bytes is its own budget here. A shorter run is a smaller budget as well, and then the
reader stops as it does at the end of its bytes. -/
theorem prefixFree_of_budget {format : Format α} {fits : α → Prop} {read : Bytes → Reader α}
    (hexact : format.Exact fits) (hread : ∀ bytes, format.read bytes = read bytes bytes)
    (hfree : ∀ budget, (read budget).PrefixFree)
    (hshort : ∀ budget budget', budget.length ≤ budget'.length →
      StopsShort (read budget) (read budget')) : format.read.PrefixFree := by
  intro bytes a rest hrun
  obtain ⟨part, hwrite, hpart⟩ := hexact.writesBack hrun
  rw [hread] at hrun
  obtain ⟨front, hbytes, hfront⟩ := hfree bytes hrun
  have hsame : front = part := List.append_cancel_right (hbytes.symm.trans hpart)
  refine ⟨front, hbytes, fun more => ?_, fun short lost hlost hsplit => ?_⟩
  · rw [hsame]
    exact hexact.readsBack a hwrite more
  · have hlength : short.length ≤ bytes.length := by
      rw [hbytes, hsplit]
      simp only [List.length_append]
      omega
    rw [hread]
    rcases hshort short bytes hlength short with hfull | hend
    · rw [hfull]
      exact hfront.cut short lost hlost hsplit
    · exact hend

end Format

open Format Reader

namespace ElementValue
variable {value value' : Reader ElementValue}

theorem prefixFree_element (h : value.PrefixFree) :
    PrefixFree (do return (← u16.read, ← value) : Reader (UInt16 × ElementValue)) :=
  prefixFree_u16.bind fun name => h.bind fun value => .pure (name, value)

theorem stopsShort_element (h : StopsShort value value') :
    StopsShort (do return (← u16.read, ← value) : Reader (UInt16 × ElementValue))
      (do return (← u16.read, ← value')) :=
  (StopsShort.refl u16.read).bind fun name => h.bind fun value => .refl (pure (name, value))

theorem prefixFree_within (budget : Bytes) : (readWithin budget).PrefixFree := by
  induction budget with
  | nil => exact .throw _
  | cons byte budget ih =>
    refine prefixFree_byte.bind fun tag => ?_
    split
    · exact (prefixFree_seq prefixFree_u16 prefixFree_u16).bind fun _ => .pure _
    · exact prefixFree_u16.bind fun _ => .pure _
    · exact prefixFree_u16.bind fun _ => (prefixFree_number 2).bind fun count =>
        ((prefixFree_element ih).many count).bind fun _ => .pure _
    · exact (prefixFree_number 2).bind fun count => (ih.many count).bind fun _ => .pure _
    · split
      · exact prefixFree_u16.bind fun _ => .pure _
      · exact .throw _

/-- A smaller budget is used up where the bytes may go on, and that is all that it changes. -/
theorem stopsShort_within (budget budget' : Bytes) (hle : budget.length ≤ budget'.length) :
    StopsShort (readWithin budget) (readWithin budget') := by
  induction budget generalizing budget' with
  | nil => exact fun bytes => .inr rfl
  | cons byte budget ih =>
    cases budget' with
    | nil => simp at hle
    | cons byte' budget' =>
      have hvalue := ih budget' (by simpa using hle)
      refine StopsShort.bind (.refl _) fun tag => ?_
      -- only the values that hold values go on with the budget
      split
      · exact .refl _
      · exact .refl _
      · exact (StopsShort.refl u16.read).bind fun _ => (StopsShort.refl (number 2)).bind
          fun count => ((stopsShort_element hvalue).many count).bind fun _ => .refl _
      · exact (StopsShort.refl (number 2)).bind fun count => (hvalue.many count).bind
          fun _ => .refl _
      · exact .refl _

theorem prefixFree_format : ElementValue.format.read.PrefixFree := by
  have hread : ∀ bytes, ElementValue.format.read bytes = readWithin bytes bytes := fun _ => rfl
  exact prefixFree_of_budget exact_format hread prefixFree_within stopsShort_within

end ElementValue

namespace AnnotationUse

theorem prefixFree_within (budget : Bytes) : (readWithin budget).PrefixFree := by
  have helement := ElementValue.prefixFree_element (ElementValue.prefixFree_within budget)
  exact prefixFree_u16.bind fun _ => (prefixFree_number 2).bind fun count =>
    (helement.many count).bind fun _ => .pure _

theorem stopsShort_within (budget budget' : Bytes) (hle : budget.length ≤ budget'.length) :
    StopsShort (readWithin budget) (readWithin budget') := by
  have helement := ElementValue.stopsShort_element
    (ElementValue.stopsShort_within budget budget' hle)
  exact (StopsShort.refl u16.read).bind fun _ => (StopsShort.refl (number 2)).bind
    fun count => (helement.many count).bind fun _ => .refl _

theorem prefixFree_format : AnnotationUse.format.read.PrefixFree := by
  have hread : ∀ bytes, AnnotationUse.format.read bytes = readWithin bytes bytes := fun _ => rfl
  exact prefixFree_of_budget exact_format hread prefixFree_within stopsShort_within

end AnnotationUse

theorem TypeTarget.prefixFree_format : TypeTarget.format.read.PrefixFree := by
  have hrange : LiveRange.format.read.PrefixFree :=
    prefixFree_map _ _
      (prefixFree_seq prefixFree_u16 (prefixFree_seq prefixFree_u16 prefixFree_u16))
  have hranges := prefixFree_list 2 hrange
  have hpair := prefixFree_seq prefixFree_u8 prefixFree_u8
  have hargument := prefixFree_seq prefixFree_u16 prefixFree_u8
  refine prefixFree_byte.bind fun number => ?_
  unfold readOperands
  -- one case for each number, by the layout of its operands
  split
  all_goals first
    | exact prefixFree_u8.map _
    | exact prefixFree_u16.map _
    | exact hpair.map _
    | exact hargument.map _
    | exact hranges.map _
    | exact .pure _
    | exact .throw _

theorem TypeAnnotationUse.prefixFree_format : TypeAnnotationUse.format.read.PrefixFree := by
  have hpath := prefixFree_list 1 (prefixFree_seq prefixFree_u8 prefixFree_u8)
  exact prefixFree_map _ _ (prefixFree_seq TypeTarget.prefixFree_format
    (prefixFree_seq hpath AnnotationUse.prefixFree_format))

theorem Attribute.prefixFree_format : Attribute.format.read.PrefixFree :=
  prefixFree_map _ _ (prefixFree_seq prefixFree_u16 (prefixFree_blob 4))

theorem Handler.prefixFree_format : Handler.format.read.PrefixFree :=
  prefixFree_map _ _ (prefixFree_seq prefixFree_u16 (prefixFree_seq prefixFree_u16
    (prefixFree_seq prefixFree_u16 prefixFree_u16)))

theorem LocalVariable.prefixFree_format : LocalVariable.format.read.PrefixFree :=
  prefixFree_map _ _ (prefixFree_seq prefixFree_u16 (prefixFree_seq prefixFree_u16
    (prefixFree_seq prefixFree_u16 (prefixFree_seq prefixFree_u16 prefixFree_u16))))

theorem Code.prefixFree_format : Code.format.read.PrefixFree := by
  have htables := prefixFree_seq (prefixFree_list 2 Handler.prefixFree_format)
    (prefixFree_list 2 Attribute.prefixFree_format)
  exact prefixFree_map _ _ (prefixFree_seq prefixFree_u16 (prefixFree_seq prefixFree_u16
    (prefixFree_seq (prefixFree_blob 4) htables)))

theorem Bootstrap.prefixFree_format : Bootstrap.format.read.PrefixFree :=
  prefixFree_map _ _ (prefixFree_seq prefixFree_u16 (prefixFree_list 2 prefixFree_u16))

theorem Payload.prefixFree_format (kind : Payload) : kind.format.read.PrefixFree := by
  induction kind with
  | number => exact prefixFree_u16
  | attr => exact Attribute.prefixFree_format
  | code => exact Code.prefixFree_format
  | handler => exact Handler.prefixFree_format
  | localVariable => exact LocalVariable.prefixFree_format
  | bootstrap => exact Bootstrap.prefixFree_format
  | element => exact ElementValue.prefixFree_format
  | annotation => exact AnnotationUse.prefixFree_format
  | parameterAnnotations =>
    exact prefixFree_list 1 (prefixFree_list 2 AnnotationUse.prefixFree_format)
  | typeAnnotation => exact TypeAnnotationUse.prefixFree_format
  | list item ih => exact prefixFree_list 2 ih

theorem Entry.prefixFree_format : Entry.format.read.PrefixFree := by
  have htext : PoolText.format.read.PrefixFree := prefixFree_map _ _ (prefixFree_blob 2)
  have hint : i32.read.PrefixFree := prefixFree_map _ _ prefixFree_u32
  have hlong : i64.read.PrefixFree := prefixFree_map _ _ prefixFree_u64
  have hpair := prefixFree_seq prefixFree_u16 prefixFree_u16
  have hhandle := prefixFree_seq prefixFree_u8 prefixFree_u16
  refine prefixFree_byte.bind fun tag => ?_
  unfold readPayload
  split
  all_goals first
    | exact prefixFree_u16.map _
    | exact hpair.map _
    | exact hhandle.map _
    | exact htext.map _
    | exact hint.map _
    | exact hlong.map _
    | exact prefixFree_u32.map _
    | exact prefixFree_u64.map _
    | exact .throw _

namespace ConstantPool

theorem readSlots_succ (slots : Array Slot) (free : Nat) :
    (readSlots slots (free + 1) : Reader (Array Slot)) = Entry.format.read >>= fun entry =>
      if entry.slots = 2 then
        match free with
        | 0 => throw .poolOverrun
        | free + 1 => readSlots ((slots.push (.entry entry)).push .gap) free
      else readSlots (slots.push (.entry entry)) free := by
  funext bytes
  rw [readSlots]
  cases hentry : Entry.format.read bytes with
  | error fault => rw [bind_of_error hentry]
  | ok result =>
    rw [bind_of_ok hentry]
    dsimp only
    split
    · cases free <;> rfl
    · rfl

theorem prefixFree_readSlots (free : Nat) (slots : Array Slot) :
    PrefixFree (readSlots slots free : Reader (Array Slot)) := by
  induction free using Nat.strongRecOn generalizing slots with
  | ind free ih =>
    cases free with
    | zero => exact .pure slots
    | succ free =>
      rw [readSlots_succ]
      refine Entry.prefixFree_format.bind fun entry => ?_
      split
      · cases free with
        | zero => exact .throw _
        | succ free => exact ih free (by omega) _
      · exact ih free (by omega) _

theorem prefixFree_format : ConstantPool.format.read.PrefixFree := by
  refine prefixFree_u16.bind fun count => ?_
  unfold readCounted
  split
  · exact .throw _
  · exact (prefixFree_readSlots _ #[.gap]).bind fun slots =>
      .pure (ConstantPool.mk slots)

end ConstantPool

theorem Member.prefixFree_format : Member.format.read.PrefixFree :=
  prefixFree_map _ _ (prefixFree_seq (prefixFree_map _ _ prefixFree_u16)
    (prefixFree_seq prefixFree_u16 (prefixFree_seq prefixFree_u16
      (prefixFree_list 2 Attribute.prefixFree_format))))

theorem ClassFile.prefixFree_format : ClassFile.format.read.PrefixFree := by
  have hmagic : magicFormat.read.PrefixFree := by
    refine (prefixFree_take 4).bind fun front => ?_
    split
    · exact .pure ()
    · exact .throw _
  have hindex := prefixFree_u16
  have hflags : AccessFlags.format.read.PrefixFree := prefixFree_map _ _ prefixFree_u16
  have hmembers := prefixFree_list 2 Member.prefixFree_format
  have htail := prefixFree_seq hmembers (prefixFree_seq hmembers
    (prefixFree_list 2 Attribute.prefixFree_format))
  have hheader := prefixFree_seq hflags (prefixFree_seq hindex (prefixFree_seq hindex
    (prefixFree_seq (prefixFree_list 2 hindex) htail)))
  exact prefixFree_map _ _ (prefixFree_seq hmagic (prefixFree_seq hindex (prefixFree_seq hindex
    (prefixFree_seq ConstantPool.prefixFree_format hheader))))

/-- How a run of bytes is refused that is cut off, and how one that goes on. -/
structure AcceptsOnly {α : Type} (accept : Bytes → Except ClassFault α)
    (surplus : Nat → Malformation) (bytes : Bytes) : Prop where
  cut : ∀ short, short <+: bytes → short ≠ bytes → accept short = .error (.read .endOfInput)
  extended : ∀ more, more ≠ [] →
    accept (bytes ++ more) = .error (.malformed (surplus more.length))

theorem Reader.PrefixFree.acceptsOnly {α : Type} {format : Format α}
    (h : format.read.PrefixFree) {surplus : Nat → Malformation} {bytes : Bytes} {value : α}
    (haccept : format.readAll surplus bytes = .ok value) :
    AcceptsOnly (format.readAll surplus) surplus bytes := by
  obtain ⟨front, hbytes, hfront⟩ := h (readAll_eq_ok.mp haccept)
  rw [List.append_nil] at hbytes
  subst hbytes
  refine ⟨fun short hshort hne => ?_, fun more hmore => ?_⟩
  · obtain ⟨lost, hlost⟩ := hshort
    have hnil : lost ≠ [] := by
      intro hnil
      exact hne (by simpa [hnil] using hlost)
    simp [readAll, hfront.cut short lost hnil hlost.symm]
  · cases more with
    | nil => exact absurd rfl hmore
    | cons byte more => simp [readAll, hfront.extended]

/-- A class file or a payload that is accepted is refused when it is cut off anywhere, because its
bytes end, and when anything follows it, because bytes are left over. The messages say so, and of a
payload how many bytes are left. -/
theorem acceptsOnly_of_accepted :
    (∀ bytes file, ClassFile.ofBytes bytes = .ok file →
        AcceptsOnly ClassFile.ofBytes (fun _ => .trailingClassBytes) bytes) ∧
      (∀ (kind : Payload) info value, kind.format.decode info = .ok value →
        AcceptsOnly kind.format.decode .trailingBytes info) ∧
      (ClassFault.read .endOfInput).message = "IO error: failed to fill whole buffer" ∧
      (ClassFault.malformed .trailingClassBytes).message =
        "Malformed class file: Trailing bytes after the class file" ∧
      ∀ count, (ClassFault.malformed (.trailingBytes count)).message =
        s!"Malformed class file: {count} trailing bytes in attribute" := by
  refine ⟨fun _ _ => ClassFile.prefixFree_format.acceptsOnly,
    fun kind _ _ => kind.prefixFree_format.acceptsOnly, rfl, rfl, fun count => ?_⟩
  exact String.append_assoc.symm

section Nested
open Payload

/-- The bytes of a class file whose pool holds one text. -/
def letterBytes : Bytes := ClassFile.withTexts [[0x41]]

theorem acceptsOnly_of_nested :
    (∃ file, ClassFile.ofBytes letterBytes = .ok file) ∧
      ClassFile.ofBytes letterBytes.dropLast = .error (.read .endOfInput) ∧
      ClassFile.ofBytes (letterBytes ++ [0]) = .error (.malformed .trailingClassBytes) ∧
      (Payload.list typeAnnotation).format.decode nestedInfo = .ok [nestedUse] ∧
      (Payload.list typeAnnotation).format.decode nestedInfo.dropLast =
        .error (.read .endOfInput) ∧
      (Payload.list typeAnnotation).format.decode (nestedInfo ++ [0, 0]) =
        .error (.malformed (.trailingBytes 2)) := by
  obtain ⟨hfiles, hpayloads, -⟩ := acceptsOnly_of_accepted
  obtain ⟨file, hfile⟩ : ∃ file, ClassFile.ofBytes letterBytes = .ok file := ⟨_, rfl⟩
  have hpayload : (Payload.list typeAnnotation).format.decode nestedInfo = .ok [nestedUse] := by
    rfl
  have honly := hfiles letterBytes file hfile
  have honly' := hpayloads (.list typeAnnotation) nestedInfo _ hpayload
  exact ⟨⟨file, hfile⟩, honly.cut _ (List.dropLast_prefix _) (by decide),
    honly.extended [0] (by decide), hpayload,
    honly'.cut _ (List.dropLast_prefix _) (by decide), honly'.extended [0, 0] (by decide)⟩

end Nested

end StaticCompanion
