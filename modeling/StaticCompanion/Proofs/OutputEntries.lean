import StaticCompanion.Proofs.MappedMembers
import StaticCompanion.Proofs.Origins
import StaticCompanion.Proofs.Reading

/-!
# The entries of the output

Every entry of the input adds a row of its own behind what is there: a copy of itself, or the final
forms of the class that it holds and of the companion of that class, as far as they are wanted.
Nothing is taken away again, so the output is these rows in the order of the input.
-/
namespace StaticCompanion

theorem ArchiveEntry.Holds.unique {entry : ArchiveEntry} {file file' : ClassFile}
    (h : entry.Holds file) (h' : entry.Holds file') : file = file' := by
  obtain ⟨-, -, data, hdata, hfile⟩ := h
  obtain ⟨-, -, data', hdata', hfile'⟩ := h'
  obtain rfl := Except.ok.inj (hdata.symm.trans hdata')
  exact Except.ok.inj (hfile.symm.trans hfile')

theorem ClassFile.pool_of_holds {entry : ArchiveEntry} {file : ClassFile} (h : entry.Holds file) :
    ConstantPool.empty ≤ file.pool ∧ file.pool.Fits := by
  obtain ⟨-, -, data, -, hread⟩ := h
  exact ⟨ClassFile.empty_le_of_ofBytes hread, ClassFile.fits_of_ofBytes hread⟩

theorem Companion.companionOf_of_holds {entry : ArchiveEntry} {file companion : ClassFile}
    {analysis : Analysis} {owner : String} (hholds : entry.Holds file)
    (howner : file.name = .ok owner) (hcompanion : file.companion analysis = .ok (some companion)) :
    CompanionOf analysis file owner companion := by
  obtain ⟨owner', hof⟩ := companionOf_of_companion (ClassFile.pool_of_holds hholds).2 hcompanion
  rwa [Except.ok.inj (howner.symm.trans hof.ofBase)]

namespace Output
variable {options : Options} {analysis : Analysis} {selected : NameSet} {entry : ArchiveEntry}
  {item : NamedData} {items written written' : List NamedData} {name owner : String}
  {data : Bytes} {file companion : ClassFile}

/-- The data are the final form of the class. -/
def IsFinal (options : Options) (analysis : Analysis) (before after : ClassFile) (data : Bytes) :
    Prop :=
  before.adapt options analysis = .ok after ∧ after.toBytes = .ok data

/-- An entry of the output is made of this class, which the entry of the input holds or which is the
companion of the class that it holds. -/
inductive MadeFrom (options : Options) (analysis : Analysis) (selected : NameSet)
    (entry : ArchiveEntry) (item : NamedData) (before after : ClassFile) : Prop
  | own (hholds : entry.Holds before) (hselected : entry.name ∈ selected)
      (hname : item.name = entry.name) (hfinal : IsFinal options analysis before after item.data)
  | companion {file : ClassFile} {owner : String} (hholds : entry.Holds file)
      (hcompanion : file.companion analysis = .ok (some before)) (howner : before.name = .ok owner)
      (hname : item.name = owner ++ classSuffix)
      (hfinal : IsFinal options analysis before after item.data)

def CopyOf (entry : ArchiveEntry) (item : NamedData) : Prop :=
  item.name = entry.name ∧ entry.data = .ok item.data

/-- The item has this name and is the final form of the class. -/
def IsAdapted (options : Options) (analysis : Analysis) (name : String) (file : ClassFile)
    (item : NamedData) : Prop :=
  item.name = name ∧ ∃ after, IsFinal options analysis file after item.data

/-- A class itself is adapted if its entry is selected, and else copied or dropped. -/
inductive OwnRow (options : Options) (analysis : Analysis) (selected : NameSet)
    (entry : ArchiveEntry) (file : ClassFile) : List NamedData → Prop
  | adapted {item : NamedData} (hselected : entry.name ∈ selected)
      (hitem : IsAdapted options analysis entry.name file item) :
      OwnRow options analysis selected entry file [item]
  | copied {item : NamedData} (hother : entry.name ∉ selected)
      (hcopied : options.unselected = .copied) (hitem : CopyOf entry item) :
      OwnRow options analysis selected entry file [item]
  | dropped (hother : entry.name ∉ selected) (hdropped : options.unselected = .dropped) :
      OwnRow options analysis selected entry file []

/-- The companion of a class is wanted if the class is selected or if its own name is. -/
def WantsCompanion (options : Options) (selected : NameSet) (entry : ArchiveEntry)
    (owner : String) : Prop :=
  entry.name ∈ selected ∨ ∃ pattern ∈ options.patterns,
    (Pattern.ofText pattern).selects (companionName owner ++ classSuffix) = true

/-- A class that declares a mapped member has a companion, which is adapted if it is wanted. -/
inductive CompanionRow (options : Options) (analysis : Analysis) (selected : NameSet)
    (entry : ArchiveEntry) (file : ClassFile) (owner : String) : List NamedData → Prop
  | none (hunmapped : ¬ file.HasMapped analysis owner)
      (hcompanion : file.companion analysis = .ok none) :
      CompanionRow options analysis selected entry file owner []
  | adapted {companion : ClassFile} {item : NamedData} (hmapped : file.HasMapped analysis owner)
      (hcompanion : file.companion analysis = .ok (some companion))
      (hwanted : WantsCompanion options selected entry owner)
      (hitem : IsAdapted options analysis (companionName owner ++ classSuffix) companion item) :
      CompanionRow options analysis selected entry file owner [item]
  | left (hmapped : file.HasMapped analysis owner)
      (hunwanted : ¬ WantsCompanion options selected entry owner) :
      CompanionRow options analysis selected entry file owner []

/-- What an entry of the input adds to the output. -/
inductive Row (options : Options) (analysis : Analysis) (selected : NameSet)
    (entry : ArchiveEntry) : List NamedData → Prop
  | directory (hdirectory : entry.isDirectory = true) : Row options analysis selected entry []
  | other {item : NamedData} (hplain : entry.isDirectory = false)
      (hother : isClassEntry entry.name = false) (hitem : CopyOf entry item) :
      Row options analysis selected entry [item]
  | class {file : ClassFile} {owner : String} {own companion : List NamedData}
      (hholds : entry.Holds file) (howner : file.name = .ok owner)
      (hown : OwnRow options analysis selected entry file own)
      (hcompanion : CompanionRow options analysis selected entry file owner companion) :
      Row options analysis selected entry (own ++ companion)

section Putting

theorem put_eq_ok (h : put name data written = .ok ((), written')) :
    written' = written ++ [⟨name, data⟩] := by
  change (((liftM (addNamed written ⟨name, data⟩) : Except RunFault _) >>= fun written =>
    pure ((), written)) = .ok ((), written')) at h
  simp only [except_bind_eq_ok, lift_archive_eq_ok, except_pure_eq_ok, Prod.mk.injEq, true_and] at h
  obtain ⟨_, hadd, rfl⟩ := h
  unfold addNamed at hadd
  split at hadd
  · cases hadd
  · exact (Except.ok.inj hadd).symm

theorem putAdapted_eq_ok (h : putAdapted options analysis name file written = .ok ((), written')) :
    ∃ item, written' = written ++ [item] ∧ IsAdapted options analysis name file item := by
  obtain ⟨after, _, hfirst, h⟩ := stateT_bind_eq_ok.mp h
  obtain ⟨hadapt, rfl⟩ := stateT_lift_eq_ok.mp hfirst
  obtain ⟨data, _, hsecond, h⟩ := stateT_bind_eq_ok.mp h
  obtain ⟨hdata, rfl⟩ := stateT_lift_eq_ok.mp hsecond
  simp only [lift_relocation_run_eq_ok, lift_write_eq_ok] at hadapt hdata
  exact ⟨⟨name, data⟩, put_eq_ok h, rfl, after, hadapt, hdata⟩

theorem ownRow_of_putClass (hdata : entry.data = .ok data)
    (h : putClass options analysis (selected.contains entry.name) entry.name data file written =
      .ok ((), written')) :
    ∃ items, written' = written ++ items ∧ OwnRow options analysis selected entry file items := by
  unfold putClass at h
  by_cases hselected : entry.name ∈ selected
  · rw [if_pos (Std.ExtTreeSet.contains_iff_mem.mpr hselected)] at h
    obtain ⟨item, hwritten, hitem⟩ := putAdapted_eq_ok h
    exact ⟨[item], hwritten, .adapted hselected hitem⟩
  rw [if_neg (mt Std.ExtTreeSet.contains_iff_mem.mp hselected)] at h
  cases hunselected : options.unselected with
  | copied =>
    rw [if_pos hunselected] at h
    exact ⟨[⟨entry.name, data⟩], put_eq_ok h, .copied hselected hunselected ⟨rfl, hdata⟩⟩
  | dropped =>
    rw [if_neg (by simp [hunselected])] at h
    obtain ⟨-, rfl⟩ := stateT_pure_eq_ok.mp h
    exact ⟨[], (List.append_nil _).symm, .dropped hselected hunselected⟩

theorem companionRow_of_putCompanion (hmapped : file.HasMapped analysis owner)
    (hcompanion : file.companion analysis = .ok (some companion))
    (hname : companion.name = .ok (companionName owner))
    (h : putCompanion options analysis (selected.contains entry.name) companion written =
      .ok ((), written')) :
    ∃ items, written' = written ++ items ∧
      CompanionRow options analysis selected entry file owner items := by
  obtain ⟨found, _, hfirst, h⟩ := stateT_bind_eq_ok.mp h
  obtain ⟨hfound, rfl⟩ := stateT_lift_eq_ok.mp hfirst
  simp only [lift_relocation_run_eq_ok, lift_class_eq_ok] at hfound
  obtain rfl := Except.ok.inj (hname.symm.trans hfound)
  have hwants : (selected.contains entry.name || options.patterns.any fun pattern =>
      (Pattern.ofText pattern).selects (companionName owner ++ classSuffix)) = true ↔
        WantsCompanion options selected entry owner := by
    simp [WantsCompanion]
  by_cases hwanted : WantsCompanion options selected entry owner
  · rw [if_pos (hwants.mpr hwanted)] at h
    obtain ⟨item, hwritten, hitem⟩ := putAdapted_eq_ok h
    exact ⟨[item], hwritten, .adapted hmapped hcompanion hwanted hitem⟩
  · rw [if_neg (mt hwants.mp hwanted)] at h
    obtain ⟨-, rfl⟩ := stateT_pure_eq_ok.mp h
    exact ⟨[], (List.append_nil _).symm, .left hmapped hwanted⟩

theorem row_of_putEntry
    (h : putEntry options analysis selected entry written = .ok ((), written')) :
    ∃ items, written' = written ++ items ∧ Row options analysis selected entry items := by
  obtain ⟨data, _, hfirst, h⟩ := stateT_bind_eq_ok.mp h
  obtain ⟨hdata, rfl⟩ := stateT_lift_eq_ok.mp hfirst
  rw [lift_archive_eq_ok] at hdata
  split at h
  · rename_i hdirectory
    obtain ⟨-, rfl⟩ := stateT_pure_eq_ok.mp h
    exact ⟨[], (List.append_nil _).symm, .directory hdirectory⟩
  rename_i hplain
  dsimp only at h
  split at h
  · rename_i hother
    obtain ⟨_, _, hput, h⟩ := stateT_bind_eq_ok.mp h
    obtain ⟨-, rfl⟩ := stateT_pure_eq_ok.mp h
    exact ⟨[⟨entry.name, data⟩], put_eq_ok hput,
      .other (by simpa using hplain) (by simpa using hother) ⟨rfl, hdata⟩⟩
  rename_i hclass
  -- Every other entry holds a class.
  obtain ⟨file, _, hsecond, h⟩ := stateT_bind_eq_ok.mp h
  obtain ⟨hfile, rfl⟩ := stateT_lift_eq_ok.mp hsecond
  obtain ⟨found, _, hthird, h⟩ := stateT_bind_eq_ok.mp h
  obtain ⟨hfound, rfl⟩ := stateT_lift_eq_ok.mp hthird
  obtain ⟨_, written₁, hput, h⟩ := stateT_bind_eq_ok.mp h
  simp only [lift_relocation_run_eq_ok, lift_class_eq_ok] at hfile hfound
  have hholds : entry.Holds file :=
    ⟨by simpa using hplain, by simpa using hclass, data, hdata, hfile⟩
  obtain ⟨own, rfl, hown⟩ := ownRow_of_putClass hdata hput
  obtain ⟨owner, howner, hmapped⟩ := Companion.hasMapped_iff_of_companion hfound
  cases found with
  | none =>
    obtain ⟨-, rfl⟩ := stateT_pure_eq_ok.mp h
    have hunmapped : ¬ file.HasMapped analysis owner := by simpa using hmapped
    refine ⟨own, rfl, ?_⟩
    rw [← List.append_nil own]
    exact .class hholds howner hown (.none hunmapped hfound)
  | some companion =>
    have hof := Companion.companionOf_of_holds hholds howner hfound
    obtain ⟨more, rfl, hmore⟩ :=
      companionRow_of_putCompanion (hmapped.mpr rfl) hfound hof.named h
    exact ⟨own ++ more, List.append_assoc .., .class hholds howner hown hmore⟩

theorem rows_of_forM {entries : List ArchiveEntry}
    (h : entries.forM (putEntry options analysis selected) written = .ok ((), written')) :
    ∃ rows, List.Forall₂ (Row options analysis selected) entries rows ∧
      written' = written ++ rows.flatten := by
  induction entries generalizing written with
  | nil =>
    obtain ⟨-, rfl⟩ := stateT_pure_eq_ok.mp h
    exact ⟨[], .nil, (List.append_nil _).symm⟩
  | cons entry entries ih =>
    obtain ⟨_, written₁, hfirst, hrest⟩ := stateT_bind_eq_ok.mp h
    obtain ⟨row, rfl, hrow⟩ := row_of_putEntry hfirst
    obtain ⟨rows, hrows, rfl⟩ := ih hrest
    refine ⟨row :: rows, .cons hrow hrows, ?_⟩
    rw [List.flatten_cons, List.append_assoc]

end Putting

section Rows

theorem OwnRow.made (hholds : entry.Holds file)
    (h : OwnRow options analysis selected entry file items) (hitem : item ∈ items) :
    CopyOf entry item ∨
      ∃ before after, MadeFrom options analysis selected entry item before after := by
  cases h with
  | adapted hselected hadapted =>
    obtain rfl := List.mem_singleton.mp hitem
    obtain ⟨hname, after, hfinal⟩ := hadapted
    exact .inr ⟨file, after, .own hholds hselected hname hfinal⟩
  | copied _ _ hcopy =>
    obtain rfl := List.mem_singleton.mp hitem
    exact .inl hcopy
  | dropped _ _ => cases hitem

theorem CompanionRow.made (hholds : entry.Holds file) (howner : file.name = .ok owner)
    (h : CompanionRow options analysis selected entry file owner items) (hitem : item ∈ items) :
    ∃ before after, MadeFrom options analysis selected entry item before after := by
  cases h with
  | none _ _ => cases hitem
  | @adapted companion _ _ hcompanion _ hadapted =>
    obtain rfl := List.mem_singleton.mp hitem
    obtain ⟨hname, after, hfinal⟩ := hadapted
    have hof := Companion.companionOf_of_holds hholds howner hcompanion
    exact ⟨companion, after, .companion hholds hcompanion hof.named hname hfinal⟩
  | left _ _ => cases hitem

theorem Row.made (h : Row options analysis selected entry items) (hitem : item ∈ items) :
    CopyOf entry item ∨
      ∃ before after, MadeFrom options analysis selected entry item before after := by
  cases h with
  | directory _ => cases hitem
  | other _ _ hcopy =>
    obtain rfl := List.mem_singleton.mp hitem
    exact .inl hcopy
  | «class» hholds howner hown hcompanion =>
    rcases List.mem_append.mp hitem with hitem | hitem
    · exact hown.made hholds hitem
    · exact .inr (hcompanion.made hholds howner hitem)

theorem Row.companion_of_wanted (h : Row options analysis selected entry items)
    (hholds : entry.Holds file) (howner : file.name = .ok owner) (hmapped : file.HasMapped analysis owner)
    (hwanted : WantsCompanion options selected entry owner) :
    ∃ companion, file.companion analysis = .ok (some companion) ∧ ∃ item ∈ items,
      IsAdapted options analysis (companionName owner ++ classSuffix) companion item := by
  cases h with
  | directory hdirectory => cases hdirectory.symm.trans hholds.1
  | other _ hother _ => cases hother.symm.trans hholds.2.1
  | «class» hholds' howner' _ hcompanion =>
    obtain rfl := hholds.unique hholds'
    obtain rfl := Except.ok.inj (howner.symm.trans howner')
    cases hcompanion with
    | none hunmapped _ => exact absurd hmapped hunmapped
    | adapted _ hcompanion _ hitem =>
      exact ⟨_, hcompanion, _, List.mem_append_right _ List.mem_cons_self, hitem⟩
    | left _ hunwanted => exact absurd hwanted hunwanted

end Rows

section Whole
variable {archive : Archive} {output : List NamedData}
  (h : outputEntries options analysis selected archive = .ok output)
include h

/-- The output is made of the rows of the entries, in the order of the input. -/
theorem rows_of_outputEntries : ∃ rows, List.Forall₂ (Row options analysis selected) archive rows ∧
    output = rows.flatten := by
  unfold outputEntries at h
  simp only [except_bind_eq_ok, except_pure_eq_ok, Prod.exists] at h
  obtain ⟨_, written, hrun, rfl⟩ := h
  exact rows_of_forM hrun

theorem made_of_mem_output (hitem : item ∈ output) :
    ∃ entry ∈ archive, CopyOf entry item ∨
      ∃ before after, MadeFrom options analysis selected entry item before after := by
  obtain ⟨rows, hrows, rfl⟩ := rows_of_outputEntries h
  obtain ⟨row, hrow, hitem⟩ := List.mem_flatten.mp hitem
  obtain ⟨entry, hentry, hrow⟩ := forall₂_mem_right hrows hrow
  exact ⟨entry, hentry, hrow.made hitem⟩

theorem row_of_mem_archive (hentry : entry ∈ archive) :
    ∃ row, Row options analysis selected entry row ∧ ∀ item ∈ row, item ∈ output := by
  obtain ⟨rows, hrows, rfl⟩ := rows_of_outputEntries h
  obtain ⟨row, hmem, hrow⟩ := forall₂_mem_left hrows hentry
  exact ⟨row, hrow, fun item hitem => List.mem_flatten.mpr ⟨row, hmem, hitem⟩⟩

end Whole

end Output

end StaticCompanion
