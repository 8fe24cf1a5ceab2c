import StaticCompanion.Proofs.ClosedWorld
import StaticCompanion.Proofs.Passes
import StaticCompanion.Proofs.SettledTypes

/-!
# Names of class entries

An entry of the output gets its name before its class is adapted, and replacing types may rename
the class. So in an archive whose entries are named after their classes, the entries of the output
are named after the classes that were adapted: they are found under the names of the classes that
they declare, unless such a name is replaced itself.
-/
namespace StaticCompanion

/-- The data spell a class of this name. -/
def NamedData.Declares (item : NamedData) (name : String) : Prop :=
  ∃ file, ClassFile.ofBytes item.data = .ok file ∧ file.name = .ok name

/-- The item is named after the class that its data spell. -/
def NamedData.NamedAfterClass (item : NamedData) : Prop :=
  ∃ name, item.Declares name ∧ item.name = name ++ classSuffix

section Names
variable {options : Options} {analysis : Analysis} {selected : NameSet} {archive : Archive}
  {entry : ArchiveEntry} {item : NamedData} {items : List NamedData} {before after : ClassFile}
  {name declared : String} {data : Bytes}

theorem Renaming.classImage_eq_self_iff (hplain : name.toList.head? ≠ some '[') :
    Renaming.classImage analysis.replacementType name = name ↔
      analysis.replacementType name = none := by
  have himage : Renaming.classImage analysis.replacementType name =
      Renaming.apply analysis.replacementType name := by
    unfold Renaming.classImage
    split
    · rename_i element helement
      exact absurd ((TypeSubstitution.head?_of_field helement).2.mpr ⟨element, rfl⟩) hplain
    · rfl
  rw [himage, Renaming.apply]
  cases hname : analysis.replacementType name with
  | none => simp
  | some new =>
    have hfinal := Analysis.replacementType_final hname
    simp only [Option.getD_some, reduceCtorEq, iff_false]
    intro hsame
    rw [hsame, hname] at hfinal
    cases hfinal

theorem ClassFile.name_of_adapt (hfits : before.pool.Fits) (hname : before.name = .ok name)
    (h : before.adapt options analysis = .ok after) :
    after.name = .ok (Renaming.classImage analysis.replacementType name) := by
  obtain ⟨filtered, turned, hfiltered, hpool, hturned, hreplaced⟩ :=
    ClassFile.stages_of_adapt hfits h
  have hparts := (ClassFile.renamedParts_of_replaceTypes hturned.fits hreplaced).1
  have hthis := (Omission.omittedClass_of_omitAnnotations hfiltered).thisClass
  rw [ClassFile.name, mapError_eq_ok] at hname ⊢
  rw [hparts.thisClass, hturned.thisClass, hthis]
  exact hparts.className (ConstantPool.className_of_le hturned.grows (hpool ▸ hname))

theorem NamedData.declares_of_isFinal (hpool : ConstantPool.empty ≤ before.pool)
    (hfits : before.pool.Fits) (hname : before.name = .ok name)
    (h : Output.IsFinal options analysis before after item.data) :
    item.Declares (Renaming.classImage analysis.replacementType name) :=
  ⟨after, ClassFile.ofBytes_of_adapt hpool hfits h.1 h.2, ClassFile.name_of_adapt hfits hname h.1⟩

theorem NamedData.Declares.unique (h : item.Declares name) (h' : item.Declares declared) :
    name = declared := by
  obtain ⟨file, hfile, hname⟩ := h
  obtain ⟨file', hfile', hname'⟩ := h'
  obtain rfl := Except.ok.inj (hfile.symm.trans hfile')
  exact Except.ok.inj (hname.symm.trans hname')

theorem NamedData.namedAfterClass_iff (hname : item.name = name ++ classSuffix)
    (hdeclares : item.Declares declared) : item.NamedAfterClass ↔ declared = name := by
  constructor
  · rintro ⟨other, hother, hnamed⟩
    rw [hdeclares.unique hother]
    exact (String.append_left_inj classSuffix).mp (hnamed.symm.trans hname)
  · rintro rfl
    exact ⟨declared, hdeclares, hname⟩

namespace Output

/-- The item is a copy and declares this class, or it is made of the class of this name and declares
what the name is replaced by. -/
def NamesItem (options : Options) (analysis : Analysis) (selected : NameSet) (entry : ArchiveEntry)
    (item : NamedData) (name : String) : Prop :=
  CopyOf entry item ∧ item.Declares name ∨ ∃ before after,
    MadeFrom options analysis selected entry item before after ∧ before.name = .ok name ∧
      item.Declares (Renaming.classImage analysis.replacementType name)

theorem OwnRow.named (hholds : entry.Holds before) (howner : before.name = .ok name)
    (h : OwnRow options analysis selected entry before items) (hitem : item ∈ items) :
    item.name = entry.name ∧ NamesItem options analysis selected entry item name := by
  cases h with
  | adapted hselected hadapted =>
    obtain rfl := List.mem_singleton.mp hitem
    obtain ⟨hpool, hfits⟩ := ClassFile.pool_of_holds hholds
    obtain ⟨hname, after, hfinal⟩ := hadapted
    exact ⟨hname, .inr ⟨before, after, .own hholds hselected hname hfinal, howner,
      NamedData.declares_of_isFinal hpool hfits howner hfinal⟩⟩
  | copied _ _ hcopy =>
    obtain rfl := List.mem_singleton.mp hitem
    obtain ⟨-, -, data, hdata, hfile⟩ := hholds
    obtain rfl := Except.ok.inj (hcopy.2.symm.trans hdata)
    exact ⟨hcopy.1, .inl ⟨hcopy, before, hfile, howner⟩⟩
  | dropped _ _ => cases hitem

theorem CompanionRow.named {owner : String} (hholds : entry.Holds before)
    (howner : before.name = .ok owner)
    (h : CompanionRow options analysis selected entry before owner items) (hitem : item ∈ items) :
    item.name = companionName owner ++ classSuffix ∧
      NamesItem options analysis selected entry item (companionName owner) := by
  cases h with
  | none _ _ => cases hitem
  | @adapted companion _ _ hcompanion _ hadapted =>
    obtain rfl := List.mem_singleton.mp hitem
    obtain ⟨hname, after, hfinal⟩ := hadapted
    have hof := Companion.companionOf_of_holds hholds howner hcompanion
    have hpool := ConstantPool.le_trans (ClassFile.pool_of_holds hholds).1 hof.grows
    exact ⟨hname, .inr ⟨companion, after,
      .companion hholds hcompanion hof.named hname hfinal, hof.named,
      NamedData.declares_of_isFinal hpool hof.fits hof.named hfinal⟩⟩
  | left _ _ => cases hitem

theorem Row.named (h : Row options analysis selected entry items)
    (hnamed : ∀ file name, entry.Holds file → file.name = .ok name →
      entry.name = name ++ classSuffix) (hitem : item ∈ items)
    (hclass : isClassEntry item.name = true) : ∃ name, item.name = name ++ classSuffix ∧
      NamesItem options analysis selected entry item name := by
  cases h with
  | directory _ => cases hitem
  | other _ hother hcopy =>
    obtain rfl := List.mem_singleton.mp hitem
    rw [hcopy.1, hother] at hclass
    cases hclass
  | @«class» file owner own companion hholds howner hown hcompanion =>
    rcases List.mem_append.mp hitem with hitem | hitem
    · obtain ⟨hname, hnames⟩ := hown.named hholds howner hitem
      exact ⟨owner, hname.trans (hnamed file owner hholds howner), hnames⟩
    · exact ⟨companionName owner, hcompanion.named hholds howner hitem⟩

end Output

end Names

/-- In the output for an archive whose entries are named after their classes, each class entry that
is copied is named after its class, and each one that is adapted is named after the class as it was.
So an adapted class is found under its name exactly if its name was not replaced. -/
theorem Job.run_namesClasses {job : Job} {archive : Archive} {selected : NameSet}
    {session : Session} {output : List NamedData} (harchive : job.input = .ok archive)
    (hnamed : archive.NamedAfterClasses) (hselected : job.selection archive = .ok selected)
    (hrun : job.run = .ok session) (houtput : session.output = some output) {item : NamedData}
    (hitem : item ∈ output) (hclass : isClassEntry item.name = true) :
    session.analysis.types = job.options.types ∧ ∃ entry ∈ archive, ∃ name,
      item.name = name ++ classSuffix ∧
      (Output.CopyOf entry item ∧ item.NamedAfterClass ∨ ∃ before after,
        Output.MadeFrom job.options session.analysis selected entry item before after ∧
          before.name = .ok name ∧
          item.Declares (Renaming.classImage session.analysis.replacementType name) ∧
          (name.toList.head? ≠ some '[' →
            (item.NamedAfterClass ↔ session.analysis.replacementType name = none))) := by
  obtain ⟨archive', selected', analysis, output', harchive', hselected', hanalysis, hwritten,
    rfl⟩ := Job.run_eq_ok.mp hrun
  obtain rfl := Except.ok.inj (harchive.symm.trans harchive')
  obtain rfl := Except.ok.inj (hselected.symm.trans hselected')
  obtain rfl := Option.some.inj houtput
  obtain ⟨rows, hrows, rfl⟩ := Output.rows_of_outputEntries hwritten
  obtain ⟨row, hmem, hitem⟩ := List.mem_flatten.mp hitem
  obtain ⟨entry, hentry, hrow⟩ := forall₂_mem_right hrows hmem
  refine ⟨(Job.foundIn_of_analysis hanalysis).2, entry, hentry, ?_⟩
  obtain ⟨name, hname, hdeclares⟩ := hrow.named (hnamed entry hentry) hitem hclass
  refine ⟨name, hname, hdeclares.imp ?_ ?_⟩
  · rintro ⟨hcopy, hown⟩
    exact ⟨hcopy, name, hown, hname⟩
  · rintro ⟨before, after, hmade, hbefore, himage⟩
    refine ⟨before, after, hmade, hbefore, himage, ?_⟩
    intro hplain
    rw [NamedData.namedAfterClass_iff hname himage, Renaming.classImage_eq_self_iff hplain]

theorem NamedData.declares_iff {item : NamedData} {name : String} :
    item.Declares name ↔ item.className? = some name := by
  simp [Declares, className?, Option.bind_eq_some_iff]

/-- A run that replaces one of two classes, and its companion. -/
def replacedJob : Job where
  input := .ok callerArchive
  options := { (callerJob "p/*").options with
    types := (∅ : NameMap).insert "p/A" "p/C" |>.insert "p/DesugarA" "p/DesugarC" }

/-- The names of the entries that such a run writes, with the classes that they declare. -/
def replacedNames : List (String × Option String) :=
  [("p/A.class", some "p/C"), ("p/DesugarA.class", some "p/DesugarC"), ("p/B.class", some "p/B"),
    ("p/DesugarB.class", some "p/DesugarB")]

theorem exists_item_of_replacedNames (name declared : String)
    (hmem : (name, some declared) ∈ replacedNames) : ∃ session output item,
      replacedJob.run = .ok session ∧ session.output = some output ∧ item ∈ output ∧
        item.name = name ∧ item.Declares declared := by
  have hrun : (replacedJob.run.toOption.bind Session.output).map
      (·.map fun item => (item.name, item.className?)) = some replacedNames := by
    decide +kernel
  obtain ⟨output, houtput, hnames⟩ := Option.map_eq_some_iff.mp hrun
  obtain ⟨session, hsession, houtput⟩ := Option.bind_eq_some_iff.mp houtput
  rw [← hnames] at hmem
  obtain ⟨item, hitem, hsame⟩ := List.mem_map.mp hmem
  obtain ⟨hname, hdeclares⟩ := Prod.mk.inj hsame
  exact ⟨session, output, item, toOption_eq_some.mp hsession, houtput, hitem, hname,
    NamedData.declares_iff.mpr hdeclares⟩

/-- The class that is not replaced is named after itself. -/
theorem Job.run_namesClasses_of_replaced : ∃ session output item,
    replacedJob.run = .ok session ∧ session.output = some output ∧ item ∈ output ∧
      item.name = "p/B.class" ∧ item.NamedAfterClass := by
  obtain ⟨session, output, item, hrun, houtput, hitem, hname, -⟩ :=
    exists_item_of_replacedNames "p/B.class" "p/B" (by decide)
  refine ⟨session, output, item, hrun, houtput, hitem, hname, ?_⟩
  obtain ⟨_, selected, _, _, harchive, hselected, -⟩ := Job.run_eq_ok.mp hrun
  obtain rfl := Except.ok.inj harchive
  obtain ⟨htypes, entry, -, name, hnamed, hcase⟩ := Job.run_namesClasses rfl
    namedAfterClasses_callerArchive hselected hrun houtput hitem (by rw [hname]; decide)
  obtain rfl : name = "p/B" := (String.append_left_inj classSuffix).mp (hnamed.symm.trans hname)
  rcases hcase with ⟨-, hcopied⟩ | ⟨_, _, -, -, -, hmade⟩
  · exact hcopied
  · refine (hmade (by decide)).mpr ?_
    rw [Analysis.replacementType, htypes]
    decide

/-- The class that is replaced is still found under its old name. -/
theorem Job.run_misnames_replaced :
    callerArchive.NamedAfterClasses ∧ replacedJob.input = .ok callerArchive ∧
      ∃ session output item, replacedJob.run = .ok session ∧ session.output = some output ∧
        item ∈ output ∧ isClassEntry item.name = true ∧ item.name = "p/A.class" ∧
        item.Declares "p/C" ∧ ¬ item.NamedAfterClass := by
  obtain ⟨session, output, item, hrun, houtput, hitem, hname, hdeclares⟩ :=
    exists_item_of_replacedNames "p/A.class" "p/C" (by decide)
  refine ⟨namedAfterClasses_callerArchive, rfl, session, output, item, hrun, houtput, hitem,
    by rw [hname]; decide, hname, hdeclares, ?_⟩
  have hown : item.name = "p/A" ++ classSuffix := hname
  rw [NamedData.namedAfterClass_iff hown hdeclares]
  decide

end StaticCompanion
