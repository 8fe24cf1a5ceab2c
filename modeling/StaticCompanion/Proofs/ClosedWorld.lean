import StaticCompanion.Proofs.OutputEntries
import StaticCompanion.Proofs.Redirects

/-!
# The output is closed

Wherever a class of the output was made to use a moved member, the companion that offers this member
is in the output as well, as far as companions of its class are written at all. A companion is
written if its class is selected or if its own name is.
-/
namespace StaticCompanion

/-- The class entries of the archive are named after the classes that they hold. -/
def Archive.NamedAfterClasses (archive : Archive) : Prop :=
  ∀ entry ∈ archive, ∀ file name, entry.Holds file → file.name = .ok name →
    entry.name = name ++ classSuffix

/-- Companions of this class are written: the class is selected, or its companion is. -/
def Options.TakesCompanion (options : Options) (selected : NameSet) (owner : String) : Prop :=
  owner ++ classSuffix ∈ selected ∨ ∃ pattern ∈ options.patterns,
    (Pattern.ofText pattern).selects (companionName owner ++ classSuffix) = true

/-- The output has a class of this name, and the class is as stated. -/
def Output.HasClass (output : List NamedData) (name : String) (P : ClassFile → Prop) : Prop :=
  ∃ item ∈ output, item.name = name ++ classSuffix ∧
    ∃ file, ClassFile.ofBytes item.data = .ok file ∧ P file

namespace Companion
variable {analysis : Analysis} {base companion : ClassFile} {owner : String} {member : Member}
  {key value : MemberKey}

theorem CompanionOf.offersField (h : CompanionOf analysis base owner companion)
    (hvalue : analysis.fields[key]? = some value) (horigin : base.FieldOrigin owner key value) :
    companion.OffersField value := by
  obtain ⟨⟨field, hmem, hkey, hstatic⟩, rfl⟩ := horigin
  obtain ⟨moving, hmoving, hcopies⟩ := h.fields
  have hmoves : (field, key.movedField) ∈ moving := by
    refine (mem_of_filterMapM hmoving).mpr ⟨field, hmem, ?_⟩
    simp [movingField?, hkey, hvalue]
  obtain ⟨copy, hcopy, hcopied⟩ := forall₂_mem_left hcopies hmoves
  have hname : key.movedField.owner = companionName owner := by
    rw [MemberKey.movedField, (Member.keyIn_eq_ok.mp hkey).1]
  refine ⟨hname ▸ h.named, copy, hcopy, hcopied.key, hcopied.isPublic, ?_⟩
  rw [Member.isStatic, hcopied.flags]
  exact AccessFlags.isStatic_toPublic hstatic

theorem CompanionOf.offersMethod (h : CompanionOf analysis base owner companion)
    (hvalue : analysis.methods[key]? = some value) (horigin : base.MethodOrigin owner key value) :
    companion.OffersMethod value := by
  obtain ⟨method, hmem, hkey, hmoved⟩ := horigin
  obtain ⟨moving, hmoving, hcopies⟩ := h.methods
  have hmoves : method ∈ moving := (mem_movingMethods hmoving).mpr
    ⟨hmem, key, hkey, Scan.Survey.mem_iff_exists_getElem?.mpr ⟨value, hvalue⟩⟩
  obtain ⟨copy, hcopy, hcopied, -⟩ := forall₂_mem_left hcopies hmoves
  obtain ⟨key', value', hkey', -, hmoved', hcopyKey⟩ := hcopied.key
  obtain rfl := Except.ok.inj ((Member.keyIn_of_le h.grows hkey).symm.trans hkey')
  obtain rfl := Except.ok.inj (hmoved.symm.trans hmoved')
  have hname : value.owner = companionName owner := (Member.keyIn_eq_ok.mp hcopyKey).1
  exact ⟨hname ▸ h.named, copy, List.mem_of_mem_tail hcopy, hname ▸ hcopyKey, hcopied.isPublic,
    hcopied.isStatic⟩

end Companion

theorem Job.run_eq_ok {job : Job} {session : Session} :
    job.run = .ok session ↔ ∃ archive selected analysis output, job.input = .ok archive ∧
      job.selection archive = .ok selected ∧ job.analysis archive = .ok analysis ∧
      outputEntries job.options analysis selected archive = .ok output ∧
      session = ⟨.sunk, ∅, analysis, some output⟩ := by
  simp only [Job.run, Session.next, Session.start, Step.expected, ne_eq, not_true_eq_false,
    if_false, ite_not, if_true, bind_pure_comp, bind_assoc, bind_map_left, except_bind_eq_ok,
    lift_archive_eq_ok, except_map_eq_ok, exists_and_left]
  constructor
  · rintro ⟨archive, hinput, selected, hselected, _, hinput₁, analysis, hanalysis, _, hinput₂,
      output, houtput, rfl⟩
    obtain rfl := Except.ok.inj (hinput.symm.trans hinput₁)
    obtain rfl := Except.ok.inj (hinput.symm.trans hinput₂)
    exact ⟨archive, hinput, selected, hselected, analysis, hanalysis, output, houtput, rfl⟩
  · rintro ⟨archive, hinput, selected, hselected, analysis, hanalysis, output, houtput, rfl⟩
    exact ⟨archive, hinput, selected, hselected, archive, hinput, analysis, hanalysis, archive,
      hinput, output, houtput, rfl⟩

section Output
variable {options : Options} {analysis : Analysis} {selected : NameSet} {archive : Archive}
  {entry : ArchiveEntry} {item : NamedData} {output : List NamedData}
  {file before after : ClassFile} {owner : String}

theorem Output.adapted_of_madeFrom (htypes : analysis.types = ∅)
    (h : MadeFrom options analysis selected entry item before after) :
    ClassFile.Adapted analysis options.owners before after := by
  cases h with
  | own hholds _ _ hfinal =>
    exact ClassFile.adapted_of_adapt (ClassFile.pool_of_holds hholds).2 htypes hfinal.1
  | companion hholds hcompanion _ _ hfinal =>
    obtain ⟨owner, hof⟩ :=
      Companion.companionOf_of_companion (ClassFile.pool_of_holds hholds).2 hcompanion
    exact ClassFile.adapted_of_adapt hof.fits htypes hfinal.1

variable (houtput : outputEntries options analysis selected archive = .ok output)
include houtput

theorem Output.hasClass_of_companion (htypes : analysis.types = ∅)
    (hnamed : archive.NamedAfterClasses) (hentry : entry ∈ archive) (hholds : entry.Holds file)
    (hname : file.name = .ok owner) (htakes : options.TakesCompanion selected owner)
    (hmapped : file.HasMapped analysis owner) {P : ClassFile → Prop}
    (hoffers : ∀ companion, Companion.CompanionOf analysis file owner companion → P companion)
    (hkept : ∀ before after, ClassFile.Adapted analysis options.owners before after → P before →
      P after) :
    Output.HasClass output (companionName owner) P := by
  obtain ⟨row, hrow, hitems⟩ := Output.row_of_mem_archive houtput hentry
  rw [Options.TakesCompanion, ← hnamed entry hentry file _ hholds hname] at htakes
  obtain ⟨companion, hcompanion, item, hitem, hitemName, after, hadapt, hbytes⟩ :=
    hrow.companion_of_wanted hholds hname hmapped htakes
  have hof := Companion.companionOf_of_holds hholds hname hcompanion
  have hadapted := ClassFile.adapted_of_adapt hof.fits htypes hadapt
  have hgrown : ConstantPool.empty ≤ after.pool :=
    ConstantPool.le_trans (ClassFile.pool_of_holds hholds).1
      (ConstantPool.le_trans hof.grows hadapted.grows)
  exact ⟨item, hitems item hitem, hitemName, after,
    ClassFile.ofBytes_of_toBytes hgrown hadapted.fits hbytes,
    hkept companion after hadapted (hoffers companion hof)⟩

section Moved
variable {key value : MemberKey} (htypes : analysis.types = ∅) (hnamed : archive.NamedAfterClasses)
  (hfound : analysis.FoundIn archive) (htakes : options.TakesCompanion selected key.owner)
include htypes hnamed hfound htakes

theorem Output.hasClass_of_field (hvalue : analysis.fields[key]? = some value) :
    Output.HasClass output value.owner (ClassFile.OffersField · value) := by
  obtain ⟨entry, hentry, file, name, hholds, hname, horigin⟩ := hfound.fields key value hvalue
  obtain rfl := horigin.owner_eq
  obtain ⟨⟨field, hmem, hkey, -⟩, hmoved⟩ := id horigin
  have hmapped : file.HasMapped analysis key.owner :=
    .inl ⟨field, hmem, key, hkey, Scan.Survey.mem_iff_exists_getElem?.mpr ⟨value, hvalue⟩⟩
  have howner : value.owner = companionName key.owner := by rw [hmoved, MemberKey.movedField]
  rw [howner]
  exact Output.hasClass_of_companion houtput htypes hnamed hentry hholds hname htakes hmapped
    (fun _ hof => hof.offersField hvalue horigin) (fun _ _ hadapted => hadapted.offersField)

theorem Output.hasClass_of_method (hvalue : analysis.methods[key]? = some value) :
    Output.HasClass output value.owner (ClassFile.OffersMethod · value) := by
  obtain ⟨entry, hentry, file, name, hholds, hname, horigin⟩ := hfound.methods key value hvalue
  obtain rfl := horigin.owner_eq
  obtain ⟨method, hmem, hkey, hmoved⟩ := id horigin
  have hmapped : file.HasMapped analysis key.owner :=
    .inr ⟨method, hmem, key, hkey, Scan.Survey.mem_iff_exists_getElem?.mpr ⟨value, hvalue⟩⟩
  rw [(MemberKey.movedMethod_eq_ok.mp hmoved).1]
  exact Output.hasClass_of_companion houtput htypes hnamed hentry hholds hname htakes hmapped
    (fun _ hof => hof.offersMethod hvalue horigin) (fun _ _ hadapted => hadapted.offersMethod)

end Moved

end Output

/-- Every class of the output that was adapted finds the moved members that it was made to use in
the output, if companions of the classes that these members come from are written. -/
theorem Job.run_isClosed {job : Job} {archive : Archive} {selected : NameSet} {session : Session}
    {output : List NamedData} (harchive : job.input = .ok archive)
    (hnamed : archive.NamedAfterClasses) (htypes : job.options.types = ∅)
    (hselected : job.selection archive = .ok selected) (hrun : job.run = .ok session)
    (houtput : session.output = some output) {item : NamedData} (hitem : item ∈ output) :
    (∃ entry ∈ archive, Output.CopyOf entry item ∨ ∃ before after,
        Output.MadeFrom job.options session.analysis selected entry item before after) ∧
      ∀ entry ∈ archive, ∀ before after,
        Output.MadeFrom job.options session.analysis selected entry item before after →
        ∀ key key', job.options.TakesCompanion selected key.owner →
          (before.RedirectsField after key key' →
            Output.HasClass output key'.owner (ClassFile.OffersField · key')) ∧
          (before.RedirectsMethod after key key' →
            Output.HasClass output key'.owner (ClassFile.OffersMethod · key')) := by
  obtain ⟨archive', selected', analysis, output', harchive', hselected', hanalysis, hwritten,
    rfl⟩ := Job.run_eq_ok.mp hrun
  obtain rfl := Except.ok.inj (harchive.symm.trans harchive')
  obtain rfl := Except.ok.inj (hselected.symm.trans hselected')
  obtain rfl := Option.some.inj houtput
  obtain ⟨hfound, hsame⟩ := Job.foundIn_of_analysis hanalysis
  rw [htypes] at hsame
  refine ⟨Output.made_of_mem_output hwritten hitem, ?_⟩
  intro entry hentry before after hmade key key' htakes
  -- A redirected use goes where the analysis says, and the class that the member comes from has
  -- been scanned.
  have hadapted := Output.adapted_of_madeFrom hsame hmade
  exact ⟨fun h => Output.hasClass_of_field hwritten hsame hnamed hfound htakes
      (hadapted.of_redirectsField h),
    fun h => Output.hasClass_of_method hwritten hsame hnamed hfound htakes
      (hadapted.of_redirectsMethod h)⟩

section Callers

/-- The place and the callee of a call, found by the position of its method and its own position. -/
def ClassFile.callAt? (file : ClassFile) (method instruction : Nat) : Option (Nat × MemberKey) := do
  let method ← file.methods[method]?
  let code ← (method.codeIn file.pool).toOption.join
  let instruction ← (← (Instruction.decode code.bytes).toOption)[instruction]?
  match instruction.action with
  | .call _ index => return (instruction.pc, ← (file.pool.member index).toOption)
  | _ => none

theorem ClassFile.redirectsMethod_of_callAt? {before after : ClassFile} {i j j' pc : Nat}
    {key key' : MemberKey} (hbefore : before.callAt? i j = some (pc, key))
    (hafter : after.callAt? i j' = some (pc, key')) (hother : key' ≠ key) :
    before.RedirectsMethod after key key' := by
  have hread {file : ClassFile} {j : Nat} {key : MemberKey}
      (h : file.callAt? i j = some (pc, key)) : ∃ method instruction kind index,
        file.methods[i]? = some method ∧ method.HasInstruction file.pool instruction ∧
          instruction.pc = pc ∧ instruction.action = .call kind index ∧
          file.pool.member index = .ok key := by
    simp only [callAt?, Option.bind_eq_bind, Option.bind_eq_some_iff, Option.join_eq_some_iff,
      toOption_eq_some] at h
    obtain ⟨method, hmethod, code, hcode, instructions, hdecode, instruction, hinstruction,
      h⟩ := h
    split at h
    · rename_i kind index haction
      simp only [Option.pure_def, Option.bind_eq_some_iff, toOption_eq_some, Option.some.injEq,
        Prod.mk.injEq] at h
      obtain ⟨key, hkey, rfl, rfl⟩ := h
      exact ⟨method, instruction, kind, index, hmethod,
        ⟨code, instructions, hcode, hdecode, List.mem_of_getElem? hinstruction⟩, rfl, haction, hkey⟩
    · cases h
  obtain ⟨method, instruction, kind, index, hmethod, hmem, hpc, haction, hkey⟩ := hread hbefore
  obtain ⟨method', instruction', kind', index', hmethod', hmem', hpc', haction', hkey'⟩ :=
    hread hafter
  refine .call ?_ hmem hmem' (hpc'.trans hpc.symm) haction hkey haction' hkey' hother
  exact List.mem_of_getElem? (List.getElem?_zip_eq_some.mpr ⟨hmethod, hmethod'⟩)

/-- The class that the data of an entry are read as, if they are read as one. -/
def ArchiveEntry.read? (entry : ArchiveEntry) : Option ClassFile :=
  entry.data.toOption.bind fun data => (ClassFile.ofBytes data).toOption

theorem ArchiveEntry.read?_of_holds {entry : ArchiveEntry} {file : ClassFile}
    (h : entry.Holds file) : entry.read? = some file := by
  obtain ⟨-, -, data, hdata, hfile⟩ := h
  rw [read?, hdata]
  exact toOption_eq_some.mpr hfile

theorem ArchiveEntry.holds_of_read? {entry : ArchiveEntry} {file : ClassFile}
    (hdirectory : entry.isDirectory = false) (hclass : isClassEntry entry.name = true)
    (h : entry.read? = some file) : entry.Holds file := by
  obtain ⟨data, hdata, hfile⟩ := Option.bind_eq_some_iff.mp h
  exact ⟨hdirectory, hclass, data, toOption_eq_some.mp hdata, toOption_eq_some.mp hfile⟩

def ArchiveEntry.ofClass (name : String) (file : ClassFile) : ArchiveEntry :=
  ⟨name ++ classSuffix, file.toBytes.mapError fun _ => .tooLarge⟩

def callee : ClassFile := .caller "p/A" "m" "p/A" "h" "h"

/-- A class with a method that calls the marked method of the other class. -/
def caller : ClassFile := .caller "p/B" "m" "p/A" "m" "h"

/-- The method that is called, and the one that it becomes. -/
def calleeKey : MemberKey := ⟨"p/A", "m", "()V"⟩

def movedKey : MemberKey := ⟨"p/DesugarA", "m", "()V"⟩

def callerArchive : Archive := [.ofClass "p/A" callee, .ofClass "p/B" caller]

def callerJob (pattern : String) : Job where
  input := .ok callerArchive
  options :=
    { patterns := [pattern], supported := markNames, omitted := ∅, owners := none, types := ∅,
      unselected := .copied }

/-- The name of the class that an entry of the output holds. -/
def NamedData.className? (item : NamedData) : Option String := do
  let file ← (ClassFile.ofBytes item.data).toOption
  file.name.toOption

/-- The names of the classes of the output, if the run adapts the calling class and turns its
call. -/
def turnedRun? (pattern : String) : Option (List (Option String)) := do
  let job := callerJob pattern
  let session ← job.run.toOption
  let output ← session.output
  let selected ← (job.selection callerArchive).toOption
  let after ← (caller.adapt job.options session.analysis).toOption
  let data ← after.toBytes.toOption
  if "p/B.class" ∈ selected ∧ ⟨"p/B.class", data⟩ ∈ output ∧
      after.callAt? 0 0 = some (0, movedKey) then
    return output.map NamedData.className?
  else none

theorem read?_callerArchive :
    callerArchive.map ArchiveEntry.read? = [some callee, some caller] := by
  decide +kernel

theorem namedAfterClasses_callerArchive : callerArchive.NamedAfterClasses := by
  intro entry hentry file name hholds hname
  have hread := ArchiveEntry.read?_of_holds hholds
  obtain ⟨hcallee, hcaller⟩ := List.cons.inj read?_callerArchive
  rcases List.mem_cons.mp hentry with rfl | hentry
  · obtain rfl := Option.some.inj (hcallee.symm.trans hread)
    obtain rfl := Except.ok.inj ((show callee.name = .ok "p/A" by rfl).symm.trans hname)
    rfl
  · obtain rfl := List.mem_singleton.mp hentry
    obtain rfl := Option.some.inj ((List.cons.inj hcaller).1.symm.trans hread)
    obtain rfl := Except.ok.inj ((show caller.name = .ok "p/B" by rfl).symm.trans hname)
    rfl

theorem exists_run_of_turnedRun? {pattern : String} {names : List (Option String)}
    (h : turnedRun? pattern = some names) :
    ∃ session output selected item after, (callerJob pattern).run = .ok session ∧
      session.output = some output ∧
      (callerJob pattern).selection callerArchive = .ok selected ∧ item ∈ output ∧
      Output.MadeFrom (callerJob pattern).options session.analysis selected
        (.ofClass "p/B" caller) item caller after ∧
      caller.RedirectsMethod after calleeKey movedKey ∧
      output.map NamedData.className? = names := by
  simp only [turnedRun?, Option.bind_eq_bind, Option.bind_eq_some_iff, toOption_eq_some,
    Option.ite_none_right_eq_some, Option.pure_def, Option.some.injEq] at h
  obtain ⟨session, hrun, output, houtput, selected, hselected, after, hadapt, data, hdata,
    ⟨hmem, hitem, hcall⟩, hnames⟩ := h
  refine ⟨session, output, selected, ⟨"p/B.class", data⟩, after, hrun, houtput, hselected, hitem,
    .own ?_ hmem rfl ⟨hadapt, hdata⟩, ?_, hnames⟩
  · exact ArchiveEntry.holds_of_read? (by decide) (by decide)
      (List.cons.inj (List.cons.inj read?_callerArchive).2).1
  · have hbefore : caller.callAt? 0 0 = some (0, calleeKey) := by decide +kernel
    exact ClassFile.redirectsMethod_of_callAt? hbefore hcall (by decide)

/-- With both classes selected, the companion that the call goes to is written. -/
theorem Job.run_isClosed_of_both :
    ∃ session output selected item after, (callerJob "p/*").run = .ok session ∧
      session.output = some output ∧ item ∈ output ∧
      Output.MadeFrom (callerJob "p/*").options session.analysis selected
        (.ofClass "p/B" caller) item caller after ∧
      caller.RedirectsMethod after calleeKey movedKey ∧
      Output.HasClass output "p/DesugarA" (ClassFile.OffersMethod · movedKey) := by
  have hturned : turnedRun? "p/*" =
      some [some "p/A", some "p/DesugarA", some "p/B", some "p/DesugarB"] := by
    decide +kernel
  obtain ⟨session, output, selected, item, after, hrun, houtput, hselected, hitem, hmade,
    hredirects, -⟩ := exists_run_of_turnedRun? hturned
  refine ⟨session, output, selected, item, after, hrun, houtput, hitem, hmade, hredirects, ?_⟩
  have htakes : (callerJob "p/*").options.TakesCompanion selected calleeKey.owner :=
    .inr ⟨"p/*", List.mem_cons_self, by decide⟩
  exact ((Job.run_isClosed rfl namedAfterClasses_callerArchive rfl hselected hrun houtput hitem).2
    _ (List.mem_cons_of_mem _ List.mem_cons_self) _ _ hmade _ _ htakes).2 hredirects

/-- With the calling class selected only, the call goes to a companion that is not written. -/
theorem Job.run_isOpen_of_caller :
    (callerArchive.map ArchiveEntry.name).Nodup ∧ callerArchive.NamedAfterClasses ∧
      (callerJob "p/B").input = .ok callerArchive ∧ (callerJob "p/B").options.owners = none ∧
      (callerJob "p/B").options.types = ∅ ∧
      ∃ session output selected item after, (callerJob "p/B").run = .ok session ∧
        session.output = some output ∧
        (callerJob "p/B").selection callerArchive = .ok selected ∧ item ∈ output ∧
        Output.MadeFrom (callerJob "p/B").options session.analysis selected
          (.ofClass "p/B" caller) item caller after ∧
        caller.RedirectsMethod after calleeKey movedKey ∧
        ∀ other ∈ output, ∀ file, ClassFile.ofBytes other.data = .ok file →
          ¬ file.OffersMethod movedKey := by
  refine ⟨by decide, namedAfterClasses_callerArchive, rfl, rfl, rfl, ?_⟩
  have hturned : turnedRun? "p/B" = some [some "p/A", some "p/B", some "p/DesugarB"] := by
    decide +kernel
  obtain ⟨session, output, selected, item, after, hrun, houtput, hselected, hitem, hmade,
    hredirects, hnames⟩ := exists_run_of_turnedRun? hturned
  refine ⟨session, output, selected, item, after, hrun, houtput, hselected, hitem, hmade,
    hredirects, ?_⟩
  intro other hother file hfile hoffers
  have hname : other.className? = some "p/DesugarA" := by
    rw [NamedData.className?, hfile]
    exact toOption_eq_some.mpr hoffers.1
  have hmem := hname ▸ List.mem_map_of_mem (f := NamedData.className?) hother
  rw [hnames] at hmem
  revert hmem
  decide

end Callers

end StaticCompanion
