import StaticCompanion.Proofs.Locality
import StaticCompanion.Run.Session

namespace StaticCompanion

section Lifting
variable {α : Type} {a : α}

@[simp]
theorem lift_archive_eq_ok {step : Except ArchiveFault α} :
    (liftM step : Except RunFault α) = .ok a ↔ step = .ok a := mapError_eq_ok

@[simp]
theorem lift_relocation_run_eq_ok {step : Except RelocationFault α} :
    (liftM step : Except RunFault α) = .ok a ↔ step = .ok a := mapError_eq_ok

end Lifting

/-- The entry is a class, and this is what its bytes spell. -/
def ArchiveEntry.Holds (entry : ArchiveEntry) (file : ClassFile) : Prop :=
  entry.isDirectory = false ∧ isClassEntry entry.name = true ∧
    ∃ data, entry.data = .ok data ∧ ClassFile.ofBytes data = .ok file

/-- A class of the archive has this property under its name. -/
def Archive.HasClass (archive : Archive) (P : ClassFile → String → Prop) : Prop :=
  ∃ entry ∈ archive, ∃ file name, entry.Holds file ∧ file.name = .ok name ∧ P file name

/-- All members of the analysis are moved by classes of the archive. -/
structure Analysis.FoundIn (archive : Archive) (analysis : Analysis) : Prop where
  fields : ∀ key value : MemberKey, analysis.fields[key]? = some value →
    archive.HasClass fun file name => file.FieldOrigin name key value
  methods : ∀ key value : MemberKey, analysis.methods[key]? = some value →
    archive.HasClass fun file name => file.MethodOrigin name key value

namespace Job
variable {job : Job} {archive : Archive} {entry : ArchiveEntry} {analysis analysis' : Analysis}

theorem scanEntry_eq_ok (h : job.scanEntry analysis entry = .ok analysis') :
    analysis' = analysis ∨ ∃ file, entry.Holds file ∧
      Scan.scan job.options.supported file analysis = .ok () analysis' := by
  simp only [scanEntry, except_bind_eq_ok, lift_archive_eq_ok] at h
  obtain ⟨data, hdata, h⟩ := h
  split at h
  · exact .inl (except_pure_eq_ok.mp h).symm
  · rename_i hclass
    simp only [Bool.or_eq_true, Bool.not_eq_true', not_or, Bool.not_eq_true,
      Bool.not_eq_false] at hclass
    simp only [except_bind_eq_ok, lift_relocation_run_eq_ok, lift_class_eq_ok,
      Scan.extend_eq_ok] at h
    obtain ⟨file, hfile, hscan⟩ := h
    exact .inr ⟨file, ⟨hclass.1, hclass.2, data, hdata, hfile⟩, hscan⟩

theorem foundIn_of_scanEntry (hmem : entry ∈ archive) (hfound : analysis.FoundIn archive)
    (h : job.scanEntry analysis entry = .ok analysis') :
    analysis'.FoundIn archive ∧ analysis'.types = analysis.types := by
  rcases scanEntry_eq_ok h with rfl | ⟨file, hholds, hscan⟩
  · exact ⟨hfound, rfl⟩
  have hleave := Scan.leave_of_ok hscan
  cases hname : file.name with
  | error fault =>
    obtain rfl : analysis = analysis' := (Scan.leave_of_unnamed hname analysis).symm.trans hleave
    exact ⟨hfound, rfl⟩
  | ok name =>
    have hextends := @Scan.extendsFor_leave job.options.supported _ _ hname analysis
    rw [hleave] at hextends
    refine ⟨⟨?_, ?_⟩, hextends.types⟩
    · intro key value hvalue
      rcases hextends.fields.added key value hvalue with hold | hadded
      · exact hfound.fields key value hold
      · exact ⟨entry, hmem, file, name, hholds, hname, hadded⟩
    · intro key value hvalue
      rcases hextends.methods.added key value hvalue with hold | hadded
      · exact hfound.methods key value hold
      · exact ⟨entry, hmem, file, name, hholds, hname, hadded⟩

theorem foundIn_of_scanEntries {entries : List ArchiveEntry}
    (hmem : ∀ entry ∈ entries, entry ∈ archive) (hfound : analysis.FoundIn archive)
    (h : entries.foldlM (scanEntry job) analysis = .ok analysis') :
    analysis'.FoundIn archive ∧ analysis'.types = analysis.types := by
  induction entries generalizing analysis with
  | nil =>
    obtain rfl := except_pure_eq_ok.mp h
    exact ⟨hfound, rfl⟩
  | cons entry entries ih =>
    obtain ⟨hentry, hentries⟩ := List.forall_mem_cons.mp hmem
    rw [List.foldlM_cons] at h
    obtain ⟨analysis₁, hfirst, hrest⟩ := except_bind_eq_ok.mp h
    obtain ⟨hfound₁, htypes₁⟩ := foundIn_of_scanEntry hentry hfound hfirst
    obtain ⟨hfound', htypes'⟩ := ih hentries hfound₁ hrest
    exact ⟨hfound', htypes'.trans htypes₁⟩

theorem foundIn_empty (archive : Archive) (types : NameMap) :
    ({ Analysis.empty with types } : Analysis).FoundIn archive := by
  constructor
  · intro key value hvalue
    simp [Analysis.empty] at hvalue
  · intro key value hvalue
    simp [Analysis.empty] at hvalue

/-- A run moves members of the archive's classes, and replaces the types that it is told to. -/
theorem foundIn_of_analysis (h : job.analysis archive = .ok analysis) :
    analysis.FoundIn archive ∧ analysis.types = job.options.types :=
  foundIn_of_scanEntries (fun _ => id) (foundIn_empty archive job.options.types) h

end Job

end StaticCompanion
