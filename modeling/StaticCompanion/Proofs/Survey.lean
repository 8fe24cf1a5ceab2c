import Mathlib.Data.List.Induction
import StaticCompanion.Proofs.Uses
import StaticCompanion.Relocation.Scan

/-!
# The survey of a class

Before a scan follows any code it looks at the headers of all fields and methods. What it learns
there does not depend on what has been scanned before: which fields are supported and which are
hidden, which methods are the seeds of the worklist and which may follow. A `Survey` holds all of
this, and a scan is a survey and a drain of the worklist that the survey starts.
-/
namespace StaticCompanion

namespace Analysis

def addFields (analysis : Analysis) (keys : List MemberKey) : Analysis :=
  keys.foldl
    (fun analysis key =>
      { analysis with fields := analysis.fields.insertIfNew key key.movedField }) analysis

variable {analysis : Analysis} {keys more : List MemberKey}

@[simp]
theorem addFields_nil : analysis.addFields [] = analysis := rfl

theorem addFields_append :
    analysis.addFields (keys ++ more) = (analysis.addFields keys).addFields more :=
  List.foldl_append

@[simp]
theorem methods_addFields : (analysis.addFields keys).methods = analysis.methods := by
  induction keys generalizing analysis with
  | nil => rfl
  | cons key keys ih => exact ih

@[simp]
theorem types_addFields : (analysis.addFields keys).types = analysis.types := by
  induction keys generalizing analysis with
  | nil => rfl
  | cons key keys ih => exact ih

theorem fields_addFields {key value : MemberKey} :
    (analysis.addFields keys).fields[key]? = some value ↔ analysis.fields[key]? = some value ∨
      key ∉ analysis.fields ∧ key ∈ keys ∧ value = key.movedField := by
  induction keys generalizing analysis with
  | nil => simp
  | cons first keys ih =>
    apply ih.trans
    simp only [Std.ExtTreeMap.getElem?_insertIfNew, Std.ExtTreeMap.mem_insertIfNew,
      Std.LawfulEqCmp.compare_eq_iff_eq, List.mem_cons]
    by_cases hfirst : first = key
    · subst hfirst
      by_cases hmem : first ∈ analysis.fields
      · simp [hmem]
      · simp [hmem, eq_comm]
    · simp [hfirst, Ne.symm hfirst]

end Analysis

namespace Scan

structure Header where
  key : MemberKey
  member : Member
  isMarked : Bool
  deriving DecidableEq, Repr

namespace Header

def read (supported : NameSet) (pool : ConstantPool) (owner : String) (member : Member) :
    Except ClassFault Header := do
  let key ← member.keyIn owner pool
  let isMarked ← isAnnotated pool supported member.attributes
  return ⟨key, member, isMarked⟩

def isConstant (header : Header) : Bool :=
  header.member.flags.has (AccessFlags.isStatic ||| AccessFlags.isFinal)

/-- A field that moves if a moved body uses it. -/
def isHiddenField (header : Header) : Bool := header.member.isStatic && !header.member.isPublic

/-- A method from which the scan starts. -/
def isSeed (header : Header) : Bool := header.isMarked && !header.key.isCovariantBufferMethod

/-- A method that moves if a moved body needs it. -/
def isHiddenMethod (header : Header) : Bool :=
  header.key.name ≠ "<init>" && !header.member.isPublic

end Header

def hideFields (hidden : Std.ExtTreeSet MemberKey) (headers : List Header) :
    Std.ExtTreeSet MemberKey :=
  headers.foldl (fun hidden header =>
    if header.isHiddenField then hidden.insert header.key else hidden) hidden

/-- The worklist with a method that moves if a moved body needs it. -/
def Worklist.hide (work : Worklist) (header : Header) : Worklist :=
  { work with hidden := work.hidden.insert header.key header.member }

/-- The worklist once the method with a header has been looked at. -/
def Worklist.enter (work : Worklist) (header : Header) : Worklist :=
  let work := if header.isSeed then work.stage header.key header.member else work
  if header.isHiddenMethod then work.hide header else work

def markedFields (headers : List Header) : List MemberKey :=
  (headers.filter Header.isMarked).map Header.key

section Passes
variable {supported : NameSet} {pool : ConstantPool} {owner : String}

theorem addField_eq_ok {key : MemberKey} {analysis analysis' : Analysis} {u : Unit} :
    addField key analysis = .ok u analysis' ↔ analysis.addFields [key] = analysis' :=
  state_modify_eq_ok

theorem visitField_eq_ok {hidden hidden' : Std.ExtTreeSet MemberKey} {field : Member}
    {analysis analysis' : Analysis} :
    visitField supported pool owner hidden field analysis = .ok hidden' analysis' ↔
      ∃ header, Header.read supported pool owner field = .ok header ∧
        (header.isMarked → header.isConstant) ∧ hidden' = hideFields hidden [header] ∧
        analysis' = analysis.addFields (markedFields [header]) := by
  simp only [visitField, Header.read, state_bind_eq_ok, state_lift_eq_ok, lift_class_eq_ok,
    except_bind_eq_ok, except_pure_eq_ok]
  constructor
  · rintro ⟨key, _, ⟨hkey, rfl⟩, isMarked, _, ⟨hmarked, rfl⟩, hrest⟩
    refine ⟨_, ⟨key, hkey, isMarked, hmarked, rfl⟩, ?_⟩
    cases isMarked with
    | false =>
      simp only [Bool.false_eq_true, if_false, state_pure_eq_ok] at hrest
      obtain ⟨rfl, rfl⟩ := hrest
      exact ⟨by simp, rfl, rfl⟩
    | true =>
      rw [if_pos rfl] at hrest
      split at hrest
      · simp at hrest
      · rename_i hconstant
        simp only [state_bind_eq_ok, addField_eq_ok, state_pure_eq_ok] at hrest
        obtain ⟨_, _, rfl, rfl, rfl⟩ := hrest
        refine ⟨?_, rfl, rfl⟩
        intro _
        simpa [Header.isConstant] using hconstant
  · rintro ⟨_, ⟨key, hkey, isMarked, hmarked, rfl⟩, hconstant, rfl, rfl⟩
    refine ⟨key, _, ⟨hkey, rfl⟩, isMarked, _, ⟨hmarked, rfl⟩, ?_⟩
    cases isMarked with
    | false => rfl
    | true =>
      have hkeeps : field.flags.has (AccessFlags.isStatic ||| AccessFlags.isFinal) = true :=
        hconstant rfl
      rw [if_pos rfl, hkeeps]
      rfl

theorem markedFields_append {headers more : List Header} :
    markedFields (headers ++ more) = markedFields headers ++ markedFields more := by
  simp [markedFields]

theorem visitFields_eq_ok {fields : List Member} {hidden hidden' : Std.ExtTreeSet MemberKey}
    {analysis analysis' : Analysis} :
    fields.foldlM (visitField supported pool owner) hidden analysis = .ok hidden' analysis' ↔
      ∃ headers, fields.mapM (Header.read supported pool owner) = .ok headers ∧
        (∀ header ∈ headers, header.isMarked → header.isConstant) ∧
        hidden' = hideFields hidden headers ∧
        analysis' = analysis.addFields (markedFields headers) := by
  induction fields generalizing hidden analysis with
  | nil =>
    simp only [List.foldlM_nil, state_pure_eq_ok, List.mapM_nil, except_pure_eq_ok]
    constructor
    · rintro ⟨rfl, rfl⟩
      exact ⟨[], rfl, by simp, rfl, rfl⟩
    · rintro ⟨_, rfl, -, rfl, rfl⟩
      exact ⟨rfl, rfl⟩
  | cons field fields ih =>
    simp only [List.foldlM_cons, state_bind_eq_ok, visitField_eq_ok, ih, List.mapM_cons,
      except_bind_eq_ok, except_pure_eq_ok]
    constructor
    · rintro ⟨_, _, ⟨header, hread, hconstant, rfl, rfl⟩, headers, hreads, hconstants, rfl, rfl⟩
      refine ⟨header :: headers, ⟨header, hread, headers, hreads, rfl⟩, ?_, rfl, ?_⟩
      · exact List.forall_mem_cons.mpr ⟨hconstant, hconstants⟩
      · rw [← Analysis.addFields_append, ← markedFields_append]
        rfl
    · rintro ⟨_, ⟨header, hread, headers, hreads, rfl⟩, hconstants, rfl, rfl⟩
      rw [List.forall_mem_cons] at hconstants
      obtain ⟨hconstant, hconstants⟩ := hconstants
      refine ⟨_, _, ⟨header, hread, hconstant, rfl, rfl⟩, headers, hreads, hconstants, rfl, ?_⟩
      rw [← Analysis.addFields_append, ← markedFields_append]
      rfl

theorem mem_hideFields {hidden : Std.ExtTreeSet MemberKey} {headers : List Header}
    {key : MemberKey} :
    key ∈ hideFields hidden headers ↔
      key ∈ hidden ∨ ∃ header ∈ headers, header.isHiddenField ∧ header.key = key := by
  induction headers generalizing hidden with
  | nil => simp [hideFields]
  | cons header headers ih =>
    apply Iff.trans (b := key ∈ hideFields hidden [header] ∨ _) ih
    by_cases hhidden : header.isHiddenField
    · simp [hideFields, hhidden, or_assoc, or_left_comm]
    · simp [hideFields, hhidden]

theorem visitMethod_eq_ok {work work' : Worklist} {method : Member} :
    visitMethod supported pool owner work method = .ok work' ↔
      ∃ header, Header.read supported pool owner method = .ok header ∧
        work' = work.enter header := by
  simp only [visitMethod, Header.read, lift_class_eq_ok, except_bind_eq_ok, except_pure_eq_ok]
  constructor
  · rintro ⟨key, hkey, isMarked, hmarked, rfl⟩
    refine ⟨_, ⟨key, hkey, isMarked, hmarked, rfl⟩, ?_⟩
    simp [Worklist.enter, Worklist.hide, Header.isSeed, Header.isHiddenMethod]
  · rintro ⟨_, ⟨key, hkey, isMarked, hmarked, rfl⟩, rfl⟩
    refine ⟨key, hkey, isMarked, hmarked, ?_⟩
    simp [Worklist.enter, Worklist.hide, Header.isSeed, Header.isHiddenMethod]

theorem surveyMethods_eq_ok {methods : List Member} {work : Worklist} :
    surveyMethods supported pool owner methods = .ok work ↔
      ∃ headers, methods.mapM (Header.read supported pool owner) = .ok headers ∧
        work = headers.foldl Worklist.enter .empty := by
  unfold surveyMethods
  generalize Worklist.empty = start
  induction methods generalizing start with
  | nil => simp [eq_comm (b := work)]
  | cons method methods ih =>
    simp only [List.foldlM_cons, except_bind_eq_ok, visitMethod_eq_ok, ih, List.mapM_cons,
      except_pure_eq_ok]
    constructor
    · rintro ⟨_, ⟨header, hread, rfl⟩, headers, hreads, rfl⟩
      exact ⟨_, ⟨header, hread, headers, hreads, rfl⟩, rfl⟩
    · rintro ⟨_, ⟨header, hread, headers, hreads, rfl⟩, rfl⟩
      exact ⟨_, ⟨header, hread, rfl⟩, headers, hreads, rfl⟩

end Passes

namespace Worklist
variable {work : Worklist} {key : MemberKey} {method : Member} {header : Header}

theorem stage_of_mem (hmem : key ∈ work.staged) : work.stage key method = work := by
  unfold stage
  rw [if_pos (Std.ExtTreeSet.contains_iff_mem.mpr hmem)]

theorem stage_of_not_mem (hmem : key ∉ work.staged) :
    work.stage key method =
      { work with queue := work.queue ++ [(key, method)], staged := work.staged.insert key } := by
  unfold stage
  rw [if_neg fun h => hmem (Std.ExtTreeSet.contains_iff_mem.mp h)]

/-- What a worklist holds once the methods with the given headers have been queued and hidden. -/
structure Starts (seeds hidden : List Header) (work : Worklist) : Prop where
  of_queue : ∀ key method, (key, method) ∈ work.queue →
    ∃ header ∈ seeds, header.key = key ∧ header.member = method
  queue_of_staged : ∀ key ∈ work.staged, ∃ method, (key, method) ∈ work.queue
  mem_staged : ∀ header ∈ seeds, header.key ∈ work.staged
  nodup : (work.queue.map Prod.fst).Nodup
  size_staged : work.staged.size = work.queue.length
  of_hidden : ∀ key method, work.hidden[key]? = some method →
    ∃ header ∈ hidden, header.key = key ∧ header.member = method
  mem_hidden : ∀ header ∈ hidden, header.key ∈ work.hidden

variable {seeds hidden : List Header}

theorem Starts.staged_of_queue (h : Starts seeds hidden work)
    (hqueue : (key, method) ∈ work.queue) : key ∈ work.staged := by
  obtain ⟨header, hmem, rfl, -⟩ := h.of_queue key method hqueue
  exact h.mem_staged header hmem

theorem Starts.stage (h : Starts seeds hidden work) :
    Starts (seeds ++ [header]) hidden (work.stage header.key header.member) := by
  by_cases hstaged : header.key ∈ work.staged
  · rw [stage_of_mem hstaged]
    refine ⟨?_, h.queue_of_staged, ?_, h.nodup, h.size_staged, h.of_hidden, h.mem_hidden⟩
    · intro key method hqueue
      obtain ⟨seed, hmem, hseed⟩ := h.of_queue key method hqueue
      exact ⟨seed, List.mem_append_left _ hmem, hseed⟩
    · simpa [or_imp, forall_and] using ⟨h.mem_staged, hstaged⟩
  · rw [stage_of_not_mem hstaged]
    constructor
    case of_queue =>
      intro key method hqueue
      rcases List.mem_append.mp hqueue with hqueue | hqueue
      · obtain ⟨seed, hmem, hseed⟩ := h.of_queue key method hqueue
        exact ⟨seed, List.mem_append_left _ hmem, hseed⟩
      · obtain ⟨rfl, rfl⟩ := Prod.mk.inj (List.mem_singleton.mp hqueue)
        exact ⟨header, by simp, rfl, rfl⟩
    case queue_of_staged =>
      intro key hkey
      rcases Std.ExtTreeSet.mem_insert.mp hkey with hkey | hkey
      · obtain rfl := Std.LawfulEqCmp.compare_eq_iff_eq.mp hkey
        exact ⟨header.member, by simp⟩
      · obtain ⟨method, hqueue⟩ := h.queue_of_staged key hkey
        exact ⟨method, List.mem_append_left _ hqueue⟩
    case mem_staged =>
      intro seed hmem
      rcases List.mem_append.mp hmem with hmem | hmem
      · exact Std.ExtTreeSet.mem_insert.mpr (.inr (h.mem_staged seed hmem))
      · rw [List.mem_singleton.mp hmem]
        exact Std.ExtTreeSet.mem_insert_self
    case nodup =>
      have hnew : ∀ key method, (key, method) ∈ work.queue → key ≠ header.key := by
        intro key method hqueue hsame
        exact hstaged (hsame ▸ h.staged_of_queue hqueue)
      simpa [List.nodup_append] using ⟨h.nodup, hnew⟩
    case size_staged => simp [Std.ExtTreeSet.size_insert, hstaged, h.size_staged]
    case of_hidden => exact h.of_hidden
    case mem_hidden => exact h.mem_hidden

theorem Starts.hide (h : Starts seeds hidden work) :
    Starts seeds (hidden ++ [header]) (work.hide header) := by
  refine ⟨h.of_queue, h.queue_of_staged, h.mem_staged, h.nodup, h.size_staged, ?_, ?_⟩
  · intro key method hkey
    simp only [Worklist.hide, Std.ExtTreeMap.getElem?_insert,
      Std.LawfulEqCmp.compare_eq_iff_eq] at hkey
    split at hkey
    · rename_i hsame
      exact ⟨header, by simp, hsame, Option.some.inj hkey⟩
    · obtain ⟨other, hmem, hother⟩ := h.of_hidden key method hkey
      exact ⟨other, List.mem_append_left _ hmem, hother⟩
  · intro other hmem
    rcases List.mem_append.mp hmem with hmem | hmem
    · exact Std.ExtTreeMap.mem_insert.mpr (.inr (h.mem_hidden other hmem))
    · rw [List.mem_singleton.mp hmem]
      exact Std.ExtTreeMap.mem_insert_self

theorem starts_foldl (headers : List Header) :
    Starts (headers.filter Header.isSeed) (headers.filter Header.isHiddenMethod)
      (headers.foldl Worklist.enter .empty) := by
  induction headers using List.reverseRecOn with
  | nil => constructor <;> simp [empty]
  | append_singleton headers header ih =>
    simp only [List.foldl_append, List.foldl_cons, List.foldl_nil, List.filter_append, enter]
    by_cases hseed : header.isSeed <;> by_cases hhidden : header.isHiddenMethod
    · simpa [hseed, hhidden] using ih.stage.hide
    · simpa [hseed, hhidden] using ih.stage
    · simpa [hseed, hhidden] using ih.hide
    · simpa [hseed, hhidden] using ih

end Worklist

/-- What the headers of a class tell, and what its code is read against. -/
structure Survey where
  owner : String
  context : Context
  fields : List Header
  methods : List Header

namespace Survey

/-- The worklist that the survey starts. -/
def start (survey : Survey) : Worklist := survey.methods.foldl Worklist.enter .empty

/-- The most methods that can have to be worked off. -/
def bound (survey : Survey) : Nat := survey.start.queue.length + survey.start.hidden.size

def mark (survey : Survey) (analysis : Analysis) : Analysis :=
  analysis.addFields (markedFields survey.fields)

def checkConstant (fields : List Header) : Except RelocationFault Unit :=
  match fields.find? fun header => header.isMarked && !header.isConstant with
  | some header => .error (.inconstantField header.key)
  | none => .ok ()

/-- The table of bootstrap methods, which is needed only if there is code to look at. -/
def bootstrapsFor (file : ClassFile) (methods : List Header) : Except ClassFault (List Bootstrap) :=
  if methods.any Header.isSeed then file.bootstraps else .ok []

def ofFile (supported : NameSet) (file : ClassFile) : Except RelocationFault Survey := do
  let owner ← file.name
  let fields ← (file.fields.mapM (Header.read supported file.pool owner) : Except ClassFault _)
  checkConstant fields
  let methods ← (file.methods.mapM (Header.read supported file.pool owner) : Except ClassFault _)
  let bootstraps ← bootstrapsFor file methods
  return ⟨owner, ⟨file.pool, bootstraps, hideFields ∅ fields⟩, fields, methods⟩

variable {supported : NameSet} {file : ClassFile} {survey : Survey}

theorem checkConstant_eq_ok {fields : List Header} {u : Unit} :
    checkConstant fields = .ok u ↔ ∀ header ∈ fields, header.isMarked → header.isConstant := by
  unfold checkConstant
  split
  · rename_i header hfind
    simp only [reduceCtorEq, false_iff]
    intro hconstant
    have hfault := List.find?_some hfind
    simp only [Bool.and_eq_true, Bool.not_eq_true'] at hfault
    rw [hconstant header (List.mem_of_find?_eq_some hfind) hfault.1] at hfault
    cases hfault.2
  · rename_i hfind
    simp only [true_iff]
    intro header hmem hmarked
    have hsound := List.find?_eq_none.mp hfind header hmem
    simpa [hmarked] using hsound

theorem ofFile_eq_ok :
    ofFile supported file = .ok survey ↔
      file.name = .ok survey.owner ∧
      file.fields.mapM (Header.read supported file.pool survey.owner) = .ok survey.fields ∧
      (∀ header ∈ survey.fields, header.isMarked → header.isConstant) ∧
      file.methods.mapM (Header.read supported file.pool survey.owner) = .ok survey.methods ∧
      bootstrapsFor file survey.methods = .ok survey.context.bootstraps ∧
      survey.context.pool = file.pool ∧
      survey.context.hiddenFields = hideFields ∅ survey.fields := by
  simp only [ofFile, except_bind_eq_ok, lift_class_eq_ok,
    except_pure_eq_ok, checkConstant_eq_ok]
  constructor
  · rintro ⟨owner, howner, fields, hfields, -, hconstant, methods, hmethods, bootstraps,
      hbootstraps, rfl⟩
    exact ⟨howner, hfields, hconstant, hmethods, hbootstraps, rfl, rfl⟩
  · rintro ⟨howner, hfields, hconstant, hmethods, hbootstraps, hpool, hhidden⟩
    obtain ⟨owner, ⟨pool, bootstraps, hidden⟩, fields, methods⟩ := survey
    dsimp only at howner hfields hconstant hmethods hbootstraps hpool hhidden
    subst hpool hhidden
    exact ⟨owner, howner, fields, hfields, (), hconstant, methods, hmethods, bootstraps,
      hbootstraps, rfl⟩

theorem queue_eq_nil_iff {headers : List Header} :
    (headers.foldl Worklist.enter .empty).queue = [] ↔ headers.any Header.isSeed = false := by
  have hstarts := Worklist.starts_foldl headers
  rw [List.any_eq_false]
  constructor
  · intro hqueue header hmem hseed
    obtain ⟨method, hmethod⟩ := hstarts.queue_of_staged _
      (hstarts.mem_staged header (List.mem_filter.mpr ⟨hmem, hseed⟩))
    rw [hqueue] at hmethod
    cases hmethod
  · intro hnone
    apply List.eq_nil_iff_forall_not_mem.mpr
    intro entry hmem
    obtain ⟨header, hheader, -⟩ := hstarts.of_queue entry.1 entry.2 hmem
    exact hnone header (List.mem_filter.mp hheader).1 (List.mem_filter.mp hheader).2

theorem bootstrapsFor_eq (file : ClassFile) (headers : List Header) :
    bootstrapsFor file headers =
      if (headers.foldl Worklist.enter .empty).queue.isEmpty then .ok [] else file.bootstraps := by
  unfold bootstrapsFor
  by_cases hseed : headers.any Header.isSeed = true
  · have hqueue : (headers.foldl Worklist.enter .empty).queue ≠ [] := by
      intro hnil
      rw [queue_eq_nil_iff.mp hnil] at hseed
      cases hseed
    rw [if_pos hseed, if_neg (mt List.isEmpty_iff.mp hqueue)]
  · have hqueue := queue_eq_nil_iff.mpr (Bool.of_not_eq_true hseed)
    rw [if_neg hseed, if_pos (List.isEmpty_iff.mpr hqueue)]

theorem drain_eq_pure {context : Context} {budget : Nat} {work : Worklist}
    (hqueue : work.queue = []) : drain context budget work = pure () := by
  cases budget with
  | zero => rfl
  | succ budget => simp only [drain, hqueue]

theorem drain_nil {context : Context} {budget : Nat} {work : Worklist} (hqueue : work.queue = [])
    {analysis analysis' : Analysis} :
    drain context budget work analysis = .ok () analysis' ↔ analysis = analysis' := by
  rw [drain_eq_pure hqueue, state_pure_eq_ok]
  simp

/-- A scan is a survey and a drain of the worklist that the survey starts. -/
theorem scan_eq_ok {analysis analysis' : Analysis} :
    scan supported file analysis = .ok () analysis' ↔ ∃ survey, ofFile supported file = .ok survey ∧
      drain survey.context survey.bound survey.start (survey.mark analysis) = .ok () analysis' := by
  simp only [scan, state_bind_eq_ok, state_lift_eq_ok, lift_class_eq_ok, lift_relocation_eq_ok,
    visitFields_eq_ok, surveyMethods_eq_ok]
  constructor
  · rintro ⟨owner, _, ⟨howner, rfl⟩, _, _, ⟨fields, hfields, hconstant, rfl, rfl⟩, _, _,
      ⟨⟨methods, hmethods, rfl⟩, rfl⟩, hrest⟩
    split at hrest
    · rename_i hqueue
      have hbootstraps : bootstrapsFor file methods = .ok [] := by
        rw [bootstrapsFor_eq, if_pos hqueue]
      refine ⟨⟨owner, ⟨file.pool, [], hideFields ∅ fields⟩, fields, methods⟩,
        ofFile_eq_ok.mpr ⟨howner, hfields, hconstant, hmethods, hbootstraps, rfl, rfl⟩, ?_⟩
      exact (drain_nil (List.isEmpty_iff.mp hqueue)).mpr (state_pure_eq_ok.mp hrest).2
    · rename_i hqueue
      simp only [state_bind_eq_ok, state_lift_eq_ok, lift_class_eq_ok] at hrest
      obtain ⟨bootstraps, _, ⟨hbootstraps, rfl⟩, hdrain⟩ := hrest
      replace hbootstraps : bootstrapsFor file methods = .ok bootstraps := by
        rwa [bootstrapsFor_eq, if_neg hqueue]
      exact ⟨⟨owner, ⟨file.pool, bootstraps, hideFields ∅ fields⟩, fields, methods⟩,
        ofFile_eq_ok.mpr ⟨howner, hfields, hconstant, hmethods, hbootstraps, rfl, rfl⟩, hdrain⟩
  · rintro ⟨survey, hsurvey, hdrain⟩
    obtain ⟨howner, hfields, hconstant, hmethods, hbootstraps, hpool, hhidden⟩ :=
      ofFile_eq_ok.mp hsurvey
    obtain ⟨owner, ⟨pool, bootstraps, hidden⟩, fields, methods⟩ := survey
    dsimp only at howner hfields hconstant hmethods hbootstraps hpool hhidden
    subst hpool hhidden
    refine ⟨owner, _, ⟨howner, rfl⟩, _, _, ⟨fields, hfields, hconstant, rfl, rfl⟩, _, _,
      ⟨⟨methods, hmethods, rfl⟩, rfl⟩, ?_⟩
    split
    · rename_i hqueue
      exact state_pure_eq_ok.mpr ⟨rfl, (drain_nil (List.isEmpty_iff.mp hqueue)).mp hdrain⟩
    · rename_i hqueue
      simp only [state_bind_eq_ok, state_lift_eq_ok, lift_class_eq_ok]
      rw [bootstrapsFor_eq, if_neg hqueue] at hbootstraps
      exact ⟨bootstraps, _, ⟨hbootstraps, rfl⟩, hdrain⟩

end Survey

theorem extend_eq_ok {supported : NameSet} {analysis analysis' : Analysis} {file : ClassFile} :
    extend supported analysis file = .ok analysis' ↔
      scan supported file analysis = .ok () analysis' := by
  unfold extend
  cases scan supported file analysis <;> simp

end Scan

end StaticCompanion
