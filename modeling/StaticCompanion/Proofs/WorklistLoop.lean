import Mathlib.Data.List.Dedup
import Mathlib.Logic.Relation
import StaticCompanion.Proofs.FailedSteps
import StaticCompanion.Proofs.Locality

/-!
# The loop over the worklist

The loop goes on for as long as there is something in the queue, while the bodies it looks at put
more into the queue. It ends nevertheless, with a result or with a fault: a key enters the queue at
most once, whoever calls whom and however often, so there are no more turns than the class has
methods. The budget of a drain therefore never stops it.
-/
namespace StaticCompanion.Scan

/-- The table of bootstrap methods, which is not read if there is nothing to do. -/
def bootstrapsOf (file : ClassFile) (work : Worklist) : Except ClassFault (List Bootstrap) :=
  if work.queue.isEmpty then .ok [] else file.bootstraps

/-- What comes before the loop: what the loop works against, and the worklist it starts with. -/
def approach (supported : NameSet) (file : ClassFile) : ScanM (Context × Worklist) := do
  let owner ← file.name
  let hiddenFields ← file.fields.foldlM (visitField supported file.pool owner) ∅
  let work ← surveyMethods supported file.pool owner file.methods
  let bootstraps ← bootstrapsOf file work
  return (⟨file.pool, bootstraps, hiddenFields⟩, work)

theorem scan_eq (supported : NameSet) (file : ClassFile) :
    scan supported file = (do
      let (context, work) ← approach supported file
      drain context (work.queue.length + work.hidden.size) work) := by
  simp only [scan, approach, bind_assoc, pure_bind]
  congr 1
  funext owner
  congr 1
  funext hiddenFields
  congr 1
  funext work
  unfold bootstrapsOf
  split
  · rename_i hqueue
    simp only [Survey.drain_eq_pure (List.isEmpty_iff.mp hqueue)]
    rfl
  · rfl

/-- The instructions of a method's body, none if it has no body. -/
def bodyOf (context : Context) (method : Member) : Except RelocationFault (List Instruction) := do
  match ← method.codeIn context.pool with
  | none => return []
  | some code => Instruction.decode code.bytes

theorem visitBody_eq (context : Context) (work : Worklist) (method : Member) :
    visitBody context work method = (do
      let instructions ← bodyOf context method
      instructions.foldlM (visitInstruction context) work) := by
  funext analysis
  unfold visitBody bodyOf
  cases hcode : method.codeIn context.pool with
  | error fault => rfl
  | ok code =>
    cases code with
    | none => rfl
    | some code =>
      simp only [bind, EStateM.bind, Except.bind, liftM, monadLift, MonadLift.monadLift]
      cases Instruction.decode code.bytes <;> rfl

/-- A method waits under this key, or it may follow under it. -/
def Worklist.Knows (work : Worklist) (entry : MemberKey × Member) : Prop :=
  entry ∈ work.queue ∨ work.hidden[entry.1]? = some entry.2

theorem Worklist.BelongsTo.of_knows {file : ClassFile} {owner : String} {work : Worklist}
    (h : work.BelongsTo file owner) {entry : MemberKey × Member} (hknown : work.Knows entry) :
    entry.2 ∈ file.methods ∧ entry.2.keyIn owner file.pool = .ok entry.1 := by
  rcases hknown with hqueue | hhidden
  · exact h.queue _ _ hqueue
  · exact h.hidden _ _ hhidden

/-- Where the loop stands. -/
structure Loop where
  work : Worklist
  /-- What is left of the body that is being looked at. -/
  pending : List Instruction
  /-- What has been taken from the queue, in this order. -/
  taken : List (MemberKey × Member)
  /-- The methods whose bodies have been read. -/
  read : List MemberKey

namespace Loop

def start (work : Worklist) : Loop := ⟨work, [], [], []⟩

/-- Everything that was ever in the queue, in its order. -/
def entries (loop : Loop) : List (MemberKey × Member) := loop.taken ++ loop.work.queue

def take (loop : Loop) (entry : MemberKey × Member) (queue : List (MemberKey × Member)) : Loop :=
  { loop with work := { loop.work with queue }, taken := loop.taken ++ [entry] }

/-- One turn of the loop, up to the body of the method that it takes from the queue. -/
def turn (context : Context) (loop : Loop) (key : MemberKey) (method : Member)
    (queue : List (MemberKey × Member)) : ScanM Loop := do
  let loop := loop.take (key, method) queue
  if (← get).methods.contains key then return loop
  else
    let moved ← key.movedMethod method.isStatic
    modify fun analysis => { analysis with methods := analysis.methods.insert key moved }
    let pending ← bodyOf context method
    return { loop with pending, read := loop.read ++ [key] }

/-- What the loop does next, in a body or between two bodies. It ends if the queue is empty. -/
def step (context : Context) (loop : Loop) : ScanM (Option Loop) :=
  match loop.pending, loop.work.queue with
  | instruction :: pending, _ => do
    let work ← visitInstruction context loop.work instruction
    return some { loop with work, pending }
  | [], (key, method) :: queue => return some (← loop.turn context key method queue)
  | [], [] => return none

/-- The loop gets from one place to another. -/
def Steps (context : Context) : Loop × Analysis → Loop × Analysis → Prop :=
  Relation.ReflTransGen fun before after =>
    before.1.step context before.2 = .ok (some after.1) after.2

/-- The loop comes to an end in this way. -/
inductive Ends (context : Context) :
    Loop → Analysis → EStateM.Result RelocationFault Analysis Unit → Prop
  | done {loop : Loop} {analysis left : Analysis}
      (h : loop.step context analysis = .ok none left) : Ends context loop analysis (.ok () left)
  | failed {loop : Loop} {analysis left : Analysis} {fault : RelocationFault}
      (h : loop.step context analysis = .error fault left) :
      Ends context loop analysis (.error fault left)
  | next {loop loop' : Loop} {analysis analysis' : Analysis}
      {result : EStateM.Result RelocationFault Analysis Unit}
      (h : loop.step context analysis = .ok (some loop') analysis')
      (hrest : Ends context loop' analysis' result) : Ends context loop analysis result

/-- What holds wherever the loop stands, if it has started with the worklist `first`. -/
structure Once (first : Worklist) (loop : Loop) : Prop where
  hidden : loop.work.hidden = first.hidden
  nodup : (loop.entries.map Prod.fst).Nodup
  staged : ∀ key, key ∈ loop.work.staged ↔ key ∈ loop.entries.map Prod.fst
  known : ∀ entry ∈ loop.entries, first.Knows entry
  read : loop.read.Sublist (loop.taken.map Prod.fst)

variable {context : Context} {first : Worklist} {loop loop' : Loop} {analysis analysis' : Analysis}
  {key : MemberKey} {method : Member} {queue : List (MemberKey × Member)}

theorem once_start {seeds hidden : List Header} (h : Worklist.Starts seeds hidden first) :
    Once first (start first) := by
  refine ⟨rfl, h.nodup, ?_, ?_, List.nil_sublist _⟩
  · intro key
    constructor
    · intro hstaged
      obtain ⟨method, hqueue⟩ := h.queue_of_staged key hstaged
      exact List.mem_map_of_mem (f := Prod.fst) hqueue
    · intro hentry
      obtain ⟨entry, hqueue, rfl⟩ := List.mem_map.mp hentry
      exact h.staged_of_queue hqueue
  · intro entry hentry
    exact .inl hentry

theorem Once.take (h : Once first loop) (hqueue : loop.work.queue = (key, method) :: queue) :
    Once first (loop.take (key, method) queue) := by
  have hentries : (loop.take (key, method) queue).entries = loop.entries := by
    simp [Loop.take, entries, hqueue]
  refine ⟨h.hidden, ?_, ?_, ?_, ?_⟩
  · rw [hentries]
    exact h.nodup
  · rw [hentries]
    exact h.staged
  · rw [hentries]
    exact h.known
  · rw [Loop.take, List.map_append]
    exact h.read.trans (List.sublist_append_left _ _)

/-- A key enters the queue only if it has never been there. -/
theorem Once.stage (h : Once first loop) (hknown : first.Knows (key, method)) :
    Once first { loop with work := loop.work.stage key method } := by
  by_cases hstaged : key ∈ loop.work.staged
  · rw [Worklist.stage_of_mem hstaged]
    exact h
  · rw [Worklist.stage_of_not_mem hstaged]
    have hentries : entries { loop with work := { loop.work with
        queue := loop.work.queue ++ [(key, method)]
        staged := loop.work.staged.insert key } } = loop.entries ++ [(key, method)] := by
      simp [entries]
    have hnew : key ∉ loop.entries.map Prod.fst := mt (h.staged key).mpr hstaged
    refine ⟨h.hidden, ?_, ?_, ?_, h.read⟩
    · rw [hentries, List.map_append]
      exact h.nodup.append (List.nodup_singleton key) (List.disjoint_singleton.mpr hnew)
    · intro other
      rw [hentries, Std.ExtTreeSet.mem_insert, Std.LawfulEqCmp.compare_eq_iff_eq, h.staged]
      simp [or_comm, eq_comm]
    · intro other hother
      rw [hentries] at hother
      rcases List.mem_append.mp hother with hold | hadded
      · exact h.known other hold
      · rw [List.mem_singleton.mp hadded]
        exact hknown

theorem Once.need (h : Once first loop) (moved : MemberMap) (key : MemberKey) :
    Once first { loop with work := loop.work.need moved key } := by
  unfold Worklist.need
  split
  · exact h
  · split
    · rename_i method hhidden
      rw [h.hidden] at hhidden
      exact h.stage (.inr hhidden)
    · exact h

theorem Once.needAll (h : Once first loop) (moved : MemberMap) (keys : List MemberKey) :
    Once first { loop with work := loop.work.needAll moved keys } := by
  induction keys generalizing loop with
  | nil => exact h
  | cons key keys ih => exact ih (h.need moved key)

theorem Once.pending (h : Once first loop) (pending : List Instruction) :
    Once first { loop with pending } :=
  ⟨h.hidden, h.nodup, h.staged, h.known, h.read⟩

theorem Once.look (h : Once first loop) {instruction : Instruction} {work : Worklist}
    (hlook : visitInstruction context loop.work instruction analysis = .ok work analysis') :
    Once first { loop with work } := by
  obtain ⟨use, -, rfl, -⟩ := visitInstruction_eq_ok.mp hlook
  exact h.needAll _ _

theorem turn_eq_ok (hturn : loop.turn context key method queue analysis = .ok loop' analysis') :
    loop' = loop.take (key, method) queue ∨ ∃ pending,
      loop' = { loop.take (key, method) queue with pending, read := loop.read ++ [key] } := by
  simp only [turn, state_bind_eq_ok, state_get_eq_ok] at hturn
  obtain ⟨_, _, ⟨rfl, rfl⟩, hturn⟩ := hturn
  split at hturn
  · exact .inl (state_pure_eq_ok.mp hturn).1.symm
  · simp only [state_bind_eq_ok, state_pure_eq_ok] at hturn
    obtain ⟨moved, _, -, _, _, -, pending, _, -, hsame, -⟩ := hturn
    exact .inr ⟨pending, hsame.symm⟩

theorem Once.turn (h : Once first loop) (hqueue : loop.work.queue = (key, method) :: queue)
    (hturn : loop.turn context key method queue analysis = .ok loop' analysis') :
    Once first loop' := by
  have htaken := h.take hqueue
  rcases turn_eq_ok hturn with rfl | ⟨pending, rfl⟩
  · exact htaken
  · refine ⟨htaken.hidden, htaken.nodup, htaken.staged, htaken.known, ?_⟩
    rw [Loop.take, List.map_append]
    exact h.read.append (List.Sublist.refl [key])

theorem taken_of_turn
    (hturn : loop.turn context key method queue analysis = .ok loop' analysis') :
    loop'.taken = loop.taken ++ [(key, method)] := by
  rcases turn_eq_ok hturn with rfl | ⟨pending, rfl⟩
  · rfl
  · rfl

theorem step_of_body {instruction : Instruction} {pending : List Instruction}
    (hpending : loop.pending = instruction :: pending) :
    loop.step context = (do
      let work ← visitInstruction context loop.work instruction
      return some { loop with work, pending }) := by
  simp only [step, hpending]

theorem step_of_queue (hpending : loop.pending = [])
    (hqueue : loop.work.queue = (key, method) :: queue) :
    loop.step context = (do return some (← loop.turn context key method queue)) := by
  simp only [step, hpending, hqueue]

theorem step_of_nil (hpending : loop.pending = []) (hqueue : loop.work.queue = []) :
    loop.step context = pure none := by
  simp only [step, hpending, hqueue]

theorem Once.step (h : Once first loop)
    (hstep : loop.step context analysis = .ok (some loop') analysis') : Once first loop' := by
  cases hpending : loop.pending with
  | cons instruction pending =>
    simp only [step_of_body hpending, state_bind_eq_ok, state_pure_eq_ok,
      Option.some.injEq] at hstep
    obtain ⟨work, _, hlook, rfl, -⟩ := hstep
    exact (h.look hlook).pending _
  | nil =>
    cases hqueue : loop.work.queue with
    | nil =>
      rw [step_of_nil hpending hqueue, state_pure_eq_ok] at hstep
      cases hstep.1
    | cons entry queue =>
      simp only [step_of_queue hpending hqueue, state_bind_eq_ok, state_pure_eq_ok,
        Option.some.injEq] at hstep
      obtain ⟨_, _, hturn, rfl, -⟩ := hstep
      exact h.turn hqueue hturn

theorem Once.steps (h : Once first loop)
    (hsteps : Steps context (loop, analysis) (loop', analysis')) : Once first loop' := by
  generalize hend : (loop', analysis') = after at hsteps
  induction hsteps generalizing loop' analysis' with
  | refl =>
    cases hend
    exact h
  | tail _ hstep ih =>
    cases hend
    exact (ih rfl).step hstep

theorem Once.length_le_of_keys (h : Once first loop) {keys : List MemberKey}
    (hkeys : ∀ entry, first.Knows entry → entry.1 ∈ keys) :
    loop.entries.length ≤ keys.length := by
  have hsubset : loop.entries.map Prod.fst ⊆ keys := by
    intro key hkey
    obtain ⟨entry, hentry, rfl⟩ := List.mem_map.mp hkey
    exact hkeys entry (h.known entry hentry)
  simpa using h.nodup.length_le_of_subset hsubset

theorem Once.length_le (h : Once first loop) :
    loop.entries.length ≤ first.queue.length + first.hidden.size := by
  have hkeys : ∀ entry, first.Knows entry →
      entry.1 ∈ first.queue.map Prod.fst ++ first.hidden.keys := by
    rintro entry (hqueue | hhidden)
    · exact List.mem_append_left _ (List.mem_map_of_mem hqueue)
    · have hmem : entry.1 ∈ first.hidden := Survey.mem_iff_exists_getElem?.mpr ⟨_, hhidden⟩
      exact List.mem_append_right _ (Std.ExtTreeMap.mem_keys.mpr hmem)
  simpa [Std.ExtTreeMap.length_keys] using h.length_le_of_keys hkeys

theorem drain_eq_turn (hpending : loop.pending = [])
    (hqueue : loop.work.queue = (key, method) :: queue) (budget : Nat) :
    drain context (budget + 1) loop.work = (do
      let loop ← loop.turn context key method queue
      let work ← loop.pending.foldlM (visitInstruction context) loop.work
      drain context budget work) := by
  simp only [drain, hqueue, turn, visitBody_eq, bind_assoc]
  congr 1
  funext analysis
  split
  · simp [take, hpending]
  · simp [take]

theorem ends_body {instructions : List Instruction} {next : Worklist → ScanM Unit}
    (honce : Once first loop)
    (hnext : ∀ work analysis, Once first { loop with work, pending := [] } →
      Ends context { loop with work, pending := [] } analysis (next work analysis)) :
    Ends context { loop with pending := instructions } analysis
      ((instructions.foldlM (visitInstruction context) loop.work >>= next) analysis) := by
  induction instructions generalizing loop analysis with
  | nil =>
    rw [List.foldlM_nil, pure_bind]
    exact hnext loop.work analysis (honce.pending [])
  | cons instruction instructions ih =>
    rw [List.foldlM_cons, bind_assoc]
    cases hlook : visitInstruction context loop.work instruction analysis with
    | error fault left =>
      rw [state_bind_of_error hlook]
      apply Ends.failed
      rw [step_of_body rfl]
      exact state_bind_of_error hlook
    | ok work analysis' =>
      rw [state_bind_of_ok hlook]
      have hstep : step context { loop with pending := instruction :: instructions } analysis =
          .ok (some { loop with work, pending := instructions }) analysis' := by
        rw [step_of_body rfl]
        exact state_bind_of_ok hlook
      exact .next hstep (ih (honce.look hlook) hnext)

/-- A drain ends as the loop does, unless its budget is too small. -/
theorem ends_drain {budget : Nat} (honce : Once first loop) (hpending : loop.pending = [])
    (hbudget : first.queue.length + first.hidden.size ≤ budget + loop.taken.length) :
    Ends context loop analysis (drain context budget loop.work analysis) := by
  induction budget generalizing loop analysis with
  | zero =>
    -- As much has been taken as can ever be queued, so nothing is left in the queue.
    have hlength := honce.length_le
    rw [entries, List.length_append] at hlength
    have hqueue : loop.work.queue = [] := List.eq_nil_of_length_eq_zero (by omega)
    apply Ends.done
    rw [step_of_nil hpending hqueue]
    rfl
  | succ budget ih =>
    cases hqueue : loop.work.queue with
    | nil =>
      rw [Survey.drain_eq_pure hqueue]
      apply Ends.done
      rw [step_of_nil hpending hqueue]
      rfl
    | cons entry queue =>
      rw [drain_eq_turn hpending hqueue]
      cases hturn : loop.turn context entry.1 entry.2 queue analysis with
      | error fault left =>
        rw [state_bind_of_error hturn]
        apply Ends.failed
        rw [step_of_queue hpending hqueue]
        exact state_bind_of_error hturn
      | ok loop' analysis' =>
        rw [state_bind_of_ok hturn]
        have hstep : loop.step context analysis = .ok (some loop') analysis' := by
          rw [step_of_queue hpending hqueue]
          exact state_bind_of_ok hturn
        apply Ends.next hstep
        apply ends_body (honce.turn hqueue hturn)
        intro work analysis'' honce'
        apply ih honce' rfl
        rw [taken_of_turn hturn, List.length_append, List.length_singleton]
        omega

/-- What the loop does once for each key at most, in a class whose methods have these keys. -/
structure WorksOnce (file : ClassFile) (owner : String) (keys : List MemberKey) (loop : Loop) :
    Prop where
  nodup : (loop.entries.map Prod.fst).Nodup
  staged : ∀ key, key ∈ loop.work.staged ↔ key ∈ loop.entries.map Prod.fst
  /-- Whatever was in the queue is staged, and a staged key stands for one method: a method of the
  class that has this key. -/
  found : ∀ key ∈ loop.work.staged, ∃ method ∈ file.methods,
    method.keyIn owner file.pool = .ok key ∧
      ∀ other, (key, other) ∈ loop.entries ↔ other = method
  nodup_read : loop.read.Nodup
  read : loop.read ⊆ loop.taken.map Prod.fst
  /-- What is still in the queue has not been read. -/
  unread : ∀ entry ∈ loop.work.queue, entry.1 ∉ loop.read
  /-- A turn takes one entry, so there are as many turns as entries, if no fault comes up. -/
  length : loop.entries.length ≤ keys.dedup.length

theorem Once.worksOnce (h : Once first loop) {file : ClassFile} {owner : String}
    {keys : List MemberKey}
    (hkeys : file.methods.mapM (Member.keyIn · owner file.pool) = .ok keys)
    (hbelongs : first.BelongsTo file owner) : loop.WorksOnce file owner keys := by
  have hlisted : ∀ entry, first.Knows entry → entry.1 ∈ keys.dedup := by
    intro entry hknown
    obtain ⟨hmem, hkey⟩ := hbelongs.of_knows hknown
    obtain ⟨key, hlisted, hkey'⟩ := forall₂_mem_left (except_mapM_eq_ok.mp hkeys) hmem
    rw [Except.ok.inj (hkey.symm.trans hkey')]
    exact List.mem_dedup.mpr hlisted
  have hsplit := h.nodup
  rw [entries, List.map_append, List.nodup_append] at hsplit
  obtain ⟨htaken, -, happart⟩ := hsplit
  refine ⟨h.nodup, h.staged, ?_, htaken.sublist h.read, h.read.subset, ?_,
    h.length_le_of_keys hlisted⟩
  · intro key hstaged
    obtain ⟨entry, hentry, rfl⟩ := List.mem_map.mp ((h.staged key).mp hstaged)
    obtain ⟨hmem, hkey⟩ := hbelongs.of_knows (h.known entry hentry)
    refine ⟨entry.2, hmem, hkey, fun other => ⟨fun hother => ?_, ?_⟩⟩
    · exact congrArg Prod.snd (List.inj_on_of_nodup_map h.nodup hother hentry rfl)
    · rintro rfl
      exact hentry
  · intro entry hmem hread
    exact happart entry.1 (h.read.subset hread) entry.1 (List.mem_map_of_mem hmem) rfl

end Loop

section Approach
variable {supported : NameSet} {file : ClassFile} {analysis begun : Analysis} {context : Context}
  {work : Worklist}

/-- The loop starts with methods of the class, and no others can follow. -/
theorem exists_keys_of_approach
    (h : approach supported file analysis = .ok (context, work) begun) :
    ∃ owner keys, file.name = .ok owner ∧
      file.methods.mapM (Member.keyIn · owner file.pool) = .ok keys ∧
      work.BelongsTo file owner ∧ Loop.Once work (.start work) := by
  simp only [approach, state_bind_eq_ok, state_lift_eq_ok, lift_class_eq_ok, lift_relocation_eq_ok,
    state_pure_eq_ok, Prod.mk.injEq] at h
  obtain ⟨owner, _, ⟨howner, -⟩, hiddenFields, _, -, _, _, ⟨hsurvey, -⟩, bootstraps, _, -,
    ⟨-, rfl⟩, -⟩ := h
  obtain ⟨headers, hheaders, rfl⟩ := surveyMethods_eq_ok.mp hsurvey
  have hkeys : file.methods.mapM (Member.keyIn · owner file.pool) =
      .ok (headers.map Header.key) := by
    rw [except_mapM_eq_ok, List.forall₂_map_right_iff]
    apply (except_mapM_eq_ok.mp hheaders).imp
    intro method header hread
    exact (Header.read_eq_ok hread).2.1
  exact ⟨owner, headers.map Header.key, howner, hkeys, belongsTo_of_surveyMethods hsurvey,
    Loop.once_start (Worklist.starts_foldl headers)⟩

/-- The loop of a scan works off every method at most once, whatever class is scanned and whatever
has been found before, and it ends as the scan does. If a fault comes up before it, the scan has
this fault. -/
theorem scan_endsAsLoop (supported : NameSet) (file : ClassFile) (analysis : Analysis) :
    match approach supported file analysis with
    | .error fault left => scan supported file analysis = .error fault left
    | .ok (context, work) begun =>
      Loop.Ends context (.start work) begun (scan supported file analysis) ∧
        ∃ owner keys, file.name = .ok owner ∧
          file.methods.mapM (Member.keyIn · owner file.pool) = .ok keys ∧
          ∀ loop reached, Loop.Steps context (.start work, begun) (loop, reached) →
            loop.WorksOnce file owner keys := by
  rw [scan_eq]
  cases happroach : approach supported file analysis with
  | error fault left => exact state_bind_of_error happroach
  | ok result begun =>
    obtain ⟨context, work⟩ := result
    obtain ⟨owner, keys, howner, hkeys, hbelongs, honce⟩ := exists_keys_of_approach happroach
    rw [state_bind_of_ok happroach]
    constructor
    · exact Loop.ends_drain honce rfl (Nat.le_add_right _ _)
    · refine ⟨owner, keys, howner, hkeys, ?_⟩
      intro loop reached hsteps
      exact (honce.steps hsteps).worksOnce hkeys hbelongs

end Approach

end StaticCompanion.Scan
