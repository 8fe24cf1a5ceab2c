import StaticCompanion.Proofs.MappedMembers
import StaticCompanion.Proofs.TurnedClass

/-!
# Companions are self-contained

A companion stands in another class, so it may not use what only the class of its members can see.
The scan lets every hidden member follow that a moved body uses, the copy uses what the body uses,
and turning the copy takes each of these uses to where the hidden member has moved. Nothing leads
back, unless some other class has the class itself as its companion.
-/
namespace StaticCompanion

section Closed
variable {supported : NameSet} {file : ClassFile} {owner : String} {start analysis : Analysis}

/-- Every member of the class that moves has brought along the hidden members that its body uses. -/
def ClassFile.ClosedUnder (file : ClassFile) (owner : String) (analysis : Analysis) : Prop :=
  ∀ method ∈ file.methods, ∀ key, method.keyIn owner file.pool = .ok key → key ∈ analysis.methods →
    ∃ table uses, file.bootstraps = .ok table ∧ method.uses file.pool table = .ok uses ∧
      (∀ next, .field next ∈ uses → file.HidesField owner next → next ∈ analysis.fields) ∧
      ∀ use ∈ uses, ∀ next, use.method? = some next → file.HidesMethod owner next →
        next ∈ analysis.methods

theorem owner_of_hidesMethod {key : MemberKey} (h : file.HidesMethod owner key) :
    key.owner = owner := by
  obtain ⟨method, -, hkey, -⟩ := h
  exact (Member.keyIn_eq_ok.mp hkey).1

theorem owner_of_hidesField {key : MemberKey} (h : file.HidesField owner key) :
    key.owner = owner := by
  obtain ⟨field, -, hkey, -⟩ := h
  exact (Member.keyIn_eq_ok.mp hkey).1

section Scanned
variable (hname : file.name = .ok owner) (hdistinct : file.DistinctMethods)
  (hnothing : start.MovesNothingFrom owner)
  (hscan : Scan.scan supported file start = .ok () analysis)
include hname hdistinct hnothing hscan

theorem exists_uses_of_moves {method : Member} {key : MemberKey} (hmem : method ∈ file.methods)
    (hkey : method.keyIn owner file.pool = .ok key) (hmoves : file.Moves supported owner key) :
    ∃ table uses, file.bootstraps = .ok table ∧ method.uses file.pool table = .ok uses := by
  obtain ⟨survey, hsurvey, hsound, -⟩ := Scan.Survey.scan_eq_ok_iff.mp hscan
  obtain rfl := Except.ok.inj ((Scan.Survey.ofFile_eq_ok.mp hsurvey).1.symm.trans hname)
  have hreaches := Scan.Survey.reaches_of_moves hsurvey hdistinct hsound
    (fun key howner => (hnothing key howner).2) hmoves
  obtain ⟨visit, hvisit⟩ := hsound key hreaches
  obtain ⟨user, huser, uses, huserKey, -, huses, -⟩ := Scan.Survey.of_visit hsurvey hreaches hvisit
  obtain rfl := hdistinct.eq hmem hkey huser huserKey
  exact ⟨_, uses, Scan.Survey.bootstraps_of_reaches hsurvey hreaches, huses⟩

/-- A scan of a class of which nothing has moved yet lets follow all that has to. -/
theorem closedUnder_of_scan : file.ClosedUnder owner analysis := by
  intro method hmem key hkey hmapped
  have hmoves_iff {key : MemberKey} (howner : key.owner = owner) :=
    Scan.mem_scan_iff hname hdistinct hnothing hscan howner
  have hmoves := (hmoves_iff (Member.keyIn_eq_ok.mp hkey).1).1.mp hmapped
  obtain ⟨table, uses, htable, huses⟩ :=
    exists_uses_of_moves hname hdistinct hnothing hscan hmem hkey hmoves
  have hused {use : Use} : use ∈ uses → file.Uses method use :=
    (ClassFile.uses_iff htable huses).mpr
  refine ⟨table, uses, htable, huses, ?_, ?_⟩
  · intro next huse hhidden
    exact (hmoves_iff (owner_of_hidesField hhidden)).2.mpr
      (.followed hmoves hmem hkey (hused huse) hhidden)
  · intro use huse next hmethod hhidden
    exact (hmoves_iff (owner_of_hidesMethod hhidden)).1.mpr
      (.followed hmoves hmem hkey (hused huse) hmethod hhidden)

end Scanned

theorem mem_of_agreesOn {analysis' : Analysis} (h : analysis.AgreesOn owner analysis')
    {key : MemberKey} (hkey : key.owner = owner) :
    (key ∈ analysis'.fields ↔ key ∈ analysis.fields) ∧
      (key ∈ analysis'.methods ↔ key ∈ analysis.methods) := by
  simp only [Std.ExtTreeMap.mem_iff_isSome_getElem?, h key hkey, and_self]

theorem ClassFile.ClosedUnder.of_agreesOn (h : file.ClosedUnder owner start)
    (hagrees : start.AgreesOn owner analysis) : file.ClosedUnder owner analysis := by
  intro method hmem key hkey hmoves
  obtain ⟨-, hmapped⟩ := mem_of_agreesOn hagrees (Member.keyIn_eq_ok.mp hkey).1
  obtain ⟨table, uses, htable, huses, hfields, hmethods⟩ :=
    h method hmem key hkey (hmapped.mp hmoves)
  refine ⟨table, uses, htable, huses, ?_, ?_⟩
  · intro next huse hhidden
    obtain ⟨hmapped, -⟩ := mem_of_agreesOn hagrees (owner_of_hidesField hhidden)
    exact hmapped.mpr (hfields next huse hhidden)
  · intro use huse next hmethod hhidden
    obtain ⟨-, hmapped⟩ := mem_of_agreesOn hagrees (owner_of_hidesMethod hhidden)
    exact hmapped.mpr (hmethods use huse next hmethod hhidden)

end Closed

section Copies
variable {analysis : Analysis} {owners : Option NameSet} {base companion turned : ClassFile}
  {owner : String}

/-- A method of a companion that was turned, other than the constructor, uses what the method uses
that it was copied from, where that has moved to. -/
theorem exists_original (hcompanion : Companion.CompanionOf analysis base owner companion)
    (hturned : Retarget.TurnedClass analysis owners companion turned) {copy : Member}
    (hcopy : copy ∈ turned.methods.tail) :
    ∃ method ∈ base.methods, ∃ key, method.keyIn owner base.pool = .ok key ∧
      key ∈ analysis.methods ∧ ∀ table uses, base.bootstraps = .ok table →
        method.uses base.pool table = .ok uses →
          ∀ use, turned.Uses copy use ↔ use ∈ uses.map (Use.turn analysis owners) := by
  obtain ⟨moving, hmoving, hcopies⟩ := hcompanion.methods
  obtain ⟨table, table', htable, htable', hsame⟩ := hcompanion.uses
  have hrows := hturned.uses htable'
  have htails : List.Forall₂ (fun method method' => ∀ uses,
      method.uses companion.pool table' = .ok uses → ∀ use, turned.Uses method' use ↔
        use ∈ uses.map (Use.turn analysis owners)) companion.methods.tail turned.methods.tail := by
    rw [← List.drop_one, ← List.drop_one]
    exact List.forall₂_drop 1 hrows
  obtain ⟨middle, hmiddle, hturnedUses⟩ := forall₂_mem_right htails hcopy
  obtain ⟨method, hmethod, hcopied, -⟩ := forall₂_mem_right hcopies hmiddle
  obtain ⟨hmem, key, hkey, hmoves⟩ := (Companion.mem_movingMethods hmoving).mp hmethod
  refine ⟨method, hmem, key, hkey, hmoves, ?_⟩
  intro table₁ uses htable₁ huses
  obtain rfl := Except.ok.inj (htable.symm.trans htable₁)
  have hcopyUses := hcopied.uses (Member.uses_of_le hcompanion.grows huses)
  exact hturnedUses uses (hsame middle hmiddle uses hcopyUses)

/-- If every hidden member that is met has moved, and none has moved into the class, what is met
afterwards is not hidden. -/
theorem not_hidden_of_getD {map : MemberMap} {hides : MemberKey → Prop}
    (howner : ∀ key, hides key → key.owner = owner)
    (hinto : ∀ key value : MemberKey, map[key]? = some value → value.owner ≠ owner)
    {key : MemberKey} (hmoves : hides key → key ∈ map) : ¬ hides (map[key]?.getD key) := by
  intro hhidden
  cases hvalue : map[key]? with
  | none =>
    rw [hvalue] at hhidden
    obtain ⟨value, hvalue'⟩ := Scan.Survey.mem_iff_exists_getElem?.mp (hmoves hhidden)
    rw [hvalue] at hvalue'
    cases hvalue'
  | some value =>
    rw [hvalue] at hhidden
    exact hinto key value hvalue (howner value hhidden)

end Copies

/-- In the companion of a class, once its references are turned, no copied body accesses a hidden
field of the class, calls a hidden method of it, or makes a plain lambda of one. It is supposed that
nothing of the class had moved before its scan, that nothing has moved into the class, and that the
scans before and after, which may as well fail, are of other classes that have other companions. -/
theorem companion_selfContained {supported : NameSet} {file companion turned : ClassFile}
    {owner : String} {start analysis : Analysis} {before after : List ClassFile}
    (hname : file.name = .ok owner) (hfits : file.pool.Fits) (hdistinct : file.DistinctMethods)
    (hnothing : start.MovesNothingFrom owner) (hinto : start.MovesNothingInto owner)
    (hbefore : ∀ other ∈ before, other.KeepsOff owner)
    (hafter : ∀ other ∈ after, other.KeepsOff owner)
    (hscan : Scan.scan supported file (Scan.leaveAll supported start before) = .ok () analysis)
    (hcompanion : file.companion (Scan.leaveAll supported analysis after) = .ok (some companion))
    (hturned : companion.retarget (Scan.leaveAll supported analysis after) none = .ok turned)
    {copy : Member} (hcopy : copy ∈ turned.methods.tail) (key : MemberKey) :
    (turned.Uses copy (.field key) → ¬ file.HidesField owner key) ∧
      (turned.Uses copy (.call key) → ¬ file.HidesMethod owner key) ∧
      (turned.Uses copy (.lambda metafactory key) → ¬ file.HidesMethod owner key) := by
  obtain ⟨hagreesBefore, hintoBefore⟩ := @Scan.leaveAll_keeps supported _ _ hbefore start
  obtain ⟨hagreesAfter, hintoAfter⟩ := @Scan.leaveAll_keeps supported _ _ hafter analysis
  have hfresh : (Scan.leaveAll supported start before).MovesNothingFrom owner := by
    intro key hkey
    obtain ⟨hfields, hmethods⟩ := mem_of_agreesOn hagreesBefore hkey
    exact ⟨hfields.not.mpr (hnothing key hkey).1, hmethods.not.mpr (hnothing key hkey).2⟩
  have hextends := Scan.extendsFor_of_scan hname hscan
  replace hinto := hintoAfter
    (hextends.movesNothingInto (companionName_ne owner) (hintoBefore hinto))
  -- The scans after that of the class leave what it has found about its members as it is.
  have hclosed := (closedUnder_of_scan hname hdistinct hfresh hscan).of_agreesOn hagreesAfter
  obtain ⟨name, hof⟩ := Companion.companionOf_of_companion hfits hcompanion
  obtain rfl := Except.ok.inj (hof.ofBase.symm.trans hname)
  obtain ⟨method, hmem, caller, hcaller, hmoves, huses⟩ :=
    exists_original hof (Retarget.turnedClass_of_retarget hof.fits hturned) hcopy
  obtain ⟨table, uses, htable, hread, hfields, hmethods⟩ :=
    hclosed method hmem caller hcaller hmoves
  simp only [huses table uses htable hread, List.mem_map]
  refine ⟨?_, ?_, ?_⟩
  · rintro ⟨use, huse, hturn⟩
    cases use with
    | field next =>
      obtain rfl := Use.field.inj hturn
      exact not_hidden_of_getD (fun _ => owner_of_hidesField)
        (fun key value h => hinto key value (.inl h)) (hfields next huse)
    | _ => cases hturn
  · rintro ⟨use, huse, hturn⟩
    cases use with
    | call next =>
      obtain rfl := Use.call.inj hturn
      exact not_hidden_of_getD (fun _ => owner_of_hidesMethod)
        (fun key value h => hinto key value (.inr h)) (hmethods _ huse next rfl)
    | _ => cases hturn
  · rintro ⟨use, huse, hturn⟩
    cases use with
    | lambda factory next =>
      obtain ⟨rfl, rfl⟩ := Use.lambda.inj hturn
      rw [if_pos rfl]
      exact not_hidden_of_getD (fun _ => owner_of_hidesMethod)
        (fun key value h => hinto key value (.inr h)) (hmethods _ huse next rfl)
    | _ => cases hturn

def turnedCompanion? (supported : NameSet) (before : List ClassFile) (file : ClassFile) :
    Except RelocationFault (Option ClassFile) := do
  let analysis ← Scan.extend supported (Scan.leaveAll supported .empty before) file
  match ← file.companion analysis with
  | some companion => some <$> companion.retarget analysis none
  | none => return none

theorem turnedCompanion?_eq_some {supported : NameSet} {before : List ClassFile}
    {file turned : ClassFile} :
    (turnedCompanion? supported before file).toOption.join = some turned ↔
      ∃ analysis companion,
        Scan.scan supported file (Scan.leaveAll supported .empty before) = .ok () analysis ∧
        file.companion analysis = .ok (some companion) ∧
        companion.retarget analysis none = .ok turned := by
  simp only [Option.join_eq_some_iff, toOption_eq_some, turnedCompanion?, except_bind_eq_ok,
    Scan.extend_eq_ok]
  apply exists_congr
  intro analysis
  constructor
  · rintro ⟨hscan, found, hcompanion, hturned⟩
    cases found with
    | none => cases hturned
    | some companion =>
      dsimp only at hturned
      obtain ⟨turned', hmade, hsame⟩ := except_map_eq_ok.mp hturned
      obtain rfl := Option.some.inj hsame
      exact ⟨companion, hscan, hcompanion, hmade⟩
  · rintro ⟨companion, hscan, hcompanion, hturned⟩
    exact ⟨hscan, some companion, hcompanion, except_map_eq_ok.mpr ⟨turned, hturned, rfl⟩⟩

/-- A class is scanned after another one, and its companion uses nothing that is hidden in it. -/
theorem companion_selfContained_of_callers :
    let file := ClassFile.caller "p/C" "m" "p/C" "a" "a"
    let other := ClassFile.caller "p/D" "m" "p/C" "m" "b"
    ∃ analysis companion turned, Scan.scan markNames file
        (Scan.leaveAll markNames .empty [other]) = .ok () analysis ∧
      file.companion analysis = .ok (some companion) ∧
      companion.retarget analysis none = .ok turned ∧
      turned.methods.tail.length = 2 ∧ ∀ copy ∈ turned.methods.tail, ∀ key,
        turned.Uses copy (.call key) → ¬ file.HidesMethod "p/C" key := by
  intro file other
  have hrun : (turnedCompanion? markNames [other] file).toOption.join.map
      (fun turned => turned.methods.tail.length) = some 2 := by decide +kernel
  obtain ⟨turned, hfound, hlen⟩ := Option.map_eq_some_iff.mp hrun
  obtain ⟨analysis, companion, hscan, hcompanion, hturned⟩ := turnedCompanion?_eq_some.mp hfound
  refine ⟨analysis, companion, turned, hscan, hcompanion, hturned, hlen, ?_⟩
  intro copy hcopy key
  have hinto : Analysis.empty.MovesNothingInto "p/C" := by
    rintro key value (h | h) <;> simp [Analysis.empty] at h
  have hother : ∀ class' ∈ [other], class'.KeepsOff "p/C" := by
    intro class' hclass name hname
    obtain rfl := List.mem_singleton.mp hclass
    obtain rfl := Except.ok.inj (hname.symm.trans (show other.name = .ok "p/D" by rfl))
    decide
  have hnone : ∀ class' ∈ ([] : List ClassFile), class'.KeepsOff "p/C" := by simp
  exact (companion_selfContained (by rfl) (by decide) (by decide +kernel)
    (Analysis.movesNothingFrom_empty _) hinto hother hnone hscan hcompanion hturned hcopy key).2.1

/-- When a class has the name of another one's companion, the members of that other one move into
it. Its own companion then calls what is hidden in it. -/
theorem companion_uses_hidden_of_clash :
    let file := ClassFile.caller "p/DesugarF" "a" "p/F" "m" "m"
    let other := ClassFile.caller "p/F" "m" "p/F" "h" "h"
    file.name = .ok "p/DesugarF" ∧ file.pool.Fits ∧ file.DistinctMethods ∧
      other.name = .ok "p/F" ∧ ∃ analysis companion turned, Scan.scan markNames file
        (Scan.leaveAll markNames .empty [other]) = .ok () analysis ∧
      file.companion analysis = .ok (some companion) ∧
      companion.retarget analysis none = .ok turned ∧
      ∃ copy ∈ turned.methods.tail, turned.Uses copy (.call ⟨"p/DesugarF", "m", "()V"⟩) ∧
        file.HidesMethod "p/DesugarF" ⟨"p/DesugarF", "m", "()V"⟩ := by
  intro file other
  refine ⟨rfl, by decide, by decide +kernel, rfl, ?_⟩
  have hrun : (turnedCompanion? markNames [other] file).toOption.join.bind
      (fun turned => (do
        let table ← turned.bootstraps
        turned.methods.tail.mapM (Member.uses turned.pool table) :
          Except RelocationFault (List (List Use))).toOption) =
      some [[.call ⟨"p/DesugarF", "m", "()V"⟩]] := by decide +kernel
  obtain ⟨turned, hfound, huses⟩ := Option.bind_eq_some_iff.mp hrun
  obtain ⟨analysis, companion, hscan, hcompanion, hturned⟩ := turnedCompanion?_eq_some.mp hfound
  simp only [toOption_eq_some, except_bind_eq_ok, lift_class_eq_ok, except_mapM_eq_ok] at huses
  obtain ⟨table, htable, hcopies⟩ := huses
  obtain ⟨copy, hcopy, huses⟩ := forall₂_mem_right hcopies List.mem_cons_self
  have hcalls := (ClassFile.uses_iff htable huses).mpr List.mem_cons_self
  exact ⟨analysis, companion, turned, hscan, hcompanion, hturned, copy, hcopy, hcalls, _,
    List.mem_cons_of_mem _ List.mem_cons_self, by decide +kernel, by decide, by decide⟩

end StaticCompanion
