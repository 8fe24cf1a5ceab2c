import Mathlib.Logic.Relation
import StaticCompanion.Proofs.SettledTypes

/-!
# The ends of chains

The replacement of a type is the end of its chain, and a chain has no end just if it runs into a
circle. A chain can be followed without a budget as well, by giving up at the first name that comes
again: each step takes a name from those that have not been seen, so this ends, and what it gives
is what the search with the budget gives.
-/
namespace StaticCompanion.Analysis
open Relation

/-- The map replaces the first name by the second one. -/
def Leads (types : NameMap) (name next : String) : Prop := types[name]? = some next

section Chains
variable {types : NameMap} {name next other last : String}

theorem Leads.mem (h : Leads types name next) : name ∈ types := by
  rw [Std.ExtTreeMap.mem_iff_isSome_getElem?, h]
  rfl

theorem leads_rightUnique (types : NameMap) : Relator.RightUnique (Leads types) := by
  intro name next next' h h'
  exact Option.some.inj (h.symm.trans h')

theorem getElem?_eq_none_iff : types[name]? = none ↔ name ∉ types := by
  rw [Std.ExtTreeMap.mem_iff_isSome_getElem?, Option.not_isSome_iff_eq_none]

theorem mem_of_transGen (h : TransGen (Leads types) name last) : name ∈ types := by
  obtain ⟨next, hnext, -⟩ := TransGen.head'_iff.mp h
  exact hnext.mem

theorem eq_of_reflTransGen_end (hlast : last ∉ types) (h : ReflTransGen (Leads types) last other) :
    other = last := by
  cases ReflTransGen.cases_head h with
  | inl hsame => exact hsame.symm
  | inr hstep =>
    obtain ⟨next, hnext, -⟩ := hstep
    exact absurd hnext.mem hlast

theorem reflTransGen_end (hlast : last ∉ types) (h : ReflTransGen (Leads types) name last)
    (hother : ReflTransGen (Leads types) name other) : ReflTransGen (Leads types) other last := by
  cases ReflTransGen.total_of_right_unique (leads_rightUnique types) h hother with
  | inl hbehind => rw [eq_of_reflTransGen_end hlast hbehind]
  | inr hahead => exact hahead

theorem not_circle_of_end (hlast : last ∉ types) (h : ReflTransGen (Leads types) name last) :
    ¬ TransGen (Leads types) name name := by
  induction h using ReflTransGen.head_induction_on with
  | refl => exact fun hcircle => hlast (mem_of_transGen hcircle)
  | head hstep _ ih =>
    intro hcircle
    obtain ⟨next, hstep', hback⟩ := TransGen.head'_iff.mp hcircle
    have hsame := leads_rightUnique types hstep hstep'
    rw [← hsame] at hback
    exact ih (TransGen.tail' hback hstep)

end Chains

/-! ### Following a chain -/

/-- How many names that have a replacement have not been seen. -/
def unseen (types : NameMap) (seen : NameSet) : Nat :=
  (types.keys.filter (· ∉ seen)).length

section Unseen
variable {types : NameMap} {seen : NameSet} {name next : String}

theorem unseen_insert_lt (hmem : name ∈ types) (hnew : name ∉ seen) :
    unseen types (seen.insert name) < unseen types seen := by
  have hrest : types.keys.filter (· ∉ seen.insert name) =
      (types.keys.filter (· ∉ seen)).filter (· ≠ name) := by
    rw [List.filter_filter]
    apply List.filter_congr
    intro other _
    simp [Std.ExtTreeSet.mem_insert, Std.LawfulEqCmp.compare_eq_iff_eq, eq_comm (a := name)]
  unfold unseen
  rw [hrest, List.length_filter_lt_length_iff_exists]
  exact ⟨name, by simpa using ⟨hmem, hnew⟩, by simp⟩

theorem unseen_empty (types : NameMap) : unseen types ∅ = types.size := by
  simp [unseen]

end Unseen

/-- The end of the chain that starts at a name. The search gives up at a name that it has seen. -/
def follow (types : NameMap) (seen : NameSet) (name : String) : Option String :=
  if _hnew : name ∈ seen then none
  else
    match _hnext : types[name]? with
    | some next => follow types (seen.insert name) next
    | none => some name
termination_by unseen types seen
decreasing_by exact unseen_insert_lt (Leads.mem _hnext) _hnew

section Follow
variable {types : NameMap} {seen : NameSet} {name next last : String} {budget : Nat}

/-- What has been seen leads to where the search is. -/
def Precedes (types : NameMap) (seen : NameSet) (name : String) : Prop :=
  ∀ other ∈ seen, TransGen (Leads types) other name

theorem Precedes.insert (h : Precedes types seen name) (hnext : Leads types name next) :
    Precedes types (seen.insert name) next := by
  intro other hother
  cases Std.ExtTreeSet.mem_insert.mp hother with
  | inl hsame =>
    rw [← Std.LawfulEqCmp.compare_eq_iff_eq.mp hsame]
    exact .single hnext
  | inr hold => exact (h other hold).tail hnext

/-- What the search finds is the end of the chain. -/
theorem follow_eq_some_iff (hseen : Precedes types seen name) :
    follow types seen name = some last ↔ ReflTransGen (Leads types) name last ∧ last ∉ types := by
  fun_induction follow types seen name with
  | case1 seen name hmem =>
    simp only [reduceCtorEq, false_iff, not_and, not_not]
    intro hchain
    by_contra hlast
    exact not_circle_of_end hlast hchain (hseen name hmem)
  | case2 seen name hnew next hnext ih =>
    rw [ih (hseen.insert hnext)]
    apply and_congr_left
    intro hlast
    constructor
    · exact .head hnext
    · intro hchain
      exact reflTransGen_end hlast hchain (.single hnext)
  | case3 seen name hnew hend =>
    have hname : name ∉ types := getElem?_eq_none_iff.mp hend
    rw [Option.some.injEq]
    constructor
    · intro hsame
      rw [← hsame]
      exact ⟨.refl, hname⟩
    · intro hchain
      exact (eq_of_reflTransGen_end hname hchain.1).symm

/-- A search that gives up has run into a circle. -/
theorem circle_of_follow (hseen : Precedes types seen name) (h : follow types seen name = none) :
    ∃ other, ReflTransGen (Leads types) name other ∧ TransGen (Leads types) other other := by
  fun_induction follow types seen name with
  | case1 seen name hmem => exact ⟨name, .refl, hseen name hmem⟩
  | case2 seen name hnew next hnext ih =>
    obtain ⟨other, hother, hcircle⟩ := ih (hseen.insert hnext) h
    exact ⟨other, .head hnext hother, hcircle⟩
  | case3 => cases h

theorem end_of_chainEnd (h : chainEnd types budget name = some last) :
    ReflTransGen (Leads types) name last ∧ last ∉ types := by
  refine ⟨?_, getElem?_eq_none_iff.mp (chainEnd_final h)⟩
  induction budget generalizing name with
  | zero => cases h
  | succ budget ih =>
    unfold chainEnd at h
    split at h
    · rename_i next hnext
      exact .head hnext (ih h)
    · rw [Option.some.inj h]

/-- A budget for all names that have not been seen is enough. -/
theorem chainEnd_eq_follow (hseen : Precedes types seen name)
    (hbudget : unseen types seen < budget) :
    chainEnd types budget name = follow types seen name := by
  fun_induction follow types seen name generalizing budget with
  | case1 seen name hmem =>
    apply Option.eq_none_iff_forall_ne_some.mpr
    intro last h
    have hend := end_of_chainEnd h
    exact not_circle_of_end hend.2 hend.1 (hseen name hmem)
  | case2 seen name hnew next hnext ih =>
    have hless := unseen_insert_lt (Leads.mem hnext) hnew
    cases budget with
    | zero => exact absurd hbudget (Nat.not_lt_zero _)
    | succ budget =>
      rw [chainEnd, hnext]
      exact ih (hseen.insert hnext) (by omega)
  | case3 seen name hnew hend =>
    cases budget with
    | zero => exact absurd hbudget (Nat.not_lt_zero _)
    | succ budget => rw [chainEnd, hend]

end Follow

section Replacements
variable {analysis : Analysis} {name next other last : String}

theorem precedes_first (hnext : Leads analysis.types name next) :
    Precedes analysis.types ((∅ : NameSet).insert name) next := by
  apply Precedes.insert _ hnext
  intro other hother
  exact absurd hother Std.ExtTreeSet.not_mem_empty

theorem replacementType_eq_follow (analysis : Analysis) (name : String) :
    analysis.replacementType name =
      analysis.types[name]?.bind (follow analysis.types ((∅ : NameSet).insert name)) := by
  unfold replacementType
  apply Option.bind_congr
  intro next hnext
  apply chainEnd_eq_follow (precedes_first hnext)
  have hless := unseen_insert_lt (Leads.mem hnext) (Std.ExtTreeSet.not_mem_empty (k := name))
  rwa [unseen_empty] at hless

theorem replacementType_eq_some_iff : analysis.replacementType name = some last ↔
    TransGen (Leads analysis.types) name last ∧ last ∉ analysis.types := by
  rw [replacementType_eq_follow, Option.bind_eq_some_iff, TransGen.head'_iff]
  constructor
  · intro h
    obtain ⟨next, hnext, hfollow⟩ := h
    have hend := (follow_eq_some_iff (precedes_first hnext)).mp hfollow
    exact ⟨⟨next, hnext, hend.1⟩, hend.2⟩
  · intro h
    obtain ⟨⟨next, hnext, hchain⟩, hlast⟩ := h
    exact ⟨next, hnext, (follow_eq_some_iff (precedes_first hnext)).mpr ⟨hchain, hlast⟩⟩

theorem replacementType_eq_none_iff : analysis.replacementType name = none ↔
    name ∉ analysis.types ∨ ∃ other, ReflTransGen (Leads analysis.types) name other ∧
      TransGen (Leads analysis.types) other other := by
  constructor
  · intro h
    rw [replacementType_eq_follow, Option.bind_eq_none_iff] at h
    cases hnext : analysis.types[name]? with
    | none => exact .inl (getElem?_eq_none_iff.mp hnext)
    | some next =>
      obtain ⟨other, hother, hcircle⟩ := circle_of_follow (precedes_first hnext) (h next hnext)
      exact .inr ⟨other, .head hnext hother, hcircle⟩
  · intro h
    apply Option.eq_none_iff_forall_ne_some.mpr
    intro last hlast
    obtain ⟨hchain, hend⟩ := replacementType_eq_some_iff.mp hlast
    cases h with
    | inl hnone => exact hnone (mem_of_transGen hchain)
    | inr hrun =>
      obtain ⟨other, hother, hcircle⟩ := hrun
      exact not_circle_of_end hend (reflTransGen_end hend hchain.to_reflTransGen hother) hcircle

theorem replacementType_of_chain (h : analysis.replacementType name = some last)
    (hother : ReflTransGen (Leads analysis.types) name other) (hne : other ≠ last) :
    analysis.replacementType other = some last := by
  obtain ⟨hchain, hend⟩ := replacementType_eq_some_iff.mp h
  have hrest := reflTransGen_end hend hchain.to_reflTransGen hother
  cases ReflTransGen.cases_head hrest with
  | inl hsame => exact absurd hsame hne
  | inr hstep => exact replacementType_eq_some_iff.mpr ⟨TransGen.head'_iff.mpr hstep, hend⟩

/-- The search that gives up at the first name that comes again ends for every name. It finds the
end of the name's chain, and finds none just if the name has no replacement or its chain runs into
a circle. The end has no replacement itself, and all names in front of it have the same. -/
theorem replacementType_findsEnd (analysis : Analysis) (name : String) :
    analysis.replacementType name =
        analysis.types[name]?.bind (follow analysis.types ((∅ : NameSet).insert name)) ∧
      (∀ last, analysis.replacementType name = some last ↔
        TransGen (Leads analysis.types) name last ∧ last ∉ analysis.types) ∧
      (analysis.replacementType name = none ↔
        name ∉ analysis.types ∨ ∃ other, ReflTransGen (Leads analysis.types) name other ∧
          TransGen (Leads analysis.types) other other) ∧
      ∀ last, analysis.replacementType name = some last →
        analysis.replacementType last = none ∧
          ∀ other, ReflTransGen (Leads analysis.types) name other → other ≠ last →
            analysis.replacementType other = some last :=
  ⟨replacementType_eq_follow analysis name, fun _ => replacementType_eq_some_iff,
    replacementType_eq_none_iff, fun _ h => ⟨replacementType_final h, fun _ =>
      replacementType_of_chain h⟩⟩

end Replacements

section Winding

/-- A chain of two steps, and one that runs into a circle. -/
def windingTypes : Analysis :=
  { empty with types := .ofList [("p/A", "p/B"), ("p/B", "p/C"), ("p/D", "p/E"), ("p/E", "p/E")] }

theorem replacementType_findsEnd_of_winding :
    windingTypes.replacementType "p/A" = some "p/C" ∧
      windingTypes.replacementType "p/B" = some "p/C" ∧
      windingTypes.replacementType "p/C" = none ∧ windingTypes.replacementType "p/D" = none ∧
      "p/D" ∈ windingTypes.types := by
  have hstart : Leads windingTypes.types "p/A" "p/B" := by
    unfold Leads
    decide +kernel
  have hcircle : Leads windingTypes.types "p/D" "p/E" ∧ Leads windingTypes.types "p/E" "p/E" := by
    unfold Leads
    decide +kernel
  have hfound : windingTypes.replacementType "p/A" = some "p/C" := by decide +kernel
  obtain ⟨-, -, -, hend⟩ := replacementType_findsEnd windingTypes "p/A"
  obtain ⟨-, -, hnone, -⟩ := replacementType_findsEnd windingTypes "p/D"
  obtain ⟨hlast, hway⟩ := hend "p/C" hfound
  exact ⟨hfound, hway "p/B" (.single hstart) (by decide), hlast,
    hnone.mpr (.inr ⟨"p/E", .single hcircle.1, .single hcircle.2⟩), hcircle.1.mem⟩

end Winding

end StaticCompanion.Analysis
