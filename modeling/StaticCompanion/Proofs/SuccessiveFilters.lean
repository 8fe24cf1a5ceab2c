import StaticCompanion.Proofs.ExactLayout
import StaticCompanion.Relocation.Omission

/-!
# Filters one after the other

A filter is run for a set of names. It composes on a value if its failing does not depend on the
names, and running it twice comes to running it once for the names of both runs. Lists, parts of a
value and the values that payloads spell take this over from what they are made of.
-/
namespace StaticCompanion

namespace Omission

/-- Whether the filter fails on a value does not depend on the names, and what it leaves for some
names, it turns into what it leaves for these and the others together. -/
inductive Composes {ε α : Type} (run : NameSet → α → Except ε α) (a : α) : Prop where
  | refused (fault : ε) (hrun : ∀ omitted, run omitted a = .error fault)
  | filtered (left : NameSet → α) (hrun : ∀ omitted, run omitted a = .ok (left omitted))
      (hleft : ∀ first second, run second (left first) = .ok (left (first ∪ second)))

/-- A filter that may drop a value, on a value that may have been dropped before. -/
def onKept {ε α : Type} (run : NameSet → α → Except ε (Option α)) (omitted : NameSet) :
    Option α → Except ε (Option α)
  | none => .ok none
  | some a => run omitted a

section Composition
variable {ε ε' α : Type}

theorem Composes.twice {run : NameSet → α → Except ε α} {a : α} (h : Composes run a)
    (first second : NameSet) : (run first a >>= run second) = run (first ∪ second) a := by
  cases h with
  | refused fault hrun =>
    rw [hrun, hrun]
    rfl
  | filtered left hrun hleft =>
    rw [hrun, hrun]
    exact hleft first second

theorem Composes.succeeds_iff {run : NameSet → α → Except ε α} {a : α} (h : Composes run a)
    (first second : NameSet) :
    (∃ left, run first a = .ok left) ↔ ∃ left, run second a = .ok left := by
  cases h with
  | refused fault hrun => simp only [hrun, reduceCtorEq, exists_false]
  | filtered left hrun hleft => exact iff_of_true ⟨_, hrun first⟩ ⟨_, hrun second⟩

/-- A filter composes if it acts as one that does on all values that the latter leaves. -/
theorem Composes.agree {run run' : NameSet → α → Except ε α} {a : α} (h : Composes run a)
    (alike : α → Prop) (ha : alike a) (hleft : ∀ omitted b, run omitted a = .ok b → alike b)
    (hsame : ∀ omitted b, alike b → run' omitted b = run omitted b) : Composes run' a := by
  cases h with
  | refused fault hrun =>
    exact .refused fault fun omitted => (hsame omitted a ha).trans (hrun omitted)
  | filtered left hrun htwice =>
    refine .filtered left (fun omitted => (hsame omitted a ha).trans (hrun omitted))
      fun first second => ?_
    rw [hsame second _ (hleft first _ (hrun first))]
    exact htwice first second

theorem Composes.mapError {run : NameSet → α → Except ε α} {a : α} (h : Composes run a)
    (f : ε → ε') : Composes (fun omitted a => (run omitted a).mapError f) a := by
  cases h with
  | refused fault hrun => exact .refused (f fault) fun omitted => by rw [hrun]; rfl
  | filtered left hrun hleft =>
    refine .filtered left (fun omitted => ?_) fun first second => ?_
    · rw [hrun]
      rfl
    · rw [hleft]
      rfl

/-- A filter of a part of a value composes on the value if it does on the part. -/
theorem Composes.within {β : Type} {run : NameSet → α → Except ε α} (part : β → α)
    (put : β → α → β) (hpart : ∀ b a, part (put b a) = a)
    (hput : ∀ b a a', put (put b a) a' = put b a') {b : β} (h : Composes run (part b)) :
    Composes (fun omitted b => put b <$> run omitted (part b)) b := by
  cases h with
  | refused fault hrun => exact .refused fault fun omitted => by rw [hrun]; rfl
  | filtered left hrun hleft =>
    refine .filtered (fun omitted => put b (left omitted)) (fun omitted => ?_)
      fun first second => ?_
    · rw [hrun]
      rfl
    · rw [hpart, hleft]
      exact congrArg Except.ok (hput _ _ _)

theorem Composes.pair {β : Type} {run : NameSet → α → Except ε α}
    {run' : NameSet → β → Except ε β} {a : α} {b : β} (h : Composes run a) (h' : Composes run' b) :
    Composes (fun omitted (pair : α × β) => do
      return (← run omitted pair.1, ← run' omitted pair.2)) (a, b) := by
  cases h with
  | refused fault hrun => exact .refused fault fun omitted => by rw [hrun]; rfl
  | filtered left hrun hleft =>
    cases h' with
    | refused fault hrun' => exact .refused fault fun omitted => by rw [hrun, hrun']; rfl
    | filtered left' hrun' hleft' =>
      refine .filtered (fun omitted => (left omitted, left' omitted)) (fun omitted => ?_)
        fun first second => ?_
      · rw [hrun, hrun']
        rfl
      · rw [hleft, hleft']
        rfl

theorem Composes.filterMapM {run : NameSet → α → Except ε (Option α)} {as : List α}
    (h : ∀ a ∈ as, Composes (onKept run) (some a)) :
    Composes (fun omitted (as : List α) => as.filterMapM (run omitted)) as := by
  induction as with
  | nil => exact .filtered (fun _ => []) (fun _ => rfl) fun _ _ => rfl
  | cons a as ih =>
    have hrest := ih fun other hother => h other (List.mem_cons_of_mem _ hother)
    cases h a List.mem_cons_self with
    | refused fault hrun =>
      refine .refused fault fun omitted => ?_
      have ha : run omitted a = .error fault := hrun omitted
      rw [List.filterMapM_cons, ha]
      rfl
    | filtered left hrun hleft =>
      cases hrest with
      | refused fault hrest =>
        refine .refused fault fun omitted => ?_
        have ha : run omitted a = .ok (left omitted) := hrun omitted
        rw [List.filterMapM_cons, ha, hrest]
        cases left omitted <;> rfl
      | filtered leftRest hrest hleftRest =>
        refine .filtered (fun omitted => (left omitted).toList ++ leftRest omitted)
          (fun omitted => ?_) fun first second => ?_
        · have ha : run omitted a = .ok (left omitted) := hrun omitted
          rw [List.filterMapM_cons, ha, hrest]
          cases left omitted <;> rfl
        · have ha := hleft first second
          cases hfirst : left first with
          | none =>
            rw [hfirst] at ha
            rw [← Except.ok.inj ha]
            exact hleftRest first second
          | some b =>
            rw [hfirst] at ha
            have hb : run second b = .ok (left (first ∪ second)) := ha
            dsimp only [Option.toList_some, List.singleton_append]
            rw [List.filterMapM_cons, hb, hleftRest]
            cases left (first ∪ second) <;> rfl

theorem Composes.mapM {run : NameSet → α → Except ε α} {as : List α}
    (h : ∀ a ∈ as, Composes run a) :
    Composes (fun omitted (as : List α) => as.mapM (run omitted)) as := by
  induction as with
  | nil => exact .filtered (fun _ => []) (fun _ => rfl) fun _ _ => rfl
  | cons a as ih =>
    have hrest := ih fun other hother => h other (List.mem_cons_of_mem _ hother)
    cases h a List.mem_cons_self with
    | refused fault hrun =>
      refine .refused fault fun omitted => ?_
      rw [List.mapM_cons, hrun]
      rfl
    | filtered left hrun hleft =>
      cases hrest with
      | refused fault hrest =>
        refine .refused fault fun omitted => ?_
        rw [List.mapM_cons, hrun, hrest]
        rfl
      | filtered leftRest hrest hleftRest =>
        refine .filtered (fun omitted => left omitted :: leftRest omitted)
          (fun omitted => ?_) fun first second => ?_
        · rw [List.mapM_cons, hrun, hrest]
          rfl
        · rw [List.mapM_cons, hleft, hleftRest]
          rfl

end Composition

theorem lift_class_ok_bind {α β : Type} (a : α) (next : α → Except RelocationFault β) :
    (liftM (Except.ok a : Except ClassFault α) >>= next) = next a := rfl

section Recoding
variable {α : Type} {fits : α → Prop} {format : Format α}

/-- Filters the value that a payload spells. The attribute goes if what is kept of the value calls
for it. -/
def recode (format : Format α) (filter : NameSet → α → Except RelocationFault α)
    (gone : α → α → Prop) [DecidableRel gone] (omitted : NameSet) (attr : Attribute) :
    Except RelocationFault (Option Attribute) := do
  let value ← format.decode attr.info
  let kept ← filter omitted value
  if gone value kept then return none
  return some (← attr.encode format kept)

theorem write_of_decode (hformat : format.Exact fits) {info : Bytes} {value : α}
    (hdecode : format.decode info = .ok value) : format.write value = .ok info :=
  hformat.writesBack.decode hdecode

theorem encode_decoded (hformat : format.Exact fits) {attr : Attribute} {value : α}
    (hdecode : format.decode attr.info = .ok value) : attr.encode format value = .ok attr :=
  Attribute.encode_eq_ok_iff.mpr ⟨attr.info, write_of_decode hformat hdecode, rfl⟩

section Filters
variable {filter : NameSet → α → Except RelocationFault α} {gone : α → α → Prop}
  [DecidableRel gone]

theorem recode_refused {omitted : NameSet} {attr : Attribute} {value : α}
    {fault : RelocationFault} (hdecode : format.decode attr.info = .ok value)
    (hfilter : filter omitted value = .error fault) :
    recode format filter gone omitted attr = .error fault := by
  simp only [recode, hdecode]
  change (filter omitted value >>= _) = _
  rw [hfilter]
  rfl

theorem recode_filtered {omitted : NameSet} {attr : Attribute} {value kept : α} {info : Bytes}
    (hdecode : format.decode attr.info = .ok value) (hfilter : filter omitted value = .ok kept)
    (hinfo : format.write kept = .ok info) : recode format filter gone omitted attr =
      .ok (if gone value kept then none else some ⟨attr.name, info⟩) := by
  have hencode : attr.encode format kept = .ok ⟨attr.name, info⟩ :=
    Attribute.encode_eq_ok_iff.mpr ⟨_, hinfo, rfl⟩
  simp only [recode, hdecode]
  change (filter omitted value >>= _) = _
  rw [hfilter]
  change (if gone value kept then _ else _) = _
  split
  · rfl
  · rw [hencode]
    rfl

theorem composes_recode (hformat : format.Exact fits) (hfilter : ∀ value, Composes filter value)
    (hfits : ∀ omitted value kept, fits value → filter omitted value = .ok kept → fits kept)
    (hgone : ∀ first second value a b, filter first value = .ok a → filter second a = .ok b →
      (gone value b ↔ gone value a ∨ gone a b)) (attr : Attribute) :
    Composes (onKept (recode format filter gone)) (some attr) := by
  cases hdecode : format.decode attr.info with
  | error fault =>
    refine .refused (.parse fault) fun omitted => ?_
    simp only [onKept, recode, hdecode]
    rfl
  | ok value =>
    cases hfilter value with
    | refused fault hrun =>
      exact .refused fault fun omitted => recode_refused hdecode (hrun omitted)
    | filtered left hrun hleft =>
      have hvalue : fits value := (hformat.writes value).mp ⟨_, write_of_decode hformat hdecode⟩
      have hwrites (omitted : NameSet) : ∃ info, format.write (left omitted) = .ok info :=
        (hformat.writes _).mpr (hfits omitted value _ hvalue (hrun omitted))
      choose info hinfo using hwrites
      refine .filtered (fun omitted =>
          if gone value (left omitted) then none else some ⟨attr.name, info omitted⟩)
        (fun omitted => recode_filtered hdecode (hrun omitted) (hinfo omitted))
        fun first second => ?_
      have hboth := hgone first second value _ _ (hrun first) (hleft first second)
      by_cases hfirst : gone value (left first)
      · rw [if_pos hfirst, if_pos (hboth.mpr (.inl hfirst))]
        rfl
      · rw [if_neg hfirst]
        have hdecode' : format.decode (info first) = .ok (left first) :=
          (hformat.readsBack _).decode (hinfo first)
        refine (recode_filtered hdecode' (hleft first second) (hinfo _)).trans ?_
        simp only [hboth, hfirst, false_or]

end Filters

end Recoding

end Omission

end StaticCompanion
