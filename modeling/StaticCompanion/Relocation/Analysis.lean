import StaticCompanion.MemberKey

namespace StaticCompanion

/-- The members and types that are replaced. -/
structure Analysis where
  fields : MemberMap
  methods : MemberMap
  types : NameMap

namespace Analysis

def empty : Analysis := ⟨∅, ∅, ∅⟩

/-- The end of the chain that starts at a name, if it is at most `budget` steps away. -/
def chainEnd (types : NameMap) : (budget : Nat) → String → Option String
  | 0, _ => none
  | budget + 1, name =>
    match types[name]? with
    | some next => chainEnd types budget next
    | none => some name

/-- The replacement of a type. A chain without a circle has at most one step for each pair of the
map. -/
def replacementType (analysis : Analysis) (name : String) : Option String :=
  analysis.types[name]? |>.bind (chainEnd analysis.types analysis.types.size)

end Analysis

end StaticCompanion
