import Std.Data.ExtTreeMap
import Std.Data.ExtTreeSet

namespace StaticCompanion

/-- The identity of a field or method. -/
structure MemberKey where
  /-- The internal name of the declaring class. -/
  owner : String
  name : String
  descriptor : String
  deriving DecidableEq, Repr

namespace MemberKey

instance : Ord MemberKey where
  compare := compareLex (compareOn owner) (compareLex (compareOn name) (compareOn descriptor))

instance : Std.TransOrd MemberKey :=
  inferInstanceAs (Std.TransCmp
    (compareLex (compareOn owner) (compareLex (compareOn name) (compareOn descriptor))))

instance : Std.LawfulEqOrd MemberKey where
  eq_of_compare {left right} same := by
    have parts : (compareOn owner left right = .eq ∧
        compareOn name left right = .eq ∧ compareOn descriptor left right = .eq) := by
      simpa [compare, compareLex, Ordering.then_eq_eq] using same
    have owners := Std.LawfulEqOrd.eq_of_compare parts.1
    have names := Std.LawfulEqOrd.eq_of_compare parts.2.1
    have descriptors := Std.LawfulEqOrd.eq_of_compare parts.2.2
    cases left
    cases right
    simp_all

def render (key : MemberKey) : String := s!"{key.owner}.{key.name}{key.descriptor}"

end MemberKey

abbrev MemberMap := Std.ExtTreeMap MemberKey MemberKey

abbrev NameSet := Std.ExtTreeSet String

abbrev NameMap := Std.ExtTreeMap String String

end StaticCompanion
