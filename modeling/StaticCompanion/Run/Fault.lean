import StaticCompanion.Archive.Basic
import StaticCompanion.Relocation.Fault

namespace StaticCompanion

/-- How far a run has come. -/
inductive Phase where
  | idle
  | matched
  | scanned
  | sunk
  deriving DecidableEq, Repr

def Phase.name : Phase → String
  | idle => "Idle"
  | matched => "Matched"
  | scanned => "Scanned"
  | sunk => "Sunk"

inductive RunFault where
  | archive (fault : ArchiveFault)
  | relocation (fault : RelocationFault)
  /-- Patterns that select nothing, in order. -/
  | unmatched (patterns : List String)
  | outOfOrder (expected found : Phase)
  deriving DecidableEq, Repr

def RunFault.message : RunFault → String
  | archive fault => fault.message
  | relocation fault => fault.message
  | unmatched patterns =>
    let names := ", ".intercalate patterns
    s!"Top-level type patterns matched no entry: {names}"
  | outOfOrder expected found =>
    s!"Expected the selector to be {expected.name}, but it is {found.name}"

instance : MonadLift (Except ArchiveFault) (Except RunFault) where
  monadLift result := result.mapError .archive

instance : MonadLift (Except RelocationFault) (Except RunFault) where
  monadLift result := result.mapError .relocation

instance {σ : Type} : MonadLift (Except RunFault) (EStateM RunFault σ) where
  monadLift result := fun state =>
    match result with
    | .ok value => .ok value state
    | .error fault => .error fault state

end StaticCompanion
