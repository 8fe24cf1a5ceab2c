import StaticCompanion.Proofs.ClosedWorld
import StaticCompanion.Proofs.Selection

namespace StaticCompanion

end StaticCompanion
