/-! # Networks

The networks a chain may belong to, and the names they are written with. -/

namespace CoinWatch

/-- A network. -/
inductive Network where
  | mainnet
  | testnet
  | testnet4
  | signet
  | regtest
deriving DecidableEq, Repr

/-- The name a network is shown with. -/
def Network.text : Network → String
  | mainnet => "bitcoin"
  | testnet => "testnet"
  | testnet4 => "testnet4"
  | signet => "signet"
  | regtest => "regtest"

end CoinWatch
