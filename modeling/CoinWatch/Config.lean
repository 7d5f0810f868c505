import CoinWatch.Failure

/-! # Settings

The network addresses are read for, and how often a scan reports its progress. -/

namespace CoinWatch

/-- The settings of a tracker. -/
structure Config where
  network : Network
  /-- A scan reports progress every so many heights; zero is never. -/
  progressInterval : Nat := 1000
deriving DecidableEq, Repr

namespace Config

/-- The settings for the main network. -/
def standard : Config := { network := .mainnet }

/-- The settings for the network that a settings file or a command line names. -/
def named : String → Except Failure Config
  | "mainnet" => .ok { network := .mainnet }
  | "testnet" => .ok { network := .testnet }
  | "signet" => .ok { network := .signet }
  | "regtest" => .ok { network := .regtest }
  | name => .error (.unknownNetwork name)

/-- The settings with another interval. -/
def withProgressInterval (c : Config) (every : Nat) : Config := { c with progressInterval := every }

end Config

end CoinWatch
