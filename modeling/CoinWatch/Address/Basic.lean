import CoinWatch.Address.Base58
import CoinWatch.Address.Segwit
import CoinWatch.Chain.Transaction
import CoinWatch.Network

/-! # Addresses

An address names an output script.  It is a witness program behind a human-readable part, or the
hash of a key or of a script in base 58 behind a version byte.

`parse` reads a text as a witness program first and in base 58 otherwise; `canonicalize` checks
the network as well and gives the script with the one spelling (`text`) that stands for it. -/

namespace CoinWatch

/-- The networks that a base-58 address tells apart. -/
inductive LegacyNetwork where
  | main
  | test
deriving DecidableEq, Repr

/-- What a base-58 address is the hash of. -/
inductive LegacyKind where
  | key
  | script
deriving DecidableEq, Repr

/-- The byte in front of the hash, which tells kind and network. -/
def LegacyKind.versionByte : LegacyKind → LegacyNetwork → UInt8
  | key, .main => 0
  | script, .main => 5
  | key, .test => 111
  | script, .test => 196

/-- The kind and network that a byte tells. -/
def LegacyKind.ofVersionByte? (byte : UInt8) : Option (LegacyKind × LegacyNetwork) :=
  [(key, .main), (script, .main), (key, .test), (script, .test)].find?
    fun (kind, network) => kind.versionByte network = byte

/-- The human-readable parts in use. -/
inductive Hrp where
  | bc
  | tb
  | bcrt
deriving DecidableEq, Repr

/-- The characters of a human-readable part. -/
def Hrp.chars : Hrp → List Char
  | bc => ['b', 'c']
  | tb => ['t', 'b']
  | bcrt => ['b', 'c', 'r', 't']

/-- The human-readable part with the given characters. -/
def Hrp.ofChars? (cs : List Char) : Option Hrp := [bc, tb, bcrt].find? (·.chars = cs)

/-- An address. -/
inductive Address where
  | legacy (kind : LegacyKind) (network : LegacyNetwork) (hash : Bytes)
  | witness (hrp : Hrp) (program : Segwit.Program)
deriving DecidableEq, Repr

/-- Why a text is not an address of the network. -/
inductive AddressFault where
  | unknownHrp
  | tooLong
  | badBase58
  | badPayloadLength
  | badVersionByte
  | otherNetwork
deriving DecidableEq, Repr

/-- The wording of a fault. -/
def AddressFault.message : AddressFault → String
  | unknownHrp => "tried to parse an unknown hrp"
  | tooLong => "legacy address base58 string"
  | badBase58 => "base58 error"
  | badPayloadLength => "legacy address base58 data"
  | badVersionByte => "legacy address base58 prefix"
  | otherNetwork => "validation error"

/-- An output script and the canonical spelling of the address that stands for it. -/
structure Payee where
  address : String
  script : Script
deriving DecidableEq, Repr

namespace Address

/-- The address of a base-58 payload: a version byte and twenty bytes. -/
def ofPayload : Bytes → Except AddressFault Address
  | version :: hash =>
    if hash.length ≠ 20 then .error .badPayloadLength
    else
      match LegacyKind.ofVersionByte? version with
      | some (kind, network) => .ok (.legacy kind network hash)
      | none => .error .badVersionByte
  | [] => .error .badPayloadLength

/-- The address in base 58 that a text of at most fifty bytes spells. -/
def parseLegacy (s : String) : Except AddressFault Address :=
  if 50 < s.utf8ByteSize then .error .tooLong
  else
    match Base58.decodeChecked? s.toList with
    | some payload => ofPayload payload
    | none => .error .badBase58

/-- The address that a text spells. -/
def parse (s : String) : Except AddressFault Address :=
  match Segwit.decode? s.toList with
  | some (hrp, program) =>
    match Hrp.ofChars? hrp with
    | some hrp => .ok (.witness hrp program)
    | none => .error .unknownHrp
  | none => parseLegacy s

/-- The characters of the canonical spelling. -/
def chars : Address → List Char
  | legacy kind network hash => Base58.encodeChecked (kind.versionByte network :: hash)
  | witness hrp program => Segwit.encode hrp.chars program

/-- The canonical spelling. -/
def text (a : Address) : String := String.ofList a.chars

/-- The output script that pays to an address. -/
def script : Address → Script
  | legacy .key _ hash => [0x76, 0xa9, 20] ++ hash ++ [0x88, 0xac]
  | legacy .script _ hash => [0xa9, 20] ++ hash ++ [0x87]
  | witness _ program =>
    UInt8.ofNat (if program.version = 0 then 0 else 0x50 + program.version)
      :: UInt8.ofNat program.bytes.length :: program.bytes

/-- The legacy network and the human-readable part in use on a network. -/
def conventions : Network → LegacyNetwork × Hrp
  | .mainnet => (.main, .bc)
  | .regtest => (.test, .bcrt)
  | .testnet | .testnet4 | .signet => (.test, .tb)

/-- An address may be used on a network. -/
def validFor (network : Network) : Address → Bool
  | legacy _ own _ => own = (conventions network).1
  | witness hrp _ => hrp = (conventions network).2

/-- The script and the canonical spelling of an address of the network. -/
def canonicalize (network : Network) (s : String) : Except AddressFault Payee :=
  match parse s with
  | .ok a => if a.validFor network then .ok ⟨a.text, a.script⟩ else .error .otherNetwork
  | .error fault => .error fault

end Address

end CoinWatch
