import CoinWatch.Address.Basic
import CoinWatch.Bytes.Hex
import CoinWatch.Chain.Block
import CoinWatch.Config
import CoinWatch.Filter.Query
import CoinWatch.Ledger
import CoinWatch.Proofs.AcceptedTexts
import CoinWatch.Proofs.Accounts
import CoinWatch.Proofs.Agreement
import CoinWatch.Proofs.Cancellation
import CoinWatch.Proofs.Chunks
import CoinWatch.Proofs.Commits
import CoinWatch.Proofs.ExactLookups
import CoinWatch.Proofs.Failures
import CoinWatch.Proofs.FilterJoins
import CoinWatch.Proofs.FilterQueries
import CoinWatch.Proofs.FilterScan
import CoinWatch.Proofs.Histories
import CoinWatch.Proofs.Indifference
import CoinWatch.Proofs.LedgerEdits
import CoinWatch.Proofs.Lineage
import CoinWatch.Proofs.LookupOutcomes
import CoinWatch.Proofs.Outcomes
import CoinWatch.Proofs.Ownership
import CoinWatch.Proofs.Rescans
import CoinWatch.Proofs.UnspentReports
import CoinWatch.Proofs.Widening
import CoinWatch.Proofs.Witnesses
import CoinWatch.Scan.Lookup
import CoinWatch.Scan.Range
import CoinWatch.Scan.StoredChain
import CoinWatch.Session
import CoinWatch.Switchboard
import CoinWatch.Tracker
import CoinWatch.Watch.AddressBook
