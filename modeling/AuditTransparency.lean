import AuditTransparency.Ledger.Integrity
import AuditTransparency.Ledger.Admission
import AuditTransparency.Ledger.RuntimeCache
import AuditTransparency.Ledger.Nonces
import AuditTransparency.Ledger.Guard
import AuditTransparency.Ledger.Dedup
import AuditTransparency.Ledger.Limits
import AuditTransparency.Ledger.Disclosure
import AuditTransparency.Ledger.Trail
import AuditTransparency.Ledger.Proposals
import AuditTransparency.Ledger.Enactment
import AuditTransparency.Ledger.Batches
import AuditTransparency.Ledger.Enforcement
import AuditTransparency.Ledger.Snapshots
import AuditTransparency.Ledger.Histories
import AuditTransparency.Ledger.Archive
import AuditTransparency.Ledger.ArchiveScan
import AuditTransparency.MultiTenant.Governance
import AuditTransparency.Carbon.Books
import AuditTransparency.Bridge.Quorum
import AuditTransparency.InvertedIndex.Search
import AuditTransparency.Reporting.AuditTrail
import AuditTransparency.Reporting.Submissions
import AuditTransparency.Privacy.Sessions
import AuditTransparency.Privacy.Rounds
import AuditTransparency.Privacy.Budget
import AuditTransparency.Dao.Delegation
import AuditTransparency.Dao.Lifecycle
import AuditTransparency.Treasury.Payments
import AuditTransparency.Insurance.Pools
import AuditTransparency.Markets.RoundTrip
import AuditTransparency.Reserves.Records
import AuditTransparency.Evm.Signed
import AuditTransparency.Evm.PublicInputs
import AuditTransparency.Relayer.Prefixes
import AuditTransparency.Relayer.Inclusion
import AuditTransparency.Relayer.Attribution
import AuditTransparency.Relayer.Leadership
import AuditTransparency.Relayer.Custody
import AuditTransparency.Relayer.StateSynchronizer
import AuditTransparency.Relayer.ReplayQueue
import AuditTransparency.Relayer.Replays
import AuditTransparency.Relayer.SecretSharing
import AuditTransparency.Relayer.RateLimiter
import AuditTransparency.Security.Words
import AuditTransparency.Security.Pkce
import AuditTransparency.Security.AuthorizationServer
import AuditTransparency.Security.Grants
import AuditTransparency.Security.SingleUse
import AuditTransparency.Concurrency.CheckAndSet
import AuditTransparency.Security.RateLimitStores
import AuditTransparency.Security.Interchange
import AuditTransparency.Security.ConsulStore
import AuditTransparency.Migrations.Engine
import AuditTransparency.Migrations.Resume
import AuditTransparency.Migrations.Retries
import AuditTransparency.Soroban.Undo
import AuditTransparency.Soroban.Fallible
import AuditTransparency.Soroban.InsertionSort
import AuditTransparency.Oracle.Contract
import AuditTransparency.Oracle.Consensus
import AuditTransparency.Oracle.Rounds
import AuditTransparency.Oracle.Quorum
import AuditTransparency.Oracle.History
import AuditTransparency.Migrations.RoundTrip
import AuditTransparency.Migrations.Targets
import AuditTransparency.MultiRegion.Contract
import AuditTransparency.MultiRegion.Failover
import AuditTransparency.TokenGating.Contract
import AuditTransparency.TokenGating.Access
import AuditTransparency.Credentials.Json
import AuditTransparency.Credentials.Manager
import AuditTransparency.Credentials.Disclosure
import AuditTransparency.Credentials.Presentations
import AuditTransparency.FeatureFlags.Rollouts
import AuditTransparency.FeatureFlags.KillSwitches
import AuditTransparency.FeatureFlags.Experiments
import AuditTransparency.Waf.Runs
import AuditTransparency.Oracle.Prices
import AuditTransparency.Oracle.Endings
import AuditTransparency.SupplyChain.Registry
import AuditTransparency.Ledger.Compression
import AuditTransparency.Ledger.Purge
import AuditTransparency.Ledger.References
import AuditTransparency.Ledger.Cleanup
import AuditTransparency.Ledger.Compliance
import AuditTransparency.Ledger.Blocking
import AuditTransparency.Ledger.Payloads
import AuditTransparency.Ledger.Paging
import AuditTransparency.Ledger.Versioning
import AuditTransparency.Ledger.Restoring
import AuditTransparency.Ledger.SchemaCompatibility
import AuditTransparency.Cbdc.Offline
import AuditTransparency.Insurance.Shares
import AuditTransparency.Treasury.Fees
import AuditTransparency.Tax.Vat
import AuditTransparency.Tax.CostBasis
import AuditTransparency.Disclosure.FieldProofs
import AuditTransparency.Ledger.Authority
import AuditTransparency.Ledger.Tampering
import AuditTransparency.Ledger.Diffs
import AuditTransparency.Dao.Disputes
import AuditTransparency.Ledger.Requests
import AuditTransparency.Datalake.DeltaLog
import AuditTransparency.Relayer.VerificationStore
import AuditTransparency.Relayer.MultiParty
