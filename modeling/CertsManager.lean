import CertsManager.Lease.Exclusion
import CertsManager.StagedOrders
import CertsManager.Replacement
import CertsManager.Recovery
import CertsManager.Followers
import CertsManager.AllowSet
import CertsManager.Issuer.SeveralKeys
import CertsManager.DefiniteAbsence
import CertsManager.Certstore.Deletion
import CertsManager.CertIndex.Kept
import CertsManager.Guards
import CertsManager.FailureCap
import CertsManager.CeremonyReads
import CertsManager.LocalCopy
import CertsManager.Storage.Atomic
import CertsManager.AdminApi
import CertsManager.IssueOutcome
import CertsManager.RetryWindow
import CertsManager.TokenBucket
import CertsManager.Preflight
import CertsManager.Dane.Drift
import CertsManager.Dane.Retiring
import CertsManager.LocalFile
import CertsManager.ChainReaders
import CertsManager.Spelling
import CertsManager.Challenge.Mirroring
import CertsManager.Challenge.Confined
import CertsManager.Handshake.Throttle
import CertsManager.Handshake.Kick
