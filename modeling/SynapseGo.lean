import SynapseGo.Cache.GetOrLoad
import SynapseGo.CircuitBreaker.Probes
import SynapseGo.Crypto.Enrolment
import SynapseGo.Event.Bus
import SynapseGo.Idempotency.Canonical
import SynapseGo.Idempotency.Collection
import SynapseGo.Idempotency.Finality
import SynapseGo.Idempotency.FirstLease
import SynapseGo.Idempotency.Replays
import SynapseGo.Idempotency.Takeover
import SynapseGo.Idempotent.Middleware
import SynapseGo.Imaging.Resize
import SynapseGo.Job.CronGuard
import SynapseGo.Lock.OwnerSafety
import SynapseGo.Middleware.Entitlement
import SynapseGo.Middleware.IPRate
import SynapseGo.Middleware.LoginRate
import SynapseGo.Middleware.TenantActive
import SynapseGo.Migrate.Dsn
import SynapseGo.Obs.Logger
import SynapseGo.Outbox.Runs
import SynapseGo.Pii.Cards
import SynapseGo.Pii.Stretches
import SynapseGo.RateLimit.Admission
import SynapseGo.RateLimit.AllOrNothing
import SynapseGo.RateLimit.Correction
import SynapseGo.RateLimit.Lifetimes
import SynapseGo.Rbac.Permissions
import SynapseGo.ReliableEvents.Pages
import SynapseGo.ReliableEvents.Retries
import SynapseGo.RuntimeGuard.Agreement
import SynapseGo.RuntimeGuard.Lock
import SynapseGo.RuntimeGuard.Middleware
import SynapseGo.RuntimeGuard.RedisLock
import SynapseGo.RuntimeGuard.Windows
import SynapseGo.Scheduler.Execute
import SynapseGo.Sequence.Generator
import SynapseGo.Storage.Uploads
import SynapseGo.Tenant.Requests
import SynapseGo.Timeutil.Backoff
import SynapseGo.Utils.Backoff
import SynapseGo.Webhook.RoundTrip
