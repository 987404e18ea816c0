import Congine.Adapters.Guard
import Congine.Adapters.LangchainIsolation
import Congine.Adapters.TenantRecency
import Congine.Adapters.TenantRegistry
import Congine.Adapters.TenantConfiguration
import Congine.Adapters.TenantReset
import Congine.UseCases.Egress
import Congine.Infrastructure.ExecutorReports
import Congine.UseCases.GovernedRuns
import Congine.Domain.EnumMembership
import Congine.Domain.NativeTotality
import Congine.Domain.NullMigration
import Congine.Domain.PointerStandard
import Congine.Domain.Reachability
import Congine.Infrastructure.BreakerCalls
import Congine.Infrastructure.BreakerHistory
import Congine.Infrastructure.CanonicalIdentity
import Congine.Infrastructure.ExecutorAccounts
import Congine.Infrastructure.ExecutorBacklog
import Congine.Infrastructure.ExecutorOutcomes
import Congine.Infrastructure.FileContractRepository
import Congine.Infrastructure.KsPValue
import Congine.Infrastructure.LfuCacheHistory
import Congine.Infrastructure.OwnedSnapshot
import Congine.Infrastructure.PatternBreach
import Congine.Infrastructure.PolicyFaults
import Congine.Infrastructure.PreparationRecency
import Congine.Infrastructure.PreparedTransparency
import Congine.Tools.ScopeAgreement
import Congine.Infrastructure.TelemetryConservation
import Congine.UseCases.BreakerPermits
import Congine.UseCases.SingleFlightBoot
import Congine.UseCases.StagedSoundness
import Congine.Adapters.ContainerConstruction
import Congine.Adapters.DefaultContainer
import Congine.UseCases.BackgroundLoop
import Congine.Adapters.GuardedContract
import Congine.Infrastructure.SnapshotAtomicity
