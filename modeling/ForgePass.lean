import ForgePass.Contracts.CredentialStore
import ForgePass.Verified.Loop
import ForgePass.Verified.KeyedList
import ForgePass.Verified.SlotLog
import ForgePass.Verified.Window
import ForgePass.Contracts.CredentialStoreSpec
import ForgePass.Contracts.CredentialReplay
import ForgePass.Contracts.CredentialLiveSet
import ForgePass.Contracts.CredentialArchive
import ForgePass.Contracts.CredentialDeletion
import ForgePass.Contracts.CredentialCycles
import ForgePass.Contracts.CredentialRemoval
import ForgePass.Contracts.CredentialRetry
import ForgePass.Contracts.ScoreOrder
import ForgePass.Contracts.SoulboundNftSpec
import ForgePass.Contracts.BadgeIndex
import ForgePass.Contracts.BadgeHistory
import ForgePass.Contracts.BadgeOrder
import ForgePass.Contracts.PassportSpec
import ForgePass.Contracts.PassportReplay
import ForgePass.Contracts.PassportCid
import ForgePass.Contracts.Authorisation
import ForgePass.Contracts.WalletIsolation
import ForgePass.Contracts.Failures
import ForgePass.Contracts.InstanceSize
import ForgePass.Contracts.VariantExtension
import ForgePass.Contracts.CounterLimits
import ForgePass.Verified.Evolution
import ForgePass.Verified.Coalition
import ForgePass.Verified.Lap
import ForgePass.Verified.Translation
import ForgePass.Verified.Reversal
import ForgePass.Verified.Wrapping
import ForgePass.Verified.Redelivery
import ForgePass.Verified.Stillness
import ForgePass.Verified.Horizon
import ForgePass.Verified.Clock
import ForgePass.Contracts.PassportBook
import ForgePass.Contracts.ScoreBook
import ForgePass.Contracts.MintBook
import ForgePass.Contracts.CredentialBook
import ForgePass.Contracts.Observation
import ForgePass.Contracts.LedgerTime
import ForgePass.Contracts.Interleaving
import ForgePass.Contracts.Registry
import ForgePass.Contracts.Overflow
import ForgePass.Contracts.Unbounded
import ForgePass.Contracts.Translation
import ForgePass.Contracts.Comparison
import ForgePass.Contracts.Coalition
import ForgePass.Contracts.Reversal
import ForgePass.Contracts.Room
import ForgePass.Contracts.Redelivery
import ForgePass.Contracts.Stillness
