import Inery.Chain.Confirmation
import Inery.Chain.SchedulePromotion
import Inery.Chainbase.ThrowingModifiers
import Inery.Chain.ForkSwitch
import Inery.Chain.Billing
import Inery.Chain.PushTransaction
import Inery.Chain.AccountShares
import Inery.Chain.AverageBound
import Inery.Chain.ElasticProgress
import Inery.Chain.MerkleBinding
import Inery.Chain.EndIterators
import Inery.Chain.ForkReopen
import Inery.Chain.MemCharges
import Inery.Chain.PermissionLinks
import Inery.Chain.CodeReferences
import Inery.Chain.TransactionReplay
import Inery.Chain.FeatureAgreement
import Inery.Chain.ForkOperations
import Inery.Chain.BlockSigning
import Inery.Chain.BlockTrim
import Inery.Chain.BlockLogRepair
import Inery.Chain.ActorLists
import Inery.Chain.BlockSummaries
import Inery.Chain.NextBlockTime
import Inery.Chain.Symbols
import Inery.Chain.WhitelistedIntrinsics
import Inery.Net.NetPlugin
import Inery.Plugins.ChainPlugin
import Inery.Plugins.TraceApi
import Inery.Wasm.Leb128
