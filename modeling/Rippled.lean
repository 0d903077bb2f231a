import Rippled.LedgerTrie.Safety
import Rippled.Validations.Support
import Rippled.Validations.Byzantine
import Rippled.Consensus.Proposals
import Rippled.Consensus.Heard
import Rippled.SHAMap.ProofPath
import Rippled.Misc.AmendmentTable
import Rippled.ValidatorList.Revoked
import Rippled.ValidatorList.Trust
import Rippled.ValidatorList.Rotation
import Rippled.NegativeUNL.Vote
import Rippled.Views.Layers
import Rippled.Ledger.SkipList
import Rippled.Ledger.DirectoryRuns
import Rippled.Ledger.BuildReplay
import Rippled.Tx.SettleDelay
import Rippled.Tx.EscrowRuns
import Rippled.Overlay.Squelch
import Rippled.Overlay.Gossip
import Rippled.Tx.NoLockout
import Rippled.Basics.MulRatio
import Rippled.Basics.Rate
import Rippled.Basics.AmountJson
import Rippled.Basics.Serializer
import Rippled.Fees.LoadFeeTrack
import Rippled.Consensus.CloseTime
import Rippled.Basics.PathSet
import Rippled.Validations.RCLLedger
import Rippled.Basics.DecayingSample
import Rippled.Basics.Currency
import Rippled.NodeStore.Varint
import Rippled.PeerFinder.Handouts
