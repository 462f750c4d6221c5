import Basecoin.Store.Avl.Adjacency
import Basecoin.Store.Avl.Verifier
import Basecoin.Store.Avl.Absence
import Basecoin.Store.Avl.Depth
import Basecoin.Store.Avl.Removal
import Basecoin.Store.Avl.Rotations
import Basecoin.Store.Avl.Binding
import Basecoin.Store.KeyOrder
import Basecoin.Store.Versioned
import Basecoin.Modules.Supply
import Basecoin.Modules.Exact
import Basecoin.Modules.BankService
import Basecoin.Modules.CoinErrors
import Basecoin.Modules.ClientSearch
import Basecoin.App.Rollback
import Basecoin.App.Query
import Basecoin.App.LightClient
import Basecoin.App.Determinism
import Basecoin.Store.Avl.Overwrite
import Basecoin.App.QueryErrors
import Basecoin.Modules.IbcEvents
import Basecoin.Modules.UpgradeStates
import Basecoin.App.HostHeight
import Basecoin.App.Upgrades
import Basecoin.App.ProposalIds
import Basecoin.Store.Shared
import Basecoin.Store.Pruned
import Basecoin.Store.Growing
import Basecoin.Store.Revertible
import Basecoin.App.PrepareProposal
import Basecoin.Modules.CoinText
import Basecoin.Modules.Relaying
import Basecoin.Modules.ProposalStore
import Basecoin.App.AccountHistory
import Basecoin.App.IbcHistory
import Basecoin.App.Sends
