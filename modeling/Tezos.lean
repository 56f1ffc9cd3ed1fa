import Tezos.Theorems.DataEncoding.Acceptance
import Tezos.Theorems.DataEncoding.Stream.Refines
import Tezos.Theorems.P2p.IpSet
import Tezos.Theorems.Stdlib.Ring
import Tezos.Theorems.Stdlib.LwtPipe
import Tezos.Theorems.Stdlib.LwtIdleWaiter
import Tezos.Theorems.Crypto.Base58
import Tezos.Theorems.P2p.IoScheduler
import Tezos.Theorems.P2p.Socket.InOrder
import Tezos.Theorems.P2p.Pool.Counting
import Tezos.Theorems.P2p.PeerFile
import Tezos.Theorems.P2p.Pool.Selection
import Tezos.Theorems.P2p.Pool.Traces
import Tezos.Theorems.Crypto.Pvss
import Tezos.Theorems.Base.BlockLocator
import Tezos.Theorems.Base.NetworkVersion
import Tezos.Theorems.Shell.Chain.BestHead
import Tezos.Theorems.Shell.BlockValidator.Poisoning
import Tezos.Theorems.Shell.DistributedDb
import Tezos.Theorems.Shell.RequestScheduler
import Tezos.Theorems.Shell.Preapply
import Tezos.Theorems.Shell.Prevalidator.Bookkeeping
import Tezos.Theorems.Shell.Prevalidator.Reorganisation
import Tezos.Theorems.Protocol.Amendment
import Tezos.Theorems.Protocol.ScriptInterpreter
import Tezos.Theorems.Protocol.Counters
import Tezos.Theorems.Protocol.SeedRepr
import Tezos.Theorems.Protocol.Endorsements
import Tezos.Theorems.Crypto.PathEncoding
import Tezos.Theorems.Protocol.StorageFunctors
