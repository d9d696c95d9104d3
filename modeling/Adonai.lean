import Adonai.Pow.Exchange
import Adonai.Validation.HeadersWork
import Adonai.Consensus.MerklePath
import Adonai.Light.AddressReuse
import Adonai.Light.FeeEstimate
import Adonai.Coins.Sanity
import Adonai.Validation.Supply
import Adonai.Validation.Disconnect
import Adonai.Mempool.Trim
import Adonai.Validation.LockPoints
import Adonai.Net.HeadersSync
import Adonai.Mining.EarlyReturn
import Adonai.Mining.FeeFrac
import Adonai.Wallet.ChangeOutput
import Adonai.Script.MultiSig
import Adonai.Script.StackSafety
import Adonai.Script.Conditions
import Adonai.Util.CuckooCache
import Adonai.Util.BitDeque
import Adonai.Util.Bech32Errors
import Adonai.Net.TxRate
import Adonai.Net.RollingBloom
import Adonai.Index.CoinStats
import Adonai.Chain.VersionBits
import Adonai.Chain.ActiveChain
import Adonai.Web.Miner
import Adonai.Web.LightRoutes
