import Rcoin.Chain.Value
import Rcoin.Chain.Recovery
import Rcoin.Equihash.Optimised
import Rcoin.Equihash.Lengths
import Rcoin.Script.SoftFork
import Rcoin.Chain.VersionBits
import Rcoin.Merkle.Matches
import Rcoin.Wallet.Reorder
import Rcoin.Wallet.Abandon
import Rcoin.Wallet.AddedKeys
import Rcoin.Net.Reconstruct
import Rcoin.CheckQueue.Accounts
import Rcoin.Net.DownloadAccounts
import Rcoin.Chain.TipAtomic
import Rcoin.Coins.Spend
import Rcoin.Coins.Usage
import Rcoin.Mempool.TxHashes
import Rcoin.Chain.Retarget
import Rcoin.Ed25519.Sign
import Rcoin.Script.CheckSig
import Rcoin.AddrMan.Run
import Rcoin.Script.Multisig
import Rcoin.Net.BlockTransactionsRequest
import Rcoin.Net.InitSafe
import Rcoin.Merkle.Mutated
import Rcoin.Crypto.Digest
import Rcoin.Script.MachineSafe
import Rcoin.Script.SigOpCount
import Rcoin.Script.SignatureHash
import Rcoin.Arith.Operators
import Rcoin.Chain.BlockProof
import Rcoin.Chain.PruningRecent
import Rcoin.Mempool.AcceptRun
import Rcoin.Mempool.Comparators
import Rcoin.Script.NumberForms
import Rcoin.Encoding.KeyIo
import Rcoin.Net.Chunking
import Rcoin.Coins.Compressor
import Rcoin.Support.Arena
import Rcoin.Support.LimitedMap
import Rcoin.Encoding.Money
import Rcoin.Encoding.Base64
import Rcoin.Encoding.FixedPoint
import Rcoin.Crypto.Cbc
import Rcoin.Net.Eviction
import Rcoin.Net.Orphans
import Rcoin.BloomFilter
import Rcoin.Support.Prevector
import Rcoin.Net.NextBlocks
import Rcoin.Chain.EarliestBlock
import Rcoin.Chain.BlockRanges
import Rcoin.Wallet.SelectCoins
import Rcoin.Miner.PackageTotals
import Rcoin.Miner.CompletedWeight
import Rcoin.Chain.UndoFile
import Rcoin.Miner.Mining
import Rcoin.Cache.CuckooCache
