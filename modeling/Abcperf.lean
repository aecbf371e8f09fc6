import Abcperf.Nxbft.RecoveryAgreement
import Abcperf.Damysus.Memory
import Abcperf.Damysus.InStep
import Abcperf.Damysus.Accumulation
import Abcperf.Nxbft.LeaderChain
import Abcperf.Nxbft.Encoding
import Abcperf.Minbft.Encoding
import Abcperf.Nxbft.Pruning
import Abcperf.Nxbft.AttestationHistory
import Abcperf.Minbft.Checkpoints
import Abcperf.Minbft.Ordering
import Abcperf.Minbft.Clients
import Abcperf.Minbft.Timeouts
import Abcperf.Damysus.Authority
import Abcperf.Damysus.Requests
import Abcperf.Responses
import Abcperf.Maas
import Abcperf.KeyedHeaps
import Abcperf.Lagrange
import Abcperf.KeyAgreement
import Abcperf.Nxbft.Integrity
import Abcperf.Nxbft.Robustness
import Abcperf.Damysus.Certification
import Abcperf.Minbft.Commits
