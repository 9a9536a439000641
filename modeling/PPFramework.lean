import PPFramework.Arith.SquareZero
import PPFramework.Arith.BlindedPower
import PPFramework.Arith.TwoPrime
import PPFramework.Arith.PrimeGap
import PPFramework.Arith.Radix
import PPFramework.Gmp.Integer
import PPFramework.Gmp.Text
import PPFramework.Machine.PartialRun
import PPFramework.Machine.Rejection
import PPFramework.Machine.Traverse
import PPFramework.Machine.AtomicObject
import PPFramework.Cipher.Interface
import PPFramework.Cipher.Refinement
import PPFramework.Cipher.Expression
import PPFramework.Cipher.Program
import PPFramework.Paillier.Library
import PPFramework.Paillier.Encryption
import PPFramework.Paillier.Key
import PPFramework.Paillier.Cryptosystem
import PPFramework.Paillier.Keygen
import PPFramework.Paillier.KeyLength
import PPFramework.Paillier.Sampling
import PPFramework.Paillier.Operators
import PPFramework.Paillier.SignedDec
import PPFramework.Paillier.Comparison
import PPFramework.Paillier.Expressions
import PPFramework.Paillier.Conversions
import PPFramework.Paillier.Export
import PPFramework.Paillier.KeyImport
import PPFramework.Paillier.Derived
import PPFramework.Paillier.Pool
import PPFramework.Paillier.FastRecrypt
import PPFramework.Paillier.Blinding
import PPFramework.Paillier.Randomisation
import PPFramework.Rpc.Message
import PPFramework.Rpc.Packing
import PPFramework.Rpc.Server
import PPFramework.Rpc.Client
import PPFramework.Rpc.Accumulator
import PPFramework.Rpc.Unpack
import PPFramework.Rpc.RemoteKey
import PPFramework.Rpc.KeyExchange
import PPFramework.Rpc.InnerProduct
import PPFramework.Rpc.Transport
import PPFramework.Rpc.Interleaving
import PPFramework.Rpc.History
import PPFramework.Rpc.Call
import PPFramework.Rpc.Threads
import PPFramework.Rpc.Progress
import PPFramework.Rpc.Exclusion
