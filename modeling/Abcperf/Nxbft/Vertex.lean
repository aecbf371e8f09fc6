import Abcperf.IdSet
import Abcperf.Lib.Outcome

/-! Vertices of the NxBFT graph and the code the replica calls without being part of it. -/

namespace Abcperf.Nxbft

open Lib

structure DagAddress where
  round : Nat
  creator : Nat
  deriving DecidableEq

/-- The derived order of `DagAddress`: by round, then by creator. -/
def DagAddress.le (left right : DagAddress) : Prop :=
  left.round < right.round ∨ (left.round = right.round ∧ left.creator ≤ right.creator)

instance (left right : DagAddress) : Decidable (left.le right) :=
  inferInstanceAs (Decidable (_ ∨ _))

/-- `rangemap::RangeInclusiveMap<u64, Value>`, of which the enclave uses four functions. The laws
are what the crate documents: an insertion overwrites what the range overlaps and panics if the
range ends before it starts, and the last range is the one with the greatest keys. -/
structure RangeInclusiveMap (Value : Type) where
  Map : Type
  new : Map
  insert : Map → Nat → Nat → Value → Outcome Map
  get : Map → Nat → Option Value
  lastRangeEnd : Map → Option Nat
  get_new : ∀ key, get new key = none
  insert_returns : ∀ map first last value,
    (∃ next, insert map first last value = .ok next) ↔ first ≤ last
  get_insert : ∀ map first last value next, insert map first last value = .ok next → ∀ key,
    get next key = if first ≤ key ∧ key ≤ last then some value else get map key
  lastRangeEnd_none : ∀ map, lastRangeEnd map = none → ∀ key, get map key = none
  lastRangeEnd_some : ∀ map last, lastRangeEnd map = some last →
    (get map last).isSome ∧ ∀ key, last < key → get map key = none

/-- The transaction type (`Transaction`, `Hashbar`), the hash functions, the trusted part of the
enclave (`EnclaveTrusted` with its associated types) and the random number generator. `Key` is the
state of one trusted instance. Each call of `sign` is made for a fresh counter and `genSeedShare`
is called once, so functions of the key lose no behaviour of the randomised originals. -/
structure Platform where
  Tx : Type
  clientId : Tx → Nat
  requestId : Tx → Nat
  TransactionsHash : Type
  Hash : Type
  transactionsHash : List Tx → TransactionsHash
  vertexHash : Nat → Nat → TransactionsHash → List Nat → Hash
  Key : Type
  Attestation : Type
  Error : Type
  Handshake : Type
  Signature : Type
  ranges : RangeInclusiveMap Attestation
  attestationEq : DecidableEq Attestation
  keyEq : DecidableEq Key
  genSeedShare : Key → Except Error (BitVec 256)
  sealSeedShare : Key → Attestation → BitVec 256 → Except Error Handshake
  unsealSeedShare : Key → Handshake → Attestation → Except Error (BitVec 256)
  sign : Key → Hash → Nat → Except Error Signature
  verify : Attestation → Nat → Hash → Signature → Except Error Bool
  attestationCertificate : Key → Except Error Attestation
  Rng : Type
  fromSeed : BitVec 256 → Rng
  sample : Nat → Rng → Nat × Rng

instance (P : Platform) : DecidableEq P.Attestation := P.attestationEq

instance (P : Platform) : DecidableEq P.Key := P.keyEq

variable {P : Platform}

structure SignableVertex (P : Platform) where
  address : DagAddress
  transactionsHash : P.TransactionsHash
  edges : IdSet

namespace SignableVertex

def new (address : DagAddress) (edges : IdSet) (transactions : List P.Tx) : SignableVertex P :=
  ⟨address, P.transactionsHash transactions, edges⟩

def toHash (vertex : SignableVertex P) : P.Hash :=
  P.vertexHash vertex.address.round vertex.address.creator vertex.transactionsHash
    vertex.edges.iter

end SignableVertex

structure SignedVertex (P : Platform) where
  signable : SignableVertex P
  signature : P.Signature
  counter : Nat

/-- The hash of the transactions is recomputed whenever a vertex is built or deserialised, so it is
a function of the other fields. -/
structure Vertex (P : Platform) where
  address : DagAddress
  edges : IdSet
  transactions : List P.Tx
  signature : P.Signature
  counter : Nat

namespace Vertex

variable (vertex : Vertex P)

def round : Nat := vertex.address.round

def creator : Nat := vertex.address.creator

def signable : SignableVertex P :=
  SignableVertex.new vertex.address vertex.edges vertex.transactions

def signed : SignedVertex P :=
  ⟨vertex.signable, vertex.signature, vertex.counter⟩

def hash : P.Hash := vertex.signable.toHash

def numEdges : Nat := vertex.edges.len

def edgesValid (quorum : Nat) : Bool := quorum ≤ vertex.numEdges

/-- What a signature covers is the same. -/
def SameSigned (left right : Vertex P) : Prop :=
  left.hash = right.hash ∧ left.counter = right.counter

def SameContent (left right : Vertex P) : Prop :=
  left.address = right.address ∧ left.edges = right.edges ∧
    left.transactions = right.transactions ∧ left.counter = right.counter

end Vertex

/-- `Round - 1` on unsigned 64-bit rounds: round 0 has no predecessor, which stops a build with
overflow checks and wraps around in one without. -/
def previousRound (overflowChecks : Bool) (round : Nat) : Option Nat :=
  if round = 0 then (if overflowChecks then none else some 18446744073709551615)
    else some (round - 1)

/-- `Round + 1`, which has no result after the last 64-bit round in a build with overflow checks. -/
def nextRound (overflowChecks : Bool) (round : Nat) : Outcome Nat :=
  if round = 18446744073709551615 then (if overflowChecks then .error .overflow else return 0)
  else return round + 1

theorem previousRound_pos (overflowChecks : Bool) {round : Nat} (positive : 0 < round) :
    previousRound overflowChecks round = some (round - 1) := by
  rw [previousRound, if_neg (by omega)]

end Abcperf.Nxbft
