import Abcperf.Lib.Outcome
import Abcperf.Minbft.Messages

/-! What MinBFT runs on: the USIG of a replica, the hash functions, and the configuration. A USIG
signs with a key and a counter that grows with every signature, and checks the signatures of the
remote parties whose attestations it was given. -/

namespace Abcperf.Minbft

open Lib Lib.Outcome

inductive UsigError
  | unknownId (id : Nat)
  | invalidSignature
  | remoteAttestationFailed
  | signingFailed
  deriving DecidableEq

/-- The code that MinBFT calls. `contentHash` hashes what a USIG signs (`hash_content`), `logHash`
the log of a `ViewChange`, and `executeRequest` is the hash that `ReplicaStorage` keeps. -/
structure Platform extends Carriers where
  Key : Type
  sign : Key → Nat → Hash → Except UsigError Signature
  attest : Key → Except UsigError Attestation
  verify : Attestation → Hash → Signature → Bool
  addRemoteParty : Nat → Attestation → Bool
  contentHash : Content toCarriers → Hash
  logHash : List (LogMessage toCarriers) → Hash
  emptyStorage : Hash
  executeRequest : Hash → Nat → Nat → Payload → Hash

instance : Coe Platform Carriers := ⟨Platform.toCarriers⟩

variable {P : Platform}

/-- `remotes` are the attestations that `add_remote_party` has accepted. -/
structure Usig (P : Platform) where
  key : P.Key
  counter : Nat
  remotes : IdMap P.Attestation

namespace Usig

/-- `UsigSigned::sign`, without putting content and signature together. -/
def sign (usig : Usig P) (content : Content P) : Usig P × Except UsigError P.Signature :=
  ({ usig with counter := usig.counter + 1 },
    P.sign usig.key usig.counter (P.contentHash content))

def verify (usig : Usig P) (message : UsigSigned P (Content P)) : Except UsigError Unit :=
  match usig.remotes.get message.data.origin with
  | none => .error (.unknownId message.data.origin)
  | some attestation =>
    if P.verify attestation (P.contentHash message.data) message.signature then .ok ()
    else .error .invalidSignature

def addRemoteParty (usig : Usig P) (id : Nat) (attestation : P.Attestation) : Usig P × Bool :=
  if P.addRemoteParty id attestation then
    ({ usig with remotes := usig.remotes.insert id attestation }, true)
  else (usig, false)

end Usig

/-- `to_no_log`: a `ViewChange` keeps only the hash of its log. -/
def UsigMessageV.toNoLog : UsigMessage P → LogMessage P
  | .view message => .of (.view message)
  | .viewChange message => .of (.viewChange
      ⟨⟨message.data.origin, message.data.nextView, message.data.checkpointCert,
        P.logHash message.data.variant⟩, message.signature⟩)
  | .newView message => .of (.newView message)
  | .checkpoint message => .of (.checkpoint message)

def Content.message (signature : P.Signature) : Content P → UsigMessage P
  | .prepare content => .view (.prepare ⟨content, signature⟩)
  | .commit content => .view (.commit ⟨content, signature⟩)
  | .checkpoint content => .checkpoint ⟨content, signature⟩
  | .viewChange content => .viewChange ⟨content, signature⟩
  | .newView content => .newView ⟨content, signature⟩

namespace ReplicaStorage

def new : ReplicaStorage P := ⟨P.emptyStorage⟩

def executeRequest (storage : ReplicaStorage P) (client request : Nat) (payload : P.Payload) :
    ReplicaStorage P :=
  ⟨P.executeRequest storage.lastHash client request payload⟩

def hash (storage : ReplicaStorage P) : P.Hash := storage.lastHash

end ReplicaStorage

inductive BatchConfiguration
  | trivial (batchTimeout : Nat) (maxBatchSize : Option Nat)
  | aesc (maxBatchSize maxInflight : Nat) (nonzero : 0 < maxBatchSize ∧ 0 < maxInflight)
  | ema

/-- `n` and `checkpoint_period` are `NonZeroU64`; durations are in nanoseconds. -/
structure Config where
  n : Nat
  t : Nat
  id : Nat
  batcherConfiguration : BatchConfiguration
  initialTimeoutDuration : Nat
  checkpointPeriod : Nat
  backoffMultiplier : Nat
  nonempty : 0 < n
  periodic : 0 < checkpointPeriod

namespace Config

def validate (config : Config) : Outcome Unit := do
  assert (config.id < config.n)
  assert (2 * config.t < config.n)

def me (config : Config) : Nat := config.id

def primary (config : Config) (view : Nat) : Nat := view % config.n

def isPrimary (config : Config) (view replica : Nat) : Outcome Bool := do
  assert (replica < config.n)
  return replica = config.primary view

def mePrimary (config : Config) (view : Nat) : Outcome Bool := config.isPrimary view config.me

end Config

end Abcperf.Minbft
