import Abcperf.IdSet
import Abcperf.Damysus.Block

/-! The automata inside a Damysus enclave. It signs one commitment per view, either for a block it
is asked to prepare or for the block it prepared last, and it accumulates the commitments of a
quorum into one that justifies the next block. -/

namespace Abcperf.Damysus

open Lib Lib.Outcome

variable {P : Platform}

abbrev EnclaveResult (P : Platform) (α : Type) := Except (EnclaveError P.BlockHash P.Error) α

structure EnclaveAutomata (P : Platform) where
  trusted : P.Trusted
  signatures : Nat
  me : Nat
  n : Nat
  quorum : Nat
  view : Nat
  lastPreparedBlockHash : P.BlockHash
  lastPreparedBlockView : Nat

structure Accumulation (P : Platform) where
  isPrepare : Bool
  valid : Nat
  seen : IdSet
  blockView : Nat
  blockHash : P.BlockHash

/-- A commitment that prepares no block turns the accumulation to the prepared block. -/
def Accumulation.observe (state : Accumulation P) (last signed : SignedCommitment P) :
    Accumulation P :=
  if signed.isPrepare then state
  else { state with
    blockView := last.getPreparedBlockView
    blockHash := last.getPreparedBlockHash
    isPrepare := false }

namespace EnclaveAutomata

variable (automata : EnclaveAutomata P)

def new (me n quorum : Nat) (trusted : P.Trusted) : EnclaveAutomata P :=
  ⟨trusted, 0, me, n, quorum, 0, P.genesis, 0⟩

def verify (signed : SignedCommitment P) : EnclaveResult P Bool :=
  P.verify automata.trusted signed.getCreator signed.hashValue signed.signature

def verifyUsig (signed : SignedCommitment P) : EnclaveResult P Bool :=
  if signed.isUsig then automata.verify signed else .ok false

def verifyAccumulator (signed : SignedCommitment P) : EnclaveResult P Bool :=
  if signed.isAccumulator then automata.verify signed else .ok false

def commitment (view blockView : Nat) (blockHash : P.BlockHash) (commitmentType : CommitmentType)
    (isPrepare : Bool) : Commitment P where
  creator := automata.me
  view := view
  preparedBlockView := automata.lastPreparedBlockView
  preparedBlockHash := automata.lastPreparedBlockHash
  blockView := blockView
  blockHash := blockHash
  commitmentPhase := if isPrepare then .prepare else .newView
  commitmentType := commitmentType

def createCommitment (view blockView : Nat) (blockHash : P.BlockHash)
    (commitmentType : CommitmentType) (isPrepare : Bool) :
    EnclaveAutomata P × EnclaveResult P (SignedCommitment P) :=
  let commitment := automata.commitment view blockView blockHash commitmentType isPrepare
  let result := (P.sign automata.trusted automata.signatures commitment.hashValue).map
    (SignedCommitment.mk commitment)
  ({ automata with signatures := automata.signatures + 1 }, result)

/-- The view advances also when the signature could not be made. -/
def createUsig (blockHash : P.BlockHash) (blockView : Nat) :
    EnclaveAutomata P × EnclaveResult P (SignedCommitment P) :=
  let isPrepare := automata.view = blockView
  let (automata, commitment) :=
    automata.createCommitment automata.view blockView blockHash .usig isPrepare
  ({ automata with view := View.increment automata.view }, commitment)

def prepare (blockView : Nat) (blockHash : P.BlockHash) (blockJustification : Justification P)
    (blockParent : Option P.BlockHash) (justificationBlockHash : P.BlockHash) :
    EnclaveAutomata P × EnclaveResult P (SignedCommitment P) :=
  match blockJustification.getCommitment with
  | none => (automata, .error .justificationIsGenesis)
  | some signed =>
    if signed.getViewUsableFor ≠ automata.view then
      (automata, .error (.justificationInvalidView signed.getView signed.getViewUsableFor
        automata.view signed.getBlockView))
    else if automata.view ≠ blockView then
      (automata, .error (.blockToPrepareIsForWrongView automata.view blockView))
    else if signed.getBlockHash ≠ justificationBlockHash then
      (automata, .error (.justificationBlockHashDoesNotMatchCommitmentBlockHash
        signed.getBlockHash justificationBlockHash))
    else
      match automata.verifyAccumulator signed with
      | .error error => (automata, .error error)
      | .ok false => (automata, .error .invalidAccumulatorSignature)
      | .ok true =>
        let automata :=
          if blockParent = some justificationBlockHash then
            { automata with
              lastPreparedBlockHash := signed.getBlockHash
              lastPreparedBlockView := signed.getBlockView }
          else automata
        automata.createUsig blockHash automata.view

def reSignLastPrepared : EnclaveAutomata P × EnclaveResult P (SignedCommitment P) :=
  automata.createUsig automata.lastPreparedBlockHash automata.lastPreparedBlockView

/-- One iteration of the loop of `accumulate`; `last` is the commitment it started with. -/
def consider (view : Nat) (last : SignedCommitment P) (state : Accumulation P)
    (signed : SignedCommitment P) :
    EnclaveResult P (Accumulation P) := do
  ensure (¬ state.seen.contains signed.getCreator) .incompatibleCommitmentForAccumulation
  ensure (signed.getPreparedBlockView ≤ last.getPreparedBlockView)
    .nonDescendingOrderOfCommitmentsForAccumulation
  let state := state.observe last signed
  ensure (view = signed.getView) .incompatibleCommitmentForAccumulation
  ensure (state.isPrepare → state.blockView = signed.getBlockView)
    .incompatibleCommitmentForAccumulation
  ensure (state.isPrepare → state.blockHash = signed.getBlockHash)
    .incompatibleCommitmentForAccumulation
  let valid ← automata.verifyUsig signed
  ensure valid .incompatibleCommitmentForAccumulation
  return { state with seen := state.seen.insert signed.getCreator, valid := state.valid + 1 }

/-- The loop of `accumulate`, which ends with the first quorum. -/
def considerAll (automata : EnclaveAutomata P) (view : Nat) (last : SignedCommitment P) :
    Accumulation P → List (SignedCommitment P) → EnclaveResult P (Accumulation P)
  | state, [] => return state
  | state, signed :: rest => do
      let state ← automata.consider view last state signed
      if automata.quorum ≤ state.valid then
        return state
      automata.considerAll view last state rest

def accumulate (commitments : List (SignedCommitment P)) :
    Outcome (EnclaveAutomata P × EnclaveResult P (SignedCommitment P)) := do
  let view ← unwrap (View.getPredecessor automata.view)
  match commitments.getLast? with
  | none => return (automata, .error .notEnoughValidCommitmentsForAccumulation)
  | some last =>
    let start : Accumulation P := ⟨true, 0, IdSet.empty, last.getBlockView, last.getBlockHash⟩
    match automata.considerAll view last start commitments.reverse with
    | .error error => return (automata, .error error)
    | .ok state =>
      if state.valid < automata.quorum then
        return (automata, .error .notEnoughValidCommitmentsForAccumulation)
      else if state.isPrepare ∧ view ≠ state.blockView then
        return (automata, .error .incompatibleCommitmentForAccumulation)
      else
        return automata.createCommitment view state.blockView state.blockHash .accumulator
          state.isPrepare

end EnclaveAutomata

inductive EnclaveCall (P : Platform)
  | accumulate (commitments : List (SignedCommitment P))
  | prepare (blockView : Nat) (blockHash : P.BlockHash) (blockJustification : Justification P)
      (blockParent : Option P.BlockHash) (justificationBlockHash : P.BlockHash)
  | reSignLastPrepared

/-- What precedes the checks of `prepare`. A valid accumulator of the last view would come from an
enclave that has got there. -/
def EnclaveAutomata.checkJustification (automata : EnclaveAutomata P) :
    Justification P → Outcome Unit
  | .genesis => return ()
  | .quorum signed => do
      signed.checkView
      match automata.verifyAccumulator signed with
      | .ok true => if signed.getView = View.last then throw .overflow else return ()
      | _ => return ()

def EnclaveAutomata.perform (automata : EnclaveAutomata P) :
    EnclaveCall P → Outcome (EnclaveAutomata P × EnclaveResult P (SignedCommitment P))
  | .accumulate commitments => automata.accumulate commitments
  | .prepare blockView blockHash blockJustification blockParent justificationBlockHash => do
    automata.checkJustification blockJustification
    return automata.prepare blockView blockHash blockJustification blockParent
      justificationBlockHash
  | .reSignLastPrepared => return automata.reSignLastPrepared

structure Record (P : Platform) where
  call : EnclaveCall P
  result : SignedCommitment P

/-- An enclave with the record of all it has signed, which no function reads. -/
structure Enclave (P : Platform) where
  automata : EnclaveAutomata P
  log : List (Record P)

namespace Enclave

def new (me n quorum : Nat) (trusted : P.Trusted) : Enclave P := ⟨.new me n quorum trusted, []⟩

def getPublicKey (enclave : Enclave P) : EnclaveResult P P.PublicKey :=
  P.getPublicKey enclave.automata.trusted

def addPeer (enclave : Enclave P) (id : Nat) (key : P.PublicKey) : EnclaveResult P (Enclave P) :=
  (P.addPeer enclave.automata.trusted id key).map fun trusted =>
    { enclave with automata := { enclave.automata with trusted } }

def verifyUntrusted (enclave : Enclave P) (signed : SignedCommitment P) : Outcome Bool :=
  P.verifyUntrusted enclave.automata.trusted signed.getCreator signed.hashValue signed.signature

def call (enclave : Enclave P) (request : EnclaveCall P) :
    Outcome (Enclave P × EnclaveResult P (SignedCommitment P)) := do
  let (automata, result) ← enclave.automata.perform request
  match result with
  | .ok signed => return (⟨automata, enclave.log ++ [⟨request, signed⟩]⟩, result)
  | .error _ => return (⟨automata, enclave.log⟩, result)

end Enclave

end Abcperf.Damysus
