import Abcperf.Heaps
import Abcperf.Lib.Reflection
import Abcperf.Damysus.Enclave
import Abcperf.Damysus.Output

/-! One Damysus replica: its state and the handlers of `Damysus`. A round transition may find a
block or commitments for the new view in store and go on with them; the functions it calls take the
transition as an argument, which is where the recursion is cut by fuel. -/

namespace Abcperf.Damysus

open Lib Lib.Outcome Heaps

variable {P : Platform}

/-- What a call reads from outside the replica: the clock, at each view, by the number of
commitments that are collected and by reading; the order in which an unstable sort leaves
commitments; and how many iterations its loops may take. -/
structure Env (P : Platform) where
  clock : Nat → Nat → Nat → Nat
  sort : List (SignedCommitment P) → List (SignedCommitment P)
  sorts : ∀ commitments, (sort commitments).Perm commitments ∧
    (sort commitments).Pairwise fun left right =>
      left.getPreparedBlockView ≤ right.getPreparedBlockView
  fuel : Nat

def durationMax : Nat := 18446744073709551615999999999

/-- `proposed` and `executedBlocks` record the blocks that the replica has created and, in order,
those that it has executed; no function reads them. -/
structure Replica (P : Platform) where
  n : Nat
  quorum : Nat
  me : Nat
  view : Nat
  enclave : Enclave P
  pendingClientRequests : PendingClientRequests P.Tx
  storedCommitments : List (SignedCommitment P)
  output : UnreflectedOutput P
  commitments : List (SignedCommitment P)
  commitmentSenders : IdSet
  peersAdded : Nat
  minimumBlockSize : Nat
  callTryCreateBlock : Bool
  blockTimeout : Nat
  viewTimeout : Nat
  initialViewTimeout : Nat
  executedTransactions : Nat → Option Nat
  blockstore : Blockstore P
  openBlockRequests : Nat → Option IdSet
  storedBlocks : List (Block P)
  requestedBlocks : Nat → Option P.BlockHash
  lastRoundFinishedAt : Nat
  proposed : List (Block P)
  executedBlocks : List (Block P)

/-- The arguments of `Damysus::new`, with the trusted instance that `Enc::new` creates. -/
structure Config (P : Platform) where
  me : Nat
  n : Nat
  minimumBlockSize : Nat
  maximumBlockSize : Nat
  blockTimeout : Nat
  initialViewTimeout : Nat
  trusted : P.Trusted
  startedAt : Nat

namespace Replica

variable (transition : Replica P → Bool → Outcome (Replica P)) (env : Env P) (replica : Replica P)

def initial (config : Config P) : Replica P where
  n := config.n
  quorum := config.n / 2 + 1
  me := config.me
  view := 0
  enclave := .new config.me config.n (config.n / 2 + 1) config.trusted
  pendingClientRequests := .new config.maximumBlockSize
  storedCommitments := []
  output := .new config.me
  commitments := []
  commitmentSenders := IdSet.empty
  peersAdded := 0
  minimumBlockSize := config.minimumBlockSize
  callTryCreateBlock := false
  blockTimeout := config.blockTimeout
  viewTimeout := config.initialViewTimeout
  initialViewTimeout := config.initialViewTimeout
  executedTransactions := fun _ => none
  blockstore := .initial
  openBlockRequests := fun _ => none
  storedBlocks := []
  requestedBlocks := fun _ => none
  lastRoundFinishedAt := config.startedAt
  proposed := []
  executedBlocks := []

def new (config : Config P) : Outcome (Replica P) := do
  assert (config.maximumBlockSize ≠ 0)
  assert (config.minimumBlockSize ≤ config.maximumBlockSize)
  return initial config

def isViewLeadByMe (view : Nat) : Bool :=
  View.getViewLeader view replica.n = replica.me

def broadcast (replica : Replica P) (message : Message P) : Replica P :=
  { replica with output := replica.output.broadcast ⟨replica.me, message⟩ }

def unicast (replica : Replica P) (receiver : Nat) (message : Message P) : Replica P :=
  { replica with output := replica.output.unicast receiver ⟨replica.me, message⟩ }

/-- `last_round_finished_at.elapsed()`. -/
def elapsed (reading : Nat) : Nat :=
  env.clock replica.view replica.commitments.length reading - replica.lastRoundFinishedAt

/-- A request that is not newer than the last executed one of its client is skipped. -/
def executeTransaction (tx : P.Tx) : Replica P :=
  if (replica.executedTransactions (P.clientId tx)).any (P.requestId tx ≤ ·) then replica
  else { replica with
    executedTransactions := Function.update replica.executedTransactions (P.clientId tx)
      (some (P.requestId tx))
    output := replica.output.appendDelivery tx }

def executeBlock (blockView : Nat) : Outcome (Replica P) := do
  let block ← unwrap (replica.blockstore.get blockView)
  let replica := { replica with
    blockstore := replica.blockstore.execute blockView
    executedBlocks := replica.executedBlocks ++ [block] }
  return block.transactions.foldl executeTransaction replica

/-- The first loop of `try_execute_from`: the views to execute, earliest first, or nothing if a
block is missing. -/
def collectToExecute (store : Blockstore P) :
    Nat → Nat → List Nat → Outcome (Option (List Nat))
  | 0, _, _ => throw .fuel
  | fuel + 1, blockView, toExecute =>
    match store.get blockView with
    | none => return none
    | some block =>
      if block.executed then return some toExecute
      else if block.isGenesis then return some toExecute
      else do
        let accumulator ← unwrap block.justification.getCommitment
        collectToExecute store fuel accumulator.getBlockView (blockView :: toExecute)

def tryExecuteFrom (blockView : Nat) : Outcome (Replica P) := do
  match ← collectToExecute replica.blockstore env.fuel blockView [] with
  | none => return replica
  | some toExecute => toExecute.foldlM executeBlock replica

/-- The part of `add_and_prepare_block` that looks for two blocks below the new one, each with the
block it is justified by as its parent. -/
def executeChain (block : Block P) (accumulator : SignedCommitment P) : Outcome (Replica P) :=
  match replica.blockstore.get accumulator.getBlockView with
  | none => return replica
  | some justificationBlock =>
    match justificationBlock.justification with
    | .genesis => return replica
    | .quorum grandJustification =>
      match replica.blockstore.get grandJustification.getBlockView with
      | none => return replica
      | some grandJustificationBlock =>
        if block.hasParent justificationBlock.hashValue ∧
            justificationBlock.hasParent grandJustificationBlock.hashValue then
          replica.tryExecuteFrom env grandJustificationBlock.view
        else return replica

def requestBlock (view : Nat) (hash : P.BlockHash) : Replica P :=
  if (replica.requestedBlocks view).isSome then replica
  else
    { replica with
      requestedBlocks := Function.update replica.requestedBlocks view (some hash) }.broadcast
      (.blockRequest view)

def requestParent (block : Block P) : Outcome (Replica P) :=
  match block.parent with
  | none => return replica
  | some hash => do
      let view ← unwrap (View.getPredecessor block.view)
      if (replica.blockstore.get view).isNone then
        return replica.requestBlock view hash
      else return replica

def requestJustification (accumulator : SignedCommitment P) : Replica P :=
  if (replica.blockstore.get accumulator.getBlockView).isNone then
    replica.requestBlock accumulator.getBlockView accumulator.getBlockHash
  else replica

/-- The call of `prepare` in `add_and_prepare_block`. -/
def prepareBlock (block : Block P) (accumulator : SignedCommitment P) :
    Outcome (Replica P × SignedCommitment P) := do
  let (enclave, result) ← replica.enclave.call (.prepare block.view block.hashValue
    block.justification block.parent accumulator.getBlockHash)
  let prepare ← expect result
  return ({ replica with enclave }, prepare)

def insertBlock (block : Block P) : Outcome (Replica P) := do
  let blockstore ← replica.blockstore.insert block
  return { replica with blockstore }

def addAndPrepareBlock (block : Block P) : Outcome (Replica P × Option (SignedCommitment P)) := do
  let block := block.notExecuted
  let accumulator ← unwrap block.justification.getCommitment
  let replica ← replica.requestParent block
  let replica := replica.requestJustification accumulator
  if replica.view ≠ block.view then
    let replica ← replica.insertBlock block
    return (replica, none)
  else
    let (replica, prepare) ← replica.prepareBlock block accumulator
    let replica := replica.unicast (View.getViewLeader prepare.usableView replica.n)
      (.commitment prepare)
    let replica ← replica.executeChain env block accumulator
    let replica ← replica.insertBlock block
    let replica ← transition replica false
    return (replica, some prepare)

def buildBlock (accumulator : SignedCommitment P) : Outcome (Block P) := do
  let view ← unwrap (View.getPredecessor replica.view)
  let parent := (replica.blockstore.get view).map Block.hashValue
  return .new replica.me replica.view (.quorum accumulator) parent
    replica.pendingClientRequests.copyFront

/-- The requests of a client that are not newer than its last executed one are dropped. -/
def filterPending : Replica P :=
  { replica with
    pendingClientRequests := replica.pendingClientRequests.filterFront fun tx =>
      !(replica.executedTransactions (P.clientId tx)).any (P.requestId tx ≤ ·) }

/-- The call of `accumulate` in `create_block`. -/
def accumulate (env : Env P) (replica : Replica P) :
    Outcome (Replica P × SignedCommitment P) := do
  let commitments := env.sort replica.commitments
  let (enclave, result) ← replica.enclave.call (.accumulate commitments)
  let accumulator ← expect result
  return ({ replica with callTryCreateBlock := false, commitments, enclave }, accumulator)

def createBlock : Outcome (Replica P) := do
  let (replica, accumulator) ← replica.accumulate env
  let replica := replica.filterPending
  let block ← replica.buildBlock accumulator
  let replica := { replica with proposed := replica.proposed ++ [block] }
  let (replica, prepare) ← replica.addAndPrepareBlock transition env block
  let prepare ← unwrap prepare
  assert prepare.isUsig
  return replica.broadcast (.newBlock block prepare)

def diverges (commitment : SignedCommitment P) : Bool :=
  (replica.blockstore.get commitment.getBlockView).any
    (fun block => commitment.getBlockHash ≠ block.hashValue)

def collectCommitment (commitment : SignedCommitment P) : Replica P :=
  { replica with
    commitmentSenders := replica.commitmentSenders.insert commitment.getCreator
    commitments := replica.commitments ++ [commitment] }

/-- The condition under which `apply_commitment` proposes at once. -/
def proposesNow : Outcome Bool :=
  if replica.blockTimeout < replica.elapsed env 0 then return true
  else replica.pendingClientRequests.fullBlockOrAtLeast replica.minimumBlockSize

/-- The end of `apply_commitment`, once a quorum is collected. -/
def proposeOrWait : Outcome (Replica P) := do
  if ← replica.proposesNow env then replica.createBlock transition env
  else return { replica with
    callTryCreateBlock := true
    output := replica.output.setBlockTimeout (replica.blockTimeout - replica.elapsed env 1) }

def applyCommitment (commitment : SignedCommitment P) : Outcome (Replica P) :=
  if replica.commitmentSenders.contains commitment.getCreator then return replica
  else if replica.diverges commitment then return replica
  else if (replica.collectCommitment commitment).commitments.length < replica.quorum then
    return replica.collectCommitment commitment
  else (replica.collectCommitment commitment).proposeOrWait transition env

/-- The loop of `round_transition` over the commitments that were stored ahead of time. -/
def applyStored (transition : Replica P → Bool → Outcome (Replica P)) (env : Env P) :
    Nat → Replica P → Outcome (Replica P)
  | 0, _ => throw .fuel
  | fuel + 1, replica =>
    match replica.storedCommitments with
    | [] => return replica
    | commitment :: rest =>
      if commitment.usableView < replica.view ∨ ¬ replica.isViewLeadByMe commitment.usableView then
        applyStored transition env fuel { replica with storedCommitments := rest }
      else if replica.view < commitment.usableView then return replica
      else do
        let replica ← { replica with storedCommitments := rest }.applyCommitment transition
          env commitment
        applyStored transition env fuel replica

/-- A timeout doubles the time for a view, a block takes one initial timeout off it again. -/
def nextViewTimeout (timeout : Bool) : Outcome Nat :=
  if timeout then return min (replica.viewTimeout * 2) durationMax
  else if replica.viewTimeout < replica.initialViewTimeout then throw .overflow
  else return max replica.initialViewTimeout (replica.viewTimeout - replica.initialViewTimeout)

/-- The first part of `round_transition`. -/
def enterNextView (timeout : Bool) : Outcome (Replica P) := do
  let viewTimeout ← replica.nextViewTimeout timeout
  return { replica with
    viewTimeout
    view := View.increment replica.view
    commitmentSenders := IdSet.empty
    commitments := []
    lastRoundFinishedAt := env.clock replica.view replica.commitments.length 2
    output := replica.output.cancelBlockTimeout.setViewTimeout viewTimeout }

def prepareStored : Outcome (Replica P) :=
  match replica.storedBlocks with
  | [] => return replica
  | block :: rest =>
    if block.view = replica.view then do
      let (replica, _) ← { replica with storedBlocks := rest }.addAndPrepareBlock transition env
        block
      return replica
    else return replica

def roundTransition (env : Env P) : Nat → Replica P → Bool → Outcome (Replica P)
  | 0, _, _ => throw .fuel
  | fuel + 1, replica, timeout => do
      let replica ← replica.enterNextView env timeout
      let replica ← replica.prepareStored (roundTransition env fuel) env
      replica.applyStored (roundTransition env fuel) env fuel

def newView (env : Env P) (replica : Replica P) : Outcome (Replica P) := do
  let (enclave, result) ← replica.enclave.call .reSignLastPrepared
  let newView ← expect result
  let replica := { replica with enclave }.unicast
    (View.getViewLeader newView.usableView replica.n) (.commitment newView)
  replica.roundTransition env env.fuel true

/-- The check at the start of `process_block`: a block of an earlier view is skipped if it is
stored. -/
def alreadyKnown (block : Block P) : Outcome Bool :=
  if block.view < replica.view then
    match replica.blockstore.get block.view with
    | none => return false
    | some existing =>
      if existing.hashValue ≠ block.hashValue then throw .unreachable else return true
  else return false

/-- The checks of `process_block` on a block and the vote of its leader. A verified accumulator is
not of the last view. -/
def acceptable (block : Block P) (prepare : SignedCommitment P) : Outcome Bool :=
  match block.justification.getCommitment with
  | none => return false
  | some accumulator =>
    if !accumulator.isAccumulator then return false
    else do
      accumulator.checkView
      if accumulator.getViewUsableFor ≠ block.view then return false
      else if !(← replica.enclave.verifyUntrusted accumulator) then return false
      else if accumulator.usableView ≠ block.view then return false
      else if !prepare.isUsig then return false
      else if !prepare.isPrepare then return false
      else if prepare.getBlockHash ≠ block.hashValue then return false
      else if prepare.getView ≠ block.view then return false
      else replica.enclave.verifyUntrusted prepare

def answerOpenRequests (block : Block P) : Replica P :=
  match replica.openBlockRequests block.view with
  | none => replica
  | some waiting =>
    waiting.iter.foldl (fun replica receiver => replica.unicast receiver (.requestedBlock block))
      { replica with
        openBlockRequests := Function.update replica.openBlockRequests block.view none }

def forgetRequest (view : Nat) : Replica P :=
  { replica with requestedBlocks := Function.update replica.requestedBlocks view none }

/-- A block of a later view waits for that view. -/
def storeBlock (block : Block P) : Replica P :=
  if knows Block.view block.view replica.storedBlocks then replica
  else { replica with
    storedBlocks := insert (fun left right => left.view ≤ right.view) block replica.storedBlocks }

def processBlock (block : Block P) (prepare : SignedCommitment P) : Outcome (Replica P) := do
  if ← replica.alreadyKnown block then return replica
  else if !(← replica.acceptable block prepare) then return replica
  else
    let replica := (replica.answerOpenRequests block).forgetRequest block.view
    if replica.view < block.view then return replica.storeBlock block
    else
      let (replica, _) ← replica.addAndPrepareBlock (roundTransition env env.fuel) env block
      return replica

def storeCommitment (commitment : SignedCommitment P) : Replica P :=
  if knows SignedCommitment.key commitment.key replica.storedCommitments then replica
  else { replica with
    storedCommitments := insert SignedCommitment.before commitment replica.storedCommitments }

def processCommitment (sender : Nat) (commitment : SignedCommitment P) : Outcome (Replica P) :=
  if sender ≠ commitment.getCreator then return replica
  else do
    commitment.checkView
    if commitment.getViewUsableFor < replica.view then return replica
    else if !(← replica.enclave.verifyUntrusted commitment) then return replica
    else if !replica.isViewLeadByMe commitment.usableView then return replica
    else if !commitment.isUsig then return replica
    else if replica.view < commitment.usableView then
      return replica.storeCommitment commitment
    else replica.applyCommitment (roundTransition env env.fuel) env commitment

def processHandshake (sender : Nat) (key : P.PublicKey) : Outcome (Replica P) :=
  match replica.enclave.addPeer sender key with
  | .error .doubleKeyReceived => return replica
  | .error _ => throw .unwrap
  | .ok enclave =>
    let replica := { replica with enclave, peersAdded := replica.peersAdded + 1 }
    if replica.peersAdded = replica.n then do
      let replica ← replica.newView env
      return { replica with output := replica.output.setReady }
    else return replica

def processBlockRequest (sender blockView : Nat) : Replica P :=
  match replica.blockstore.get blockView with
  | some block => replica.unicast sender (.requestedBlock block)
  | none =>
    match replica.storedBlocks.find? (fun block => block.view = blockView) with
    | some block => replica.unicast sender (.requestedBlock block)
    | none =>
      let waiting := (replica.openBlockRequests blockView).getD IdSet.empty
      { replica with
        openBlockRequests := Function.update replica.openBlockRequests blockView
          (some (waiting.insert sender)) }

def processRequestedBlock (block : Block P) : Outcome (Replica P) :=
  match replica.requestedBlocks block.view with
  | none => return replica
  | some hash =>
    let replica := replica.forgetRequest block.view
    if hash ≠ block.hashValue then return replica
    else do
      assert ((replica.blockstore.get block.view).isNone)
      let (replica, _) ← replica.addAndPrepareBlock (roundTransition env env.fuel) env block
      replica.prepareStored (roundTransition env env.fuel) env

def dispatch (peerMessage : PeerMessage P) : Outcome (Replica P) :=
  match peerMessage.message with
  | .newBlock block prepare => replica.processBlock env block prepare
  | .commitment commitment => replica.processCommitment env peerMessage.sender commitment
  | .handshake key => replica.processHandshake env peerMessage.sender key
  | .blockRequest blockView => return replica.processBlockRequest peerMessage.sender blockView
  | .requestedBlock block => replica.processRequestedBlock env block

def taken : Output P :=
  { replica.output.output with view := replica.view }

def machine : Reflector (Replica P) (Output P) (PeerMessage P) where
  dispatch := dispatch env
  take replica :=
    ({ replica with output := .new replica.me }, replica.taken, replica.output.reflectionMessages)
  join := Output.join
  join_assoc := Output.join_assoc

def processPeerMessage (peerMessage : PeerMessage P) : Outcome (Replica P × Output P) :=
  (machine env).process env.fuel replica peerMessage

def reflect (env : Env P) (replica : Replica P) : Outcome (Replica P × Output P) :=
  (machine env).reflect env.fuel replica

def initHandshake : Outcome (Replica P × Output P) := do
  let key ← expect replica.enclave.getPublicKey
  let enclave ← expect (replica.enclave.addPeer replica.me key)
  let replica := { replica with enclave, peersAdded := replica.peersAdded + 1 }
  (replica.broadcast (.handshake key)).reflect env

def receiveClientRequest (request : P.Tx) : Outcome (Replica P × Output P) := do
  let replica := { replica with
    pendingClientRequests := replica.pendingClientRequests.insert request }
  if replica.callTryCreateBlock then
    let full ← replica.pendingClientRequests.fullBlockOrAtLeast replica.minimumBlockSize
    if full || decide (replica.blockTimeout < replica.elapsed env 0) then
      let replica ← replica.createBlock (roundTransition env env.fuel) env
      replica.reflect env
    else replica.reflect env
  else replica.reflect env

def handleBlockTimeout : Outcome (Replica P × Output P) := do
  if replica.callTryCreateBlock then
    let replica ← replica.createBlock (roundTransition env env.fuel) env
    replica.reflect env
  else replica.reflect env

def handleViewTimeout : Outcome (Replica P × Output P) := do
  if replica.isViewLeadByMe replica.view then replica.reflect env
  else
    let replica ← replica.newView env
    replica.reflect env

end Replica

end Abcperf.Damysus
