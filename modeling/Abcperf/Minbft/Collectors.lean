import Abcperf.Minbft.Batching

/-! What a replica collects: the messages of each replica until they are in order, and the commits,
checkpoints, requests for view changes, view changes and forwarded messages until there are enough
of them. -/

namespace Abcperf.Minbft

open Lib Lib.Outcome

variable {C : Carriers}

/-- `BinaryHeap::peek` and `pop` on a heap of messages with the lowest counter on top: the position
of that message. Among messages with the same counter any may be on top. -/
def topPosition (env : Env) (heap : List (UsigMessage C)) : Option Nat :=
  match (heap.map (·.counter)).min? with
  | none => none
  | some lowest =>
    let positions := (List.range heap.length).filter fun index =>
      (heap[index]?).any fun message => message.counter = lowest
    positions[env.pick heap.length % positions.length]?

/-- `UsigMsgOrderEnforcer`; `nextCount` is that of its `CountChecker`. -/
structure UsigMsgOrderEnforcer (C : Carriers) where
  nextCount : Nat
  unprocessed : List (UsigMessage C)
  pendingNewViews : IdMap (List (UsigMessage C))

namespace UsigMsgOrderEnforcer

variable (enforcer : UsigMsgOrderEnforcer C)

def new : UsigMsgOrderEnforcer C := ⟨0, [], .empty⟩

/-- The messages that follow directly. `fuel` is the size of the heap. -/
def yieldToBeProcessed (env : Env) :
    Nat → UsigMsgOrderEnforcer C → Outcome (UsigMsgOrderEnforcer C × List (UsigMessage C))
  | 0, enforcer => return (enforcer, [])
  | fuel + 1, enforcer =>
    match topPosition env enforcer.unprocessed with
    | none => return (enforcer, [])
    | some position =>
      match enforcer.unprocessed[position]? with
      | none => return (enforcer, [])
      | some head =>
        let popped := { enforcer with unprocessed := enforcer.unprocessed.eraseIdx position }
        if head.counter < enforcer.nextCount then yieldToBeProcessed env fuel popped
        else if head.counter = enforcer.nextCount then do
          let nextCount ← addWord env.overflowChecks enforcer.nextCount 1
          let (last, messages) ← yieldToBeProcessed env fuel { popped with nextCount }
          return (last, head :: messages)
        else return (enforcer, [])

def recordPending (view : Nat) (message : UsigMessage C) : UsigMsgOrderEnforcer C :=
  let pending := (enforcer.pendingNewViews.get view).getD [] ++ [message]
  { enforcer with pendingNewViews := enforcer.pendingNewViews.insert view pending }

def record : UsigMessage C → UsigMsgOrderEnforcer C
  | .newView message => enforcer.recordPending message.data.nextView (.newView message)
  | .viewChange message => enforcer.recordPending message.data.nextView (.viewChange message)
  | .view _ | .checkpoint _ => enforcer

def pushToHandle (env : Env) (enforcer : UsigMsgOrderEnforcer C) (message : UsigMessage C) :
    Outcome (UsigMsgOrderEnforcer C × List (UsigMessage C)) :=
  let enforcer := enforcer.record message
  if message.counter < enforcer.nextCount then return (enforcer, [])
  else if message.counter = enforcer.nextCount then do
    let nextCount ← addWord env.overflowChecks enforcer.nextCount 1
    let (last, messages) ←
      yieldToBeProcessed env enforcer.unprocessed.length { enforcer with nextCount }
    return (last, message :: messages)
  else return ({ enforcer with unprocessed := enforcer.unprocessed ++ [message] }, [])

def getPendingNewViews (env : Env) (origin : Nat) (enforcer : UsigMsgOrderEnforcer C)
    (currentView : Nat) : List (UsigMessage C) :=
  ((enforcer.pendingNewViews.inOrder (env.order (.pendingNewViews origin)
    enforcer.pendingNewViews.keys)).filter fun entry => currentView < entry.1).flatMap Prod.snd

def pop (env : Env) (enforcer : UsigMsgOrderEnforcer C) : UsigMsgOrderEnforcer C :=
  match topPosition env enforcer.unprocessed with
  | none => enforcer
  | some position => { enforcer with unprocessed := enforcer.unprocessed.eraseIdx position }

/-- One message is popped for every counter that is skipped; an empty heap stays empty. -/
def skipCounters (env : Env) (counterAcceptedPrep : Nat) :
    Nat → UsigMsgOrderEnforcer C → Outcome (UsigMsgOrderEnforcer C)
  | fuel, enforcer =>
    if enforcer.nextCount ≤ counterAcceptedPrep then
      match fuel with
      | 0 => throw .fuel
      | fuel + 1 => do
        let nextCount ← addWord env.overflowChecks enforcer.nextCount 1
        skipCounters env counterAcceptedPrep fuel (pop env { enforcer with nextCount })
    else return enforcer

/-- The fuel is the number of counters to skip. The loop needs more only if there is no counter
after the accepted one: without overflow checks it then starts again at zero and never ends. -/
def updateInNewView (env : Env) (enforcer : UsigMsgOrderEnforcer C) (counterAcceptedPrep : Nat) :
    Outcome (UsigMsgOrderEnforcer C) :=
  skipCounters env counterAcceptedPrep (counterAcceptedPrep + 1 - enforcer.nextCount) enforcer

def updateAfterFinishedNewView (newView : Nat) : UsigMsgOrderEnforcer C :=
  { enforcer with pendingNewViews := enforcer.pendingNewViews.retain (newView < ·) }

def updateAfterRecoveredCounter (env : Env) (enforcer : UsigMsgOrderEnforcer C) (counter : Nat) :
    Outcome (UsigMsgOrderEnforcer C × List (UsigMessage C)) :=
  let unprocessed := enforcer.unprocessed.filter (counter ≤ ·.counter)
  yieldToBeProcessed env unprocessed.length
    { enforcer with nextCount := max enforcer.nextCount counter, unprocessed }

end UsigMsgOrderEnforcer

/-- `recv_commits` and `prepare` by the counter of the `Prepare`. The messages in `recv_commit_msgs`
are never read. -/
structure CollectorCommits (C : Carriers) where
  recvCommits : IdMap IdSet
  prepare : IdMap (Prepare C)

namespace CollectorCommits

def new : CollectorCommits C := ⟨.empty, .empty⟩

/-- The first `Prepare`s while enough replicas have committed to them. `fuel` is their number. -/
def takeAcceptable (t : Nat) :
    Nat → CollectorCommits C → Outcome (CollectorCommits C × List (Prepare C))
  | 0, collector => return (collector, [])
  | fuel + 1, collector =>
    match collector.prepare.entries with
    | [] => return (collector, [])
    | (counter, prepare) :: _ => do
        let commits ← unwrap (collector.recvCommits.get counter)
        if commits.len ≤ t then return (collector, [])
        else
          let (collector, acceptable) ← takeAcceptable t fuel
            ⟨collector.recvCommits.remove counter, collector.prepare.remove counter⟩
          return (collector, prepare :: acceptable)

def collect (collector : CollectorCommits C) (message : ViewPeerMessage C) (config : Config) :
    Outcome (CollectorCommits C × List (Prepare C)) :=
  let prepare := message.proposal
  let origins := (collector.recvCommits.get prepare.counter).getD .empty
  let collector : CollectorCommits C :=
    ⟨collector.recvCommits.insert prepare.counter (origins.insert message.origin),
      collector.prepare.insert prepare.counter prepare⟩
  takeAcceptable config.t collector.prepare.len collector

end CollectorCommits

structure KeyCheckpoints (C : Carriers) where
  stateHash : C.Hash
  totalAmountAcceptedBatches : Nat
  counterLatestPrep : Nat
  viewLatestPrep : Nat
  deriving DecidableEq

def CheckpointContent.key (content : CheckpointContent C) : KeyCheckpoints C :=
  ⟨content.stateHash, content.totalAmountAcceptedBatches, content.counterLatestPrep,
    content.viewLatestPrep⟩

structure CollectorCheckpoints (C : Carriers) where
  messages : KeyMap (KeyCheckpoints C) (IdMap (Checkpoint C))

namespace CollectorCheckpoints

def new : CollectorCheckpoints C := ⟨.empty⟩

def collectCheckpoint (collector : CollectorCheckpoints C) (checkpoint : Checkpoint C) :
    CollectorCheckpoints C × Nat :=
  let key := checkpoint.data.key
  let messages := (collector.messages.get key).getD .empty
  if messages.containsKey checkpoint.data.origin then (collector, messages.len)
  else
    let messages := messages.insert checkpoint.data.origin checkpoint
    (⟨collector.messages.insert key messages⟩, messages.len)

/-- Checkpoints for as many batches or fewer are dropped with the ones that are retrieved. -/
def retrieveCollectedCheckpoints (env : Env) (collector : CollectorCheckpoints C)
    (checkpoint : Checkpoint C) (config : Config) :
    CollectorCheckpoints C × Option (CheckpointCertificate C) :=
  let key := checkpoint.data.key
  match collector.messages.get key with
  | none => (collector, none)
  | some messages =>
    if messages.len ≤ config.t then (collector, none)
    else
      match messages.get config.id with
      | none => (collector, none)
      | some mine =>
        let others := messages.inOrder (env.order (.checkpoints key.totalAmountAcceptedBatches)
          (messages.remove config.id).keys)
        (⟨collector.messages.retain fun other =>
            key.totalAmountAcceptedBatches < other.totalAmountAcceptedBatches⟩,
          some ⟨mine, others.map Prod.snd⟩)

/-- What `process_checkpoint` does with the collector, and the certificate that it forms. -/
def process (env : Env) (config : Config) (collector : CollectorCheckpoints C)
    (checkpoint : Checkpoint C) : CollectorCheckpoints C × Option (CheckpointCertificate C) :=
  let (collector, amount) := collector.collectCheckpoint checkpoint
  if amount ≤ config.t then (collector, none)
  else collector.retrieveCollectedCheckpoints env checkpoint config

end CollectorCheckpoints

structure CollectorReqViewChanges where
  requests : KeyMap ReqViewChange IdSet

namespace CollectorReqViewChanges

def new : CollectorReqViewChanges := ⟨.empty⟩

def collect (collector : CollectorReqViewChanges) (request : ReqViewChange) (source : Nat) :
    CollectorReqViewChanges × Nat :=
  let collected := ((collector.requests.get request).getD .empty).insert source
  (⟨collector.requests.insert request collected⟩, collected.len)

def after (key other : ReqViewChange) : Bool :=
  other.prevView < key.prevView || (key.prevView = other.prevView && other.nextView < key.nextView)

def cleanUp (collector : CollectorReqViewChanges) (prevView nextView : Nat) :
    CollectorReqViewChanges :=
  ⟨collector.requests.retain fun key => after key ⟨prevView, nextView⟩⟩

end CollectorReqViewChanges

structure CollectorViewChanges (C : Carriers) where
  messages : IdMap (IdMap (ViewChange C))

namespace CollectorViewChanges

def new : CollectorViewChanges C := ⟨.empty⟩

def collectViewChange (collector : CollectorViewChanges C) (viewChange : ViewChange C) :
    CollectorViewChanges C × Nat :=
  let messages := (collector.messages.get viewChange.data.nextView).getD .empty
  let messages :=
    if messages.containsKey viewChange.data.origin then messages
    else messages.insert viewChange.data.origin viewChange
  (⟨collector.messages.insert viewChange.data.nextView messages⟩, messages.len)

def retrieveCollectedViewChanges (env : Env) (collector : CollectorViewChanges C)
    (viewChange : ViewChange C) (config : Config) :
    CollectorViewChanges C × Option (List (ViewChange C)) :=
  match collector.messages.get viewChange.data.nextView with
  | none => (collector, none)
  | some messages =>
    if messages.len ≤ config.t then (collector, none)
    else
      (⟨collector.messages.remove viewChange.data.nextView⟩,
        some ((messages.inOrder (env.order (.viewChanges viewChange.data.nextView)
          messages.keys)).map Prod.snd))

end CollectorViewChanges

/-- What a recovering replica has been told of the messages of an origin: by forwarder the counter
and the pending views. There is no entry for the replica itself, nor for an origin once it is known.
-/
structure CollectorForwards (C : Carriers) where
  recvForwards : IdMap (IdMap (Nat × List (UsigMessage C)))

namespace CollectorForwards

def new (config : Config) : CollectorForwards C :=
  ⟨((List.range config.n).filter (· ≠ config.id)).foldl (fun map id => map.insert id .empty) .empty⟩

def tally (counts : IdMap (Nat × List (UsigMessage C))) : IdMap (Nat × List (UsigMessage C)) :=
  counts.entries.foldl (fun tally entry =>
    let (_, counter, pending) := entry
    tally.insert counter ((tally.get counter).elim 1 (·.1 + 1), pending)) .empty

/-- The counters that more than `t` forwarders agree on, for one origin. -/
def agreed (env : Env) (config : Config) (origin : Nat)
    (counts : IdMap (Nat × List (UsigMessage C))) : List (Nat × Nat × List (UsigMessage C)) :=
  let tally := tally counts
  ((tally.inOrder (env.order (.forwards origin) tally.keys)).filter
    fun entry => config.t < entry.2.1).map fun entry => (origin, entry.1, entry.2.2)

def collect (env : Env) (collector : CollectorForwards C) (forwarder : Nat)
    (message : ViewPeerMessage C) (pendingNewViews : List (UsigMessage C)) (config : Config) :
    CollectorForwards C × List (Nat × Nat × List (UsigMessage C)) :=
  let recvForwards :=
    match collector.recvForwards.get message.origin with
    | none => collector.recvForwards
    | some received => collector.recvForwards.insert message.origin
        (received.insert forwarder (message.counter, pendingNewViews))
  let found := recvForwards.entries.flatMap fun entry => agreed env config entry.1 entry.2
  (⟨found.foldl (fun map entry => map.remove entry.1) recvForwards⟩, found)

end CollectorForwards

end Abcperf.Minbft
