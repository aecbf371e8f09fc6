import Abcperf.KeyMap
import Abcperf.Minbft.Platform

/-! The request batchers of MinBFT. They say when a primary proposes the requests that have arrived;
what the clock shows, the random numbers and the results of floating point arithmetic come from the
environment. -/

namespace Abcperf.Minbft

open Lib Lib.Outcome

inductive Site
  | viewChanges (view : Nat)
  | checkpoints (batches : Nat)
  | awaitingRecoveryReply
  | clientsState
  | pendingNewViews (origin : Nat)
  | forwards (origin : Nat)

/-- What a call does not determine by itself. `order` is the order in which a hash map yields its
keys, `pick` chooses among equal elements of a heap, and the readings of `clock`, the random numbers
and the results of the `f32` computations in `adapt_batch_parameters` are numbered. -/
structure Env where
  fuel : Nat
  overflowChecks : Bool
  order : Site → List Nat → List Nat
  ordered : ∀ site keys, (order site keys).Perm keys
  pick : Nat → Nat
  clock : Nat → Nat
  pertupation : Nat → Bool
  adapt : Nat → Nat × Option Nat

def durationMax : Nat := Nat.pow 2 64 * Nat.pow 10 9 - 1

inductive TimeoutType
  | batch
  | client
  | viewChange
  deriving DecidableEq

structure Timeout where
  timeoutType : TimeoutType
  duration : Nat
  stopClass : Nat
  deriving DecidableEq

namespace Timeout

def batch (duration : Nat) : Timeout := ⟨.batch, duration, 0⟩

def client (clientId duration : Nat) : Timeout := ⟨.client, duration, clientId⟩

def viewChange (duration : Nat) : Timeout := ⟨.viewChange, duration, 0⟩

end Timeout

abbrev RequestBatch (C : Carriers) := List (ClientRequest C)

abbrev ControllerOutput (C : Carriers) := Option (RequestBatch C) × Option Timeout

variable {C : Carriers}

def batchId : RequestBatch C → Option (Nat × Nat)
  | [] => none
  | first :: _ => some (first.client, first.id)

structure TrivialRequestBatcher (C : Carriers) where
  nextBatch : List (ClientRequest C)
  timeoutDuration : Nat
  maxSize : Option Nat
  timeoutStarted : Bool

namespace TrivialRequestBatcher

def new (timeoutDuration : Nat) (maxSize : Option Nat) : TrivialRequestBatcher C :=
  ⟨[], timeoutDuration, maxSize, false⟩

def isFull (batcher : TrivialRequestBatcher C) : Bool :=
  batcher.maxSize.any fun maxSize => maxSize ≤ batcher.nextBatch.length

def batch (batcher : TrivialRequestBatcher C) (request : ClientRequest C) :
    TrivialRequestBatcher C × ControllerOutput C :=
  let batcher := { batcher with nextBatch := batcher.nextBatch ++ [request] }
  if batcher.isFull then
    ({ batcher with timeoutStarted := false, nextBatch := [] }, some batcher.nextBatch, none)
  else if batcher.timeoutStarted then (batcher, none, none)
  else ({ batcher with timeoutStarted := true }, none, some (.batch batcher.timeoutDuration))

def timeout (batcher : TrivialRequestBatcher C) :
    TrivialRequestBatcher C × ControllerOutput C :=
  let stopped := { batcher with timeoutStarted := false }
  if batcher.nextBatch.isEmpty then (stopped, none, none)
  else ({ stopped with nextBatch := [] }, some batcher.nextBatch, none)

end TrivialRequestBatcher

inductive Direction
  | increasing
  | decreasing
  deriving DecidableEq

def Direction.flip : Direction → Direction
  | .increasing => .decreasing
  | .decreasing => .increasing

structure Eso where
  waitingTime : Nat
  perfIndex : Nat
  probingDirection : Direction
  deriving DecidableEq

namespace Eso

def new : Eso := ⟨0, durationMax, .increasing⟩

def gamma : Nat := 1000000

/-- The waiting time moves by a millisecond and a random pertupation of -1 or 0 milliseconds. -/
def update (eso : Eso) (newPerfIndex : Nat) (pertupation : Bool) : Eso × Direction :=
  let probingDirection :=
    if newPerfIndex ≤ eso.perfIndex then eso.probingDirection else eso.probingDirection.flip
  match probingDirection, pertupation with
  | .increasing, false =>
    (⟨min durationMax (eso.waitingTime + gamma), newPerfIndex, probingDirection⟩, .increasing)
  | .increasing, true => (⟨eso.waitingTime, newPerfIndex, probingDirection⟩, .decreasing)
  | .decreasing, false =>
    (⟨eso.waitingTime - gamma, newPerfIndex, probingDirection⟩, .decreasing)
  | .decreasing, true =>
    (⟨eso.waitingTime - 2 * gamma, newPerfIndex, probingDirection⟩, .decreasing)

end Eso

/-- `ticks` numbers the readings of the clock. -/
structure Aesc (C : Carriers) where
  requests : List (ClientRequest C)
  optimizers : List Eso
  issueEvents : KeyMap (Nat × Nat) Nat
  lastBatch : Option Nat
  maxInflight : Nat
  ticks : Nat

namespace Aesc

variable (env : Env) (batcher : Aesc C)

def new (maxBatchSize maxInflight : Nat) : Aesc C :=
  ⟨[], List.replicate maxBatchSize Eso.new, .empty, none, maxInflight, 0⟩

def now : Nat × Aesc C :=
  (env.clock batcher.ticks, { batcher with ticks := batcher.ticks + 1 })

def timeSinceLast : Nat × Aesc C :=
  match batcher.lastBatch with
  | none => (durationMax, batcher)
  | some event =>
    let (now, batcher) := batcher.now env
    (now - event, batcher)

def issue : Outcome (Aesc C × ControllerOutput C) := do
  let size := min batcher.optimizers.length batcher.requests.length
  let batch := batcher.requests.take size
  let id ← unwrap (batchId batch)
  let (now, batcher) := batcher.now env
  return ({ batcher with
    requests := batcher.requests.drop size
    lastBatch := some now
    issueEvents := batcher.issueEvents.insert id now }, some batch, none)

def getNextBatch : Outcome (Aesc C × ControllerOutput C) :=
  if batcher.requests.isEmpty then return (batcher, none, none)
  else if batcher.maxInflight ≤ batcher.issueEvents.len then return (batcher, none, none)
  else do
    let eso ← unwrap ((batcher.optimizers[batcher.requests.length - 1]?).or
      batcher.optimizers.getLast?)
    let (timeSinceLast, batcher) := batcher.timeSinceLast env
    if eso.waitingTime ≤ timeSinceLast then batcher.issue env
    else return (batcher, none, some (.batch (eso.waitingTime - timeSinceLast)))

def batch (request : ClientRequest C) : Outcome (Aesc C × ControllerOutput C) :=
  getNextBatch env { batcher with requests := batcher.requests ++ [request] }

def timeout : Outcome (Aesc C × ControllerOutput C) :=
  batcher.getNextBatch env

def enforceMonotonicity (optimizers : List Eso) (batchSize newTimeout : Nat) :
    Direction → List Eso
  | .increasing => optimizers.mapIdx fun index eso =>
    if batchSize - 1 ≤ index then { eso with waitingTime := max eso.waitingTime newTimeout }
    else eso
  | .decreasing => optimizers.mapIdx fun index eso =>
    if index < batchSize - 1 then { eso with waitingTime := min eso.waitingTime newTimeout }
    else eso

def update (batch : RequestBatch C) : Outcome (Aesc C × ControllerOutput C) :=
  match batchId batch with
  | none => batcher.getNextBatch env
  | some id =>
    match batcher.issueEvents.get id with
    | none => batcher.getNextBatch env
    | some issueEvent => do
        let (now, batcher) := batcher.now env
        let eso ← unwrap (batcher.optimizers[batch.length - 1]?)
        let (eso, direction) := eso.update (now - issueEvent) (env.pertupation batcher.ticks)
        let optimizers := batcher.optimizers.set (batch.length - 1) eso
        getNextBatch env { batcher with
          issueEvents := batcher.issueEvents.remove id
          optimizers := enforceMonotonicity optimizers batch.length eso.waitingTime direction }

end Aesc

/-- The two averages are not kept, only whether they have a value; what follows from them comes from
`Env.adapt`. -/
structure EmaBatcher (C : Carriers) where
  nextBatch : List (ClientRequest C)
  timeoutStarted : Option Nat
  timeoutDuration : Nat
  maxBatchSize : Nat
  startTimes : KeyMap (Nat × Nat) Nat
  hasTimeToOrdering : Bool
  hasTimeBetweenArrivals : Bool
  ticks : Nat

namespace EmaBatcher

variable (env : Env) (batcher : EmaBatcher C)

def new : EmaBatcher C := ⟨[], none, durationMax, 1, .empty, false, false, 0⟩

def now : Nat × EmaBatcher C :=
  (env.clock batcher.ticks, { batcher with ticks := batcher.ticks + 1 })

def remaining : EmaBatcher C × Timeout :=
  let (now, batcher) := batcher.now env
  match batcher.timeoutStarted with
  | some startTime => (batcher, .batch (batcher.timeoutDuration - (now - startTime)))
  | none => ({ batcher with timeoutStarted := some now }, .batch batcher.timeoutDuration)

def getNextBatch (timeout : Bool) : Outcome (EmaBatcher C × ControllerOutput C) :=
  if batcher.maxBatchSize ≤ batcher.nextBatch.length ∨
    (!batcher.nextBatch.isEmpty && timeout) then do
    let batch := batcher.nextBatch
    let id ← unwrap (batchId batch)
    let (now, batcher) := batcher.now env
    return ({ batcher with
      nextBatch := []
      startTimes := batcher.startTimes.insert id now }, some batch, none)
  else if !batcher.nextBatch.isEmpty then
    let (batcher, timeout) := batcher.remaining env
    return (batcher, none, some timeout)
  else return (batcher, none, none)

def adaptBatchParameters : EmaBatcher C :=
  if batcher.hasTimeBetweenArrivals && batcher.hasTimeToOrdering then
    let (maxBatchSize, duration) := env.adapt batcher.ticks
    { batcher with maxBatchSize, timeoutDuration := duration.getD batcher.timeoutDuration }
  else batcher

def batch (request : ClientRequest C) : Outcome (EmaBatcher C × ControllerOutput C) :=
  let (_, batcher) := EmaBatcher.now env { batcher with
    nextBatch := batcher.nextBatch ++ [request] }
  (adaptBatchParameters env { batcher with hasTimeBetweenArrivals := true }).getNextBatch env false

def timeout : Outcome (EmaBatcher C × ControllerOutput C) :=
  batcher.getNextBatch env true

/-- A batch that this batcher has not issued has no start time. -/
def update (committed : RequestBatch C) : Outcome (EmaBatcher C × ControllerOutput C) := do
  let (_, batcher) := batcher.now env
  let id ← unwrap (batchId committed)
  let _ ← unwrap (batcher.startTimes.get id)
  (adaptBatchParameters env { batcher with
    startTimes := batcher.startTimes.remove id
    hasTimeToOrdering := true }).getNextBatch env false

end EmaBatcher

inductive RequestBatcher (C : Carriers)
  | trivial (batcher : TrivialRequestBatcher C)
  | aesc (batcher : Aesc C)
  | ema (batcher : EmaBatcher C)

def BatchConfiguration.init : BatchConfiguration → RequestBatcher C
  | .trivial batchTimeout maxBatchSize => .trivial (.new batchTimeout maxBatchSize)
  | .aesc maxBatchSize maxInflight _ => .aesc (.new maxBatchSize maxInflight)
  | .ema => .ema .new

namespace RequestBatcher

def batch (env : Env) (request : ClientRequest C) :
    RequestBatcher C → Outcome (RequestBatcher C × ControllerOutput C)
  | .trivial batcher => return (batcher.batch request).map .trivial id
  | .aesc batcher => (·.map .aesc id) <$> batcher.batch env request
  | .ema batcher => (·.map .ema id) <$> batcher.batch env request

def timeout (env : Env) : RequestBatcher C → Outcome (RequestBatcher C × ControllerOutput C)
  | .trivial batcher => return batcher.timeout.map .trivial id
  | .aesc batcher => (·.map .aesc id) <$> batcher.timeout env
  | .ema batcher => (·.map .ema id) <$> batcher.timeout env

def update (env : Env) (committed : RequestBatch C) :
    RequestBatcher C → Outcome (RequestBatcher C × ControllerOutput C)
  | .trivial batcher => return (.trivial batcher, none, none)
  | .aesc batcher => (·.map .aesc id) <$> batcher.update env committed
  | .ema batcher => (·.map .ema id) <$> batcher.update env committed

end RequestBatcher

end Abcperf.Minbft
