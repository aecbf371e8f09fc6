import Abcperf.Lib.Outcome
import Abcperf.Nxbft.Vertex

/-! The graph of one replica (`consensus_dag`): one slot per round and creator, with the marks that
delivery and path search leave on a vertex. Loops over the graph take a number of iterations they
may use; a call that returns is one that was given enough. -/

namespace Abcperf.Nxbft

open Lib Lib.Outcome

variable {P : Platform}

structure VertexWithMeta (P : Platform) where
  vertex : Vertex P
  delivered : Bool
  pathExplored : Bool
  reaches : IdSet

namespace VertexWithMeta

def new (vertex : Vertex P) (reaches : IdSet) : VertexWithMeta P := ⟨vertex, false, false, reaches⟩

def deliver (entry : VertexWithMeta P) : VertexWithMeta P := { entry with delivered := true }

def pathExplore (entry : VertexWithMeta P) : VertexWithMeta P := { entry with pathExplored := true }

end VertexWithMeta

structure DagRound (P : Platform) where
  vertices : Nat → Option (VertexWithMeta P)
  validVerticeCount : Nat

namespace DagRound

def new : DagRound P := ⟨fun _ => none, 0⟩

def allValidAddresses (round : DagRound P) (n : Nat) : List DagAddress :=
  (List.range n).filterMap (fun creator => (round.vertices creator).map (·.vertex.address))

def insert (round : DagRound P) (entry : VertexWithMeta P) : DagRound P where
  vertices := Function.update round.vertices entry.vertex.creator (some entry)
  validVerticeCount := round.validVerticeCount + 1

def modify (round : DagRound P) (creator : Nat) (change : VertexWithMeta P → VertexWithMeta P) :
    DagRound P :=
  { round with
    vertices := Function.update round.vertices creator ((round.vertices creator).map change) }

def prune (round : DagRound P) (n : Nat) : List (Vertex P) :=
  (List.range n).filterMap fun creator =>
    ((round.vertices creator).filter (!·.delivered)).map (·.vertex)

end DagRound

structure Dag (P : Platform) where
  n : Nat
  offset : Nat
  maxRound : Nat
  rounds : List (DagRound P)
  exploredFrom : Nat
  sized : offset + rounds.length = maxRound + 1

namespace Dag

variable (dag : Dag P) (address : DagAddress)

def newRound : Dag P where
  n := dag.n
  offset := dag.offset
  maxRound := dag.maxRound + 1
  rounds := dag.rounds ++ [DagRound.new]
  exploredFrom := dag.exploredFrom
  sized := by have := dag.sized; simp; omega

def new (n : Nat) : Dag P := newRound ⟨n, 1, 0, [], 0, rfl⟩

def roundToIndex (round : Nat) : Option Nat :=
  if round < dag.offset ∨ dag.maxRound < round then none else some (round - dag.offset)

def roundAt (round : Nat) : Option (DagRound P) :=
  (dag.roundToIndex round).bind (dag.rounds[·]?)

def lookup : Option (VertexWithMeta P) :=
  (dag.roundAt address.round).bind (·.vertices address.creator)

def getWithMeta : Outcome (Option (VertexWithMeta P)) := do
  assert (address.creator < dag.n)
  return dag.lookup address

def get : Outcome (Option (Vertex P)) := do
  return (← dag.getWithMeta address).map (·.vertex)

def knows : Outcome Bool := do
  return (← dag.get address).isSome

def getRound (round : Nat) : List DagAddress :=
  match dag.roundAt round with
  | some found => found.allValidAddresses dag.n
  | none => []

def getRoundValidCount (round : Nat) : Nat :=
  match dag.roundAt round with
  | some found => found.validVerticeCount
  | none => 0

def modifyRound (round : Nat) (change : DagRound P → DagRound P) : Dag P where
  n := dag.n
  offset := dag.offset
  maxRound := dag.maxRound
  rounds := dag.rounds.modify (round - dag.offset) change
  exploredFrom := dag.exploredFrom
  sized := by simpa using dag.sized

def modify (change : VertexWithMeta P → VertexWithMeta P) : Dag P :=
  dag.modifyRound address.round (·.modify address.creator change)

/-- The creators of the first round of the wave that a new vertex reaches: from the third round
on they are collected from the parents, two and three edges down. -/
def reachesOf (vertex : Vertex P) : Outcome IdSet :=
  if vertex.round % 4 = 3 then
    vertex.edges.iter.foldlM (fun reaches creator => do
      let parent ← unwrap (← dag.get ⟨vertex.round - 1, creator⟩)
      return reaches.merge parent.edges) IdSet.empty
  else if vertex.round % 4 = 0 then
    vertex.edges.iter.foldlM (fun reaches creator => do
      let parent ← unwrap (← dag.getWithMeta ⟨vertex.round - 1, creator⟩)
      return reaches.merge parent.reaches) IdSet.empty
  else return IdSet.empty

def insert (vertex : Vertex P) : Outcome (Dag P) := do
  assert (¬ (← dag.knows vertex.address))
  assert (dag.roundToIndex vertex.round).isSome
  let reaches ← dag.reachesOf vertex
  return dag.modifyRound vertex.round (·.insert (VertexWithMeta.new vertex reaches))

/-- The neighbours that the delivery pushes, on a stack whose top is the head of the list. -/
def pushNeighbors (maxDepth : Nat) (address : DagAddress) (edges : List Nat)
    (stack : List DagAddress) : Outcome (List DagAddress) :=
  edges.foldlM (fun stack edge => do
    let neighbor : DagAddress := ⟨address.round - 1, edge⟩
    if neighbor.round < maxDepth then
      return stack
    let entry ← unwrap (← dag.getWithMeta neighbor)
    if entry.delivered then
      return stack
    if ¬ (← dag.knows neighbor) then
      return stack
    return neighbor :: stack) stack

def deliverLoop (maxDepth : Nat) :
    Nat → Dag P → List DagAddress → List DagAddress → Outcome (Dag P × List DagAddress)
  | 0, _, _, _ => .error .fuel
  | _ + 1, dag, [], delivered => return (dag, delivered)
  | fuel + 1, dag, address :: stack, delivered => do
      let entry ← unwrap (← dag.getWithMeta address)
      if entry.delivered then
        deliverLoop maxDepth fuel dag stack delivered
      else
        let stack ← dag.pushNeighbors maxDepth address entry.vertex.edges.iter stack
        deliverLoop maxDepth fuel (dag.modify address .deliver) stack (delivered ++ [address])

/-- Depth-first search that delivers all vertices reachable from a start address which were not
delivered yet. -/
def deliverFrom (fuel : Nat) (dag : Dag P) (address : DagAddress) (maxDepth : Nat) :
    Outcome (Dag P × List DagAddress) := do
  assert (← dag.knows address)
  assert (maxDepth ≤ address.round)
  let entry ← unwrap (← dag.getWithMeta address)
  if entry.delivered then
    return (dag, [])
  deliverLoop maxDepth fuel dag [address] []

def enqueue (target : DagAddress) (queue : List DagAddress) (neighbor : DagAddress) :
    List DagAddress :=
  if neighbor.creator = target.creator then neighbor :: queue else queue ++ [neighbor]

def inplaceNeighbors (target address : DagAddress) (edges : List Nat) (queue : List DagAddress) :
    Outcome (List DagAddress) :=
  edges.foldlM (fun queue edge => do
    let neighbor : DagAddress := ⟨address.round - 1, edge⟩
    let entry ← unwrap (← dag.getWithMeta neighbor)
    if entry.pathExplored then
      return queue
    if ¬ (← dag.knows neighbor) then
      return queue
    return enqueue target queue neighbor) queue

def bestFirstSearchInplace (target : DagAddress) :
    Nat → Dag P → List DagAddress → Outcome (Dag P × Bool)
  | 0, _, _ => .error .fuel
  | _ + 1, dag, [] => return (dag, false)
  | fuel + 1, dag, address :: queue => do
      if address = target then
        return (dag, true)
      let entry ← unwrap (← dag.getWithMeta address)
      if entry.pathExplored then
        bestFirstSearchInplace target fuel dag queue
      else
        let queue ← dag.inplaceNeighbors target address entry.vertex.edges.iter queue
        bestFirstSearchInplace target fuel (dag.modify address .pathExplore) queue

def expensiveNeighbors (target address : DagAddress) (edges : List Nat)
    (pending : List DagAddress × List DagAddress) :
    Outcome (List DagAddress × List DagAddress) :=
  edges.foldlM (fun (queue, seen) edge => do
    let neighbor : DagAddress := ⟨address.round - 1, edge⟩
    if neighbor ∈ seen then
      return (queue, seen)
    if ¬ (← dag.knows neighbor) then
      return (queue, seen)
    return (enqueue target queue neighbor, neighbor :: seen)) pending

def bestFirstSearchExpensive (dag : Dag P) (target : DagAddress) :
    Nat → List DagAddress × List DagAddress → Outcome Bool
  | 0, _ => .error .fuel
  | _ + 1, ([], _) => return false
  | fuel + 1, (address :: queue, seen) => do
      if address = target then
        return true
      let vertex ← unwrap (← dag.get address)
      let pending ← dag.expensiveNeighbors target address vertex.edges.iter (queue, seen)
      bestFirstSearchExpensive dag target fuel pending

/-- Asserts that both vertices are part of the graph. The marks of the search in place are only
used from a round above every earlier start. -/
def hasPath (fuel : Nat) (dag : Dag P) (source target : DagAddress) : Outcome (Dag P × Bool) := do
  assert (← dag.knows source)
  assert (← dag.knows target)
  assert (target.round < source.round)
  if dag.exploredFrom < source.round then
    bestFirstSearchInplace target fuel { dag with exploredFrom := source.round } [source]
  else
    let found ← dag.bestFirstSearchExpensive target fuel ([source], [source])
    return (dag, found)

def drained (limit : Nat) (low : dag.offset ≤ limit) (high : limit ≤ dag.maxRound) : Dag P where
  n := dag.n
  offset := limit
  maxRound := dag.maxRound
  rounds := dag.rounds.drop (limit - dag.offset)
  exploredFrom := dag.exploredFrom
  sized := by have := dag.sized; simp; omega

/-- Drops the rounds before `limit`. Returns the old and the new offset with what was not delivered
in those rounds. -/
def prune (limit : Nat) : Outcome (Dag P × Nat × Nat × List (Vertex P)) :=
  if inside : dag.offset ≤ limit ∧ limit ≤ dag.maxRound then
    return (dag.drained limit inside.1 inside.2, dag.offset, limit,
      (dag.rounds.take (limit - dag.offset)).flatMap (·.prune dag.n))
  else throw .assertion

def reaches (replica : Nat) : Outcome Bool := do
  let entry ← unwrap (← dag.getWithMeta address)
  return entry.reaches.contains replica

end Dag

end Abcperf.Nxbft
