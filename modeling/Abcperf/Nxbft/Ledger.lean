import Abcperf.Lib.Logs
import Abcperf.Nxbft.Delivery
import Abcperf.Nxbft.History
import Abcperf.Nxbft.PathSearch

/-! The ledger of a replica: the leaders it has committed, the order in which it has delivered
vertices, and the transactions it has handed out. It is a function of the graph and of the last
decided wave, so a larger graph does not change it. -/

namespace Abcperf.Nxbft

open Lib Lib.Outcome Lib.DepthFirst List Option

variable {P : Platform}

def coinState (n : Nat) (seed : BitVec 256) : Nat → P.Rng
  | 0 => P.fromSeed seed
  | tosses + 1 => (P.sample n (coinState n seed tosses)).2

def coin (P : Platform) (n : Nat) (seed : BitVec 256) (wave : Nat) : Nat :=
  (P.sample n (coinState n seed (wave - 1))).1

def leaderAt (P : Platform) (n : Nat) (seed : BitVec 256) (wave : Nat) : DagAddress :=
  ⟨Replica.waveRound wave 1, coin P n seed wave⟩

theorem leaderAt_ordered (n : Nat) (seed : BitVec 256) (early late : Nat) (less : early < late) :
    4 * early < (leaderAt P n seed late).round := by
  simp only [leaderAt, Replica.waveRound]
  omega

/-- One transaction of the delivered order: it is handed out unless its client already had one
with as large a request id. -/
def replayStep (state : List P.Tx × (Nat → Option Nat)) (tx : P.Tx) :
    List P.Tx × (Nat → Option Nat) :=
  let fresh := (state.1 ++ [tx],
    Function.update state.2 (P.clientId tx) (some (P.requestId tx)))
  match state.2 (P.clientId tx) with
  | some last => if P.requestId tx ≤ last then state else fresh
  | none => fresh

def replay (txs : List P.Tx) : List P.Tx × (Nat → Option Nat) :=
  txs.foldl replayStep ([], fun _ => none)

theorem foldl_replayStep_prefix (txs : List P.Tx) (state : List P.Tx × (Nat → Option Nat)) :
    state.1 <+: (txs.foldl replayStep state).1 := by
  induction txs generalizing state with
  | nil => exact prefix_rfl
  | cons tx rest ih =>
    refine List.IsPrefix.trans ?_ (ih (replayStep state tx))
    unfold replayStep
    split
    · split
      · exact prefix_rfl
      · exact prefix_append _ _
    · exact prefix_append _ _

theorem replay_prefix {shorter longer : List P.Tx} (isPrefix : shorter <+: longer) :
    (replay shorter).1 <+: (replay longer).1 := by
  obtain ⟨more, rfl⟩ := isPrefix
  rw [replay, replay, foldl_append]
  exact foldl_replayStep_prefix more _

theorem replayStep_newest (state : List P.Tx × (Nat → Option Nat)) (tx : P.Tx)
    (newest : Newest P.clientId P.requestId state.1 state.2) :
    Newest P.clientId P.requestId (replayStep state tx).1 (replayStep state tx).2 := by
  unfold replayStep
  split
  · next last found =>
    split
    · exact newest
    rename_i larger
    apply newest.snoc
    intro last' found'
    cases found.symm.trans found'
    omega
  rename_i missing
  apply newest.snoc
  intro last found
  cases missing.symm.trans found

theorem replay_newest (txs : List P.Tx) :
    Newest P.clientId P.requestId (replay txs).1 (replay txs).2 := by
  suffices all : ∀ state : List P.Tx × (Nat → Option Nat),
      Newest P.clientId P.requestId state.1 state.2 →
      Newest P.clientId P.requestId (txs.foldl replayStep state).1 (txs.foldl replayStep state).2 by
    exact all _ (Newest.nil _)
  induction txs with
  | nil => exact fun state newest => newest
  | cons tx rest ih => exact fun state newest => ih _ (replayStep_newest state tx newest)

namespace Dag

def transactionsAt (dag : Dag P) (address : DagAddress) : List P.Tx :=
  ((dag.lookup address).map (·.vertex.transactions)).getD []

variable {before after : Dag P}

theorem PathsKept.exploredBelow {before : Dag P} (kept : before.PathsKept after)
    (below : before.ExploredBelow) : after.ExploredBelow := by
  rintro address ⟨entry, found, marked⟩
  have explored := kept.explored address
  rw [found, map_some] at explored
  obtain ⟨older, olderFound, equal⟩ := map_eq_some_iff.mp explored.symm
  rw [kept.exploredFrom]
  exact below address ⟨older, olderFound, equal.trans marked⟩

theorem SameVertices.transactionsAt (same : before.SameVertices after) (address : DagAddress) :
    after.transactionsAt address = before.transactionsAt address := by
  have := congrArg (Option.map Vertex.transactions) (same.vertex address)
  simp only [Option.map_map, Function.comp_def] at this
  rw [Dag.transactionsAt, Dag.transactionsAt, this]

theorem Grows.transactionsAt (grows : before.Grows after) {address : DagAddress}
    (known : (before.lookup address).isSome) :
    after.transactionsAt address = before.transactionsAt address := by
  obtain ⟨entry, found⟩ := isSome_iff_exists.mp known
  rw [Dag.transactionsAt, Dag.transactionsAt, found, grows address entry found]

theorem flatMap_transactionsAt {order : List DagAddress}
    (same : ∀ address ∈ order, after.transactionsAt address = before.transactionsAt address) :
    order.flatMap after.transactionsAt = order.flatMap before.transactionsAt :=
  flatMap_congr same

end Dag

/-- What has been delivered: the depth-first order of the leaders so far, marked in the graph, and
the transactions of that order without repetitions. -/
structure Ordered (dag : Dag P) (leaders order : List DagAddress)
    (handedOut : List P.Tx × (Nat → Option Nat)) : Prop where
  linear : Linear dag.successors leaders order
  marks : dag.DeliveredIs order
  known : ∀ address ∈ order, (dag.lookup address).isSome
  replayed : handedOut = replay (order.flatMap dag.transactionsAt)

theorem ordered_empty (n : Nat) : Ordered (Dag.new n : Dag P) [] [] ([], fun _ => none) where
  linear := Linear.nil
  marks := by intro address entry found; simp at found
  known := by intro address member; cases member
  replayed := rfl

variable {leaders order : List DagAddress}

section

variable {before after : Dag P} {handedOut : List P.Tx × (Nat → Option Nat)}
  (ordered : Ordered before leaders order handedOut)

include ordered

theorem Ordered.remark (same : before.SameVertices after)
    (delivered : ∀ address, (after.lookup address).map (·.delivered) =
      (before.lookup address).map (·.delivered)) : Ordered after leaders order handedOut where
  linear := same.successors ▸ ordered.linear
  marks := by
    intro address entry found
    have marks := delivered address
    rw [found, map_some] at marks
    obtain ⟨older, olderFound, equal⟩ := map_eq_some_iff.mp marks.symm
    rw [← equal]
    exact ordered.marks address older olderFound
  known := by
    intro address member
    rw [same.isSome]
    exact ordered.known address member
  replayed := by
    rw [ordered.replayed, Dag.flatMap_transactionsAt fun address _ => same.transactionsAt address]

theorem Ordered.insert {vertex : Vertex P} (inserted : Dag.Inserted before vertex after) :
    Ordered after leaders order handedOut where
  linear := linear_grows inserted.grows.successors ordered.linear
  marks := by
    intro address entry found
    obtain ⟨reaches, _, slots⟩ := inserted.slots
    rw [slots] at found
    by_cases isNew : address = vertex.address
    · rw [if_pos isNew, some.injEq] at found
      subst found
      subst isNew
      constructor
      · intro impossible; cases impossible
      intro member
      have known := ordered.known _ member
      rw [inserted.fresh] at known
      cases known
    · rw [if_neg isNew] at found
      exact ordered.marks address entry found
  known := by
    intro address member
    obtain ⟨entry, found⟩ := isSome_iff_exists.mp (ordered.known address member)
    exact isSome_iff_exists.mpr ⟨entry, inserted.grows address entry found⟩
  replayed := by
    rw [ordered.replayed, Dag.flatMap_transactionsAt fun address member =>
      inserted.grows.transactionsAt (ordered.known address member)]

end

namespace Replica

def delivering (replica : Replica P) (more : List P.Tx) (last : Nat → Option Nat) : Replica P :=
  { replica with
    clientLastRequest := last
    output := { replica.output with
      output := { replica.output.output with
        delivery := replica.output.output.delivery ++ more } } }

theorem deliverTransaction_eq (replica : Replica P) (tx : P.Tx) (before : List P.Tx) :
    ∃ more last, replica.deliverTransaction tx = replica.delivering more last ∧
      replayStep (before, replica.clientLastRequest) tx = (before ++ more, last) := by
  cases found : replica.clientLastRequest (P.clientId tx) with
  | none => exact ⟨[tx], _, by simp only [deliverTransaction, found]; rfl, by
      simp only [replayStep, found]⟩
  | some last =>
    by_cases old : P.requestId tx ≤ last
    · exact ⟨[], replica.clientLastRequest, by simp [deliverTransaction, found, old, delivering],
        by simp [replayStep, found, old]⟩
    · exact ⟨[tx], _, by simp only [deliverTransaction, found, old, if_false]; rfl, by
        simp only [replayStep, found, old, if_false]⟩

theorem deliverTransactions_eq (txs : List P.Tx) (replica : Replica P) (before : List P.Tx) :
    ∃ more last, txs.foldl deliverTransaction replica = replica.delivering more last ∧
      txs.foldl replayStep (before, replica.clientLastRequest) = (before ++ more, last) := by
  induction txs generalizing replica before with
  | nil => exact ⟨[], replica.clientLastRequest, by simp [delivering], by simp⟩
  | cons tx rest ih =>
    obtain ⟨more, last, stepEq, stepReplay⟩ := deliverTransaction_eq replica tx before
    obtain ⟨more', last', restEq, restReplay⟩ :=
      ih (replica.delivering more last) (before ++ more)
    refine ⟨more ++ more', last', ?_, ?_⟩
    · rw [foldl_cons, stepEq, restEq]
      simp [delivering]
    · rw [foldl_cons, stepReplay]
      simpa [delivering] using restReplay

theorem deliverVertices_eq (addresses : List DagAddress) :
    ∀ (replica next : Replica P) (before : List P.Tx),
      addresses.foldlM deliverVertex replica = .ok next →
      ∃ more last, next = replica.delivering more last ∧
        (addresses.flatMap replica.dag.transactionsAt).foldl replayStep
          (before, replica.clientLastRequest) = (before ++ more, last) := by
  induction addresses with
  | nil =>
    intro replica next before run
    simp only [foldlM_nil, pure_ok] at run
    exact ⟨[], replica.clientLastRequest, by simp [delivering, run], by simp⟩
  | cons address rest ih =>
    intro replica next before run
    simp only [foldlM_cons, deliverVertex, bind_ok, pure_ok] at run
    obtain ⟨middle, ⟨slot, slotOk, vertex, found, rfl⟩, later⟩ := run
    obtain ⟨_, rfl⟩ := Dag.get_ok.mp slotOk
    obtain ⟨entry, entryFound, rfl⟩ := map_eq_some_iff.mp (unwrap_ok.mp found)
    obtain ⟨more, last, stepEq, stepReplay⟩ :=
      deliverTransactions_eq entry.vertex.transactions replica before
    rw [stepEq] at later
    obtain ⟨more', last', restEq, restReplay⟩ :=
      ih (replica.delivering more last) next (before ++ more) later
    refine ⟨more ++ more', last', ?_, ?_⟩
    · rw [restEq]
      simp [delivering]
    have content : replica.dag.transactionsAt address = entry.vertex.transactions := by
      simp [Dag.transactionsAt, entryFound]
    rw [flatMap_cons, foldl_append, content, stepReplay]
    simpa [delivering] using restReplay

def handedOut (history : Output P) (replica : Replica P) : List P.Tx × (Nat → Option Nat) :=
  ((total history replica).delivery, replica.clientLastRequest)

theorem deliverLeader_ordered {fuel : Nat} {replica next : Replica P} {leader : DagAddress}
    {leaders order delivered : List DagAddress} {history : Output P}
    (ordered : Ordered replica.dag leaders order (replica.handedOut history))
    (run : replica.deliverLeader fuel leader = .ok (next, delivered)) :
    ∃ dag more last, next = { replica with dag }.delivering more last ∧
      Dag.Delivered replica.dag [leader] order dag (order ++ delivered) ∧
      Ordered dag (leaders ++ [leader]) (order ++ delivered) (next.handedOut history) := by
  simp only [deliverLeader, bind_ok, Prod.exists, pair_ok] at run
  obtain ⟨dag, delivered', searched, next', transactions, rfl, rfl⟩ := run
  have delivery := Dag.deliverFrom_delivered ordered.marks searched
  obtain ⟨more, last, nextEq, replayed⟩ := deliverVertices_eq delivered' { replica with dag } next'
    (total history replica).delivery transactions
  refine ⟨dag, more, last, nextEq, delivery, ?_, delivery.marks, ?_, ?_⟩
  · rw [delivery.same.successors]
    exact Linear.snoc ordered.linear delivery.search
  · intro address member
    rcases delivery.known address member with old | known
    · rw [delivery.same.isSome]
      exact ordered.known address old
    · exact known
  have older : order.flatMap dag.transactionsAt = order.flatMap replica.dag.transactionsAt :=
    Dag.flatMap_transactionsAt fun address _ => delivery.same.transactionsAt address
  have before := ordered.replayed
  rw [flatMap_append, older, replay, foldl_append]
  rw [replay, handedOut] at before
  rw [← before, replayed, nextEq]
  simp [handedOut, delivering, total]

theorem deliverLeaders_ordered (fuel : Nat) (history : Output P) :
    ∀ (pending : List DagAddress) (replica next : Replica P)
      (leaders order sofar delivered : List DagAddress),
      Ordered replica.dag leaders (order ++ sofar) (replica.handedOut history) →
      pending.foldlM (fun ((replica, order) : Replica P × List DagAddress) leader => do
        let (replica, delivered) ← replica.deliverLeader fuel leader
        return (replica, order ++ delivered)) (replica, sofar) = .ok (next, delivered) →
      ∃ dag more last, next = { replica with dag }.delivering more last ∧
        replica.dag.PathsKept dag ∧
        Ordered dag (leaders ++ pending) (order ++ delivered) (next.handedOut history) := by
  intro pending
  induction pending with
  | nil =>
    intro replica next leaders order sofar delivered ordered run
    simp only [foldlM_nil, pair_ok] at run
    obtain ⟨rfl, rfl⟩ := run
    refine ⟨replica.dag, [], replica.clientLastRequest, by simp [delivering], .refl _, ?_⟩
    simpa using ordered
  | cons leader rest ih =>
    intro replica next leaders order sofar delivered ordered run
    simp only [foldlM_cons, bind_ok, Prod.exists, pair_ok] at run
    obtain ⟨middle, sofar', ⟨middle', new, step, rfl, rfl⟩, later⟩ := run
    obtain ⟨dag, more, last, middleEq, delivery, stepOrdered⟩ :=
      deliverLeader_ordered ordered step
    have middleDag : middle'.dag = dag := by rw [middleEq]; rfl
    rw [append_assoc, ← middleDag] at stepOrdered
    obtain ⟨dag', more', last', nextEq, kept, restOrdered⟩ :=
      ih middle' next (leaders ++ [leader]) order (sofar ++ new) delivered stepOrdered later
    rw [middleDag] at kept
    refine ⟨dag', more ++ more', last', ?_, Dag.PathsKept.trans { delivery with } kept, ?_⟩
    · rw [nextEq, middleEq]
      simp [delivering]
    · simpa using restOrdered

end Replica

end Abcperf.Nxbft
