import Abcperf.Lib.Encoding
import Abcperf.Nxbft.Execution

/-! The bytes that a signature of a vertex covers, for the transactions of the benchmark harness.
Transactions are hashed one after another without their lengths, so the bytes of a vertex say what
its transactions are only if there is no second way to cut them. -/

namespace Abcperf.Nxbft

open Abcperf.Lib (Bytes leBytes fromLeBytes)
open List

structure MyTransaction where
  clientId : Nat
  requestId : Nat
  transaction : Bytes
  deriving DecidableEq

namespace MyTransaction

/-- The bytes that `Hashbar for MyTransaction` hands to the hasher. `Payload` adds only its own. -/
def hash (tx : MyTransaction) : Bytes :=
  leBytes 8 tx.clientId ++ leBytes 8 tx.requestId ++ tx.transaction

def Fits (tx : MyTransaction) : Prop :=
  tx.clientId < 256 ^ 8 ∧ tx.requestId < 256 ^ 8

theorem hash_length (tx : MyTransaction) : tx.hash.length = 16 + tx.transaction.length := by
  simp [hash, ← Nat.add_assoc]

theorem hash_inj {left right : MyTransaction} (isLeft : left.Fits) (isRight : right.Fits)
    (same : left.hash = right.hash) : left = right := by
  obtain ⟨clientLow, requestLow⟩ := isLeft
  obtain ⟨clientLow', requestLow'⟩ := isRight
  rw [hash, hash, append_assoc, append_assoc] at same
  obtain ⟨sameClient, later⟩ := append_inj same (by simp)
  obtain ⟨sameRequest, samePayload⟩ := append_inj later (by simp)
  have clients := Lib.leBytes_inj clientLow clientLow' sameClient
  have requests := Lib.leBytes_inj requestLow requestLow' sameRequest
  cases left
  cases right
  simp_all

def ofBytes (bytes : Bytes) : MyTransaction :=
  ⟨fromLeBytes (bytes.take 8), fromLeBytes ((bytes.drop 8).take 8), bytes.drop 16⟩

theorem ofBytes_fits (bytes : Bytes) (enough : 16 ≤ bytes.length) : (ofBytes bytes).Fits := by
  have client := Lib.fromLeBytes_lt (bytes.take 8)
  have request := Lib.fromLeBytes_lt ((bytes.drop 8).take 8)
  rw [length_take_of_le (by omega)] at client
  rw [length_take_of_le (by rw [length_drop]; omega)] at request
  exact ⟨client, request⟩

theorem hash_ofBytes (bytes : Bytes) (enough : 16 ≤ bytes.length) :
    (ofBytes bytes).hash = bytes := by
  have client := Lib.leBytes_fromLeBytes (bytes.take 8)
  have request := Lib.leBytes_fromLeBytes ((bytes.drop 8).take 8)
  rw [length_take_of_le (by omega)] at client
  rw [length_take_of_le (by rw [length_drop]; omega)] at request
  have later : bytes.drop 16 = (bytes.drop 8).drop 8 := by rw [drop_drop]
  rw [hash, ofBytes, client, request, later, append_assoc, take_append_drop, take_append_drop]

end MyTransaction

def transactionsBytes (transactions : List MyTransaction) : Bytes :=
  transactions.flatMap MyTransaction.hash

def absorb (first second : MyTransaction) : MyTransaction :=
  { first with transaction := first.transaction ++ second.hash }

theorem transactionsBytes_absorb (first second : MyTransaction) (rest : List MyTransaction) :
    transactionsBytes (absorb first second :: rest) =
    transactionsBytes (first :: second :: rest) := by
  simp [transactionsBytes, absorb, MyTransaction.hash]

/-- A transaction whose payload holds another one is the outcome of absorbing that one. -/
theorem absorb_ofBytes (tx : MyTransaction) (enough : 16 ≤ tx.transaction.length) :
    absorb { tx with transaction := [] } (MyTransaction.ofBytes tx.transaction) = tx := by
  rw [absorb, MyTransaction.hash_ofBytes tx.transaction enough]
  rfl

def Unsplittable (transactions : List MyTransaction) : Prop :=
  transactions.length ≤ 1 ∧ ∀ tx ∈ transactions, tx.transaction.length < 16

theorem transactionsBytes_length (transactions : List MyTransaction) :
    16 * transactions.length ≤ (transactionsBytes transactions).length := by
  induction transactions with
  | nil => exact Nat.zero_le 0
  | cons tx rest ih =>
    rw [transactionsBytes, flatMap_cons, length_append, MyTransaction.hash_length, length_cons]
    have : 16 * rest.length ≤ (rest.flatMap MyTransaction.hash).length := ih
    omega

variable {transactions : List MyTransaction}

theorem Unsplittable.unique {others : List MyTransaction} (unsplittable : Unsplittable transactions)
    (fits : ∀ tx ∈ transactions, tx.Fits) (othersFit : ∀ tx ∈ others, tx.Fits)
    (same : transactionsBytes others = transactionsBytes transactions) : others = transactions := by
  obtain ⟨single, short⟩ := unsplittable
  have enough := transactionsBytes_length others
  rw [same] at enough
  match transactions, single with
  | [], _ =>
    have none : 16 * others.length ≤ 0 := enough
    exact length_eq_zero_iff.mp (by omega)
  | [tx], _ =>
    have only : (transactionsBytes [tx]) = tx.hash := flatMap_singleton _ _
    have fewer := short tx mem_cons_self
    rw [only, MyTransaction.hash_length] at enough
    -- the stream is too short for two transactions and too long for none
    match others with
    | [] =>
      have lengths := congrArg List.length same
      rw [only, MyTransaction.hash_length] at lengths
      have : (transactionsBytes []).length = 0 := rfl
      omega
    | [other] =>
      have single : transactionsBytes [other] = other.hash := flatMap_singleton _ _
      rw [single, only] at same
      rw [MyTransaction.hash_inj (othersFit other mem_cons_self) (fits tx mem_cons_self) same]
    | _ :: _ :: _ =>
      rw [length_cons, length_cons] at enough
      omega

theorem exists_resplit (fits : ∀ tx ∈ transactions, tx.Fits)
    (splittable : ¬ Unsplittable transactions) :
    ∃ others : List MyTransaction, (∀ tx ∈ others, tx.Fits) ∧
      transactionsBytes others = transactionsBytes transactions ∧ others ≠ transactions := by
  match transactions with
  | [] => exact absurd ⟨Nat.zero_le 1, by simp⟩ splittable
  | first :: second :: rest =>
    have different : absorb first second :: rest ≠ first :: second :: rest := by
      intro same
      have lengths := congrArg List.length same
      simp at lengths
    refine ⟨absorb first second :: rest, ?_, transactionsBytes_absorb first second rest, different⟩
    intro tx member
    rcases mem_cons.mp member with rfl | later
    · exact fits first mem_cons_self
    · exact fits tx (mem_cons_of_mem _ (mem_cons_of_mem _ later))
  | [tx] =>
    have enough : 16 ≤ tx.transaction.length := by
      by_contra short
      apply splittable
      constructor
      · exact Nat.le_refl 1
      intro other member
      rw [mem_singleton.mp member]
      omega
    refine ⟨[{ tx with transaction := [] }, MyTransaction.ofBytes tx.transaction], ?_, ?_, ?_⟩
    · intro other member
      rcases mem_cons.mp member with rfl | later
      · exact fits tx mem_cons_self
      · rw [mem_singleton.mp later]
        exact MyTransaction.ofBytes_fits tx.transaction enough
    · rw [← transactionsBytes_absorb, absorb_ofBytes tx enough]
    intro same
    have lengths := congrArg List.length same
    simp at lengths

/-- A platform on which the transactions are those of the harness and both hash functions are fed
with bytes. -/
abbrev bytePlatform (base : Platform) (sha256 : Bytes → Bytes) (blake2b512 : Bytes → base.Hash) :
    Platform :=
  { base with
    Tx := MyTransaction
    clientId := MyTransaction.clientId
    requestId := MyTransaction.requestId
    TransactionsHash := Bytes
    transactionsHash := fun transactions => sha256 (transactionsBytes transactions)
    vertexHash := fun round creator transactionsHash edges =>
      blake2b512 (leBytes 8 round ++ (leBytes 8 creator ++
        (transactionsHash ++ edges.flatMap (leBytes 8)))) }

section Signable

variable {base : Platform} {sha256 : Bytes → Bytes} {blake2b512 : Bytes → base.Hash}

def SignableVertex.bytes (vertex : SignableVertex (bytePlatform base sha256 blake2b512)) : Bytes :=
  leBytes 8 vertex.address.round ++ (leBytes 8 vertex.address.creator ++
    (vertex.transactionsHash ++ vertex.edges.iter.flatMap (leBytes 8)))

namespace Vertex

def Fits (vertex : Vertex (bytePlatform base sha256 blake2b512)) : Prop :=
  vertex.round < 256 ^ 8 ∧ vertex.creator < 256 ^ 8 ∧
    (∀ edge ∈ vertex.edges.iter, edge < 256 ^ 8) ∧
    ∀ tx ∈ vertex.transactions, MyTransaction.Fits tx

def SameBytes (left right : Vertex (bytePlatform base sha256 blake2b512)) : Prop :=
  transactionsBytes left.transactions = transactionsBytes right.transactions ∧
    left.signable.bytes = right.signable.bytes

theorem edges_inj {left right : IdSet} (isLeft : ∀ edge ∈ left.iter, edge < 256 ^ 8)
    (isRight : ∀ edge ∈ right.iter, edge < 256 ^ 8)
    (same : left.iter.flatMap (leBytes 8) = right.iter.flatMap (leBytes 8)) : left = right := by
  apply IdSet.ext_ids
  apply Lib.flatMap_width_inj (by decide) (Lib.leBytes_length 8) _ same
  intro edge inLeft edge' inRight sameBytes
  exact Lib.leBytes_inj (isLeft edge inLeft) (isRight edge' inRight) sameBytes

/-- Address and edges are laid out in fixed widths. Only the transactions can be read in more than
one way. -/
theorem SameBytes.address_edges {left right : Vertex (bytePlatform base sha256 blake2b512)}
    (isLeft : left.Fits) (isRight : right.Fits) (same : SameBytes left right) :
    left.address = right.address ∧ left.edges = right.edges := by
  obtain ⟨sameTransactions, sameSignable⟩ := same
  have sameHash : left.signable.transactionsHash = right.signable.transactionsHash :=
    congrArg sha256 sameTransactions
  rw [SignableVertex.bytes, SignableVertex.bytes, sameHash] at sameSignable
  obtain ⟨sameRound, afterRound⟩ := append_inj sameSignable (by simp)
  obtain ⟨sameCreator, afterCreator⟩ := append_inj afterRound (by simp)
  have sameEdges := append_cancel_left afterCreator
  constructor
  · have rounds := Lib.leBytes_inj isLeft.1 isRight.1 sameRound
    have creators := Lib.leBytes_inj isLeft.2.1 isRight.2.1 sameCreator
    exact DagAddress.mk.injEq .. |>.mpr ⟨rounds, creators⟩
  · exact edges_inj isLeft.2.2.1 isRight.2.2.1 sameEdges

/-- A vertex is bound by its signature exactly if it has at most one transaction and that one is
too short to hold a second. -/
theorem signature_binds_iff (vertex : Vertex (bytePlatform base sha256 blake2b512))
    (fits : vertex.Fits) :
    (∀ other : Vertex (bytePlatform base sha256 blake2b512), other.Fits → other.SameBytes vertex →
        other.address = vertex.address ∧ other.edges = vertex.edges ∧
          other.transactions = vertex.transactions) ↔ vertex.transactions.length ≤ 1 ∧
        ∀ tx ∈ vertex.transactions, tx.transaction.length < 16 := by
  constructor
  · intro binds
    by_contra splittable
    obtain ⟨others, othersFit, sameBytes, different⟩ :=
      exists_resplit fits.2.2.2 splittable
    -- the relayed vertex keeps everything else, the signature included
    have relayed := binds { vertex with transactions := others } ⟨fits.1, fits.2.1,
        fits.2.2.1, othersFit⟩
      ⟨sameBytes, by
        have sameHash : sha256 (transactionsBytes others) =
            sha256 (transactionsBytes vertex.transactions) := congrArg sha256 sameBytes
        simp only [SignableVertex.bytes, signable, SignableVertex.new, sameHash]⟩
    exact different relayed.2.2
  intro unsplittable other otherFits same
  obtain ⟨sameAddress, sameEdges⟩ := SameBytes.address_edges otherFits fits same
  exact ⟨sameAddress, sameEdges, Unsplittable.unique unsplittable fits.2.2.2 otherFits.2.2.2 same.1⟩

end Vertex

end Signable

namespace Plain

abbrev harness : Platform :=
  bytePlatform platform id fun bytes => (0, 0, [], bytes.map UInt8.toNat)

def relayed (signature : harness.Signature) (transactions : List MyTransaction) : Vertex harness :=
  ⟨⟨1, 0⟩, IdSet.empty, transactions, signature, 0⟩

theorem relayed_fits (signature : harness.Signature) {transactions : List MyTransaction}
    (fits : ∀ tx ∈ transactions, tx.Fits) : (relayed signature transactions).Fits :=
  ⟨(by decide : 1 < 256 ^ 8), (by decide : 0 < 256 ^ 8), fun _ member =>
    absurd member not_mem_nil, fits⟩

/-- A vertex with one empty transaction is bound by its signature. -/
theorem signature_binds_single : (relayed (0, 0, 0, 0, [], []) [⟨3, 7, []⟩]).Fits ∧
      ∀ other : Vertex harness, other.Fits →
        other.SameBytes (relayed (0, 0, 0, 0, [], []) [⟨3, 7, []⟩]) →
        other.address = ⟨1, 0⟩ ∧ other.edges = IdSet.empty ∧ other.transactions = [⟨3, 7, []⟩] := by
  have fits : (relayed (0, 0, 0, 0, [], []) [⟨3, 7, []⟩]).Fits :=
    relayed_fits _ (by simp [MyTransaction.Fits])
  exact ⟨fits, (Vertex.signature_binds_iff _ fits).mpr (by decide)⟩

/-- Two empty transactions of clients 3 and 5 become one of client 3: the relayed vertex has the
bytes, and so the hash and the signature, of the one that replica 0 signed. -/
theorem resplit_keeps_bytes :
    ∃ signed resplit : Vertex harness, signed.Fits ∧ resplit.Fits ∧ resplit.SameBytes signed ∧
      harness.sign 0 signed.hash signed.counter = .ok signed.signature ∧
      harness.verify 0 resplit.counter resplit.hash resplit.signature = .ok true ∧
      signed.transactions = [⟨3, 7, []⟩, ⟨5, 9, []⟩] ∧
      resplit.transactions = [⟨3, 7, [5, 0, 0, 0, 0, 0, 0, 0, 9, 0, 0, 0, 0, 0, 0, 0]⟩] := by
  refine ⟨relayed (0, 0, (relayed (0, 0, 0, 0, [], []) [⟨3, 7, []⟩, ⟨5, 9, []⟩]).hash)
      [⟨3, 7, []⟩, ⟨5, 9, []⟩],
    relayed (0, 0, (relayed (0, 0, 0, 0, [], []) [⟨3, 7, []⟩, ⟨5, 9, []⟩]).hash)
      [⟨3, 7, [5, 0, 0, 0, 0, 0, 0, 0, 9, 0, 0, 0, 0, 0, 0, 0]⟩],
    relayed_fits _ (by simp [MyTransaction.Fits]), relayed_fits _ (by simp [MyTransaction.Fits]),
    ⟨by decide, by decide⟩, rfl, by decide, rfl, rfl⟩

end Plain

end Abcperf.Nxbft
