import Abcperf.Lib.Outcome

/-! The data of Damysus: the commitments that enclaves sign, the blocks they are about, and the
store in which a replica keeps one block per view. -/

namespace Abcperf.Damysus

open Lib Lib.Outcome List

namespace View

def getPredecessor : Nat → Option Nat
  | 0 => none
  | view + 1 => some view

/-- The greatest view, `u64::MAX`. -/
def last : Nat := 18446744073709551615

/-- `get_successor` in a build without overflow checks. One with them stops at the last view. -/
def getSuccessor (view : Nat) : Nat := if view = last then 0 else view + 1

/-- Replicas and enclaves count their own views up from 0, one vote at a time. What they do once one
of them has got to the last view is left out of the model. -/
def increment (view : Nat) : Nat := view + 1

theorem getSuccessor_eq {view : Nat} (bounded : view ≠ last) : getSuccessor view = view + 1 :=
  if_neg bounded

/-- A leader has two views in a row. -/
def getViewLeader (view n : Nat) : Nat := view / 2 % n

end View

inductive CommitmentPhase
  | newView
  | prepare
  deriving DecidableEq

inductive CommitmentType
  | accumulator
  | usig
  deriving DecidableEq

inductive EnclaveError (BlockHash Error : Type)
  | justificationIsGenesis
  | justificationInvalidView
      (justificationView viewUsableFor enclaveView justificationBlockView : Nat)
  | blockToPrepareIsForWrongView (enclaveView blockView : Nat)
  | justificationBlockHashDoesNotMatchCommitmentBlockHash
      (commitmentBlockHash justificationBlockHash : BlockHash)
  | invalidAccumulatorSignature
  | incompatibleCommitmentForAccumulation
  | nonDescendingOrderOfCommitmentsForAccumulation
  | notEnoughValidCommitmentsForAccumulation
  | doubleKeyReceived
  | platformError (error : Error)

/-- The transaction type, the hash functions and what an enclave implementation provides besides
the automata (`EnclaveTrusted` and the rest of `Enclave`). `Trusted` is the state of one instance,
its key pair and the keys of its peers. `sign` is given how often it was called before, so that a
function covers a randomised scheme. The two hash functions take exactly what the source feeds to
the hasher. `overflowChecks` is a property of the build. -/
structure Platform where
  overflowChecks : Bool
  Tx : Type
  clientId : Tx → Nat
  requestId : Tx → Nat
  BlockHash : Type
  CommitmentHash : Type
  Signature : Type
  PublicKey : Type
  Error : Type
  blockHashEq : DecidableEq BlockHash
  genesis : BlockHash
  commitmentHash : Nat → Nat → Nat → CommitmentPhase → CommitmentType → CommitmentHash
  blockHash : Nat → Nat → Option (CommitmentHash × Signature) → Option BlockHash → BlockHash
  Trusted : Type
  getPublicKey : Trusted → Except (EnclaveError BlockHash Error) PublicKey
  addPeer : Trusted → Nat → PublicKey → Except (EnclaveError BlockHash Error) Trusted
  sign : Trusted → Nat → CommitmentHash → Except (EnclaveError BlockHash Error) Signature
  verify : Trusted → Nat → CommitmentHash → Signature →
    Except (EnclaveError BlockHash Error) Bool
  verifyUntrusted : Trusted → Nat → CommitmentHash → Signature → Outcome Bool

instance (P : Platform) : DecidableEq P.BlockHash := P.blockHashEq

variable {P : Platform}

structure Commitment (P : Platform) where
  creator : Nat
  view : Nat
  preparedBlockView : Nat
  preparedBlockHash : P.BlockHash
  blockView : Nat
  blockHash : P.BlockHash
  commitmentPhase : CommitmentPhase
  commitmentType : CommitmentType
  deriving DecidableEq

/-- Neither the view nor the hash of the block is fed to the hasher, nor the hash of the prepared
block. -/
def Commitment.hashValue (commitment : Commitment P) : P.CommitmentHash :=
  P.commitmentHash commitment.creator commitment.view commitment.preparedBlockView
    commitment.commitmentPhase commitment.commitmentType

structure SignedCommitment (P : Platform) where
  commitment : Commitment P
  signature : P.Signature

namespace SignedCommitment

variable (signed : SignedCommitment P)

instance [DecidableEq P.Signature] : DecidableEq (SignedCommitment P) := fun left right =>
  decidable_of_iff (left.commitment = right.commitment ∧ left.signature = right.signature) (by
    cases left
    cases right
    simp)

def getCreator : Nat := signed.commitment.creator

def getView : Nat := signed.commitment.view

/-- `get_view_usable_for` of a commitment that has still to be verified. -/
def getViewUsableFor : Nat := View.getSuccessor signed.getView

/-- `get_view_usable_for` of a commitment that comes from an enclave. -/
def usableView : Nat := View.increment signed.getView

theorem usableView_eq {signed : SignedCommitment P} {view : Nat}
    (notOld : ¬ signed.getViewUsableFor < view) (notAhead : ¬ view < signed.usableView) :
    signed.usableView = view := by
  simp only [getViewUsableFor, View.getSuccessor, usableView, View.increment] at notOld notAhead ⊢
  split at notOld <;> omega

/-- The overflow check of `get_view_usable_for`. -/
def checkView : Outcome Unit :=
  if P.overflowChecks ∧ signed.getView = View.last then throw .overflow else return ()

theorem checkView_ok {signed : SignedCommitment P} (bounded : signed.getView ≠ View.last) :
    signed.checkView = .ok () := if_neg fun last => bounded last.2

def isPrepare : Bool :=
  signed.commitment.commitmentPhase = .prepare

def isUsig : Bool := signed.commitment.commitmentType = .usig

def isAccumulator : Bool :=
  signed.commitment.commitmentType = .accumulator

theorem not_usig (signed : SignedCommitment P) (isAccumulator : signed.isAccumulator = true) :
    signed.isUsig ≠ true := by
  have type : signed.commitment.commitmentType = .accumulator := of_decide_eq_true isAccumulator
  simp [isUsig, type]

def getBlockView : Nat :=
  if signed.isAccumulator || signed.isPrepare then signed.commitment.blockView
  else signed.commitment.preparedBlockView

def getBlockHash : P.BlockHash :=
  if signed.isAccumulator || signed.isPrepare then signed.commitment.blockHash
  else signed.commitment.preparedBlockHash

def getPreparedBlockView : Nat :=
  signed.commitment.preparedBlockView

def getPreparedBlockHash : P.BlockHash :=
  signed.commitment.preparedBlockHash

def hashValue : P.CommitmentHash := signed.commitment.hashValue

def key : Nat × Nat := (signed.getView, signed.getCreator)

def before (left right : SignedCommitment P) : Prop :=
  left.getView < right.getView ∨
    (left.getView = right.getView ∧ left.getCreator ≤ right.getCreator)

instance : DecidableRel (SignedCommitment.before (P := P)) := fun left right =>
  inferInstanceAs (Decidable (left.getView < right.getView ∨
    (left.getView = right.getView ∧ left.getCreator ≤ right.getCreator)))

end SignedCommitment

inductive Justification (P : Platform)
  | genesis
  | quorum (commitment : SignedCommitment P)

namespace Justification

def getCommitment : Justification P → Option (SignedCommitment P)
  | .genesis => none
  | .quorum commitment => some commitment

theorem getCommitment_eq_some {justification : Justification P} {signed : SignedCommitment P} :
    justification.getCommitment = some signed ↔ justification = .quorum signed := by
  cases justification <;> simp [getCommitment]

def isGenesis (justification : Justification P) : Bool := justification.getCommitment.isNone

def digest (justification : Justification P) : Option (P.CommitmentHash × P.Signature) :=
  justification.getCommitment.map fun signed => (signed.hashValue, signed.signature)

end Justification

/-- `precomputedHash` is only set where the source fixes the hash when it builds the block, which
is for the genesis block. -/
structure Block (P : Platform) where
  creator : Nat
  view : Nat
  justification : Justification P
  parent : Option P.BlockHash
  transactions : List P.Tx
  precomputedHash : Option P.BlockHash
  executed : Bool

namespace Block

def genesis : Block P := ⟨0, 0, .genesis, none, [], some P.genesis, false⟩

def new (creator view : Nat) (justification : Justification P) (parent : Option P.BlockHash)
    (transactions : List P.Tx) : Block P :=
  ⟨creator, view, justification, parent, transactions, none, false⟩

/-- The transactions are not fed to the hasher. -/
def hashValue (block : Block P) : P.BlockHash :=
  block.precomputedHash.getD
    (P.blockHash block.creator block.view block.justification.digest block.parent)

def execute (block : Block P) : Block P := { block with executed := true }

def notExecuted (block : Block P) : Block P := { block with executed := false }

def isGenesis (block : Block P) : Bool := block.justification.isGenesis

/-- `Parent` compared with a hash: a missing parent equals none. -/
def hasParent (block : Block P) (hash : P.BlockHash) : Bool := block.parent = some hash

/-- What arrives of a block that was sent: neither the flag nor the computed hash is serialised. -/
def transmitted (block : Block P) : Block P :=
  { block with precomputedHash := none, executed := false }

theorem notExecuted_eq {block : Block P} (unexecuted : block.executed = false) :
    block.notExecuted = block := by
  rw [notExecuted, ← unexecuted]

@[simp] theorem hashValue_notExecuted (block : Block P) :
    block.notExecuted.hashValue = block.hashValue := rfl

end Block

structure Blockstore (P : Platform) where
  blocks : List (Option (Block P))
  nonempty : blocks ≠ []

namespace Blockstore

def initial : Blockstore P := ⟨[some Block.genesis], cons_ne_nil _ _⟩

def get (store : Blockstore P) (view : Nat) : Option (Block P) := store.blocks[view]?.join

def padded (store : Blockstore P) (view : Nat) : List (Option (Block P)) :=
  store.blocks ++ List.replicate (view - store.blocks.length) none

theorem padded_ne_nil (store : Blockstore P) (view : Nat) : store.padded view ≠ [] :=
  append_ne_nil_of_left_ne_nil store.nonempty _

def insert (store : Blockstore P) (block : Block P) : Outcome (Blockstore P) :=
  let blocks := store.padded block.view
  if block.view = blocks.length then
    return ⟨blocks ++ [some block], append_ne_nil_of_right_ne_nil _ (cons_ne_nil _ _)⟩
  else do
    assert (blocks[block.view]?.join = none)
    return ⟨blocks.set block.view (some block),
      fun empty => store.padded_ne_nil block.view (by simpa using empty)⟩

def execute (store : Blockstore P) (view : Nat) : Blockstore P :=
  ⟨store.blocks.modify view (Option.map Block.execute),
    fun empty => store.nonempty (modify_eq_nil_iff.mp empty)⟩

@[simp] theorem get_initial (view : Nat) :
    (initial : Blockstore P).get view = if view = 0 then some Block.genesis else none := by
  cases view <;> simp [get, initial]

theorem padded_join (store : Blockstore P) (view other : Nat) :
    (store.padded view)[other]?.join = store.get other := by
  simp only [padded, get]
  by_cases inside : other < store.blocks.length
  · rw [List.getElem?_append_left inside]
  rw [List.getElem?_append_right (by omega), List.getElem?_replicate,
    List.getElem?_eq_none (by omega)]
  split <;> rfl

theorem insert_ok {store next : Blockstore P} {block : Block P}
    (run : store.insert block = .ok next) : store.get block.view = none ∧
      ∀ view, next.get view = if view = block.view then some block else store.get view := by
  have long : block.view ≤ (store.padded block.view).length := by
    simp only [padded, length_append, length_replicate]
    omega
  simp only [insert] at run
  split at run
  · next atEnd =>
    cases pure_ok.mp run
    refine ⟨?_, fun view => ?_⟩
    · rw [← padded_join store block.view, List.getElem?_eq_none (by omega)]
      rfl
    simp only [get]
    by_cases before : view < (store.padded block.view).length
    · rw [List.getElem?_append_left before, if_neg (by omega)]
      exact padded_join store block.view view
    rw [List.getElem?_append_right (by omega)]
    by_cases same : view = block.view
    · subst same
      simp [← atEnd]
    · rw [if_neg same, ← get, ← padded_join store block.view,
        List.getElem?_eq_none (by simp; omega), List.getElem?_eq_none (by omega)]
  simp only [bind_ok, assert_ok, pure_ok] at run
  obtain ⟨-, free, rfl⟩ := run
  rw [padded_join] at free
  refine ⟨free, fun view => ?_⟩
  simp only [get, List.getElem?_set]
  by_cases same : block.view = view
  · rw [if_pos same, if_pos (by omega), if_pos same.symm]
    rfl
  · rw [if_neg same, if_neg (Ne.symm same)]
    exact padded_join store block.view view

@[simp] theorem get_execute (store : Blockstore P) (view other : Nat) :
    (store.execute view).get other =
      if other = view then (store.get other).map Block.execute else store.get other := by
  simp only [get, execute, List.getElem?_modify]
  split
  · next same =>
    rw [if_pos same.symm]
    cases store.blocks[other]? <;> rfl
  rename_i different
  rw [if_neg (Ne.symm different)]
  cases store.blocks[other]? <;> rfl

end Blockstore

end Abcperf.Damysus
