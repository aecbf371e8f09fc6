import Abcperf.Damysus.Enclave

/-! A platform on which the model can be run. Hashes are the values that are hashed, and a signature
is its signer with what was signed, so neither collides nor can be made without the signer. Keys are
handled as `NoopEnclave` does. -/

namespace Abcperf.Damysus.Symbolic

structure Digest where
  creator : Nat
  view : Nat
  preparedBlockView : Nat
  commitmentPhase : CommitmentPhase
  commitmentType : CommitmentType
  deriving DecidableEq

structure Signature where
  signer : Nat
  hash : Digest
  deriving DecidableEq

inductive Hash
  | genesis
  | orphan (creator view : Nat) (justification : Option (Digest × Signature))
  | child (creator view : Nat) (justification : Option (Digest × Signature)) (parent : Hash)
  deriving DecidableEq

structure Trusted where
  me : Nat
  peers : IdSet
  deriving DecidableEq

structure Transaction where
  client : Nat
  request : Nat
  deriving DecidableEq

def hashBlock (creator view : Nat) (justification : Option (Digest × Signature)) :
    Option Hash → Hash
  | none => .orphan creator view justification
  | some parent => .child creator view justification parent

def Trusted.accepts (trusted : Trusted) (creator : Nat) (hash : Digest) (signature : Signature) :
    Bool :=
  trusted.peers.contains creator && signature = ⟨creator, hash⟩

def platform : Platform where
  overflowChecks := true
  Tx := Transaction
  clientId := Transaction.client
  requestId := Transaction.request
  BlockHash := Hash
  CommitmentHash := Digest
  Signature := Signature
  PublicKey := Nat
  Error := Unit
  blockHashEq := inferInstance
  genesis := .genesis
  commitmentHash := Digest.mk
  blockHash := hashBlock
  Trusted := Trusted
  getPublicKey trusted := .ok trusted.me
  addPeer trusted id key :=
    if id ≠ key then .error (.platformError ())
    else if trusted.peers.contains id then .error .doubleKeyReceived
    else .ok { trusted with peers := trusted.peers.insert id }
  sign trusted _ hash := .ok ⟨trusted.me, hash⟩
  verify trusted creator hash signature := .ok (trusted.accepts creator hash signature)
  verifyUntrusted trusted creator hash signature := .ok (trusted.accepts creator hash signature)

instance : DecidableEq platform.Signature := inferInstanceAs (DecidableEq Signature)

instance : DecidableEq platform.CommitmentHash := inferInstanceAs (DecidableEq Digest)

instance : DecidableEq platform.Tx := inferInstanceAs (DecidableEq Transaction)

end Abcperf.Damysus.Symbolic

namespace Abcperf.Damysus

/-- No two commitments with different hashed fields have one hash, and no two blocks either; no
block has the hash of the genesis block. -/
structure CollisionFree (P : Platform) : Prop where
  commitment : ∀ left right : Commitment P, left.hashValue = right.hashValue →
    left.creator = right.creator ∧ left.view = right.view ∧
      left.preparedBlockView = right.preparedBlockView ∧
      left.commitmentPhase = right.commitmentPhase ∧ left.commitmentType = right.commitmentType
  block : ∀ creator creator' view view' justification justification' parent parent',
    P.blockHash creator view justification parent =
      P.blockHash creator' view' justification' parent' →
    creator = creator' ∧ view = view' ∧ justification = justification' ∧ parent = parent'
  genesis : ∀ creator view justification parent,
    P.blockHash creator view justification parent ≠ P.genesis

attribute [class] CollisionFree

theorem Symbolic.collisionFree : CollisionFree platform where
  commitment := by
    intro left right same
    simpa [Commitment.hashValue, platform] using same
  block := by
    intro creator creator' view view' justification justification' parent parent' same
    cases parent with
    | none =>
      cases parent' with
      | none =>
        obtain ⟨rfl, rfl, rfl⟩ := Symbolic.Hash.orphan.inj same
        exact ⟨rfl, rfl, rfl, rfl⟩
      | some hash' => simp [platform, hashBlock] at same
    | some hash =>
      cases parent' with
      | none => simp [platform, hashBlock] at same
      | some hash' =>
        obtain ⟨rfl, rfl, rfl, rfl⟩ := Symbolic.Hash.child.inj same
        exact ⟨rfl, rfl, rfl, rfl⟩
  genesis := by
    intro creator view justification parent
    cases parent <;> simp [platform, hashBlock]

end Abcperf.Damysus
