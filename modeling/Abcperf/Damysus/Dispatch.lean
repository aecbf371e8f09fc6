import Abcperf.Damysus.Handlers
import Abcperf.Damysus.Network

/-! From the steps of a replica to its calls: what the messages in hand must satisfy for the
handlers to keep an invariant, and how the messages that a replica sends to itself come in. -/

namespace Abcperf.Damysus

open Lib Lib.Outcome Heaps Replica

variable {P : Platform}

namespace Replica

/-- What a message must bring: blocks that are `Fetched` and commitments that are `Offered`. -/
def Admits (Fetched : Replica P → Block P → Prop) (Offered : Replica P → SignedCommitment P → Prop)
    (replica : Replica P) (peerMessage : PeerMessage P) : Prop :=
  match peerMessage.message with
  | .newBlock block _ => Fetched replica block
  | .commitment commitment => Offered replica commitment
  | .handshake _ => True
  | .blockRequest _ => True
  | .requestedBlock block => Fetched replica block

def Passes (Fetched : Replica P → Block P → Prop) (Offered : Replica P → SignedCommitment P → Prop)
    (replica : Replica P) (peerMessage : PeerMessage P) : Prop :=
  match peerMessage.message with
  | .newBlock block prepare => replica.acceptable block prepare = .ok true → Fetched replica block
  | .commitment commitment => replica.enclave.verifyUntrusted commitment = .ok true →
      commitment.isUsig = true → Offered replica commitment
  | .handshake _ => True
  | .blockRequest _ => True
  | .requestedBlock block =>
    replica.requestedBlocks block.view = some block.hashValue → Fetched replica block

theorem Admits.passes {Fetched : Replica P → Block P → Prop}
    {Offered : Replica P → SignedCommitment P → Prop} {replica : Replica P}
    {peerMessage : PeerMessage P} (admitted : Admits Fetched Offered replica peerMessage) :
    Passes Fetched Offered replica peerMessage := by
  obtain ⟨sender, message⟩ := peerMessage
  cases message with
  | newBlock block prepare => exact fun _ => admitted
  | commitment commitment => exact fun _ _ => admitted
  | handshake key => trivial
  | blockRequest view => trivial
  | requestedBlock block => exact fun _ => admitted

theorem passes_any (replica : Replica P) (peerMessage : PeerMessage P) :
    Passes (fun _ _ => True) (fun _ _ => True) replica peerMessage := by
  refine Admits.passes ?_
  unfold Admits
  split <;> trivial

def Holds (replica : Replica P) (block : Block P) : Prop :=
  (∃ view, replica.blockstore.get view = some block) ∨ block ∈ replica.storedBlocks

/-- The steps of the handlers that are not steps between views, apart from those for blocks. -/
structure VoteRule (env : Env P) (Inv : Replica P → Prop) (Pre Voted : Replica P → Block P → Prop)
    (Mid : Replica P → Prop) (Offered : Replica P → SignedCommitment P → Prop)
    (Leaving : Replica P → Prop) : Prop where
  steps : StepRule env Inv Pre Voted Mid Offered Leaving
  keepCommitment : ∀ {replica commitment}, Inv replica → Offered replica commitment →
    Inv { replica with
      storedCommitments := insert SignedCommitment.before commitment replica.storedCommitments }
  meet : ∀ {replica sender key enclave}, Inv replica →
    replica.enclave.addPeer sender key = .ok enclave →
    Inv { replica with enclave, peersAdded := replica.peersAdded + 1 } ∧
      (replica.peersAdded + 1 = replica.n →
        Leaving { replica with enclave, peersAdded := replica.peersAdded + 1 })
  ready : ∀ {replica}, Inv replica → Inv { replica with output := replica.output.setReady }
  queue : ∀ {replica pendingClientRequests}, Inv replica →
    Inv { replica with pendingClientRequests }
  greet : ∀ {replica key}, Inv replica → Inv (replica.broadcast (.handshake key))

/-- With the steps for blocks, of an invariant that does not depend on the requests for blocks. -/
structure HandlerRule (env : Env P) (Inv : Replica P → Prop)
    (Pre Voted : Replica P → Block P → Prop) (Mid : Replica P → Prop)
    (Offered : Replica P → SignedCommitment P → Prop) (Fetched : Replica P → Block P → Prop)
    (Leaving : Replica P → Prop) : Prop
    extends VoteRule env Inv Pre Voted Mid Offered Leaving where
  fetchedLater : ∀ {before after block}, Grows before after → Fetched before block →
    Fetched after block
  inHand : ∀ {replica block}, Inv replica → Fetched replica block → Pre replica block
  keepBlock : ∀ {replica block accumulator}, Inv replica → Fetched replica block →
    block.justification = .quorum accumulator → replica.view < block.view → Inv { replica with
      storedBlocks := insert (fun left right => left.view ≤ right.view) block
        replica.storedBlocks }
  handOn : ∀ {replica block receiver}, Inv replica → Fetched replica block ∨ replica.Holds block →
    Inv (replica.unicast receiver (.requestedBlock block))
  book : ∀ {replica openBlockRequests requestedBlocks}, Inv replica →
    Inv { replica with openBlockRequests, requestedBlocks }

section Dispatch

variable {env : Env P} {Inv : Replica P → Prop} {Pre Voted : Replica P → Block P → Prop}
  {Mid : Replica P → Prop} {Offered : Replica P → SignedCommitment P → Prop}
  {Fetched : Replica P → Block P → Prop} {Leaving : Replica P → Prop}
  {replica next : Replica P} {block : Block P} {prepare : SignedCommitment P}

theorem answerOpenRequests_keeps (rule : HandlerRule env Inv Pre Voted Mid Offered Fetched Leaving)
    (before : Inv replica) (fetched : Fetched replica block) :
    Inv (replica.answerOpenRequests block) ∧ replica.Grows (replica.answerOpenRequests block) := by
  unfold answerOpenRequests
  split
  · exact ⟨before, Grows.refl replica⟩
  rename_i waiting _
  have booked : Inv { replica with
      openBlockRequests := Function.update replica.openBlockRequests block.view none } ∧
      replica.Grows { replica with
        openBlockRequests := Function.update replica.openBlockRequests block.view none } :=
    ⟨rule.book before, Grows.of_eq rfl rfl rfl rfl⟩
  generalize { replica with
    openBlockRequests := Function.update replica.openBlockRequests block.view none } = current
    at booked ⊢
  induction waiting.iter generalizing current with
  | nil => exact booked
  | cons receiver rest ih =>
    refine ih _ ⟨rule.handOn booked.1 (.inl (rule.fetchedLater booked.2 fetched)), ?_⟩
    exact booked.2.trans (Grows.of_eq rfl rfl rfl rfl)

@[simp] theorem answerOpenRequests_view (replica : Replica P) (block : Block P) :
    (replica.answerOpenRequests block).view = replica.view := by
  unfold answerOpenRequests
  split
  · rfl
  rename_i waiting _
  exact List.foldlRecOn (motive := fun current : Replica P => current.view = replica.view)
    waiting.iter _ rfl fun _ same _ _ => same

theorem acceptable_justified (run : replica.acceptable block prepare = .ok true) :
    ∃ accumulator, block.justification = .quorum accumulator := by
  cases justification : block.justification with
  | genesis => simp [acceptable, justification, Justification.getCommitment] at run
  | quorum accumulator => exact ⟨accumulator, rfl⟩

/-- A block is skipped or refused, or it passes the checks and is stored for later or added. -/
theorem processBlock_cases (run : replica.processBlock env block prepare = .ok next) :
    next = replica ∨ replica.acceptable block prepare = .ok true ∧ ((replica.view < block.view ∧
          next = ((replica.answerOpenRequests block).forgetRequest block.view).storeBlock block) ∨
        (block.view ≤ replica.view ∧ ∃ signed,
          ((replica.answerOpenRequests block).forgetRequest block.view).addAndPrepareBlock
            (roundTransition env env.fuel) env block = .ok (next, signed))) := by
  have sameView : ((replica.answerOpenRequests block).forgetRequest block.view).view =
      replica.view := answerOpenRequests_view replica block
  simp only [processBlock, bind_ok] at run
  obtain ⟨known, -, run⟩ := run
  split at run
  · exact .inl (pure_ok.mp run).symm
  obtain ⟨acceptable, accepted, run⟩ := bind_ok.mp run
  split at run
  · exact .inl (pure_ok.mp run).symm
  rename_i isAcceptable
  simp only [Bool.not_eq_true', Bool.not_eq_false] at isAcceptable
  rw [sameView] at run
  refine .inr ⟨isAcceptable ▸ accepted, ?_⟩
  split at run
  · next ahead => exact .inl ⟨ahead, (pure_ok.mp run).symm⟩
  rename_i current
  simp only [bind_ok, pure_ok, Prod.exists] at run
  obtain ⟨added, signed, addedOk, rfl⟩ := run
  exact .inr ⟨not_lt.mp current, signed, addedOk⟩

theorem processBlock_keeps (rule : HandlerRule env Inv Pre Voted Mid Offered Fetched Leaving)
    (before : Inv replica)
    (passes : replica.acceptable block prepare = .ok true → Fetched replica block)
    (run : replica.processBlock env block prepare = .ok next) : Inv next ∧ replica.Grows next := by
  rcases processBlock_cases run with rfl | ⟨accepted, dealt⟩
  · exact ⟨before, Grows.refl _⟩
  have fetched := passes accepted
  obtain ⟨accumulator, justified⟩ := acceptable_justified accepted
  obtain ⟨answered, grownAnswered⟩ := answerOpenRequests_keeps rule before fetched
  have forgotten : Inv ((replica.answerOpenRequests block).forgetRequest block.view) :=
    rule.book answered
  have grown : replica.Grows ((replica.answerOpenRequests block).forgetRequest block.view) :=
    grownAnswered.trans (Grows.of_eq rfl rfl rfl rfl)
  rcases dealt with ⟨ahead, rfl⟩ | ⟨-, signed, addedOk⟩
  · rw [← answerOpenRequests_view replica block] at ahead
    unfold storeBlock
    split
    · exact ⟨forgotten, grown⟩
    · exact ⟨rule.keepBlock forgotten (rule.fetchedLater grown fetched) justified ahead,
        grown.trans (Grows.of_eq rfl rfl rfl rfl)⟩
  obtain ⟨rests, grownMore, -⟩ := addAndPrepareBlock_keeps rule.steps
    (roundTransition_keeps rule.steps env.fuel)
    (rule.inHand forgotten (rule.fetchedLater grown fetched)) addedOk
  exact ⟨rests, grown.trans grownMore⟩

theorem processCommitment_keeps (rule : VoteRule env Inv Pre Voted Mid Offered Leaving)
    {sender : Nat} {commitment : SignedCommitment P} (before : Inv replica)
    (passes : replica.enclave.verifyUntrusted commitment = .ok true → commitment.isUsig = true →
      Offered replica commitment)
    (run : replica.processCommitment env sender commitment = .ok next) :
    Inv next ∧ replica.Grows next := by
  have unchanged : ∀ {other}, (pure replica : Outcome (Replica P)) = .ok other →
      Inv other ∧ replica.Grows other := by
    intro other same
    rw [← pure_ok.mp same]
    exact ⟨before, Grows.refl replica⟩
  unfold processCommitment at run
  split at run
  · exact unchanged run
  obtain ⟨_, _, run⟩ := bind_ok.mp run
  split at run
  · exact unchanged run
  rename_i notOld
  obtain ⟨valid, verified, run⟩ := bind_ok.mp run
  split at run
  · exact unchanged run
  rename_i isValid
  split at run
  · exact unchanged run
  rename_i leads
  split at run
  · exact unchanged run
  rename_i usig
  simp only [Bool.not_eq_true', Bool.not_eq_false] at isValid usig
  have offered := passes (isValid ▸ verified) usig
  split at run
  · rw [← pure_ok.mp run]
    unfold storeCommitment
    split
    · exact ⟨before, Grows.refl replica⟩
    · exact ⟨rule.keepCommitment before offered, Grows.of_eq rfl rfl rfl rfl⟩
  rename_i notAhead
  have usable := SignedCommitment.usableView_eq notOld notAhead
  have isLead : replica.isViewLeadByMe replica.view = true := by
    rw [← usable]
    simpa using leads
  exact applyCommitment_keeps rule.steps
    (roundTransition_keeps rule.steps env.fuel) before offered usable isLead run

theorem processHandshake_keeps (rule : VoteRule env Inv Pre Voted Mid Offered Leaving)
    {sender : Nat} {key : P.PublicKey} (before : Inv replica)
    (run : replica.processHandshake env sender key = .ok next) : Inv next ∧ replica.Grows next := by
  unfold processHandshake at run
  split at run
  · rw [← pure_ok.mp run]
    exact ⟨before, Grows.refl replica⟩
  · simp at run
  rename_i enclave added
  obtain ⟨met, leaving⟩ := rule.meet before added
  have grown : replica.Grows { replica with enclave, peersAdded := replica.peersAdded + 1 } := by
    obtain ⟨trusted, rfl⟩ := Enclave.addPeer_ok added
    exact Grows.of_eq rfl rfl rfl rfl
  simp only at run
  split at run
  · next all =>
    simp only [bind_ok, pure_ok] at run
    obtain ⟨entered, enteredOk, rfl⟩ := run
    obtain ⟨rests, grownMore⟩ := newView_keeps rule.steps met (leaving all) enteredOk
    exact ⟨rule.ready rests, grown.trans (grownMore.trans (Grows.of_eq rfl rfl rfl rfl))⟩
  · rw [← pure_ok.mp run]
    exact ⟨met, grown⟩

theorem processBlockRequest_keeps (rule : HandlerRule env Inv Pre Voted Mid Offered Fetched Leaving)
    (before : Inv replica) (sender blockView : Nat) :
    Inv (replica.processBlockRequest sender blockView) ∧
      replica.Grows (replica.processBlockRequest sender blockView) := by
  unfold processBlockRequest
  split
  · next block found =>
    exact ⟨rule.handOn before (.inr (.inl ⟨blockView, found⟩)), Grows.of_eq rfl rfl rfl rfl⟩
  split
  · next block found =>
    exact ⟨rule.handOn before (.inr (.inr (List.mem_of_find?_eq_some found))),
      Grows.of_eq rfl rfl rfl rfl⟩
  · exact ⟨rule.book before, Grows.of_eq rfl rfl rfl rfl⟩

/-- An answer that is not asked for is ignored, one with another hash only ends the request. -/
theorem processRequestedBlock_cases (run : replica.processRequestedBlock env block = .ok next) :
    (replica.requestedBlocks block.view = none ∧ next = replica) ∨
      (∃ hash, replica.requestedBlocks block.view = some hash ∧ hash ≠ block.hashValue ∧
        next = replica.forgetRequest block.view) ∨
      replica.requestedBlocks block.view = some block.hashValue ∧ ∃ added signed,
        (replica.forgetRequest block.view).addAndPrepareBlock (roundTransition env env.fuel) env
          block = .ok (added, signed) ∧
        added.prepareStored (roundTransition env env.fuel) env = .ok next := by
  unfold processRequestedBlock at run
  split at run
  · next none => exact .inl ⟨none, (pure_ok.mp run).symm⟩
  rename_i hash requested
  simp only at run
  split at run
  · next other => exact .inr (.inl ⟨hash, requested, other, (pure_ok.mp run).symm⟩)
  rename_i same
  simp only [bind_ok, assert_ok, Prod.exists] at run
  obtain ⟨-, -, added, signed, addedOk, stored⟩ := run
  exact .inr (.inr ⟨not_not.mp same ▸ requested, added, signed, addedOk, stored⟩)

theorem processRequestedBlock_keeps
    (rule : HandlerRule env Inv Pre Voted Mid Offered Fetched Leaving) (before : Inv replica)
    (passes : replica.requestedBlocks block.view = some block.hashValue → Fetched replica block)
    (run : replica.processRequestedBlock env block = .ok next) : Inv next ∧ replica.Grows next := by
  have forgotten : Inv (replica.forgetRequest block.view) := rule.book before
  have grown : replica.Grows (replica.forgetRequest block.view) := Grows.of_eq rfl rfl rfl rfl
  rcases processRequestedBlock_cases run with ⟨-, rfl⟩ | ⟨-, -, -, rfl⟩ |
    ⟨requested, added, signed, addedOk, stored⟩
  · exact ⟨before, Grows.refl _⟩
  · exact ⟨forgotten, grown⟩
  have leaves : Leaves Mid Inv (roundTransition env env.fuel) :=
    roundTransition_keeps rule.steps env.fuel
  obtain ⟨middle, grownMiddle, -⟩ := addAndPrepareBlock_keeps rule.steps leaves
    (rule.inHand forgotten (rule.fetchedLater grown (passes requested))) addedOk
  obtain ⟨rests, grownMore⟩ := prepareStored_keeps rule.steps leaves middle stored
  exact ⟨rests, grown.trans (grownMiddle.trans grownMore)⟩

theorem dispatch_keeps (rule : HandlerRule env Inv Pre Voted Mid Offered Fetched Leaving)
    {peerMessage : PeerMessage P} (before : Inv replica)
    (passes : Passes Fetched Offered replica peerMessage)
    (run : replica.dispatch env peerMessage = .ok next) : Inv next ∧ replica.Grows next := by
  obtain ⟨sender, message⟩ := peerMessage
  cases message with
  | newBlock block prepare => exact processBlock_keeps rule before passes run
  | commitment commitment => exact processCommitment_keeps rule.toVoteRule before passes run
  | handshake key => exact processHandshake_keeps rule.toVoteRule before run
  | blockRequest view =>
    rw [← pure_ok.mp run]
    exact processBlockRequest_keeps rule before sender view
  | requestedBlock block => exact processRequestedBlock_keeps rule before passes run

end Dispatch

def emptied (replica : Replica P) : Replica P := { replica with output := .new replica.me }

/-- An invariant of the calls. It may speak of all earlier outputs; taking the output keeps it and
what the replica has sent to itself is admitted. -/
structure CallRule (env : Env P) (Inv : Output P → Replica P → Prop)
    (Pre Voted : Output P → Replica P → Block P → Prop) (Mid : Output P → Replica P → Prop)
    (Offered : Replica P → SignedCommitment P → Prop) (Fetched : Replica P → Block P → Prop)
    (Leaving : Replica P → Prop) : Prop where
  handlers : ∀ history, HandlerRule env (Inv history) (Pre history) (Voted history) (Mid history)
    Offered Fetched Leaving
  offeredLater : ∀ {before after commitment}, Grows before after → Offered before commitment →
    Offered after commitment
  take : ∀ {history replica}, Inv history replica →
    Inv (history.join replica.taken) replica.emptied ∧
      ∀ message ∈ replica.output.reflectionMessages,
        Admits Fetched Offered replica.emptied message

section Calls

variable {env : Env P} {Inv : Output P → Replica P → Prop}
  {Pre Voted : Output P → Replica P → Block P → Prop} {Mid : Output P → Replica P → Prop}
  {Offered : Replica P → SignedCommitment P → Prop} {Fetched : Replica P → Block P → Prop}
  {Leaving : Replica P → Prop} {admits : Replica P → PeerMessage P → Prop}

theorem CallRule.reflects (rule : CallRule env Inv Pre Voted Mid Offered Fetched Leaving) :
    Reflector.Rule (machine env) Inv Grows (Admits Fetched Offered) where
  refl := Grows.refl
  trans := Grows.trans
  dispatch := by
    intro history replica message next before admitted run
    exact dispatch_keeps (rule.handlers history) before admitted.passes run
  take := by
    intro history replica before
    obtain ⟨kept, admitted⟩ := rule.take before
    exact ⟨kept, Grows.of_eq rfl rfl rfl rfl, admitted⟩
  admitted := by
    rintro before after ⟨sender, message⟩ grows admitted
    cases message with
    | newBlock block prepare => exact (rule.handlers Output.empty).fetchedLater grows admitted
    | commitment commitment => exact rule.offeredLater grows admitted
    | handshake key => trivial
    | blockRequest view => trivial
    | requestedBlock block => exact (rule.handlers Output.empty).fetchedLater grows admitted

/-- A property of the state alone that every message keeps, whoever has sent it. -/
theorem HandlerRule.reflects {Inv : Replica P → Prop} {Pre Voted : Replica P → Block P → Prop}
    {Mid : Replica P → Prop} (rule : HandlerRule env Inv Pre Voted Mid Offered Fetched Leaving)
    (passes : ∀ {replica}, Inv replica → ∀ message, Passes Fetched Offered replica message)
    (emptied : ∀ {replica}, Inv replica → Inv replica.emptied) :
    Reflector.Rule (machine env) (fun _ => Inv) Grows (fun _ _ => True) where
  refl := Grows.refl
  trans := Grows.trans
  dispatch := fun before _ run => dispatch_keeps rule before (passes before _) run
  take := fun before => ⟨emptied before, Grows.of_eq rfl rfl rfl rfl, fun _ _ => trivial⟩
  admitted := fun _ _ => trivial

theorem growing (env : Env P) :
    HandlerRule env (fun _ => True) (fun _ _ => True) (fun _ _ => True) (fun _ => True)
      (fun _ _ => True) (fun _ _ => True) (fun _ => True) where
  steps := by constructor <;> simp
  keepCommitment := fun _ _ => trivial
  meet := fun _ _ => ⟨trivial, fun _ => trivial⟩
  ready := fun _ => trivial
  queue := fun _ => trivial
  greet := fun _ => trivial
  fetchedLater := fun _ _ => trivial
  inHand := fun _ _ => trivial
  keepBlock := fun _ _ _ _ => trivial
  handOn := fun _ _ => trivial
  book := fun _ => trivial

variable {history output : Output P} {replica next : Replica P}
  (handlers : ∀ history, VoteRule env (Inv history) (Pre history) (Voted history) (Mid history)
    Offered Leaving)
  (reflects : Reflector.Rule (machine env) Inv Grows admits)

include reflects

theorem reflect_after {middle : Replica P} (handled : Inv history middle ∧ replica.Grows middle)
    (run : middle.reflect env = .ok (next, output)) :
    Inv (history.join output) next ∧ replica.Grows next := by
  obtain ⟨rests, grown⟩ := Reflector.reflect_keeps reflects handled.1 run
  exact ⟨rests, handled.2.trans grown⟩

include handlers

section

variable (before : Inv history replica)

include before

theorem initHandshake_keeps (run : replica.initHandshake env = .ok (next, output)) :
    Inv (history.join output) next ∧ replica.Grows next := by
  simp only [initHandshake, bind_ok, expect_ok] at run
  obtain ⟨key, -, enclave, added, run⟩ := run
  refine reflect_after reflects ⟨(handlers history).greet ((handlers history).meet before added).1,
    ?_⟩ run
  obtain ⟨trusted, rfl⟩ := Enclave.addPeer_ok added
  exact Grows.of_eq rfl rfl rfl rfl

theorem createBlock_reflects {created : Replica P}
    (creates : replica.createBlock (roundTransition env env.fuel) env = .ok created)
    (run : created.reflect env = .ok (next, output)) :
    Inv (history.join output) next ∧ replica.Grows next :=
  reflect_after reflects (createBlock_keeps (handlers history).steps
    (roundTransition_keeps (handlers history).steps env.fuel) before creates) run

theorem receiveClientRequest_keeps {tx : P.Tx}
    (run : replica.receiveClientRequest env tx = .ok (next, output)) :
    Inv (history.join output) next ∧ replica.Grows next := by
  have queued : Inv history { replica with
      pendingClientRequests := replica.pendingClientRequests.insert tx } :=
    (handlers history).queue before
  have grown : replica.Grows { replica with
      pendingClientRequests := replica.pendingClientRequests.insert tx } :=
    Grows.of_eq rfl rfl rfl rfl
  simp only [receiveClientRequest] at run
  split at run
  · obtain ⟨full, -, run⟩ := bind_ok.mp run
    split at run
    · obtain ⟨created, creates, run⟩ := bind_ok.mp run
      obtain ⟨rests, grownMore⟩ := createBlock_reflects handlers reflects queued creates run
      exact ⟨rests, grown.trans grownMore⟩
    · exact reflect_after reflects ⟨queued, grown⟩ run
  · exact reflect_after reflects ⟨queued, grown⟩ run

theorem handleBlockTimeout_keeps (run : replica.handleBlockTimeout env = .ok (next, output)) :
    Inv (history.join output) next ∧ replica.Grows next := by
  unfold handleBlockTimeout at run
  split at run
  · obtain ⟨created, creates, run⟩ := bind_ok.mp run
    exact createBlock_reflects handlers reflects before creates run
  · exact Reflector.reflect_keeps reflects before run

theorem handleViewTimeout_keeps
    (leaving : replica.isViewLeadByMe replica.view = false → Leaving replica)
    (run : replica.handleViewTimeout env = .ok (next, output)) :
    Inv (history.join output) next ∧ replica.Grows next := by
  unfold handleViewTimeout at run
  split at run
  · exact Reflector.reflect_keeps reflects before run
  rename_i follows
  obtain ⟨entered, enters, run⟩ := bind_ok.mp run
  exact reflect_after reflects (newView_keeps (handlers history).steps before
    (leaving (Bool.eq_false_of_not_eq_true follows)) enters) run

end

end Calls

end Replica

def Event.Admitted (Fetched : Replica P → Block P → Prop)
    (Offered : Replica P → SignedCommitment P → Prop) (Leaving : Replica P → Prop)
    (replica : Replica P) : Event P → Prop
  | .deliver _ _ _ message => replica.Admits Fetched Offered message
  | .viewTimeout _ _ => replica.isViewLeadByMe replica.view = false → Leaving replica
  | _ => True

section Events

variable {Inv : Output P → Replica P → Prop} {Pre Voted : Output P → Replica P → Block P → Prop}
  {Mid : Output P → Replica P → Prop} {Offered : Replica P → SignedCommitment P → Prop}
  {Fetched : Replica P → Block P → Prop} {event : Event P} {history output : Output P}
  {replica next : Replica P}

theorem Event.handle_reflects {admits : Replica P → PeerMessage P → Prop}
    (handlers : ∀ env history, Replica.VoteRule env (Inv history) (Pre history) (Voted history)
      (Mid history) Offered Leaving)
    (reflects : ∀ env, Reflector.Rule (machine env) Inv Replica.Grows admits)
    (before : Inv history replica)
    (admitted : ∀ source receiver env message, event = .deliver source receiver env message →
      admits replica message) (leaving : ∀ id env, event = .viewTimeout id env →
      replica.isViewLeadByMe replica.view = false → Leaving replica)
    (run : event.handle replica = .ok (next, output)) :
    Inv (history.join output) next ∧ replica.Grows next := by
  cases event with
  | init id env => exact initHandshake_keeps (handlers env) (reflects env) before run
  | deliver source receiver env message =>
    exact Reflector.process_keeps (reflects env) env.fuel before (admitted _ _ _ _ rfl) run
  | request id env tx =>
    exact receiveClientRequest_keeps (handlers env) (reflects env) before run
  | blockTimeout id env =>
    exact handleBlockTimeout_keeps (handlers env) (reflects env) before run
  | viewTimeout id env =>
    exact handleViewTimeout_keeps (handlers env) (reflects env) before (leaving _ _ rfl) run
  | addPeer id peer key => cases run
  | call id request => cases run

theorem Event.handle_holds {Holds : Replica P → Prop} {Pre Voted : Replica P → Block P → Prop}
    {Mid : Replica P → Prop} {admits : Replica P → PeerMessage P → Prop}
    (handlers : ∀ env, Replica.VoteRule env Holds Pre Voted Mid Offered fun _ => True)
    (reflects : ∀ env, Reflector.Rule (machine env) (fun _ => Holds) Replica.Grows admits)
    (before : Holds replica)
    (admitted : ∀ source receiver env message, event = .deliver source receiver env message →
      admits replica message) (run : event.handle replica = .ok (next, output)) : Holds next :=
  (@Event.handle_reflects P (fun _ => Holds) (fun _ => Pre) (fun _ => Voted) (fun _ => Mid) Offered
    event output output replica next _ admits (fun env _ => handlers env) reflects before admitted
    (fun _ _ _ _ => trivial) run).1

theorem Event.handle_grows (run : event.handle replica = .ok (next, output)) : replica.Grows next :=
  (@Event.handle_reflects P (fun _ _ => True) (fun _ _ _ => True) (fun _ _ _ => True)
    (fun _ _ => True) (fun _ _ => True) event output output replica next (fun _ => True)
    (fun _ _ => True) (fun env _ => (growing env).toVoteRule)
    (fun env => (growing env).reflects (fun _ _ => passes_any _ _) fun _ => trivial)
    trivial (fun _ _ _ _ _ => trivial) (fun _ _ _ _ => trivial) run).2

theorem Event.handle_keeps
    (rule : ∀ env, Replica.CallRule env Inv Pre Voted Mid Offered Fetched Leaving)
    (before : Inv history replica) (admitted : event.Admitted Fetched Offered Leaving replica)
    (run : event.handle replica = .ok (next, output)) :
    Inv (history.join output) next ∧ replica.Grows next := by
  refine Event.handle_reflects (fun env history => ((rule env).handlers history).toVoteRule)
    (fun env => (rule env).reflects) before ?_ ?_ run
  · rintro source receiver env message rfl
    exact admitted
  · rintro id env rfl
    exact admitted

end Events

theorem Step.holds {setup : Setup P} {world next : World P} {event : Event P}
    {p : Replica P → Output P → Prop} {id : Nat} (keeps : ∀ {after output}, id = event.place →
      event.Possible setup world → event.handle (world.replicas id) = .ok (after, output) →
      p after ((world.history id).join output))
    (before : p (world.replicas id) (world.history id)) (step : Step setup world event next) :
    p (next.replicas id) (next.history id) := by
  cases step with
  | addPeer foreign run => exact before
  | call foreign run => exact before
  | act correct possible run =>
    refine World.acted_cases ?_ fun _ => before
    rintro rfl
    exact keeps rfl possible run

/-- What holds of a new replica and is kept by the events at correct replicas holds of them in every
run. -/
theorem Run.correct_holds {setup : Setup P} {allowed : World P → Event P → Prop}
    {Holds : Replica P → Prop} (initial : ∀ config, Holds (.initial config))
    (keeps : ∀ {world event next output}, allowed world event → Holds (world.replicas event.place) →
      event.handle (world.replicas event.place) = .ok (next, output) → Holds next)
    {world : World P} (run : Run setup allowed world) :
    ∀ id ∈ setup.correct, Holds (world.replicas id) := by
  induction run with
  | start isInitial =>
    intro id correct
    rw [(isInitial.started correct).1]
    exact initial _
  | @step world next event before ok step ih =>
    intro id correct
    refine Step.holds (p := fun replica _ => Holds replica) ?_ (ih id correct) step
    rintro after output rfl _ run
    exact keeps ok (ih _ correct) run

end Abcperf.Damysus
