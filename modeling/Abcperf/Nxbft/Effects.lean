import Abcperf.Nxbft.Steps

/-! What the handlers of a replica do to its enclave and to the requests of clients. They change the
enclave by its calls only, a vertex they sign carries transactions that waited for one, and what
they send names the replica as its sender. -/

namespace Abcperf.Nxbft

open Lib Lib.Outcome List

variable {P : Platform}

namespace Replica

def Waits (replica : Replica P) (tx : P.Tx) : Prop :=
  ∃ block ∈ replica.pendingClientRequests.blocks, tx ∈ block

structure Acts (before after : Replica P) : Prop where
  enclave : before.enclave.Evolves after.enclave
  waits : ∀ tx, after.Waits tx → before.Waits tx
  signed : ∀ vertex ∈ signedBy after.output.output, vertex ∈ signedBy before.output.output ∨
    ∀ tx ∈ vertex.transactions, before.Waits tx
  me : after.me = before.me
  named : ∀ message ∈ after.output.output.sent,
    message ∈ before.output.output.sent ∨ message.sender = before.me

theorem Acts.refl (replica : Replica P) : Acts replica replica :=
  ⟨.refl, fun _ waiting => waiting, fun _ member => .inl member, rfl,
    fun _ member => .inl member⟩

variable {before after replica next : Replica P} {sender creator fuel : Nat} {tx : P.Tx} {env : Env}
  {vertex : Vertex P} {message : SignedMessage P} {history output : Output P}

theorem acts_enclave {enclave : EnclaveAutomata P} (evolves : before.enclave.Evolves enclave)
    (still : Still { before with enclave } after) : Acts before after where
  enclave := still.enclave ▸ evolves
  waits := fun tx waiting => by
    rw [Waits, still.requests] at waiting
    exact waiting
  signed := fun vertex member => .inl (still.signed ▸ member)
  me := still.me
  named := still.named

theorem Still.acts (still : Still before after) : Acts before after := acts_enclave .refl still

theorem popFront_waits : (tx ∈ replica.pendingClientRequests.popFront.1 → replica.Waits tx) ∧
      ((∃ block ∈ replica.pendingClientRequests.popFront.2.blocks, tx ∈ block) →
        replica.Waits tx) := by
  unfold Waits Heaps.PendingClientRequests.popFront
  split
  · next empty => simp [empty]
  rename_i front rest isBlocks
  rw [isBlocks]
  exact ⟨fun member => ⟨front, mem_cons_self, member⟩,
    fun ⟨block, isBlock, member⟩ => ⟨block, mem_cons_of_mem _ isBlock, member⟩⟩

theorem signVertex_acts (env : Env) (replica : Replica P) :
    Acts replica (replica.signVertex env) := by
  unfold signVertex
  dsimp only
  split
  · exact ⟨.sign .refl rfl, fun tx waiting => popFront_waits.2 waiting,
      fun _ member => .inl member, rfl, fun _ member => .inl member⟩
  refine ⟨.sign .refl rfl, fun tx waiting => popFront_waits.2 waiting, ?_, rfl, ?_⟩
  · intro vertex member
    simp only [broadcast, UnreflectedOutput.broadcast, UnreflectedOutput.cancelTimeout, signedBy,
      filterMap_append, mem_append] at member
    rcases member with old | fresh
    · exact .inl old
    simp only [filterMap_cons, Message.vertex, filterMap_nil, mem_singleton] at fresh
    subst fresh
    exact .inr fun tx isTx => popFront_waits.1 isTx
  intro sent member
  simp only [Output.sent, broadcast, UnreflectedOutput.broadcast,
    UnreflectedOutput.cancelTimeout, mem_append, mem_singleton] at member ⊢
  rcases member with (old | rfl) | direct
  · exact .inl (.inl old)
  · exact .inr rfl
  · exact .inl (.inr direct)

theorem createVertex_acts {allowed : Bool} (run : replica.createVertex env allowed = .ok next) :
    Acts replica next := by
  unfold createVertex at run
  split at run
  · split at run
    · exact pure_ok.mp run ▸ Acts.refl _
    · exact pure_ok.mp run ▸ Still.acts (still_silent rfl rfl rfl rfl rfl)
  simp only [bind_ok] at run
  obtain ⟨full, _, run⟩ := run
  split at run
  · exact pure_ok.mp run ▸ signVertex_acts env replica
  · exact pure_ok.mp run ▸ Still.acts (still_silent rfl rfl rfl rfl rfl)

theorem Action.acts (action : Action before after) : Acts before after := by
  cases action with
  | idles idles => exact idles.acts
  | calls evolves => exact acts_enclave evolves (.refl _)
  | creates run => exact createVertex_acts run
  | buffers => exact Still.acts (still_silent rfl rfl rfl rfl rfl)
  | loops loops => exact loops.stays.2.1.acts
  | decides run =>
    obtain ⟨_, enclave, proof, result, tossed, still⟩ := waveReady_marks run
    exact acts_enclave (.toss .refl tossed) still
  | advances => exact Still.acts (still_silent rfl rfl rfl rfl rfl)

/-- The enclave has come from `start`, the transactions that wait or that the replica has put into
a vertex were submitted, and what it has sent names `me`. -/
structure Follows (me : Nat) (start : EnclaveAutomata P) (submitted : P.Tx → Prop)
    (history : Output P) (replica : Replica P) : Prop where
  enclave : start.Evolves replica.enclave
  waiting : ∀ tx, replica.Waits tx → submitted tx
  signed : ∀ vertex ∈ signedBy (replica.total history), ∀ tx ∈ vertex.transactions, submitted tx
  isMe : replica.me = me
  named : ∀ message ∈ (replica.total history).sent, message.sender = me

variable {me : Nat} {start : EnclaveAutomata P} {submitted : P.Tx → Prop}

theorem mem_signedBy_append {first second : Output P} :
    vertex ∈ signedBy (first.append second) ↔ vertex ∈ signedBy first ∨
    vertex ∈ signedBy second := by
  simp only [signedBy, Output.append, filterMap_append, mem_append]

theorem mem_sent_append {first second : Output P} {message : PeerMessage P} :
    message ∈ (first.append second).sent ↔ message ∈ first.sent ∨ message ∈ second.sent := by
  simp only [Output.sent, Output.append, map_append, mem_append]
  tauto

theorem Follows.acts (follows : Follows me start submitted history before)
    (acts : Acts before after) : Follows me start submitted history after where
  enclave := follows.enclave.trans acts.enclave
  waiting := fun tx waiting => follows.waiting tx (acts.waits tx waiting)
  signed := by
    intro vertex member tx isTx
    rcases mem_signedBy_append.mp member with returned | pending
    · exact follows.signed vertex (mem_signedBy_append.mpr (.inl returned)) tx isTx
    rcases acts.signed vertex pending with old | fresh
    · exact follows.signed vertex (mem_signedBy_append.mpr (.inr old)) tx isTx
    · exact follows.waiting tx (fresh tx isTx)
  isMe := acts.me.trans follows.isMe
  named := by
    intro message member
    rcases mem_sent_append.mp member with returned | pending
    · exact follows.named message (mem_sent_append.mpr (.inl returned))
    rcases acts.named message pending with old | fresh
    · exact follows.named message (mem_sent_append.mpr (.inr old))
    · exact fresh.trans follows.isMe

theorem upheld_follows : Upheld (Follows (P := P) me start submitted) where
  action := fun action follows => follows.acts action.acts
  take := by
    intro history replica follows
    refine ⟨follows.enclave, follows.waiting, ?_, follows.isMe, ?_⟩
    · intro vertex member
      rcases mem_signedBy_append.mp member with returned | pending
      · exact follows.signed vertex returned
      · cases pending
    intro message member
    rcases mem_sent_append.mp member with returned | pending
    · exact follows.named message returned
    · cases pending

theorem insert_waits {other : P.Tx} (waiting : { replica with
      pendingClientRequests := replica.pendingClientRequests.insert tx }.Waits other) :
    other = tx ∨ replica.Waits other := by
  obtain ⟨block, isBlock, member⟩ := waiting
  simp only [Heaps.PendingClientRequests.insert] at isBlock
  split at isBlock
  · next last earlier isBlocks =>
    have blocks : replica.pendingClientRequests.blocks = earlier.reverse ++ [last] := by
      rw [← reverse_reverse replica.pendingClientRequests.blocks, isBlocks, reverse_cons]
    split at isBlock
    · rcases mem_append.mp isBlock with old | fresh
      · exact .inr ⟨block, old, member⟩
      · rw [mem_singleton.mp fresh, mem_singleton] at member
        exact .inl member
    rcases mem_append.mp isBlock with old | fresh
    · exact .inr ⟨block, blocks ▸ mem_append_left _ old, member⟩
    rw [mem_singleton.mp fresh, mem_append, mem_singleton] at member
    rcases member with old | isTx
    · exact .inr ⟨last, blocks ▸ mem_append_right _ (mem_singleton.mpr rfl), old⟩
    · exact .inl isTx
  · rw [mem_singleton.mp isBlock, mem_singleton] at member
    exact .inl member

theorem Follows.submit (follows : Follows me start submitted history replica)
    (isSubmitted : submitted tx) : Follows me start submitted history { replica with
      pendingClientRequests := replica.pendingClientRequests.insert tx } := by
  refine ⟨follows.enclave, fun other waiting => ?_, follows.signed, follows.isMe, follows.named⟩
  rcases insert_waits waiting with rfl | old
  · exact isSubmitted
  · exact follows.waiting other old

theorem new_follows {config : Config P} (run : Replica.new config = .ok replica) :
    Follows config.me (.new config.n config.enclave) submitted Output.empty replica := by
  simp only [new, bind_ok, assert_ok, exists_and_left, pure_ok] at run
  obtain ⟨_, _, _, _, _, _, _, _, rfl⟩ := run
  refine ⟨.refl, ?_, ?_, rfl, ?_⟩
  · rintro tx ⟨block, isBlock, _⟩
    cases isBlock
  · intro vertex member
    cases member
  · intro message member
    cases member

end Replica

namespace World

open Replica

/-- The enclaves of the correct replicas have come from new ones, and only submitted transactions
are in what they have signed. -/
def Following (setup : Setup P) (submitted : Nat → P.Tx → Prop) (world : World P) : Prop :=
  ∀ id ∈ setup.correct, Follows id (.new setup.n (setup.config id).enclave) (submitted id)
    (world.history id) (world.replicas id)

variable {setup : Setup P} {submitted : Nat → P.Tx → Prop}
  {world : World P}

theorem initial_following (initial : world.Initial setup) : world.Following setup submitted := by
  intro id correct
  obtain ⟨isNew, isEmpty⟩ := initial.1 id correct
  have follows : Follows _ _ (submitted id) _ _ := new_follows isNew
  rwa [(setup.named id correct).1, (setup.named id correct).2, ← isEmpty] at follows

theorem step_following {next : World P} {event : Event P}
    (following : world.Following setup submitted)
    (requested : ∀ id env tx, event = .request id env tx → submitted id tx)
    (step : Step setup world event next) : next.Following setup submitted :=
  step.keeps (fun _ => upheld_follows) following fun id env tx isRequest _ _ follows =>
    follows.submit (requested id env tx isRequest)

theorem run_following {allowed : Event P → Prop} (run : Run setup allowed world) :
    world.Following setup fun _ _ => True := by
  induction run with
  | start initial => exact initial_following initial
  | step _ _ step ih => exact step_following ih (fun _ _ _ _ => trivial) step

end World

end Abcperf.Nxbft
