import Abcperf.Damysus.Agreement

/-! What stands behind the blocks of replicas that follow the protocol: they store one block per
view, and execute only what a majority has prepared a direct successor of. -/

namespace Abcperf.Damysus

open Lib List Option Symbolic Block

variable {P : Platform} {setup : Setup P} {world : World P}

/-- The last block that a replica has executed is the parent of a block that names it in its
justification and that the enclaves of a majority have prepared. -/
theorem executed_certified (hashes : CollisionFree P) (all : setup.correct = Finset.range setup.n)
    (run : Run setup (fun _ event => event.FromReplica setup.n) world) {id : Nat}
    (inRange : id < setup.n) {last : Block P}
    (isLast : last ∈ (world.replicas id).executedBlocks.getLast?) :
    ∃ leader < setup.n, ∃ successor ∈ (world.replicas leader).proposed,
      last.Justifies successor ∧ successor.parent = some last.hashValue ∧
      ∃ members, Majority setup.n (setup.n / 2 + 1) members ∧ ∀ member ∈ members,
        ∃ record ∈ (world.replicas member).enclave.log, record.result.isUsig = true ∧ ∃ hash,
          record.call = .prepare successor.view successor.hashValue successor.justification
            successor.parent hash := by
  have agreeing := World.run_agreeing all run
  have correct : id ∈ setup.correct := all ▸ Finset.mem_range.mpr inRange
  have valid := agreeing.valid correct
  have executing := (agreeing.conforms id correct).executing
  rw [World.others_self correct (agreeing.named id correct)] at executing
  rcases executing.committed with nothing | ⟨top, committed, isChain⟩
  · rw [nothing] at isLast
    cases isLast
  obtain ⟨endsAt, names⟩ := (Facts.chain_justifies valid isChain _ rfl executing.created).2 last (by
    rw [getLast?_cons, isLast]; rfl)
  subst endsAt
  -- the successor in the three facts about it is one block, as there is one in its view
  obtain ⟨_, ⟨successor, ⟨leader, accumulator, isProposal, justified, sameView⟩, rfl⟩,
    ⟨_, _, ⟨_, other, isOther, justified', _, isParent⟩, inView⟩, members,
    ⟨below, enough⟩, prepared⟩ := committed
  cases valid.proposal_unique isOther isProposal inView
  cases justified.symm.trans justified'
  obtain ⟨_, votes, isQuorum, quorate, -⟩ := (valid.proposed _ _ isProposal).justified
  cases justified.symm.trans isQuorum
  have sameHash : accumulator.getBlockHash = last.hashValue :=
    valid.names_unique (valid.accumulator_names quorate) (sameView ▸ names)
  refine ⟨leader, ?_, successor, isProposal.2, ⟨accumulator, justified, sameView, sameHash⟩,
    sameHash ▸ isParent, members, ⟨below, enough⟩, fun member isMember => ?_⟩
  · exact Finset.mem_range.mp (all ▸ isProposal.1)
  obtain ⟨-, record, issued, isUsig, isPrepare, voted⟩ := prepared member isMember
  obtain ⟨_, block, hash, isBlock, sameBlock, isCall⟩ :=
    (valid.votes member record issued isUsig).prepares isPrepare (voted ▸ valid.above isProposal)
  cases valid.proposal_unique isBlock isProposal (sameBlock.trans voted)
  exact ⟨record, issued.2, isUsig, hash, isCall⟩

/-- Whatever two replicas store for a view is one block, and the leader of the view has created it.
-/
theorem stored_blocks_agree (hashes : CollisionFree P) (all : setup.correct = Finset.range setup.n)
    (run : Run setup (fun _ event => event.FromReplica setup.n) world) {left right view : Nat}
    (isLeft : left < setup.n) (isRight : right < setup.n) {block other : Block P}
    (atLeft : (world.replicas left).blockstore.get view = some block)
    (atRight : (world.replicas right).blockstore.get view = some other) :
    block.notExecuted = other.notExecuted ∧ (0 < view → block.notExecuted ∈
      (world.replicas (View.getViewLeader view setup.n)).proposed) := by
  have agreeing := World.run_agreeing all run
  have correct : ∀ id < setup.n, id ∈ setup.correct := fun id inRange =>
    all ▸ Finset.mem_range.mpr inRange
  have valid := agreeing.valid (correct left isLeft)
  have created : ∀ id < setup.n, ∀ block, (world.replicas id).blockstore.get view = some block →
      0 < view → block.view = view ∧ ∃ id, (world.facts setup).proposal id block.notExecuted := by
    intro id inRange block found above
    have isCorrect := correct id inRange
    rw [← World.others_self isCorrect (agreeing.named id isCorrect)]
    exact (agreeing.sourced id isCorrect).slot_proposal found above
  rcases Nat.eq_zero_or_pos view with rfl | above
  · have leftRoot := (agreeing.sourced left (correct left isLeft)).root
    have rightRoot := (agreeing.sourced right (correct right isRight)).root
    rw [atLeft, ← rightRoot, atRight] at leftRoot
    exact ⟨some.inj leftRoot, fun above => absurd above (Nat.lt_irrefl 0)⟩
  obtain ⟨leftView, leader, isProposal⟩ := created left isLeft block atLeft above
  obtain ⟨rightView, _, isOther⟩ := created right isRight other atRight above
  refine ⟨valid.proposal_unique isProposal isOther (leftView.trans rightView.symm), fun _ => ?_⟩
  have leads : View.getViewLeader block.view setup.n = leader :=
    (valid.proposed _ _ isProposal).leads
  rw [← leftView, leads]
  exact isProposal.2

/-- Both of two replicas have stored the first block, and replica 0 has executed it. -/
theorem Symbolic.steady_stored : ∃ world,
    Run pair (fun _ event => event.FromReplica pair.n) world ∧
      (∃ last ∈ (world.replicas 0).executedBlocks.getLast?, True) ∧
      (∃ block ∈ (world.replicas 0).blockstore.get 1, True) ∧
      ∃ other ∈ (world.replicas 1).blockstore.get 1, True :=
  (Player.mk pair env).play_run (fun _ _ => of_decide_eq_true) pair_initial steady
    (by decide +kernel)

theorem stored_blocks_agree_steady : ∃ (world : World platform) (block other : Block platform),
    (world.replicas 0).blockstore.get 1 = some block ∧
    (world.replicas 1).blockstore.get 1 = some other ∧
      block.notExecuted = other.notExecuted := by
  obtain ⟨world, run, -, ⟨block, atLeft, -⟩, other, atRight, -⟩ := steady_stored
  exact ⟨world, block, other, atLeft, atRight,
    (stored_blocks_agree collisionFree rfl run (by decide) (by decide) atLeft atRight).1⟩

theorem executed_certified_steady : ∃ (world : World platform) (last : Block platform),
    (world.replicas 0).executedBlocks.getLast? = some last ∧ ∃ leader < 2,
      ∃ successor ∈ (world.replicas leader).proposed, last.Justifies successor := by
  obtain ⟨world, run, ⟨last, isLast, -⟩, -⟩ := steady_stored
  obtain ⟨leader, inRange, successor, isProposed, justifies, -⟩ :=
    executed_certified collisionFree rfl run (by decide) isLast
  exact ⟨world, last, isLast, leader, inRange, successor, isProposed, justifies⟩

end Abcperf.Damysus
