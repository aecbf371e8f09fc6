import Abcperf.Minbft.MessageLogs

/-! The checkpoint certificates that a replica forms. Checkpoints are collected by fewer fields than
a certificate is checked for, so a certificate is valid if the checkpoints that agree on the former
agree on all of them. -/

namespace Abcperf.Minbft

open Lib Lib.Outcome Validation Plain IdMap List

variable {P : Platform}

namespace CollectorCheckpoints

def under (collector : CollectorCheckpoints P) (key : KeyCheckpoints P) : IdMap (Checkpoint P) :=
  (collector.messages.get key).getD .empty

theorem under_collect (collector : CollectorCheckpoints P) (checkpoint : Checkpoint P)
    (key : KeyCheckpoints P) : (collector.collectCheckpoint checkpoint).1.under key =
      if key = checkpoint.data.key ∧ (collector.under key).get checkpoint.data.origin = none then
        (collector.under key).insert checkpoint.data.origin checkpoint
          else collector.under key := by
  unfold collectCheckpoint
  dsimp only
  split
  · next known =>
    obtain ⟨held, found⟩ := containsKey_iff.mp known
    rw [if_neg]
    rintro ⟨rfl, missing⟩
    rw [under, found] at missing
    cases missing
  rename_i unknown
  have missing : (collector.under checkpoint.data.key).get checkpoint.data.origin = none := by
    simpa [containsKey, under] using unknown
  by_cases same : key = checkpoint.data.key
  · subst same
    rw [if_pos ⟨rfl, missing⟩]
    simp [under]
  · rw [if_neg fun both => same both.1]
    simp [under, same]

theorem amount_collect (collector : CollectorCheckpoints P) (checkpoint : Checkpoint P) :
    (collector.collectCheckpoint checkpoint).2 =
      ((collector.collectCheckpoint checkpoint).1.under checkpoint.data.key).len := by
  unfold collectCheckpoint
  dsimp only
  split
  · rfl
  · simp [under]

variable {env : Env} {config : Config} {collector next : CollectorCheckpoints P}
  {checkpoint : Checkpoint P} {result : Option (CheckpointCertificate P)}

/-- Either the checkpoint is collected and there are too few or the own one is missing, or those
with its key make a certificate and are dropped with all for as many batches or fewer. -/
theorem process_cases (run : collector.process env config checkpoint = (next, result)) :
    (result = none ∧ next = (collector.collectCheckpoint checkpoint).1 ∧
      ((next.under checkpoint.data.key).len ≤ config.t ∨
        (next.under checkpoint.data.key).get config.id = none)) ∨
    ∃ mine others held,
      held = (collector.collectCheckpoint checkpoint).1.under checkpoint.data.key ∧
      result = some ⟨mine, others.map Prod.snd⟩ ∧ config.t < held.len ∧
      held.get config.id = some mine ∧
      others = held.inOrder (env.order (.checkpoints checkpoint.data.totalAmountAcceptedBatches)
        (held.remove config.id).keys) ∧ ∀ key, next.under key =
        if checkpoint.data.totalAmountAcceptedBatches < key.totalAmountAcceptedBatches then
          (collector.collectCheckpoint checkpoint).1.under key else .empty := by
  simp only [process] at run
  rw [amount_collect] at run
  split at run
  · next few =>
    cases run
    exact .inl ⟨rfl, rfl, .inl few⟩
  rename_i many
  unfold retrieveCollectedCheckpoints at run
  dsimp only at run
  split at run
  · next none =>
    cases run
    refine .inl ⟨rfl, rfl, .inr ?_⟩
    simp [under, none]
  rename_i held found
  have isHeld : (collector.collectCheckpoint checkpoint).1.under checkpoint.data.key = held := by
    simp [under, found]
  rw [isHeld] at many
  rw [if_neg many] at run
  split at run
  · next missing =>
    cases run
    exact .inl ⟨rfl, rfl, .inr (isHeld ▸ missing)⟩
  rename_i mine isMine
  cases run
  refine .inr ⟨mine, _, held, isHeld.symm, rfl, by omega, isMine, rfl, fun key => ?_⟩
  simp only [under, KeyMap.get_retain]
  by_cases later : checkpoint.data.key.totalAmountAcceptedBatches < key.totalAmountAcceptedBatches
  · have above : checkpoint.data.totalAmountAcceptedBatches < key.totalAmountAcceptedBatches :=
    later
    simp [later, above]
  have below : ¬ checkpoint.data.totalAmountAcceptedBatches < key.totalAmountAcceptedBatches :=
    later
  simp [later, below]

/-- A certificate is the own checkpoint and `t` equal ones of others, all received. -/
structure Certified (config : Config) (arrived : List (Checkpoint P))
    (certificate : CheckpointCertificate P) : Prop where
  arrived : ∀ checkpoint ∈ certificate.myCheckpoint :: certificate.otherCheckpoints,
    checkpoint ∈ arrived
  own : certificate.myCheckpoint.data.origin = config.id
  enough : config.t ≤ certificate.otherCheckpoints.length
  distinct : ((certificate.myCheckpoint :: certificate.otherCheckpoints).map (·.data.origin)).Nodup
  grouped : ∀ other ∈ certificate.otherCheckpoints,
    other.data.key = certificate.myCheckpoint.data.key

/-- The collected checkpoints are filed by what they say, and there is a certificate wherever one is
due. -/
structure Collected (config : Config) (arrived : List (Checkpoint P))
    (collector : CollectorCheckpoints P) (formed : List (CheckpointCertificate P)) : Prop where
  filed : ∀ {key origin checkpoint}, (collector.under key).get origin = some checkpoint →
    checkpoint ∈ arrived ∧ checkpoint.data.origin = origin ∧ checkpoint.data.key = key
  settled : ∀ key, (collector.under key).len ≤ config.t ∨
    (collector.under key).get config.id = none
  kept : ∀ checkpoint ∈ arrived,
    (∃ certificate ∈ formed, checkpoint.data.totalAmountAcceptedBatches ≤
      certificate.myCheckpoint.data.totalAmountAcceptedBatches) ∨
    ∃ held, (collector.under checkpoint.data.key).get checkpoint.data.origin = some held
  certified : ∀ certificate ∈ formed, Certified config arrived certificate

/-- The runs of a collector: the checkpoints that arrived, in their order, and the certificates that
were formed. -/
inductive Collects (config : Config) : List (Checkpoint P) → CollectorCheckpoints P →
    List (CheckpointCertificate P) → Prop
  | start : Collects config [] .new []
  | step {arrived : List (Checkpoint P)} {collector next : CollectorCheckpoints P}
      {formed : List (CheckpointCertificate P)} {env : Env} {checkpoint : Checkpoint P}
      {result : Option (CheckpointCertificate P)}
        (before : Collects config arrived collector formed)
      (run : collector.process env config checkpoint = (next, result)) :
      Collects config (arrived ++ [checkpoint]) next (formed ++ result.toList)

variable {arrived : List (Checkpoint P)} {formed : List (CheckpointCertificate P)}

theorem Certified.later {certificate : CheckpointCertificate P}
    (certified : Certified config arrived certificate) (checkpoint : Checkpoint P) :
    Certified config (arrived ++ [checkpoint]) certificate :=
  { certified with
    arrived := fun other member => mem_append_left _ (certified.arrived other member) }

theorem Collected.collect (collected : Collected config arrived collector formed)
    (checkpoint : Checkpoint P) {key : KeyCheckpoints P} {origin : Nat} {held : Checkpoint P}
    (found : ((collector.collectCheckpoint checkpoint).1.under key).get origin = some held) :
    held ∈ arrived ++ [checkpoint] ∧ held.data.origin = origin ∧ held.data.key = key := by
  rw [under_collect] at found
  have old : (collector.under key).get origin = some held →
      held ∈ arrived ++ [checkpoint] ∧ held.data.origin = origin ∧ held.data.key = key := by
    intro found
    obtain ⟨member, rest⟩ := collected.filed found
    exact ⟨mem_append_left _ member, rest⟩
  split at found
  · next isNew =>
    rw [get_insert] at found
    split at found
    · next same =>
      cases found
      exact ⟨mem_append_right _ (mem_singleton_self _), same.symm, isNew.1.symm⟩
    · exact old found
  · exact old found

/-- Nothing that was filed is lost when a checkpoint is collected, and it is filed itself. -/
theorem get_collect (collector : CollectorCheckpoints P) (checkpoint other : Checkpoint P)
    (known : other = checkpoint ∨
      ∃ held, (collector.under other.data.key).get other.data.origin = some held) :
    ∃ held, ((collector.collectCheckpoint checkpoint).1.under other.data.key).get
      other.data.origin = some held := by
  rw [under_collect]
  split
  · rw [get_insert]
    split
    · exact ⟨_, rfl⟩
    rename_i differ
    rcases known with rfl | known
    · exact absurd rfl differ
    · exact known
  rename_i notNew
  rcases known with rfl | known
  · by_contra missing
    exact notNew ⟨rfl, Option.eq_none_iff_forall_ne_some.mpr fun held isHeld =>
      missing ⟨held, isHeld⟩⟩
  · exact known

/-- All checkpoints of one key make a certificate, in whatever order they are listed. -/
theorem held_certified {held : IdMap (Checkpoint P)} {key : KeyCheckpoints P}
    (filed : ∀ {origin checkpoint}, held.get origin = some checkpoint →
      checkpoint ∈ arrived ∧ checkpoint.data.origin = origin ∧ checkpoint.data.key = key)
    {mine : Checkpoint P} (isMine : held.get config.id = some mine) (many : config.t < held.len)
    {order : List Nat} (ordered : order.Perm (held.remove config.id).keys) :
    Certified config arrived ⟨mine, (held.inOrder order).map Prod.snd⟩ := by
  obtain ⟨mineArrived, mineOrigin, mineKey⟩ := filed isMine
  have others : ∀ other ∈ (held.inOrder order).map Prod.snd, other ∈ arrived ∧
      other.data.key = key := by
    intro other member
    obtain ⟨entry, inOrder, rfl⟩ := mem_map.mp member
    obtain ⟨isArrived, -, hasKey⟩ := filed (mem_inOrder.mp inOrder).2
    exact ⟨isArrived, hasKey⟩
  rw [keys_remove] at ordered
  have listed : (held.inOrder order).map Prod.fst = order := by
    refine inOrder_keys fun id member => ?_
    exact mem_of_mem_erase (ordered.mem_iff.mp member)
  have origins : ((held.inOrder order).map Prod.snd).map (·.data.origin) = order := by
    rw [map_map]
    refine Eq.trans (map_congr_left fun entry member => ?_) listed
    exact (filed (mem_inOrder.mp member).2).2.1
  have isKey : config.id ∈ held.keys := mem_keys.mpr ⟨mine, isMine⟩
  constructor
  · rintro checkpoint (_ | ⟨_, member⟩)
    · exact mineArrived
    · exact (others checkpoint member).1
  · exact mineOrigin
  · have length := ordered.length_eq
    rw [length_erase_of_mem isKey, ← origins, length_map] at length
    have : held.keys.length = held.len := length_map _
    show config.t ≤ ((held.inOrder order).map Prod.snd).length
    omega
  · rw [map_cons, mineOrigin, origins]
    have distinct := held.keys_nodup.erase config.id
    refine nodup_cons.mpr ⟨fun member => ?_, ordered.nodup_iff.mpr distinct⟩
    exact held.keys_nodup.not_mem_erase (ordered.mem_iff.mp member)
  · exact fun other member => (others other member).2.trans mineKey.symm

theorem step_collected (collected : Collected config arrived collector formed)
    (run : collector.process env config checkpoint = (next, result)) :
    Collected config (arrived ++ [checkpoint]) next (formed ++ result.toList) := by
  have known : ∀ other ∈ arrived ++ [checkpoint],
      (∃ certificate ∈ formed, other.data.totalAmountAcceptedBatches ≤
        certificate.myCheckpoint.data.totalAmountAcceptedBatches) ∨
      ∃ held, ((collector.collectCheckpoint checkpoint).1.under other.data.key).get
        other.data.origin = some held := by
    refine forall_mem_concat (fun other earlier => ?_)
      (.inr (get_collect collector checkpoint _ (.inl rfl)))
    exact (collected.kept other earlier).imp_right fun held =>
      get_collect collector checkpoint other (.inr held)
  have settled : ∀ key, key ≠ checkpoint.data.key →
      ((collector.collectCheckpoint checkpoint).1.under key).len ≤ config.t ∨
        ((collector.collectCheckpoint checkpoint).1.under key).get config.id = none := by
    intro key differ
    rw [under_collect, if_neg fun both => differ both.1]
    exact collected.settled key
  rcases process_cases run with ⟨rfl, rfl, few⟩ | ⟨mine, others, held, isHeld, rfl, many, isMine,
    isOthers, purged⟩
  · rw [Option.toList_none, append_nil]
    refine ⟨collected.collect checkpoint, fun key => ?_, known, fun certificate member =>
      (collected.certified certificate member).later checkpoint⟩
    by_cases same : key = checkpoint.data.key
    · exact same ▸ few
    · exact settled key same
  have certified : Certified config (arrived ++ [checkpoint]) ⟨mine, others.map Prod.snd⟩ :=
    isOthers ▸ held_certified (fun found => collected.collect checkpoint (isHeld ▸ found)) isMine
      many (env.ordered _ _)
  have amount : mine.data.totalAmountAcceptedBatches =
      checkpoint.data.totalAmountAcceptedBatches := by
    have filed := collected.collect checkpoint (isHeld ▸ isMine)
    exact congrArg KeyCheckpoints.totalAmountAcceptedBatches filed.2.2
  refine ⟨fun {key} origin other found => ?_, fun key => ?_, fun other member => ?_, ?_⟩
  · rw [purged] at found
    split at found
    · exact collected.collect checkpoint found
    · cases found
  · rw [purged]
    split
    · next later => exact settled key fun same => Nat.lt_irrefl _ (same ▸ later)
    · exact .inl (Nat.zero_le _)
  · rw [purged]
    by_cases later : checkpoint.data.totalAmountAcceptedBatches <
        other.data.key.totalAmountAcceptedBatches
    · rw [if_pos later]
      refine (known other member).imp_left ?_
      rintro ⟨certificate, isFormed, atMost⟩
      exact ⟨certificate, mem_append_left _ isFormed, atMost⟩
    · refine .inl ⟨_, mem_append_right _ (mem_singleton_self _), ?_⟩
      exact amount ▸ not_lt.mp later
  exact forall_mem_concat (fun certificate earlier =>
    (collected.certified certificate earlier).later checkpoint) certified

theorem Collects.collected (collects : Collects config arrived collector formed) :
    Collected config arrived collector formed := by
  induction collects with
  | start =>
    refine ⟨fun found => ?_, fun _ => .inl (Nat.zero_le _), by simp, by simp⟩
    cases found
  | step _ run ih => exact step_collected ih run

theorem Certified.validate {certificate : CheckpointCertificate P}
    (certified : Certified config arrived certificate)
    (same : ∀ other ∈ certificate.otherCheckpoints,
      certificate.myCheckpoint.sameCheckpoint other = true)
    {peer : Config} {usig : Usig P} (sameT : peer.t = config.t)
    (signed : ∀ checkpoint ∈ arrived, checkpoint.validateCheckpoint peer usig = .ok (.ok ())) :
    certificate.validate peer usig = .ok (.ok ()) := by
  unfold CheckpointCertificate.validate
  have enough := certified.enough
  rw [if_neg (by omega), if_neg (by simpa using certified.distinct),
    if_neg (by simpa using same), andThen_ok, all_ok]
  refine ⟨signed _ (certified.arrived _ mem_cons_self), fun other member => ?_⟩
  exact signed _ (certified.arrived _ (mem_cons_of_mem _ member))

/-- A quorum of checkpoints that agree, the own one among them, does not stay without a
certificate. -/
theorem Collected.formed_of_quorum (collected : Collected config arrived collector formed)
    {agreeing : List (Checkpoint P)} (within : ∀ checkpoint ∈ agreeing, checkpoint ∈ arrived)
    (distinct : (agreeing.map (·.data.origin)).Nodup) (many : config.t < agreeing.length)
    {own : Checkpoint P} (isOwn : own ∈ agreeing) (mine : own.data.origin = config.id)
    (agree : ∀ checkpoint ∈ agreeing, checkpoint.data.key = own.data.key) :
    ∃ certificate ∈ formed, own.data.totalAmountAcceptedBatches ≤
      certificate.myCheckpoint.data.totalAmountAcceptedBatches := by
  by_contra none
  have held : ∀ checkpoint ∈ agreeing, ∃ held,
      (collector.under own.data.key).get checkpoint.data.origin = some held := by
    intro checkpoint member
    have sameKey := agree checkpoint member
    rcases collected.kept checkpoint (within checkpoint member) with covered | isHeld
    · have sameAmount : checkpoint.data.totalAmountAcceptedBatches =
        own.data.totalAmountAcceptedBatches :=
        congrArg KeyCheckpoints.totalAmountAcceptedBatches sameKey
      exact absurd (sameAmount ▸ covered) none
    · exact sameKey ▸ isHeld
  have subset : agreeing.map (·.data.origin) ⊆ (collector.under own.data.key).keys := by
    intro origin member
    obtain ⟨checkpoint, isAgreeing, rfl⟩ := mem_map.mp member
    exact mem_keys.mpr (held checkpoint isAgreeing)
  have atMost := (distinct.subperm subset).length_le
  have : (collector.under own.data.key).keys.length = (collector.under own.data.key).len :=
    length_map _
  rw [length_map] at atMost
  rcases collected.settled own.data.key with few | missing
  · omega
  obtain ⟨_, found⟩ := held own isOwn
  rw [mine, missing] at found
  cases found

end CollectorCheckpoints

theorem UsigSigned.key_of_same {checkpoint other : Checkpoint P}
    (same : checkpoint.sameCheckpoint other = true) : checkpoint.data.key = other.data.key := by
  simp only [sameCheckpoint, Bool.and_eq_true, decide_eq_true_eq] at same
  obtain ⟨⟨⟨⟨⟨⟨counter, view⟩, hash⟩, amount⟩, -⟩, -⟩, -⟩ := same
  simp [CheckpointContent.key, counter, view, hash, amount]

/-- Where the checkpoints that are collected under one key agree on everything that is compared,
every certificate is valid for every replica that accepts the signatures, and checkpoints that
differ from those of a quorum do not keep it from a certificate. -/
theorem certificates_valid {config : Config} {arrived : List (Checkpoint P)}
    {collector : CollectorCheckpoints P} {formed : List (CheckpointCertificate P)}
    (collects : CollectorCheckpoints.Collects config arrived collector formed)
    (agree : ∀ checkpoint ∈ arrived, ∀ other ∈ arrived,
      checkpoint.data.key = other.data.key → checkpoint.sameCheckpoint other = true) :
    (∀ certificate ∈ formed, (∀ (peer : Config) (usig : Usig P), peer.t = config.t →
        (∀ checkpoint ∈ arrived, checkpoint.validateCheckpoint peer usig = .ok (.ok ())) →
        certificate.validate peer usig = .ok (.ok ())) ∧
      config.t < (certificate.myCheckpoint :: certificate.otherCheckpoints).length ∧
      ((certificate.myCheckpoint :: certificate.otherCheckpoints).map (·.data.origin)).Nodup ∧
      (∀ checkpoint ∈ certificate.myCheckpoint :: certificate.otherCheckpoints,
        checkpoint ∈ arrived ∧ certificate.myCheckpoint.sameCheckpoint checkpoint = true)) ∧
    ∀ (agreeing : List (Checkpoint P)) (own : Checkpoint P), own ∈ agreeing →
      own.data.origin = config.id → config.t < agreeing.length →
      (agreeing.map (·.data.origin)).Nodup →
      (∀ checkpoint ∈ agreeing, checkpoint ∈ arrived ∧ checkpoint.sameCheckpoint own = true) →
      ∃ certificate ∈ formed, own.data.totalAmountAcceptedBatches ≤
        certificate.myCheckpoint.data.totalAmountAcceptedBatches := by
  have collected := collects.collected
  refine ⟨fun certificate isFormed => ?_, fun agreeing own isOwn mine many distinct within => ?_⟩
  · have certified := collected.certified certificate isFormed
    have isMine := certified.arrived _ mem_cons_self
    have same : ∀ checkpoint ∈ certificate.myCheckpoint :: certificate.otherCheckpoints,
        certificate.myCheckpoint.sameCheckpoint checkpoint = true := by
      intro checkpoint member
      refine agree _ isMine _ (certified.arrived _ member) ?_
      rcases mem_cons.mp member with rfl | isOther
      · rfl
      · exact (certified.grouped _ isOther).symm
    refine ⟨fun peer usig sameT signed => ?_, Nat.lt_succ_of_le certified.enough,
      certified.distinct, fun checkpoint member => ⟨certified.arrived _ member, same _ member⟩⟩
    exact certified.validate (fun other member => same _ (mem_cons_of_mem _ member)) sameT signed
  · exact collected.formed_of_quorum (fun checkpoint member =>
      (within checkpoint member).1) distinct
      many isOwn mine fun checkpoint member => UsigSigned.key_of_same (within checkpoint member).2

namespace Plain

/-- A checkpoint of an empty state after one batch, which differs in the attestations it lists. -/
def taken (origin : Nat) (attestations : IdMap Nat) : Checkpoint platform :=
  ⟨⟨origin, 0, 0, ([] : Bytes), 1, .empty, attestations, .empty⟩, (⟨origin, 0, hashbar.hashContent
    (.checkpoint ⟨origin, 0, 0, ([] : Bytes), 1, .empty, attestations, .empty⟩)⟩ : Signature)⟩

def collect (collector : CollectorCheckpoints platform) (checkpoint : Checkpoint platform) :
    CollectorCheckpoints platform × Option (CheckpointCertificate platform) :=
  collector.process env trio checkpoint

theorem collects_next {arrived : List (Checkpoint platform)}
    {collector : CollectorCheckpoints platform} {formed : List (CheckpointCertificate platform)}
    (before : CollectorCheckpoints.Collects trio arrived collector formed)
    (checkpoint : Checkpoint platform) :
    CollectorCheckpoints.Collects trio (arrived ++ [checkpoint]) (collect collector checkpoint).1
      (formed ++ (collect collector checkpoint).2.toList) :=
  .step before (rfl : collector.process env trio checkpoint = _)

/-- Replica 2 lists an attestation that the others do not have. -/
def odd : Checkpoint platform := taken 2 (IdMap.empty.insert 2 7)

end Plain

theorem certificates_valid_pair : CheckpointCertificate.validate Plain.trio Plain.attested
    ⟨Plain.taken 0 .empty, [Plain.taken 1 .empty]⟩ = .ok (.ok ()) :=
  ((certificates_valid (collects_next (collects_next .start (taken 0 .empty))
    (taken 1 .empty)) (by decide)).1 _ mem_cons_self).1 trio attested rfl
      (by rintro checkpoint (_ | ⟨_, _ | ⟨_, ⟨⟩⟩⟩) <;> rfl)

/-- A checkpoint that differs in a field that is not in the key enters the certificate, which no
replica accepts, and the checkpoints that agree have none. -/
theorem odd_checkpoint_spoils : (∃ collector, CollectorCheckpoints.Collects Plain.trio
      [Plain.taken 0 .empty, Plain.odd, Plain.taken 1 .empty] collector
      [⟨Plain.taken 0 .empty, [Plain.odd]⟩]) ∧
    (∀ checkpoint ∈ [Plain.taken 0 .empty, Plain.odd, Plain.taken 1 .empty],
      checkpoint.validateCheckpoint Plain.trio Plain.attested = .ok (.ok ())) ∧
    (Plain.taken 1 .empty).sameCheckpoint (Plain.taken 0 .empty) = true ∧
    CheckpointCertificate.validate Plain.trio Plain.attested ⟨Plain.taken 0 .empty, [Plain.odd]⟩ ≠
      .ok (.ok ()) := by
  refine ⟨⟨_, collects_next (collects_next (collects_next .start
    (taken 0 .empty)) odd) (taken 1 .empty)⟩, ?_, by decide, ?_⟩
  · rintro checkpoint (_ | ⟨_, _ | ⟨_, _ | ⟨_, ⟨⟩⟩⟩⟩) <;> rfl
  · intro valid
    cases valid

end Abcperf.Minbft
