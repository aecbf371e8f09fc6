import Abcperf.Lib.Encoding
import Abcperf.Minbft.Messages

/-! The bytes that `hash_content` hands to the hash function, for the five kinds of contents that a
USIG signs. No length, no kind and no mark for a missing part is among them, so the bytes say what
was signed only to a reader who knows the layout. -/

namespace Abcperf.Minbft

open Abcperf.Lib (Bytes leBytes FramedAt)
open List

variable {C : Carriers}

/-- `Hashbar` of the types that are parameters, and SHA-256 over the log of a `ViewChange`. -/
structure Hashbar (C : Carriers) where
  payload : C.Payload → Bytes
  attestation : C.Attestation → Bytes
  signature : C.Signature → Bytes
  hash : C.Hash → Bytes
  sha256 : Bytes → C.Hash

/-- Different values have different bytes, and the hash function has no collisions. -/
structure Hashbar.CollisionFree (H : Hashbar C) : Prop where
  payload : Function.Injective H.payload
  attestation : Function.Injective H.attestation
  signature : Function.Injective H.signature
  hash : Function.Injective H.hash
  sha256 : Function.Injective H.sha256

namespace Hashbar

variable (H : Hashbar C)

def recoveryRequest (request : RecoveryRequestPayload C) : Bytes :=
  leBytes 8 request.requestId ++ (leBytes 8 request.replicaId ++
    (H.attestation request.attestation ++ leBytes 16 request.nonce))

def wrapped : WrappedRequestPayload C → Bytes
  | .client requestId payload => 0 :: (leBytes 8 requestId ++ H.payload payload)
  | .internal request => 1 :: H.recoveryRequest request

def clientRequest (request : ClientRequest C) : Bytes :=
  leBytes 8 request.client ++ H.wrapped request.payload

def requestBatch (batch : List (ClientRequest C)) : Bytes :=
  batch.flatMap H.clientRequest

def prepareContent (content : PrepareContent C) : Bytes :=
  leBytes 8 content.origin ++ (leBytes 8 content.view ++ H.requestBatch content.requestBatch)

def prepare (message : Prepare C) : Bytes :=
  H.prepareContent message.data ++ H.signature message.signature

def commitContent (content : CommitContent C) : Bytes :=
  leBytes 8 content.origin ++ H.prepare content.prepare

def commit (message : Commit C) : Bytes :=
  H.commitContent message.data ++ H.signature message.signature

def viewPeerMessage : ViewPeerMessage C → Bytes
  | .prepare message => 0 :: H.prepare message
  | .commit message => 1 :: H.commit message

/-- The maps are hashed in the order of their keys. -/
def checkpointContent (content : CheckpointContent C) : Bytes :=
  leBytes 8 content.origin ++
    (content.lastExecutedClientReq.entries.flatMap
        (fun entry => leBytes 8 entry.1 ++ leBytes 8 entry.2) ++
    (leBytes 8 content.counterLatestPrep ++
    (content.usigAttestations.entries.flatMap
        (fun entry => leBytes 8 entry.1 ++ H.attestation entry.2) ++
    (leBytes 8 content.viewLatestPrep ++
    (content.recoveringReplicas.entries.flatMap
        (fun entry => leBytes 8 entry.1 ++ leBytes 16 entry.2) ++
    (H.hash content.stateHash ++ leBytes 8 content.totalAmountAcceptedBatches))))))

def checkpoint (message : Checkpoint C) : Bytes :=
  H.checkpointContent message.data ++ H.signature message.signature

def checkpointCertificate (certificate : CheckpointCertificate C) : Bytes :=
  H.checkpoint certificate.myCheckpoint ++ certificate.otherCheckpoints.flatMap H.checkpoint

/-- `variant` is the hash of the log, whether the message carries the log or not. -/
def viewChangeContent (origin nextView : Nat) (checkpointCert : Option (CheckpointCertificate C))
    (variant : Bytes) : Bytes :=
  leBytes 8 origin ++ (leBytes 8 nextView ++
    (checkpointCert.elim [] H.checkpointCertificate ++ variant))

mutual

def logMessage : LogMessage C → Bytes
  | .of (.view message) => 0 :: H.viewPeerMessage message
  | .of (.viewChange message) =>
    1 :: (H.viewChangeContent message.data.origin message.data.nextView
      message.data.checkpointCert (H.hash message.data.variant) ++ H.signature message.signature)
  | .of (.newView ⟨⟨origin, nextView, certificate⟩, signature⟩) =>
    2 :: ((leBytes 8 origin ++ (leBytes 8 nextView ++ 0 :: viewChanges certificate)) ++
      H.signature signature)
  | .of (.checkpoint message) => 3 :: H.checkpoint message

def messageLog : List (LogMessage C) → Bytes
  | [] => []
  | message :: rest => logMessage message ++ messageLog rest

def viewChanges : List (ViewChange C) → Bytes
  | [] => []
  | ⟨⟨origin, nextView, checkpointCert, log⟩, signature⟩ :: rest =>
    (H.viewChangeContent origin nextView checkpointCert (H.hash (H.sha256 (messageLog log))) ++
      H.signature signature) ++ viewChanges rest

end

def newViewContent (content : NewViewContent C (LogMessage C)) : Bytes :=
  leBytes 8 content.origin ++ (leBytes 8 content.nextView ++ 0 :: H.viewChanges content.certificate)

def hashContent : Content C → Bytes
  | .prepare content => H.prepareContent content
  | .commit content => H.commitContent content
  | .checkpoint content => H.checkpointContent content
  | .viewChange content =>
    H.viewChangeContent content.origin content.nextView content.checkpointCert
      (H.hash (H.sha256 (H.messageLog content.variant)))
  | .newView content => H.newViewContent content

end Hashbar

namespace Hashbar

variable (H : Hashbar C)

def requestLayout (request : ClientRequest C) : List Nat :=
  match request.payload with
  | .client _ payload => [0, (H.payload payload).length]
  | .internal request => [1, (H.attestation request.attestation).length]

def prepareContentLayout (content : PrepareContent C) : List Nat :=
  content.requestBatch.length :: content.requestBatch.flatMap H.requestLayout

def prepareLayout (message : Prepare C) : List Nat :=
  H.prepareContentLayout message.data ++ [(H.signature message.signature).length]

def commitLayout (message : Commit C) : List Nat :=
  H.prepareLayout message.data.prepare ++ [(H.signature message.signature).length]

def viewPeerLayout : ViewPeerMessage C → List Nat
  | .prepare message => 0 :: H.prepareLayout message
  | .commit message => 1 :: H.commitLayout message

def checkpointContentLayout (content : CheckpointContent C) : List Nat :=
  (content.lastExecutedClientReq.len :: content.lastExecutedClientReq.entries.flatMap fun _ =>
    []) ++ ((content.usigAttestations.len :: content.usigAttestations.entries.flatMap
        fun entry => [(H.attestation entry.2).length]) ++
      ((content.recoveringReplicas.len :: content.recoveringReplicas.entries.flatMap fun _ => []) ++
        [(H.hash content.stateHash).length]))

def checkpointLayout (message : Checkpoint C) : List Nat :=
  H.checkpointContentLayout message.data ++ [(H.signature message.signature).length]

def certificateLayout (certificate : CheckpointCertificate C) : List Nat :=
  H.checkpointLayout certificate.myCheckpoint ++
    (certificate.otherCheckpoints.length ::
      certificate.otherCheckpoints.flatMap H.checkpointLayout)

def optionalLayout (checkpointCert : Option (CheckpointCertificate C)) : List Nat :=
  checkpointCert.elim [0] fun certificate => 1 :: H.certificateLayout certificate

mutual

def logMessageLayout : LogMessage C → List Nat
  | .of (.view message) => 0 :: H.viewPeerLayout message
  | .of (.viewChange message) =>
    1 :: ((H.optionalLayout message.data.checkpointCert ++
      [(H.hash message.data.variant).length]) ++ [(H.signature message.signature).length])
  | .of (.newView ⟨⟨_, _, certificate⟩, signature⟩) =>
    2 :: ((certificate.length :: viewChangesLayout certificate) ++
      [(H.signature signature).length])
  | .of (.checkpoint message) => 3 :: H.checkpointLayout message

def messageLogLayout : List (LogMessage C) → List Nat
  | [] => []
  | message :: rest => logMessageLayout message ++ messageLogLayout rest

def viewChangesLayout : List (ViewChange C) → List Nat
  | [] => []
  | ⟨⟨_, _, checkpointCert, log⟩, signature⟩ :: rest =>
    ((H.optionalLayout checkpointCert ++
      ((H.hash (H.sha256 (H.messageLog log))).length :: log.length :: messageLogLayout log)) ++
      [(H.signature signature).length]) ++ viewChangesLayout rest

end

/-- The kind of a content, and the numbers and lengths of its parts that can be of any length. -/
def layout : Content C → List Nat
  | .prepare content => 0 :: H.prepareContentLayout content
  | .commit content => 1 :: H.prepareLayout content.prepare
  | .checkpoint content => 2 :: H.checkpointContentLayout content
  | .viewChange content =>
    3 :: (H.optionalLayout content.checkpointCert ++
      ((H.hash (H.sha256 (H.messageLog content.variant))).length ::
        content.variant.length :: H.messageLogLayout content.variant))
  | .newView content => 4 :: content.certificate.length :: H.viewChangesLayout content.certificate

end Hashbar

def RecoveryRequestPayload.Fits (request : RecoveryRequestPayload C) : Prop :=
  request.requestId < 256 ^ 8 ∧ request.replicaId < 256 ^ 8 ∧ request.nonce < 256 ^ 16

def WrappedRequestPayload.Fits : WrappedRequestPayload C → Prop
  | .client requestId _ => requestId < 256 ^ 8
  | .internal request => request.Fits

def ClientRequest.Fits (request : ClientRequest C) : Prop :=
  request.client < 256 ^ 8 ∧ request.payload.Fits

def PrepareContent.Fits (content : PrepareContent C) : Prop :=
  content.origin < 256 ^ 8 ∧ content.view < 256 ^ 8 ∧
    ∀ request ∈ content.requestBatch, request.Fits

def CommitContent.Fits (content : CommitContent C) : Prop :=
  content.origin < 256 ^ 8 ∧ content.prepare.data.Fits

def ViewPeerMessage.Fits : ViewPeerMessage C → Prop
  | .prepare message => message.data.Fits
  | .commit message => message.data.Fits

def CheckpointContent.Fits (content : CheckpointContent C) : Prop :=
  content.origin < 256 ^ 8 ∧
    (∀ entry ∈ content.lastExecutedClientReq.entries, entry.1 < 256 ^ 8 ∧ entry.2 < 256 ^ 8) ∧
    content.counterLatestPrep < 256 ^ 8 ∧
    (∀ entry ∈ content.usigAttestations.entries, entry.1 < 256 ^ 8) ∧
    content.viewLatestPrep < 256 ^ 8 ∧
    (∀ entry ∈ content.recoveringReplicas.entries, entry.1 < 256 ^ 8 ∧ entry.2 < 256 ^ 16) ∧
    content.totalAmountAcceptedBatches < 256 ^ 8

def CheckpointCertificate.Fits (certificate : CheckpointCertificate C) : Prop :=
  certificate.myCheckpoint.data.Fits ∧
    ∀ message ∈ certificate.otherCheckpoints, message.data.Fits

def ViewChangeContent.FitsBare {Variant : Type} (content : ViewChangeContent C Variant) : Prop :=
  content.origin < 256 ^ 8 ∧ content.nextView < 256 ^ 8 ∧
    ∀ certificate, content.checkpointCert = some certificate → certificate.Fits

mutual

def LogMessage.Fits : LogMessage C → Prop
  | .of (.view message) => message.Fits
  | .of (.viewChange message) => message.data.FitsBare
  | .of (.newView ⟨⟨origin, nextView, certificate⟩, _⟩) =>
    origin < 256 ^ 8 ∧ nextView < 256 ^ 8 ∧ viewChangesFit certificate
  | .of (.checkpoint message) => message.data.Fits

def logFits : List (LogMessage C) → Prop
  | [] => True
  | message :: rest => message.Fits ∧ logFits rest

def viewChangesFit : List (ViewChange C) → Prop
  | [] => True
  | ⟨⟨origin, nextView, checkpointCert, log⟩, _⟩ :: rest =>
    ((ViewChangeContent.mk origin nextView checkpointCert ()).FitsBare ∧ logFits log) ∧
      viewChangesFit rest

end

def Content.Fits : Content C → Prop
  | .prepare content => content.Fits
  | .commit content => content.Fits
  | .checkpoint content => content.Fits
  | .viewChange content => content.FitsBare ∧ logFits content.variant
  | .newView content =>
    content.origin < 256 ^ 8 ∧ content.nextView < 256 ^ 8 ∧ viewChangesFit content.certificate

section Framing

variable {H : Hashbar C} (free : H.CollisionFree)

include free

theorem recoveryRequest_framed (request : RecoveryRequestPayload C) :
    FramedAt RecoveryRequestPayload.Fits
      (fun request => [(H.attestation request.attestation).length]) H.recoveryRequest request := by
  have parts := (Lib.framedAt_leBytes 8 request.requestId).prod
    ((Lib.framedAt_leBytes 8 request.replicaId).prod
      ((Lib.framedAt_bytes free.attestation request.attestation).prod
        (Lib.framedAt_leBytes 16 request.nonce)))
  refine (parts.comap (fun request : RecoveryRequestPayload C =>
    (request.requestId, request.replicaId, request.attestation, request.nonce)) ?_).imp ?_
  · rintro ⟨_, _, _, _⟩ ⟨_, _, _, _⟩ same
    simp_all
  · rintro request ⟨isId, isReplica, isNonce⟩
    exact ⟨isId, isReplica, trivial, isNonce⟩

theorem clientRequest_framed (request : ClientRequest C) :
    FramedAt ClientRequest.Fits H.requestLayout H.clientRequest request := by
  rintro ⟨client', payload'⟩ ⟨fits, payloadFits⟩ ⟨fits', payloadFits'⟩ marks marks' rest rest'
    sameMarks same
  obtain ⟨client, payload⟩ := request
  simp only [Hashbar.clientRequest, append_assoc] at same
  obtain ⟨sameClient, sameLater⟩ := append_inj same (by simp)
  have clients := Lib.leBytes_inj fits fits' sameClient
  simp only at clients
  subst clients
  match payload, payload' with
  | .client requestId bytes, .client requestId' bytes' =>
    have parts := (Lib.framedAt_leBytes 8 requestId).prod (Lib.framedAt_bytes free.payload bytes)
    obtain ⟨samePayload, later⟩ := parts (requestId', bytes')
      ⟨payloadFits, trivial⟩ ⟨payloadFits', trivial⟩ marks marks' rest rest'
      (List.cons.inj sameMarks).2 (List.cons.inj sameLater).2
    cases samePayload
    exact ⟨rfl, later⟩
  | .internal request, .internal request' =>
    obtain ⟨sameRequest, later⟩ := recoveryRequest_framed free request request'
      payloadFits payloadFits' marks marks' rest rest' (List.cons.inj sameMarks).2
      (List.cons.inj sameLater).2
    cases sameRequest
    exact ⟨rfl, later⟩
  | .client _ _, .internal _ => cases (List.cons.inj sameMarks).1
  | .internal _, .client _ _ => cases (List.cons.inj sameMarks).1

theorem prepareContent_framed (content : PrepareContent C) :
    FramedAt PrepareContent.Fits H.prepareContentLayout H.prepareContent content := by
  have parts := (Lib.framedAt_leBytes 8 content.origin).prod
    ((Lib.framedAt_leBytes 8 content.view).prod
      (FramedAt.list fun request (_ : request ∈ content.requestBatch) =>
        clientRequest_framed free request))
  refine parts.comap (fun content : PrepareContent C =>
    (content.origin, content.view, content.requestBatch)) ?_
  rintro ⟨_, _, _⟩ ⟨_, _, _⟩ same
  simp_all

theorem signed_framed {Data : Type} {good : Data → Prop} {layout : Data → List Nat}
    {stream : Data → Bytes} (message : UsigSigned C Data)
    (framed : FramedAt good layout stream message.data) :
    FramedAt (fun message : UsigSigned C Data => good message.data)
      (fun message => layout message.data ++ [(H.signature message.signature).length])
      (fun message => stream message.data ++ H.signature message.signature) message := by
  have parts := framed.prod (Lib.framedAt_bytes free.signature message.signature)
  refine (parts.comap (fun message : UsigSigned C Data =>
    (message.data, message.signature)) ?_).imp fun _ isGood => ⟨isGood, trivial⟩
  rintro ⟨_, _⟩ ⟨_, _⟩ same
  simp_all

theorem prepare_framed (message : Prepare C) :
    FramedAt (fun message : Prepare C => message.data.Fits) H.prepareLayout H.prepare message :=
  signed_framed free message (prepareContent_framed free message.data)

theorem commitContent_framed (content : CommitContent C) :
    FramedAt CommitContent.Fits (fun content => H.prepareLayout content.prepare) H.commitContent
      content := by
  have parts := (Lib.framedAt_leBytes 8 content.origin).prod (prepare_framed free content.prepare)
  refine parts.comap (fun content : CommitContent C => (content.origin, content.prepare)) ?_
  rintro ⟨_, _⟩ ⟨_, _⟩ same
  simp_all

theorem viewPeerMessage_framed (message : ViewPeerMessage C) :
    FramedAt ViewPeerMessage.Fits H.viewPeerLayout H.viewPeerMessage message := by
  cases message with
  | prepare message =>
    exact (prepare_framed free message).tagged ViewPeerMessage.prepare 0 [0] (fun _ => id)
      (fun _ => rfl) (fun _ => rfl) (by rintro (_ | _) <;> simp [Hashbar.viewPeerLayout])
  | commit message =>
    exact (signed_framed free message (commitContent_framed free message.data)).tagged
      ViewPeerMessage.commit 1 [1] (fun _ => id) (fun _ => rfl) (fun _ => rfl)
      (by rintro (_ | _) <;> simp [Hashbar.viewPeerLayout])

theorem checkpointContent_framed (content : CheckpointContent C) :
    FramedAt CheckpointContent.Fits H.checkpointContentLayout H.checkpointContent content := by
  have numbers (width : Nat) (entry : Nat × Nat) :=
    (Lib.framedAt_leBytes 8 entry.1).prod (Lib.framedAt_leBytes width entry.2)
  have parts := (Lib.framedAt_leBytes 8 content.origin).prod
    ((FramedAt.list fun entry (_ : entry ∈ content.lastExecutedClientReq.entries) =>
      numbers 8 entry).prod
    ((Lib.framedAt_leBytes 8 content.counterLatestPrep).prod
    ((FramedAt.list fun entry (_ : entry ∈ content.usigAttestations.entries) =>
      (Lib.framedAt_leBytes 8 entry.1).prod (Lib.framedAt_bytes free.attestation entry.2)).prod
    ((Lib.framedAt_leBytes 8 content.viewLatestPrep).prod
    ((FramedAt.list fun entry (_ : entry ∈ content.recoveringReplicas.entries) =>
      numbers 16 entry).prod
    ((Lib.framedAt_bytes free.hash content.stateHash).prod
      (Lib.framedAt_leBytes 8 content.totalAmountAcceptedBatches)))))))
  refine (parts.comap (fun content : CheckpointContent C =>
    (content.origin, content.lastExecutedClientReq.entries, content.counterLatestPrep,
      content.usigAttestations.entries, content.viewLatestPrep, content.recoveringReplicas.entries,
      content.stateHash, content.totalAmountAcceptedBatches)) ?_).imp ?_
  · rintro ⟨_, _, _, _, _, ⟨_, _⟩, ⟨_, _⟩, ⟨_, _⟩⟩ ⟨_, _, _, _, _, ⟨_, _⟩, ⟨_, _⟩, ⟨_, _⟩⟩ same
    simp_all
  rintro content ⟨origin, executed, counter, attestations, view, recovering, batches⟩
  exact ⟨origin, executed, counter, fun entry member => ⟨attestations entry member, trivial⟩,
    view, recovering, trivial, batches⟩

theorem checkpointCertificate_framed (certificate : CheckpointCertificate C) :
    FramedAt CheckpointCertificate.Fits H.certificateLayout H.checkpointCertificate
      certificate := by
  have checkpoint (message : Checkpoint C) :=
    signed_framed free message (checkpointContent_framed free message.data)
  have parts := (checkpoint certificate.myCheckpoint).prod
    (FramedAt.list fun message (_ : message ∈ certificate.otherCheckpoints) => checkpoint message)
  refine parts.comap (fun certificate : CheckpointCertificate C =>
    (certificate.myCheckpoint, certificate.otherCheckpoints)) ?_
  rintro ⟨_, _⟩ ⟨_, _⟩ same
  simp_all

/-- A `ViewChange`, with or without its log, as long as its variant can be read back. -/
theorem viewChangeContent_framed {Variant : Type} {good : Variant → Prop}
    {layout : Variant → List Nat} {stream : Variant → Bytes} {content : ViewChangeContent C Variant}
    (framed : FramedAt good layout stream content.variant) :
    FramedAt (fun content : ViewChangeContent C Variant => content.FitsBare ∧ good content.variant)
      (fun content => H.optionalLayout content.checkpointCert ++ layout content.variant)
      (fun content => H.viewChangeContent content.origin content.nextView content.checkpointCert
        (stream content.variant)) content := by
  have parts := (Lib.framedAt_leBytes 8 content.origin).prod
    ((Lib.framedAt_leBytes 8 content.nextView).prod
    ((FramedAt.option fun certificate (_ : content.checkpointCert = some certificate) =>
      checkpointCertificate_framed free certificate).prod framed))
  refine (parts.comap (fun content : ViewChangeContent C Variant =>
    (content.origin, content.nextView, content.checkpointCert, content.variant)) ?_).imp ?_
  · rintro ⟨_, _, _, _⟩ ⟨_, _, _, _⟩ same
    simp_all
  · rintro content ⟨⟨origin, nextView, certificate⟩, isGood⟩
    exact ⟨origin, nextView, certificate, isGood⟩

/-! Logs and certificates contain each other, so the three kinds of lists and entries are read back
together, by recursion on the left value. -/

omit free in
theorem messageLog_eq : H.messageLog = List.flatMap H.logMessage := by
  funext log
  induction log with
  | nil => rfl
  | cons message rest ih => rw [Hashbar.messageLog, ih, flatMap_cons]

omit free in
theorem messageLogLayout_eq : H.messageLogLayout = List.flatMap H.logMessageLayout := by
  funext log
  induction log with
  | nil => rfl
  | cons message rest ih => rw [Hashbar.messageLogLayout, ih, flatMap_cons]

omit free in
theorem logFits_iff (log : List (LogMessage C)) : logFits log ↔ ∀ message ∈ log, message.Fits := by
  induction log with
  | nil => simp [logFits]
  | cons message rest ih => simp [logFits, ih]

def Hashbar.viewChange (H : Hashbar C) (message : ViewChange C) : Bytes :=
  H.viewChangeContent message.data.origin message.data.nextView message.data.checkpointCert
    (H.hash (H.sha256 (H.messageLog message.data.variant))) ++ H.signature message.signature

def Hashbar.viewChangeLayout (H : Hashbar C) (message : ViewChange C) : List Nat :=
  (H.optionalLayout message.data.checkpointCert ++
    ((H.hash (H.sha256 (H.messageLog message.data.variant))).length ::
      message.data.variant.length :: H.messageLogLayout message.data.variant)) ++
    [(H.signature message.signature).length]

def ViewChangeContent.Fits (content : ViewChangeContent C (List (LogMessage C))) : Prop :=
  content.FitsBare ∧ logFits content.variant

omit free in
theorem viewChanges_eq : H.viewChanges = List.flatMap H.viewChange := by
  funext certificate
  induction certificate with
  | nil => rfl
  | cons message rest ih => rw [Hashbar.viewChanges, ih, flatMap_cons]; rfl

omit free in
theorem viewChangesLayout_eq : H.viewChangesLayout = List.flatMap H.viewChangeLayout := by
  funext certificate
  induction certificate with
  | nil => rfl
  | cons message rest ih => rw [Hashbar.viewChangesLayout, ih, flatMap_cons]; rfl

omit free in
theorem viewChangesFit_iff (certificate : List (ViewChange C)) :
    viewChangesFit certificate ↔ ∀ message ∈ certificate, message.data.Fits := by
  induction certificate with
  | nil => simp [viewChangesFit]
  | cons message rest ih =>
    rw [viewChangesFit, ih, forall_mem_cons]
    rfl

theorem log_framed {log : List (LogMessage C)}
    (each : ∀ message ∈ log, FramedAt LogMessage.Fits H.logMessageLayout H.logMessage message) :
    FramedAt logFits (fun log => (H.hash (H.sha256 (H.messageLog log))).length ::
        log.length :: H.messageLogLayout log)
      (fun log => H.hash (H.sha256 (H.messageLog log))) log := by
  have listed := (FramedAt.list each).imp fun log => (logFits_iff log).mp
  have asLog : FramedAt logFits (fun log => log.length :: H.messageLogLayout log) H.messageLog
      log := by
    rw [messageLog_eq, messageLogLayout_eq]
    exact listed
  exact asLog.digest (free.hash.comp free.sha256)

theorem certificate_framed {certificate : List (ViewChange C)}
    (each : ∀ message ∈ certificate, ∀ entry ∈ message.data.variant,
      FramedAt LogMessage.Fits H.logMessageLayout H.logMessage entry) :
    FramedAt viewChangesFit (fun certificate => certificate.length ::
      H.viewChangesLayout certificate) H.viewChanges certificate := by
  have message (message : ViewChange C) (member : message ∈ certificate) :
      FramedAt (fun message : ViewChange C => message.data.Fits) H.viewChangeLayout H.viewChange
        message :=
    signed_framed free message
      (viewChangeContent_framed free (log_framed free (each message member)))
  have listed := (FramedAt.list message).imp fun certificate => (viewChangesFit_iff certificate).mp
  rw [viewChanges_eq, viewChangesLayout_eq]
  exact listed

theorem newViewContent_framed (content : NewViewContent C (LogMessage C))
    (each : ∀ message ∈ content.certificate, ∀ entry ∈ message.data.variant,
      FramedAt LogMessage.Fits H.logMessageLayout H.logMessage entry) :
    FramedAt (fun content : NewViewContent C (LogMessage C) => content.origin < 256 ^ 8 ∧
        content.nextView < 256 ^ 8 ∧ viewChangesFit content.certificate)
      (fun content => content.certificate.length :: H.viewChangesLayout content.certificate)
      H.newViewContent content := by
  -- the mark in front of the certificate is always the same
  have marked : FramedAt viewChangesFit (fun certificate => certificate.length ::
      H.viewChangesLayout certificate) (fun certificate => 0 :: H.viewChanges certificate)
      content.certificate := by
    intro other fits otherFits marks marks' rest rest' sameMarks same
    exact certificate_framed free each other fits otherFits marks marks' rest rest' sameMarks
      (List.cons.inj same).2
  have parts := (Lib.framedAt_leBytes 8 content.origin).prod
    ((Lib.framedAt_leBytes 8 content.nextView).prod marked)
  refine parts.comap (fun content : NewViewContent C (LogMessage C) =>
    (content.origin, content.nextView, content.certificate)) ?_
  rintro ⟨_, _, _⟩ ⟨_, _, _⟩ same
  simp_all

end Framing

mutual

variable {H : Hashbar C}

theorem logMessage_framed (free : H.CollisionFree) : ∀ message : LogMessage C,
    FramedAt LogMessage.Fits H.logMessageLayout H.logMessage message
  | .of (.view message) =>
    (viewPeerMessage_framed free message).tagged (LogMessage.of ∘ UsigMessageV.view) 0 [0]
      (fun _ => id) (fun _ => rfl) (fun _ => rfl)
      (by rintro ⟨_ | _ | _ | _⟩ <;> simp [Hashbar.logMessageLayout])
  | .of (.viewChange message) =>
    (signed_framed free message (viewChangeContent_framed free
      (Lib.framedAt_bytes free.hash message.data.variant))).tagged
        (LogMessage.of ∘ UsigMessageV.viewChange) 1 [1]
      (fun _ fits => ⟨fits, trivial⟩) (fun _ => rfl) (fun _ => rfl)
      (by rintro ⟨_ | _ | _ | _⟩ <;> simp [Hashbar.logMessageLayout])
  | .of (.newView ⟨⟨origin, nextView, certificate⟩, signature⟩) =>
    (signed_framed free ⟨⟨origin, nextView, certificate⟩, signature⟩
      (newViewContent_framed free _ (certificate_entries_framed free certificate))).tagged
      (LogMessage.of ∘ UsigMessageV.newView) 2 [2] (fun _ => id) (fun _ => rfl) (fun _ => rfl)
      (by rintro ⟨_ | _ | _ | _⟩ <;> simp [Hashbar.logMessageLayout])
  | .of (.checkpoint message) =>
    (signed_framed free message (checkpointContent_framed free message.data)).tagged
      (LogMessage.of ∘ UsigMessageV.checkpoint) 3 [3] (fun _ => id) (fun _ => rfl) (fun _ => rfl)
      (by rintro ⟨_ | _ | _ | _⟩ <;> simp [Hashbar.logMessageLayout])

theorem log_entries_framed (free : H.CollisionFree) : ∀ log : List (LogMessage C), ∀ entry ∈ log,
    FramedAt LogMessage.Fits H.logMessageLayout H.logMessage entry
  | [], _, member => absurd member not_mem_nil
  | message :: rest, entry, member => by
      rcases mem_cons.mp member with same | later
      · exact same ▸ logMessage_framed free message
      · exact log_entries_framed free rest entry later

theorem certificate_entries_framed (free : H.CollisionFree) : ∀ certificate : List (ViewChange C),
    ∀ message ∈ certificate, ∀ entry ∈ message.data.variant,
      FramedAt LogMessage.Fits H.logMessageLayout H.logMessage entry
  | [], _, member => absurd member not_mem_nil
  | ⟨⟨_, _, _, log⟩, _⟩ :: rest, message, member => by
      rcases mem_cons.mp member with same | later
      · rw [same]
        exact log_entries_framed free log
      · exact certificate_entries_framed free rest message later

end

theorem content_framed {H : Hashbar C} (free : H.CollisionFree) (content : Content C) :
    FramedAt Content.Fits H.layout H.hashContent content := by
  cases content with
  | prepare content =>
    exact (prepareContent_framed free content).tagged Content.prepare 0 [] (fun _ => id)
      (fun _ => rfl) (fun _ => rfl) (by rintro (_ | _ | _ | _ | _) <;> simp [Hashbar.layout])
  | commit content =>
    exact (commitContent_framed free content).tagged Content.commit 1 [] (fun _ => id)
      (fun _ => rfl) (fun _ => rfl) (by rintro (_ | _ | _ | _ | _) <;> simp [Hashbar.layout])
  | checkpoint content =>
    exact (checkpointContent_framed free content).tagged Content.checkpoint 2 [] (fun _ => id)
      (fun _ => rfl) (fun _ => rfl) (by rintro (_ | _ | _ | _ | _) <;> simp [Hashbar.layout])
  | viewChange content =>
    exact (viewChangeContent_framed free (log_framed free
      (log_entries_framed free content.variant))).tagged Content.viewChange 3 [] (fun _ => id)
      (fun _ => rfl) (fun _ => rfl) (by rintro (_ | _ | _ | _ | _) <;> simp [Hashbar.layout])
  | newView content =>
    exact (newViewContent_framed free content (certificate_entries_framed free
      content.certificate)).tagged Content.newView 4 [] (fun _ => id) (fun _ => rfl) (fun _ => rfl)
      (by rintro (_ | _ | _ | _ | _) <;> simp [Hashbar.layout])

/-- Two contents with the same bytes are the same exactly if they are laid out alike. -/
theorem hashContent_unambiguous_iff {H : Hashbar C} (free : H.CollisionFree)
    {left right : Content C} (isLeft : left.Fits) (isRight : right.Fits) :
    (H.hashContent left = H.hashContent right → left = right) ↔
      (H.hashContent left = H.hashContent right → H.layout left = H.layout right) := by
  constructor
  · intro unambiguous same
    rw [unambiguous same]
  · intro alike same
    exact (content_framed free left).inj isLeft isRight (alike same) same

namespace Plain

abbrev byteCarriers : Carriers where
  Payload := Bytes
  Attestation := Bytes
  Signature := Bytes
  Hash := Bytes
  attestationEq := inferInstance
  hashEq := inferInstance
  counter signature := Lib.fromLeBytes (signature.take 8)

def byteHashbar : Hashbar byteCarriers := ⟨id, id, id, id, id⟩

theorem byteHashbar_collisionFree : byteHashbar.CollisionFree where
  payload := Function.injective_id
  attestation := Function.injective_id
  signature := Function.injective_id
  hash := Function.injective_id
  sha256 := Function.injective_id

def proposal (batch : List (ClientRequest byteCarriers)) : Content byteCarriers :=
  .prepare ⟨0, 0, batch⟩

theorem proposal_fits {batch : List (ClientRequest byteCarriers)}
    (fits : ∀ request ∈ batch, request.Fits) : (proposal batch).Fits :=
  ⟨(by decide : 0 < 256 ^ 8), (by decide : 0 < 256 ^ 8), fits⟩

def absorbed : Bytes := leBytes 8 5 ++ 0 :: leBytes 8 9

/-- The payload of one request looks like a second request. The bytes agree, and neither the
contents nor their layouts do. -/
theorem hashContent_unambiguous_absorbed : ∃ left right : Content byteCarriers,
    byteHashbar.hashContent left = byteHashbar.hashContent right ∧
      byteHashbar.layout left ≠ byteHashbar.layout right ∧
      ¬ (byteHashbar.hashContent left = byteHashbar.hashContent right → left = right) := by
  refine ⟨proposal [⟨3, .client 7 []⟩, ⟨5, .client 9 []⟩], proposal [⟨3, .client 7 absorbed⟩],
    by decide, by decide, ?_⟩
  rw [hashContent_unambiguous_iff byteHashbar_collisionFree
    (proposal_fits (by simp [ClientRequest.Fits, WrappedRequestPayload.Fits]))
    (proposal_fits (by simp [ClientRequest.Fits, WrappedRequestPayload.Fits]))]
  decide

/-- Two batches of requests have the same bytes, and so have a `Prepare` and a `Checkpoint`. -/
theorem hashContent_ambiguous :
    (∃ left right : Content byteCarriers, left.Fits ∧ right.Fits ∧
      byteHashbar.hashContent left = byteHashbar.hashContent right ∧
      left = proposal [⟨3, .client 7 []⟩, ⟨5, .client 9 []⟩] ∧
      right = proposal [⟨3, .client 7 absorbed⟩]) ∧
    ∃ (left right : Content byteCarriers) (batch : List (ClientRequest byteCarriers))
      (content : CheckpointContent byteCarriers), left.Fits ∧ right.Fits ∧
      byteHashbar.hashContent left = byteHashbar.hashContent right ∧
      left = proposal batch ∧ right = .checkpoint content := by
  refine ⟨⟨_, _, ?_, ?_, ?_, rfl, rfl⟩, _, _, [⟨3, .client 7 (List.replicate 31 0)⟩],
    ⟨0, 0, 3, 0 :: leBytes 8 7 ++ List.replicate 23 0, 0, IdMap.empty, IdMap.empty, IdMap.empty⟩,
    ?_, ?_, ?_, rfl, rfl⟩
  · exact proposal_fits (by simp [ClientRequest.Fits, WrappedRequestPayload.Fits])
  · exact proposal_fits (by simp [ClientRequest.Fits, WrappedRequestPayload.Fits])
  · decide
  · exact proposal_fits (by simp [ClientRequest.Fits, WrappedRequestPayload.Fits])
  · simp [Content.Fits, CheckpointContent.Fits, IdMap.empty]
  · decide

end Plain

end Abcperf.Minbft
