import Abcperf.Damysus.Block

/-! Messages between Damysus replicas and what one call of a replica hands to its environment. The
times at which decisions were made are left out: nothing reads them. -/

namespace Abcperf.Damysus

variable {P : Platform}

inductive Message (P : Platform)
  | newBlock (block : Block P) (prepare : SignedCommitment P)
  | commitment (commitment : SignedCommitment P)
  | handshake (key : P.PublicKey)
  | blockRequest (view : Nat)
  | requestedBlock (block : Block P)

def Message.transmitted : Message P → Message P
  | .newBlock block prepare => .newBlock block.transmitted prepare
  | .requestedBlock block => .requestedBlock block.transmitted
  | message => message

structure PeerMessage (P : Platform) where
  sender : Nat
  message : Message P

inductive Timeout
  | set (duration : Nat)
  | none
  | cancel
  deriving DecidableEq

structure Output (P : Platform) where
  broadcasts : List (PeerMessage P)
  unicasts : List (Nat × PeerMessage P)
  viewTimeout : Timeout
  blockTimeout : Timeout
  delivery : List P.Tx
  ready : Bool
  view : Nat

namespace Output

def empty : Output P := ⟨[], [], .none, .none, [], false, 0⟩

/-- How `reflect` joins the output of a reflected message to what came before it: the timeouts of
the later call win, also when they are `None`. -/
def join (first second : Output P) : Output P where
  broadcasts := first.broadcasts ++ second.broadcasts
  unicasts := first.unicasts ++ second.unicasts
  viewTimeout := second.viewTimeout
  blockTimeout := second.blockTimeout
  delivery := first.delivery ++ second.delivery
  ready := first.ready || second.ready
  view := max first.view second.view

theorem join_assoc (first second third : Output P) :
    (first.join second).join third = first.join (second.join third) := by
  simp [join, List.append_assoc, Bool.or_assoc, Nat.max_assoc]

end Output

/-- `output.view` is filled in when the output is taken. -/
structure UnreflectedOutput (P : Platform) where
  me : Nat
  reflectionMessages : List (PeerMessage P)
  output : Output P

namespace UnreflectedOutput

variable (pending : UnreflectedOutput P)

def new (me : Nat) : UnreflectedOutput P := ⟨me, [], Output.empty⟩

/-- A broadcast does not reach the replica itself. -/
def broadcast (message : PeerMessage P) : UnreflectedOutput P :=
  { pending with
    output := { pending.output with broadcasts := pending.output.broadcasts ++ [message] } }

def unicast (receiver : Nat) (message : PeerMessage P) : UnreflectedOutput P :=
  if receiver = pending.me then
    { pending with reflectionMessages := pending.reflectionMessages ++ [message] }
  else
    { pending with
      output := { pending.output with
        unicasts := pending.output.unicasts ++ [(receiver, message)] } }

def appendDelivery (tx : P.Tx) : UnreflectedOutput P :=
  { pending with output := { pending.output with delivery := pending.output.delivery ++ [tx] } }

def setViewTimeout (timeout : Nat) : UnreflectedOutput P :=
  { pending with output := { pending.output with viewTimeout := .set timeout } }

def setBlockTimeout (timeout : Nat) : UnreflectedOutput P :=
  { pending with output := { pending.output with blockTimeout := .set timeout } }

def cancelBlockTimeout : UnreflectedOutput P :=
  { pending with output := { pending.output with blockTimeout := .cancel } }

def setReady : UnreflectedOutput P :=
  { pending with output := { pending.output with ready := true } }

end UnreflectedOutput

end Abcperf.Damysus
