import Abcperf.Minbft.Calls
import Abcperf.Minbft.Encoding

/-! A platform on which replicas can be executed. A hash is the bytes that it is made of, and a
signature names its key and its hash, so that it holds only if it was made. -/

namespace Abcperf.Minbft

open Lib Lib.Outcome

namespace Plain

structure Signature where
  key : Nat
  counter : Nat
  hash : Bytes
  deriving DecidableEq

def Signature.holds (signature : Signature) (attestation : Nat) (hash : Bytes) : Bool :=
  signature.key = attestation && signature.hash = hash

def Signature.bytes (signature : Signature) : Bytes :=
  leBytes 8 signature.key ++ leBytes 8 signature.counter ++ signature.hash

def executed (hash : Bytes) (client requestId payload : Nat) : Bytes :=
  hash ++ leBytes 8 client ++ leBytes 8 requestId ++ leBytes 8 payload

def carriers : Carriers where
  Payload := Nat
  Attestation := Nat
  Signature := Signature
  Hash := Bytes
  attestationEq := inferInstanceAs (DecidableEq Nat)
  hashEq := inferInstanceAs (DecidableEq Bytes)
  counter := Signature.counter

def hashbar : Hashbar carriers := ⟨leBytes 8, leBytes 8, Signature.bytes, id, id⟩

def platform : Platform where
  toCarriers := carriers
  Key := Nat
  sign key counter hash := .ok (⟨key, counter, hash⟩ : Signature)
  attest key := .ok (key : Nat)
  verify attestation hash signature := Signature.holds signature attestation hash
  addRemoteParty _ _ := true
  contentHash := hashbar.hashContent
  logHash := hashbar.messageLog
  emptyStorage := ([] : Bytes)
  executeRequest := executed

def env : Env where
  fuel := 100
  overflowChecks := true
  order _ keys := keys
  ordered _ keys := .refl keys
  pick _ := 0
  clock _ := 0
  pertupation _ := false
  adapt _ := (1, none)

end Plain

end Abcperf.Minbft
