/-
An ideal authenticated cipher: an envelope holds its message, the key and the associated data it was sealed under, and a
nonce that tells two envelopes of one message apart. It opens with that key and that data and with no other.
-/
import Mathlib.Tactic

namespace Envelope

structure Sealed (Key Aad Msg : Type*) where
  key : Key
  aad : Aad
  msg : Msg
  nonce : ℕ
  deriving DecidableEq

variable {Key Aad Msg : Type*}

def sealWith (key : Key) (aad : Aad) (msg : Msg) (nonce : ℕ) : Sealed Key Aad Msg := ⟨key, aad, msg, nonce⟩

variable [DecidableEq Key] [DecidableEq Aad]

def openWith (key : Key) (aad : Aad) (s : Sealed Key Aad Msg) : Option Msg :=
  if s.key = key ∧ s.aad = aad then some s.msg else none

@[simp] theorem openWith_sealWith (key : Key) (aad : Aad) (msg : Msg) (nonce : ℕ) :
    openWith key aad (sealWith key aad msg nonce) = some msg := if_pos ⟨rfl, rfl⟩

end Envelope
