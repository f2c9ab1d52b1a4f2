import PqcHsm.Library.ByteCodec

/-!
# Authenticated encryption with a key stream and a tag

A key stream that undoes itself encrypts; the tag over associated data and ciphertext is checked by
computing it again. So a ciphertext with its tag opens to a plaintext exactly when the plaintext
encrypts to them.
-/

open ByteCodec

structure StreamAead (Key Nonce Tag : Type) where
  crypt : Key → Nonce → Bytes → Bytes
  tag : Key → Nonce → Bytes → Bytes → Tag
  crypt_crypt : ∀ k n p, crypt k n (crypt k n p) = p
  length_crypt : ∀ k n p, (crypt k n p).length = p.length

namespace StreamAead

variable {Key Nonce Tag : Type} (A : StreamAead Key Nonce Tag)

def encrypt (k : Key) (n : Nonce) (aad p : Bytes) : Bytes × Tag :=
  (A.crypt k n p, A.tag k n aad (A.crypt k n p))

def decrypt [DecidableEq Tag] (k : Key) (n : Nonce) (aad c : Bytes) (t : Tag) : Option Bytes :=
  if A.tag k n aad c = t then some (A.crypt k n c) else none

variable {A} {k : Key} {n : Nonce} {aad c p : Bytes} {t : Tag}

theorem crypt_eq_iff : A.crypt k n c = p ↔ A.crypt k n p = c := by
  constructor
  · rintro rfl
    exact A.crypt_crypt k n c
  · rintro rfl
    exact A.crypt_crypt k n p

theorem decrypt_eq_some_iff [DecidableEq Tag] :
    A.decrypt k n aad c t = some p ↔ A.encrypt k n aad p = (c, t) := by
  unfold decrypt encrypt
  constructor
  · intro h
    split at h
    · rename_i hTag
      cases h
      rw [A.crypt_crypt, hTag]
    · cases h
  · intro h
    obtain ⟨rfl, rfl⟩ := Prod.mk.inj h
    rw [if_pos rfl, A.crypt_crypt]

theorem length_of_decrypt [DecidableEq Tag] (h : A.decrypt k n aad c t = some p) :
    p.length = c.length := by
  obtain ⟨rfl, -⟩ := Prod.mk.inj (decrypt_eq_some_iff.mp h)
  exact (A.length_crypt k n p).symm

end StreamAead
