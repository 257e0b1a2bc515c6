/-
  PKCE — a verifier that is shown later for a challenge that is sent first
  (`packages/security/src/oauth/pkce.ts`).

  `s256` stands for the digest of the platform, `base64url(sha256(verifier))`.
-/
import Mathlib.Data.List.Basic
import Mathlib.Data.Nat.Bitwise

namespace Pkce

variable (s256 : String → String)

/-- `generateCodeChallenge` -/
def generateCodeChallenge (verifier method : String) : String :=
  if method = "plain" then verifier else s256 verifier

/-- The loop of `timingSafeEqualStr`. -/
def mismatch : List Char → List Char → ℕ
  | a :: as, b :: bs => (a.toNat ^^^ b.toNat) ||| mismatch as bs
  | _, _ => 0

/-- `timingSafeEqualStr` -/
def timingSafeEqualStr (a b : String) : Bool :=
  if a.length ≠ b.length then false else mismatch a.toList b.toList = 0

/-- `verifyCodeChallenge` -/
def verifyCodeChallenge (verifier challenge method : String) : Bool :=
  if verifier = "" ∨ challenge = "" then false
  else timingSafeEqualStr (generateCodeChallenge s256 verifier method) challenge

end Pkce
