import Javelin.Bytes
import Javelin.Reviews

/-! # Access tokens

A token is three segments with a dot between: a header, the claims and a signature over both.  `Issuer.issue`
writes one and `verify` checks one against the keys it is given and the time.  Base64, JSON and Ed25519 are
parameters (`Jws`).

Times are Unix seconds in 64 bits, with the arithmetic of an optimised build: a sum wraps around. -/

namespace Javelin.Identity

open KeyedList Bytes Collaboration

/-- Longest accepted lifetime, from `iat` to `exp`. -/
def MAX_LIFETIME : UInt64 := 3600
/-- Largest token accepted. -/
def MAX_TOKEN_BYTES : ℕ := 4096
/-- How far `iat` may lie ahead of the verifier's clock, in seconds. -/
def CLOCK_SKEW : UInt64 := 60
def ALG : Str := text "EdDSA"

/-- A capability a token can carry. -/
inductive Scope where
  | read
  | layerWrite
  | publish
  | reviewWrite
  | reviewApprove
  | repoCreate
  | «import»
  | checkReport
deriving DecidableEq

/-- The signed payload. -/
structure Claims where
  sub : Str
  dev : Str
  repo : Str
  scopes : List Scope
  layer : Option Str
  checks : List Str
  iat : UInt64
  exp : UInt64
  jti : Str
deriving DecidableEq

structure Header where
  alg : Str
  kid : Str
deriving DecidableEq

inductive TokenError where
  | malformed (reason : String)
  | unknownKey
  | badSignature
  | expired
  | notYetValid
  | lifetimeTooLong
deriving DecidableEq

def TokenError.reason : TokenError → String
  | .malformed reason => reason
  | .unknownKey => "token key ID is not trusted"
  | .badSignature => "token signature is invalid"
  | .expired => "token has expired"
  | .notYetValid => "token is not valid yet"
  | .lifetimeTooLong => "token lifetime exceeds one hour"

/-- What tokens use of other crates.  A signing key is its 32-byte seed. -/
structure Jws (Key : Type) where
  encode64 : Str → Str
  decode64 : Str → Option Str
  writeHeader : Header → Str
  readHeader : Str → Option Header
  writeClaims : Claims → Str
  readClaims : Str → Option Claims
  verifyingKey : Str → Key
  sign : Str → Str → Str
  /-- The bytes are a signature, and `verify_strict` accepts it. -/
  verifyStrict : Key → Str → Str → Bool

variable {Key : Type}

/-- The verification keys that are trusted, by key ID. -/
abbrev KeySet (Key : Type) := SortedMap Str Key

def KeySet.trust (keys : KeySet Key) (kid : Str) (key : Key) : Except TokenError (KeySet Key) :=
  if OpaqueId kid then .ok (SortedMap.insert keys kid key) else .error (.malformed "key ID is not an opaque ID")

/-- Signs tokens with one key. -/
structure Issuer where
  kid : Str
  key : Str

def Issuer.new (kid key : Str) : Except TokenError Issuer :=
  if OpaqueId kid then .ok ⟨kid, key⟩ else .error (.malformed "key ID is not an opaque ID")

/-- The byte `.`. -/
def dot : UInt8 := 46

def Issuer.issue (jws : Jws Key) (issuer : Issuer) (claims : Claims) : Str :=
  let header := jws.encode64 (jws.writeHeader ⟨ALG, issuer.kid⟩)
  let body := jws.encode64 (jws.writeClaims claims)
  let signingInput := header ++ dot :: body
  signingInput ++ dot :: jws.encode64 (jws.sign issuer.key signingInput)

/-- The checks on the claims of a token whose signature is good. -/
def Claims.validate (claims : Claims) (now : UInt64) : Except TokenError Claims :=
  if ¬ OpaqueId claims.sub ∨ ¬ OpaqueId claims.dev ∨ ¬ OpaqueId claims.jti then
    .error (.malformed "token identifiers are not opaque IDs")
  else if claims.exp ≤ claims.iat then .error (.malformed "token lifetime is empty")
  else if MAX_LIFETIME < claims.exp - claims.iat then .error .lifetimeTooLong
  else if claims.exp ≤ now then .error .expired
  else if now + CLOCK_SKEW < claims.iat then .error .notYetValid
  else .ok claims

/-- Checks a token at a time against the trusted keys. -/
def verify (jws : Jws Key) (keys : KeySet Key) (token : Str) (now : UInt64) : Except TokenError Claims :=
  if MAX_TOKEN_BYTES < token.length then .error (.malformed "token is too large")
  else
    match token.splitOn dot with
    | [head, body, signature] => do
        let header ← ((jws.decode64 head).bind jws.readHeader).elim
          (.error (.malformed "token header is not valid")) .ok
        if header.alg ≠ ALG then throw (.malformed "token algorithm is not EdDSA")
        else do
          let key ← (SortedMap.get? keys header.kid).elim (.error .unknownKey) .ok
          let bytes ← (jws.decode64 signature).elim (.error .badSignature) .ok
          if jws.verifyStrict key (head ++ dot :: body) bytes = false then throw .badSignature
          else do
            let claims ← ((jws.decode64 body).bind jws.readClaims).elim
              (.error (.malformed "token claims are not valid")) .ok
            claims.validate now
    | _ => .error (.malformed "token is not three segments")

end Javelin.Identity
