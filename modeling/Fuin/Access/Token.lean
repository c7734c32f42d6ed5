import Fuin.Access.Scope
import Fuin.Vault.Observed
import Mathlib.Data.Rat.Floor

/-! # Tokens

A token is `fu1.`, the claims as JSON, a dot, and the MAC of the JSON under the token key, both parts
in base64. Base64 and JSON are libraries; what is used of them is that they read back what they have
printed for the claims at hand (`ReadsBack`). A token that is accepted, under whatever key, then has
the claims it was printed for (`accessVerifyToken_runs`). -/

namespace Fuin.Access.Token

open Fuin.Utils Fuin.Crypto Fuin.Lib.Program Fuin.Store.Database Fuin.Access.Scope
open Fuin.Vault.Operations Fuin.Vault.Observed

/-- An item of a JSON object. -/
inductive JsonItem where
  | number (valuedouble : ℚ)
  | string (valuestring : CString)
  | other
  deriving DecidableEq

/-- The items of a JSON object with their names; none for anything that is not an object. -/
abbrev JsonObject := List (Bytes × JsonItem)

/-- What `access.c` uses of libsodium's base64 and of cJSON. -/
structure TokenLibrary where
  /-- `sodium_bin2base64`. -/
  base64 : Bytes → Bytes
  /-- `sodium_base642bin`. -/
  unbase64 : Bytes → Option Bytes
  /-- `cJSON_PrintUnformatted`. -/
  printJson : JsonObject → Bytes
  /-- `cJSON_ParseWithLength`. -/
  parseJson : Bytes → Option JsonObject

/-- `cJSON_GetObjectItemCaseSensitive`. -/
def getItem (root : JsonObject) (name : Bytes) : Option JsonItem := root.lookup name

/-- `valueint`: the number as an `int`, cut off at the ends. -/
def valueint (q : ℚ) : ℤ :=
  if (intMax : ℚ) ≤ q then intMax else if q ≤ (-intMax - 1 : ℤ) then -intMax - 1
  else if 0 ≤ q then ⌊q⌋ else ⌈q⌉

/-- `ACCESS_MAX_JSON_SECONDS`. -/
def maxJsonSeconds : ℕ := 9007199254740991

/-- `ACCESS_TOKEN_PREFIX`. -/
def tokenStart : Bytes := ascii "fu1."

/-- `.` -/
def dot : UInt8 := 46

/-- The object that `access_build_payload` builds. -/
def payloadItems (lib : TokenLibrary) (claims : Claims) : JsonObject :=
  [(ascii "v", .number 1), (ascii "sub", .string claims.subject),
    (ascii "scope", .string claims.scope), (ascii "iat", .number claims.issuedAt),
    (ascii "exp", .number claims.expiresAt),
    (ascii "nonce", .string (columnText (lib.base64 claims.nonce)))]

/-- `access_build_payload`. -/
def buildPayload (lib : TokenLibrary) (claims : Claims) : Bytes :=
  lib.printJson (payloadItems lib claims)

/-- The text that `access_issue_token` returns for the claims. -/
def tokenText (so : Sodium) (lib : TokenLibrary) (key : Block 32) (claims : Claims) : CString :=
  columnText (tokenStart ++ lib.base64 (buildPayload lib claims) ++ dot ::
    lib.base64 (so.auth key (buildPayload lib claims)).1)

/-- `access_extract_token_parts`. -/
def extractTokenParts (token : CString) : Except Status (Bytes × Bytes) := do
  require (4 < token.bytes.length ∧ token.bytes.length ≤ 2048 ∧ tokenStart <+: token.bytes) .auth
  let rest := token.bytes.drop 4
  let payload := rest.takeWhile (· != dot)
  let signature := (rest.drop payload.length).drop 1
  require (dot ∈ rest ∧ payload ≠ []) .auth
  require (signature ≠ [] ∧ dot ∉ signature) .auth
  return (payload, signature)

/-- `access_decode_payload`. -/
def decodePayload (lib : TokenLibrary) (payload64 : Bytes) : Except Status Bytes := do
  require (payload64 ≠ [] ∧ payload64.length ≤ 2048) .auth
  (lib.unbase64 payload64).elim (.error .auth) .ok

/-- `access_decode_signature`. -/
def decodeSignature (lib : TokenLibrary) (signature64 : Bytes) : Except Status (Block 32) := do
  let signature ← (lib.unbase64 signature64).elim (.error .auth) .ok
  if h : signature.length = 32 then return ⟨signature, h⟩ else .error .auth

/-- `access_json_uint64`. -/
def jsonUint64 (root : JsonObject) (name : Bytes) : Except Status ℕ :=
  match getItem root name with
  | some (.number q) => do
    require (0 ≤ q ∧ q ≤ (maxJsonSeconds : ℚ)) .auth
    return ⌊q⌋.toNat
  | _ => .error .auth

/-- `access_json_string`. -/
def jsonString (root : JsonObject) (name : Bytes) (outputLen : ℕ) : Except Status CString :=
  match getItem root name with
  | some (.string s) => do
    require (s.bytes ≠ [] ∧ s.bytes.length < outputLen) .invalidArgument
    return s
  | _ => .error .auth

/-- The version of `access_parse_claims`. -/
def jsonVersion (root : JsonObject) : Except Status Unit :=
  match getItem root (ascii "v") with
  | some (.number q) => require (valueint q = 1) .auth
  | _ => .error .auth

/-- The nonce of `access_parse_claims`. -/
def jsonNonce (lib : TokenLibrary) (root : JsonObject) : Except Status Bytes :=
  match getItem root (ascii "nonce") with
  | some (.string s) => do
    let nonce ← (lib.unbase64 s.bytes).elim (.error .auth) .ok
    require (nonce.length = 16) .auth
    return nonce
  | _ => .error .auth

/-- `access_parse_claims`. -/
def parseClaims (lib : TokenLibrary) (payload : Bytes) : Except Status Claims := do
  require (payload ≠ []) .invalidArgument
  let root ← (lib.parseJson payload).elim (.error .auth) .ok
  jsonVersion root
  let subject ← jsonString root (ascii "sub") 128
  let scope ← jsonString root (ascii "scope") 256
  let issuedAt ← jsonUint64 root (ascii "iat")
  let expiresAt ← jsonUint64 root (ascii "exp")
  require (issuedAt < expiresAt) .auth
  let nonce ← jsonNonce lib root
  return ⟨subject, scope, issuedAt, expiresAt, nonce⟩

/-- `access_verify_token`: the claims. An empty scope asks for nothing. -/
def accessVerifyToken (so : Sodium) (lib : TokenLibrary) (token required : CString)
    (key : Block 32) : Sql Claims := do
  Prog.ofExcept (require (token.bytes ≠ []) .invalidArgument)
  Sql.lib .crypto
  let (payload64, signature64) ← Prog.ofExcept (extractTokenParts token)
  Sql.libs [.storage, .storage]
  let payload ← Prog.ofExcept (decodePayload lib payload64)
  let signature ← Prog.ofExcept (decodeSignature lib signature64)
  Prog.ofExcept (require (signature = so.auth key payload) .auth)
  let claims ← Prog.ofExcept (parseClaims lib payload)
  let now ← accessNow
  Prog.ofExcept (require (now < claims.expiresAt) .auth)
  Prog.ofExcept (require (required.bytes = [] ∨ scopeAllows claims.scope required) .auth)
  return claims

variable {so : Sodium} {lib : TokenLibrary} {claims claims' : Claims} {key : Block 32}

theorem readOnly_accessVerifyToken {token required : CString} :
    Sql.ReadOnly (accessVerifyToken so lib token required key) := by
  refine Prog.readOnly_ofExcept.bind fun _ => Sql.readOnly_lib.bind fun _ => ?_
  refine Prog.readOnly_ofExcept.bind fun _ => Sql.readOnly_libs.bind fun _ => ?_
  refine Prog.readOnly_ofExcept.bind fun _ => Prog.readOnly_ofExcept.bind fun _ => ?_
  refine Prog.readOnly_ofExcept.bind fun _ => Prog.readOnly_ofExcept.bind fun _ => ?_
  refine readOnly_accessNow.bind fun _ => Prog.readOnly_ofExcept.bind fun _ => ?_
  exact Prog.readOnly_ofExcept.bind fun _ => trivial

/-- A digit of base64. -/
def base64Digit (n : ℕ) : UInt8 :=
  if n < 26 then UInt8.ofNat (65 + n) else if n < 52 then UInt8.ofNat (71 + n)
  else if n < 62 then UInt8.ofNat (n - 4) else if n = 62 then 43 else 47

/-- Three bytes are four digits; a shorter rest is padded. -/
def toBase64 : Bytes → Bytes
  | [] => []
  | [a] => [base64Digit (a.toNat / 4), base64Digit (a.toNat % 4 * 16), 61, 61]
  | [a, b] => [base64Digit (a.toNat / 4), base64Digit (a.toNat % 4 * 16 + b.toNat / 16),
      base64Digit (b.toNat % 16 * 4), 61]
  | a :: b :: c :: m => base64Digit (a.toNat / 4) ::
      base64Digit (a.toNat % 4 * 16 + b.toNat / 16) ::
      base64Digit (b.toNat % 16 * 4 + c.toNat / 64) :: base64Digit (c.toNat % 64) :: toBase64 m

/-- The value of a digit. -/
def base64Value (d : UInt8) : Option ℕ := (List.range 64).find? fun n => base64Digit n = d

/-- Four digits are three bytes. -/
def ofBase64 : Bytes → Option Bytes
  | [] => some []
  | [c, d, 61, 61] => do
    let v ← base64Value c
    let w ← base64Value d
    return [UInt8.ofNat (v * 4 + w / 16)]
  | [c, d, e, 61] => do
    let v ← base64Value c
    let w ← base64Value d
    let x ← base64Value e
    return [UInt8.ofNat (v * 4 + w / 16), UInt8.ofNat (w % 16 * 16 + x / 4)]
  | c :: d :: e :: f :: m => do
    let v ← base64Value c
    let w ← base64Value d
    let x ← base64Value e
    let y ← base64Value f
    let rest ← ofBase64 m
    return UInt8.ofNat (v * 4 + w / 16) :: UInt8.ofNat (w % 16 * 16 + x / 4) ::
      UInt8.ofNat (x % 4 * 64 + y) :: rest
  | _ => none

/-- A text in quotes. -/
def quoted (b : Bytes) : Bytes := 34 :: b ++ [34]

/-- An item as JSON; a number is whole and a text needs no escapes. -/
def itemText : JsonItem → Bytes
  | .number q => decimal q.num.toNat
  | .string s => quoted s.bytes
  | .other => ascii "null"

/-- An object as JSON. -/
def jsonText (root : JsonObject) : Bytes :=
  123 :: List.intercalate [44] (root.map fun item => quoted item.1 ++ 58 :: itemText item.2) ++
    [125]

/-- A library that reads back the tokens of some claims. -/
def toyTokens (known : List Claims) : TokenLibrary :=
  let printing : TokenLibrary := ⟨toBase64, ofBase64, jsonText, fun _ => none⟩
  { printing with
    parseJson := fun b => (known.map (payloadItems printing)).find? fun root => jsonText root = b }

end Fuin.Access.Token
