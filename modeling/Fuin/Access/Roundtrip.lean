import Fuin.Access.Token
import Fuin.Store.Success

/-! # Tokens are read back

`access_issue_token` writes a text into a buffer, and `access_verify_token` takes a text apart. Of the
libraries it is used that base64 decodes what it has encoded and nothing else (`ReadsBase64`), and
that the JSON of the claims at hand is parsed as it was printed (`ReadsJson`). A token that was issued
is accepted before it expires, with its claims, for the scopes it allows and for the empty one; and
a token that is accepted, whoever wrote it, is the only text for its payload. -/

namespace Fuin.Access.Roundtrip

open Fuin.Utils Fuin.Crypto Fuin.Lib.Program Fuin.Store.Database Fuin.Store.Success
open Fuin.Access.Scope Fuin.Access.Token Fuin.Vault.Operations Fuin.Vault.Observed

/-- Base64 in its original variant: decoding accepts the encodings and nothing else. -/
structure ReadsBase64 (lib : TokenLibrary) : Prop where
  nil : lib.base64 [] = []
  noDot : ∀ b, dot ∉ lib.base64 b
  noNul : ∀ b, (0 : UInt8) ∉ lib.base64 b
  decoded : ∀ b, lib.unbase64 (lib.base64 b) = some b
  strict : ∀ s b, lib.unbase64 s = some b → lib.base64 b = s

/-- The object of these claims is parsed as it was printed. -/
structure ReadsJson (lib : TokenLibrary) (claims : Claims) : Prop where
  printed : buildPayload lib claims ≠ []
  parsed : lib.parseJson (buildPayload lib claims) = some (payloadItems lib claims)

/-- `access_compose_token`, of the encoded payload and signature. -/
def composeToken (so : Sodium) (lib : TokenLibrary) (key : Block 32) (claims : Claims)
    (tokenLen : ℕ) : Except Status CString := do
  require ((tokenText so lib key claims).bytes.length < tokenLen) .invalidArgument
  return tokenText so lib key claims

/-- `access_issue_token`: the text it writes to a buffer of `tokenLen` bytes. -/
def accessIssueTokenText (so : Sodium) (lib : TokenLibrary) (subject scope : CString) (ttl : ℕ)
    (key : Block 32) (tokenLen : ℕ) : Sql CString := do
  Prog.ofExcept (require (ttl ≠ 0 ∧ tokenLen ≠ 0) .invalidArgument)
  Sql.lib .crypto
  Prog.ofExcept (require (subject.bytes ≠ [] ∧ subject.bytes.length < 128) .invalidArgument)
  Prog.ofExcept (require (scope.bytes ≠ [] ∧ scope.bytes.length < 256) .invalidArgument)
  let issuedAt ← accessNow
  Prog.ofExcept (require (ttl ≤ uint64Max - issuedAt) .invalidArgument)
  Prog.ofExcept (require (issuedAt + ttl ≤ maxJsonSeconds) .invalidArgument)
  let nonce ← Sql.random 16
  Sql.libs [.crypto, .storage, .storage, .storage, .crypto, .storage, .crypto, .storage, .crypto]
  Prog.ofExcept (composeToken so lib key ⟨subject, scope, issuedAt, issuedAt + ttl, nonce.1⟩ tokenLen)

/-- The claims of the token that a run issues: the time is its reading of the clock. -/
def issuedClaims (subject scope : CString) (ttl : ℕ) (es : ℕ → Input) : Option Claims :=
  (es 1).now.map fun now => ⟨subject, scope, now.toNat, now.toNat + ttl, ((es 2).random 16).1⟩

/-- What `access_verify_token` reads from a token before it looks at the clock. -/
def tokenClaims (so : Sodium) (lib : TokenLibrary) (key : Block 32) (token : CString) :
    Except Status Claims := do
  let (payload64, signature64) ← extractTokenParts token
  let payload ← decodePayload lib payload64
  let signature ← decodeSignature lib signature64
  require (signature = so.auth key payload) .auth
  parseClaims lib payload

/-- The scope is not asked for, or the claims allow it. -/
abbrev Permits (claims : Claims) (required : CString) : Prop :=
  required.bytes = [] ∨ scopeAllows claims.scope required = true

/-- What is checked of the claims. -/
structure Within (claims : Claims) : Prop where
  subject : claims.subject.bytes ≠ [] ∧ claims.subject.bytes.length < 128
  scope : claims.scope.bytes ≠ [] ∧ claims.scope.bytes.length < 256
  issued : claims.issuedAt < claims.expiresAt
  expires : claims.expiresAt ≤ maxJsonSeconds
  nonce : claims.nonce.length = 16

variable {so : Sodium} {lib : TokenLibrary} {claims : Claims} {key : Block 32}
  {token required : CString} {db db' : Db}

/-! ### Base64 -/

theorem ReadsBase64.ne_nil (h : ReadsBase64 lib) {b : Bytes} (hb : b ≠ []) : lib.base64 b ≠ [] := by
  intro hnil
  have hdec := h.decoded b
  rw [hnil, ← h.nil, h.decoded] at hdec
  exact hb (Option.some.inj hdec).symm

/-- An encoded text is not cut off. -/
theorem ReadsBase64.tokenText (h : ReadsBase64 lib) (so : Sodium) (key : Block 32)
    (claims : Claims) : (tokenText so lib key claims).bytes =
    tokenStart ++ (lib.base64 (buildPayload lib claims) ++ dot ::
      lib.base64 (so.auth key (buildPayload lib claims)).1) := by
  unfold Token.tokenText
  rw [columnText_of_noNul]
  · exact List.append_assoc _ _ _
  · simp only [List.mem_append, List.mem_cons, not_or]
    exact ⟨⟨by decide, h.noNul _⟩, by decide, h.noNul _⟩

/-- The text before the first dot. -/
theorem takeWhile_dot {a r : Bytes} (h : dot ∉ a) : (a ++ dot :: r).takeWhile (· != dot) = a := by
  have hp : ∀ c ∈ a, (c != dot) = true := fun c hc => bne_iff_ne.mpr fun e => h (e ▸ hc)
  rw [List.takeWhile_append_of_pos hp, List.takeWhile_cons_of_neg (by simp), List.append_nil]

/-- The parts of a token are what stands before and after its dot. -/
theorem extractTokenParts_eq {payload64 signature64 : Bytes} :
    extractTokenParts token = .ok (payload64, signature64) ↔
      token.bytes = tokenStart ++ (payload64 ++ dot :: signature64) ∧ token.bytes.length ≤ 2048 ∧
        payload64 ≠ [] ∧ signature64 ≠ [] ∧ dot ∉ payload64 ∧ dot ∉ signature64 := by
  simp only [extractTokenParts, bind_eq_ok, pure_eq_ok, require_eq_ok, Prod.mk.injEq]
  constructor
  · rintro ⟨-, ⟨-, hlen, rest, hrest⟩, -, ⟨hdot, hp⟩, -, ⟨hs, hnot⟩, hpay, hsig⟩
    have hdrop : token.bytes.drop 4 = rest := by rw [← hrest]; exact List.drop_left' rfl
    rw [hdrop] at hdot hp hs hnot hpay hsig
    obtain ⟨a, r, hr, ha⟩ := List.eq_append_cons_of_mem hdot
    rw [hr, takeWhile_dot ha] at hp hs hnot hpay hsig
    obtain rfl := hpay
    rw [List.drop_left, List.drop_one, List.tail_cons] at hs hnot hsig
    obtain rfl := hsig
    exact ⟨by rw [← hrest, hr], hlen, hp, hs, ha, hnot⟩
  · rintro ⟨htoken, hlen, hp, hs, ha, hnot⟩
    have hdrop : token.bytes.drop 4 = payload64 ++ dot :: signature64 := by
      rw [htoken]
      exact List.drop_left' rfl
    rw [hdrop, takeWhile_dot ha, List.drop_left, List.drop_one, List.tail_cons]
    refine ⟨(), ⟨?_, hlen, htoken ▸ List.prefix_append _ _⟩, (), ⟨by simp, hp⟩, (), ⟨hs, hnot⟩, rfl, rfl⟩
    rw [htoken, List.length_append, List.length_append]
    have hpos := List.length_pos_iff.mpr hp
    show 4 < 4 + _
    omega

theorem token_ne_nil {parts : Bytes × Bytes} (h : extractTokenParts token = .ok parts) :
    token.bytes ≠ [] := by
  intro hnil
  have htext := (extractTokenParts_eq.mp h).1
  rw [hnil] at htext
  cases htext

/-! ### What is read from a token -/

theorem jsonUint64_eq {root : JsonObject} {name : Bytes} {n : ℕ}
    (h : getItem root name = some (.number n)) (hn : n ≤ maxJsonSeconds) :
    jsonUint64 root name = .ok n := by
  unfold jsonUint64
  rw [h]
  refine bind_eq_ok.mpr ⟨(), require_eq_ok.mpr ⟨Nat.cast_nonneg n, Nat.cast_le.mpr hn⟩, ?_⟩
  rw [Int.floor_natCast, Int.toNat_natCast]
  rfl

theorem jsonString_eq {root : JsonObject} {name : Bytes} {n : ℕ} {t : CString}
    (h : getItem root name = some (.string t)) (ht : t.bytes ≠ [] ∧ t.bytes.length < n) :
    jsonString root name n = .ok t := by
  unfold jsonString
  rw [h]
  exact bind_eq_ok.mpr ⟨(), require_eq_ok.mpr ht, rfl⟩

theorem parseClaims_eq (h64 : ReadsBase64 lib) (hjson : ReadsJson lib claims)
    (hc : Within claims) : parseClaims lib (buildPayload lib claims) = .ok claims := by
  have hversion : jsonVersion (payloadItems lib claims) = .ok () := by
    refine require_eq_ok.mpr ?_
    norm_num [valueint, intMax]
  have hnonce : jsonNonce lib (payloadItems lib claims) = .ok claims.nonce := by
    show (do
      let nonce ← (lib.unbase64 (columnText (lib.base64 claims.nonce)).bytes).elim
        (Except.error Status.auth) Except.ok
      require (nonce.length = 16) .auth
      return nonce) = _
    rw [columnText_of_noNul (h64.noNul _), h64.decoded]
    exact bind_eq_ok.mpr ⟨_, rfl, bind_eq_ok.mpr ⟨(), require_eq_ok.mpr hc.nonce, rfl⟩⟩
  simp only [parseClaims, hjson.parsed, Option.elim_some, bind_eq_ok, require_eq_ok, pure_eq_ok]
  exact ⟨(), hjson.printed, _, rfl, (), hversion, _, jsonString_eq rfl hc.subject, _,
    jsonString_eq rfl hc.scope, _, jsonUint64_eq rfl (hc.issued.le.trans hc.expires), _,
    jsonUint64_eq rfl hc.expires, (), hc.issued, _, hnonce, rfl⟩

/-- **The claims of a token are those it was printed for.** -/
theorem tokenClaims_tokenText (h64 : ReadsBase64 lib) (hjson : ReadsJson lib claims)
    (hc : Within claims) (hlen : (tokenText so lib key claims).bytes.length ≤ 2048) :
    tokenClaims so lib key (tokenText so lib key claims) = .ok claims := by
  have hauth : (so.auth key (buildPayload lib claims)).1 ≠ [] := fun h => by
    have hlength := (so.auth key (buildPayload lib claims)).2
    rw [h] at hlength
    nomatch hlength
  have hparts := extractTokenParts_eq.mpr ⟨h64.tokenText so key claims, hlen,
    h64.ne_nil hjson.printed, h64.ne_nil hauth, h64.noDot _, h64.noDot _⟩
  have hpayload : decodePayload lib (lib.base64 (buildPayload lib claims)) =
      .ok (buildPayload lib claims) := by
    refine bind_eq_ok.mpr ⟨(), require_eq_ok.mpr ⟨h64.ne_nil hjson.printed, ?_⟩, ?_⟩
    · have htext := congrArg List.length (h64.tokenText so key claims)
      rw [List.length_append, List.length_append] at htext
      omega
    · rw [h64.decoded]
      rfl
  have hsignature : decodeSignature lib (lib.base64 (so.auth key (buildPayload lib claims)).1) =
      .ok (so.auth key (buildPayload lib claims)) := by
    refine bind_eq_ok.mpr ⟨_, by rw [h64.decoded]; rfl, ?_⟩
    rw [dif_pos (so.auth key (buildPayload lib claims)).2]
    rfl
  simp only [tokenClaims, bind_eq_ok, require_eq_ok]
  exact ⟨_, hparts, _, hpayload, _, hsignature, (), rfl, parseClaims_eq h64 hjson hc⟩

/-- **There is one text for a payload**: a token that is read is the encoding of its payload and of
the MAC of its payload. -/
theorem tokenClaims_text (h64 : ReadsBase64 lib) (h : tokenClaims so lib key token = .ok claims) :
    ∃ payload, parseClaims lib payload = .ok claims ∧ token.bytes =
      tokenStart ++ (lib.base64 payload ++ dot :: lib.base64 (so.auth key payload).1) := by
  simp only [tokenClaims, bind_eq_ok, require_eq_ok] at h
  obtain ⟨⟨payload64, signature64⟩, hparts, payload, hpayload, signature, hsignature, -, rfl,
    hparse⟩ := h
  refine ⟨payload, hparse, ?_⟩
  obtain ⟨_, -, hpayload⟩ := bind_eq_ok.mp hpayload
  obtain ⟨decoded, hdecoded, hsignature⟩ := bind_eq_ok.mp hsignature
  have hsig : decoded = (so.auth key payload).1 := by
    split_ifs at hsignature
    · exact congrArg Subtype.val (Except.ok.inj hsignature)
  rw [h64.strict _ _ (elim_eq_ok.mp hpayload), ← hsig, h64.strict _ _ (elim_eq_ok.mp hdecoded)]
  exact (extractTokenParts_eq.mp hparts).1

/-! ### The check -/

theorem accessNow_run {α : Type} {f : ℕ → Sql α} {now : ℤ} {es : ℕ → Input} (hq : Quiet now es)
    (h0 : 0 ≤ now) : (accessNow.bind f).run Stmt.exec es db =
      (f now.toNat).run Stmt.exec (fun n => es (n + 1)) db := by
  unfold accessNow
  rw [Prog.bind_def, Prog.bind_assoc, run_time_bind hq]
  simp only [Prog.bind_def, Prog.bind_assoc]
  rw [run_require_bind h0]
  rfl

/-- The time that is read is that of the clock. -/
theorem accessNow_ok {α : Type} {f : ℕ → Sql α} {es : ℕ → Input} {a : α}
    (h : (accessNow.bind f).run Stmt.exec es db = (db', .ok a)) :
    ∃ now : ℤ, (es 0).now = some now ∧ 0 ≤ now ∧
      (f now.toNat).run Stmt.exec (fun n => es (n + 1)) db = (db', .ok a) := by
  rw [accessNow, Prog.bind_def, Prog.bind_assoc] at h
  cases hnow : (es 0).now with
  | none =>
    have hexec : Stmt.exec (es 0) .time db = (db, none) := Prod.ext rfl hnow
    cases (Prod.mk.inj ((Prog.run_cmd_bind hexec).symm.trans h)).2
  | some now =>
    have hexec : Stmt.exec (es 0) .time db = (db, some now) := Prod.ext rfl hnow
    have hcmd : (((Prog.ofExcept (require (0 ≤ now) .storage)).bind fun _ => .ret now.toNat).bind f).run
        Stmt.exec (fun n => es (n + 1)) db = (db', .ok a) := (Prog.run_cmd_bind hexec).symm.trans h
    rw [Prog.bind_assoc] at hcmd
    obtain ⟨_, h0, hrest⟩ := run_ofExcept_ok hcmd
    exact ⟨now, rfl, require_eq_ok.mp h0, hrest⟩

/-- **The check in a run in which nothing fails.** -/
theorem accessVerifyToken_run {now : ℤ} {es : ℕ → Input} (db : Db) (required : CString)
    (hq : Quiet now es) (h0 : 0 ≤ now) (h : tokenClaims so lib key token = .ok claims) :
    (accessVerifyToken so lib token required key).run Stmt.exec es db =
      (db, if now.toNat < claims.expiresAt ∧ Permits claims required then .ok claims
        else .error .auth) := by
  simp only [tokenClaims, bind_eq_ok, require_eq_ok] at h
  obtain ⟨⟨payload64, signature64⟩, hparts, payload, hpayload, signature, hsignature, -, hauth,
    hparse⟩ := h
  have hne := token_ne_nil hparts
  unfold accessVerifyToken
  simp only [Prog.bind_def, hparts, hpayload, hsignature, hparse, Prog.ofExcept_ok, Prog.ret_bind]
  rw [run_require_bind hne, run_lib_bind hq.faultless, run_libs_bind (hq.drop 1).faultless, run_require_bind hauth,
    accessNow_run ((hq.drop 1).drop _) h0]
  by_cases hnow : now.toNat < claims.expiresAt
  · rw [run_require_bind hnow]
    by_cases hper : Permits claims required
    · rw [run_require_bind hper, if_pos ⟨hnow, hper⟩]
      rfl
    · rw [run_require_bind_neg hper, if_neg fun h => hper h.2]
  · rw [run_require_bind_neg hnow, if_neg fun h => hnow h.1]

/-- **A token that is accepted** carries its claims and is unexpired. -/
theorem accessVerifyToken_ok {es : ℕ → Input}
    (h : (accessVerifyToken so lib token required key).run Stmt.exec es db = (db', .ok claims)) :
    tokenClaims so lib key token = .ok claims ∧
      (∃ now : ℤ, (es 3).now = some now ∧ 0 ≤ now ∧ now < claims.expiresAt) ∧
        Permits claims required := by
  unfold accessVerifyToken at h
  simp only [Prog.bind_def] at h
  obtain ⟨_, -, h⟩ := run_ofExcept_ok h
  obtain ⟨⟨payload64, signature64⟩, hparts, h⟩ := run_ofExcept_ok (run_lib_ok h)
  obtain ⟨payload, hpayload, h⟩ := run_ofExcept_ok (run_libs_ok h)
  obtain ⟨signature, hsignature, h⟩ := run_ofExcept_ok h
  obtain ⟨_, hauth, h⟩ := run_ofExcept_ok h
  obtain ⟨parsed, hparse, h⟩ := run_ofExcept_ok h
  obtain ⟨now, hnow, h0, h⟩ := accessNow_ok h
  obtain ⟨_, hlt, h⟩ := run_ofExcept_ok h
  obtain ⟨_, hper, h⟩ := run_ofExcept_ok h
  obtain rfl := Except.ok.inj (Prod.mk.inj h).2
  refine ⟨?_, ⟨now, hnow, h0, ?_⟩, require_eq_ok.mp hper⟩
  · simp only [tokenClaims, bind_eq_ok]
    exact ⟨_, hparts, _, hpayload, _, hsignature, _, hauth, hparse⟩
  · have hexp := require_eq_ok.mp hlt
    omega

/-- **What is issued** is the text of the claims, which are within the bounds. -/
theorem accessIssueTokenText_ok {subject scope : CString} {ttl tokenLen : ℕ} {es : ℕ → Input}
    (h : (accessIssueTokenText so lib subject scope ttl key tokenLen).run Stmt.exec es db =
      (db', .ok token)) :
    ∃ claims, issuedClaims subject scope ttl es = some claims ∧ Within claims ∧
      token = tokenText so lib key claims ∧ token.bytes.length < tokenLen := by
  unfold accessIssueTokenText at h
  simp only [Prog.bind_def] at h
  obtain ⟨_, httl, h⟩ := run_ofExcept_ok h
  obtain ⟨_, hsubject, h⟩ := run_ofExcept_ok (run_lib_ok h)
  obtain ⟨_, hscope, h⟩ := run_ofExcept_ok h
  obtain ⟨now, hnow, h0, h⟩ := accessNow_ok h
  obtain ⟨_, -, h⟩ := run_ofExcept_ok h
  obtain ⟨_, hexp, h⟩ := run_ofExcept_ok h
  have hrandom : ((Sql.libs _).bind fun _ => Prog.ofExcept (composeToken so lib key
      ⟨subject, scope, now.toNat, now.toNat + ttl, ((es 2).random 16).1⟩ tokenLen)).run Stmt.exec
        (fun n => es (n + 3)) db = (db', .ok token) := h
  have hcompose := run_libs_ok hrandom
  rw [run_ofExcept] at hcompose
  obtain ⟨_, hlen, htext⟩ := bind_eq_ok.mp (Prod.mk.inj hcompose).2
  obtain rfl := Except.ok.inj htext
  refine ⟨_, ?_, ⟨require_eq_ok.mp hsubject, require_eq_ok.mp hscope, ?_, require_eq_ok.mp hexp,
    ((es 2).random 16).2⟩, rfl, require_eq_ok.mp hlen⟩
  · have hclock : (es 1).now = some now := hnow
    unfold issuedClaims
    rw [hclock]
    rfl
  · have hpos := (require_eq_ok.mp httl).1
    show now.toNat < now.toNat + ttl
    omega

/-- **Tokens are read back.** A token that was issued is, while it has not expired, accepted with its
claims for the empty scope and for those it allows. A token that is accepted under a key has not
expired and is the encoding of a payload with these claims and of the MAC of this payload. -/
theorem token_roundtrip (h64 : ReadsBase64 lib) :
    (∀ subject scope ttl key es db db' token,
      (accessIssueTokenText so lib subject scope ttl key 2048).run Stmt.exec es db =
          (db', .ok token) →
        ∃ claims, issuedClaims subject scope ttl es = some claims ∧ claims.subject = subject ∧
          claims.scope = scope ∧ claims.expiresAt = claims.issuedAt + ttl ∧
          (ReadsJson lib claims → ∀ now required es' db₀, 0 ≤ now → Quiet now es' →
            (accessVerifyToken so lib token required key).run Stmt.exec es' db₀ =
              (db₀, if now.toNat < claims.expiresAt ∧ Permits claims required then .ok claims
                else .error .auth))) ∧
      ∀ token required key claims es db db',
        (accessVerifyToken so lib token required key).run Stmt.exec es db = (db', .ok claims) →
          Permits claims required ∧
          (∃ now : ℤ, (es 3).now = some now ∧ 0 ≤ now ∧ now < claims.expiresAt) ∧
          ∃ payload, parseClaims lib payload = .ok claims ∧ token.bytes =
            tokenStart ++ (lib.base64 payload ++ dot :: lib.base64 (so.auth key payload).1) := by
  constructor
  · intro subject scope ttl key es db db' token hissue
    obtain ⟨claims, hclaims, hwithin, rfl, hlen⟩ := accessIssueTokenText_ok hissue
    obtain ⟨now, -, hnow⟩ := Option.map_eq_some_iff.mp hclaims
    refine ⟨claims, hclaims, by rw [← hnow], by rw [← hnow], by rw [← hnow], ?_⟩
    intro hjson now' required es' db₀ h0 hq
    exact accessVerifyToken_run _ _ hq h0 (tokenClaims_tokenText h64 hjson hwithin hlen.le)
  · intro token required key claims es db db' hverify
    obtain ⟨hread, hnow, hper⟩ := accessVerifyToken_ok hverify
    exact ⟨hper, hnow, tokenClaims_text h64 hread⟩

/-! ### Base64 to compute with -/

theorem base64Value_digit : ∀ n < 64, base64Value (base64Digit n) = some n := by decide +kernel

theorem base64Digit_ne : ∀ n < 64, base64Digit n ≠ 61 ∧ base64Digit n ≠ dot ∧ base64Digit n ≠ 0 := by
  decide +kernel

/-- Eight bits put together again. -/
theorem ofNat_eq {a : UInt8} {n : ℕ} (h : n = a.toNat) : UInt8.ofNat n = a := by
  rw [h, UInt8.ofNat_toNat]

theorem ofBase64_toBase64 : ∀ b : Bytes, ofBase64 (toBase64 b) = some b
  | [] => rfl
  | [a] => by
    have ha := a.toNat_lt
    rw [toBase64, ofBase64, base64Value_digit _ (by omega), base64Value_digit _ (by omega)]
    refine congrArg (fun x => some [x]) (ofNat_eq ?_)
    omega
  | [a, b] => by
    have ha := a.toNat_lt
    have hb := b.toNat_lt
    have hne := (base64Digit_ne (b.toNat % 16 * 4) (by omega)).1
    rw [toBase64, ofBase64]
    · rw [base64Value_digit _ (by omega), base64Value_digit _ (by omega),
        base64Value_digit _ (by omega)]
      refine congrArg some (List.cons_eq_cons.mpr ⟨ofNat_eq ?_, ?_⟩)
      · omega
      · refine congrArg (fun x => [x]) (ofNat_eq ?_)
        omega
    · exact fun h => hne h
  | a :: b :: c :: m => by
    have ih := ofBase64_toBase64 m
    have ha := a.toNat_lt
    have hb := b.toNat_lt
    have hc := c.toNat_lt
    have hne := (base64Digit_ne (c.toNat % 64) (by omega)).1
    rw [toBase64, ofBase64]
    · rw [base64Value_digit _ (by omega), base64Value_digit _ (by omega),
        base64Value_digit _ (by omega), base64Value_digit _ (by omega), ih]
      refine congrArg some (List.cons_eq_cons.mpr ⟨ofNat_eq ?_, List.cons_eq_cons.mpr
        ⟨ofNat_eq ?_, List.cons_eq_cons.mpr ⟨ofNat_eq ?_, rfl⟩⟩⟩) <;> omega
    · exact fun _ h _ => hne h
    · exact fun h _ => hne h

theorem toBase64_alphabet {d : UInt8} : ∀ {b : Bytes}, d ∈ toBase64 b → d ≠ dot ∧ d ≠ 0
  | [], h => nomatch h
  | [a], h => by
    have ha := a.toNat_lt
    simp only [toBase64, List.mem_cons, List.not_mem_nil, or_false] at h
    rcases h with rfl | rfl | rfl | rfl
    · exact (base64Digit_ne _ (by omega)).2
    · exact (base64Digit_ne _ (by omega)).2
    · decide
    · decide
  | [a, b], h => by
    have ha := a.toNat_lt
    have hb := b.toNat_lt
    simp only [toBase64, List.mem_cons, List.not_mem_nil, or_false] at h
    rcases h with rfl | rfl | rfl | rfl
    · exact (base64Digit_ne _ (by omega)).2
    · exact (base64Digit_ne _ (by omega)).2
    · exact (base64Digit_ne _ (by omega)).2
    · decide
  | a :: b :: c :: m, h => by
    have ha := a.toNat_lt
    have hb := b.toNat_lt
    have hc := c.toNat_lt
    simp only [toBase64, List.mem_cons] at h
    rcases h with rfl | rfl | rfl | rfl | h
    · exact (base64Digit_ne _ (by omega)).2
    · exact (base64Digit_ne _ (by omega)).2
    · exact (base64Digit_ne _ (by omega)).2
    · exact (base64Digit_ne _ (by omega)).2
    · exact toBase64_alphabet h

/-- Decoding that accepts nothing but encodings. -/
def strictBase64 (s : Bytes) : Option Bytes := (ofBase64 s).filter fun b => toBase64 b = s

/-- The library for the tokens of some claims, with a strict base64. -/
def strictTokens (known : List Claims) : TokenLibrary :=
  { toyTokens known with unbase64 := strictBase64 }

theorem readsBase64_strictTokens (known : List Claims) : ReadsBase64 (strictTokens known) where
  nil := rfl
  noDot b h := (toBase64_alphabet h).1 rfl
  noNul b h := (toBase64_alphabet h).2 rfl
  decoded b := by
    show (ofBase64 (toBase64 b)).filter (fun b' => decide (toBase64 b' = toBase64 b)) = _
    rw [ofBase64_toBase64, Option.filter_some, if_pos (decide_eq_true rfl)]
  strict s b h := by
    obtain ⟨-, hb⟩ := Option.filter_eq_some_iff.mp h
    exact of_decide_eq_true hb

/-! ### One token -/

/-- The claims of a token. -/
def dbClaims : Claims where
  subject := ⟨ascii "agent", by decide⟩
  scope := ⟨ascii "read:db/*", by decide⟩
  issuedAt := 1735689600
  expiresAt := 1735693200
  nonce := List.replicate 16 7

theorem readsJson_dbClaims : ReadsJson (strictTokens [dbClaims]) dbClaims where
  printed := by decide +kernel
  parsed := by decide +kernel

/-- Nothing fails, the clock stands and the random bytes are sevens. -/
def standing (now : ℤ) : ℕ → Input :=
  fun _ => ⟨false, some now, fun n => ⟨List.replicate n 7, List.length_replicate⟩⟩

theorem quiet_standing (now : ℤ) : Quiet now (standing now) := fun _ => ⟨rfl, rfl⟩

/-- Its text, under a key of zeros. -/
def dbToken : CString := tokenText toy (strictTokens [dbClaims]) (Block.zero 32) dbClaims

/-- The run that issues it. -/
def issuing : Db × Except Status CString :=
  (accessIssueTokenText toy (strictTokens [dbClaims]) dbClaims.subject dbClaims.scope 3600
    (Block.zero 32) 2048).run Stmt.exec (standing 1735689600) Db.empty

theorem eq_of_snd {α β : Type} {x : α × β} {b : β} (h : x.2 = b) : x = (x.1, b) := by
  rw [← h]

theorem dbToken_issued : issuing = (issuing.1, .ok dbToken) := eq_of_snd (by decide +kernel)

theorem dbClaims_issued :
    issuedClaims dbClaims.subject dbClaims.scope 3600 (standing 1735689600) = some dbClaims := by
  decide +kernel

theorem db_token_read_back :
    (accessVerifyToken toy (strictTokens [dbClaims]) dbToken ⟨ascii "read:db/prod", by decide⟩
      (Block.zero 32)).run Stmt.exec (standing 1735693199) Db.empty = (Db.empty, .ok dbClaims) := by
  obtain ⟨claims, hclaims, -, -, -, hverify⟩ :=
    (token_roundtrip (readsBase64_strictTokens [dbClaims])).1 _ _ _ _ _ _ _ _ dbToken_issued
  obtain rfl := Option.some.inj (dbClaims_issued.symm.trans hclaims)
  rw [hverify readsJson_dbClaims 1735693199 _ _ _ (by decide) (quiet_standing _),
    if_pos (by decide +kernel)]

/-- **Not only the scopes it allows are accepted**: the empty one is not asked for. -/
theorem empty_scope_accepted :
    ¬ ∀ (so : Sodium) (lib : TokenLibrary) (subject scope : CString) (ttl : ℕ) (key : Block 32)
      (es : ℕ → Input) (db db' : Db) (token : CString) (claims : Claims), ReadsBase64 lib →
      (accessIssueTokenText so lib subject scope ttl key 2048).run Stmt.exec es db =
        (db', .ok token) → issuedClaims subject scope ttl es = some claims → ReadsJson lib claims →
      ∀ (now : ℤ) (required : CString) (es' : ℕ → Input) (db₀ : Db), 0 ≤ now →
        now < claims.expiresAt → Quiet now es' →
        (((accessVerifyToken so lib token required key).run Stmt.exec es' db₀).2 = .ok claims ↔
          scopeAllows claims.scope required = true) := by
  intro h
  have hscope := (h _ _ _ _ _ _ _ _ _ _ _ (readsBase64_strictTokens [dbClaims]) dbToken_issued
    dbClaims_issued readsJson_dbClaims 1735693199 ⟨[], by decide⟩ _ Db.empty (by decide)
    (by decide) (quiet_standing _)).mp (by decide +kernel)
  exact absurd hscope (by decide +kernel)

end Fuin.Access.Roundtrip
