import Innen.Common.Boundaries

/-!
# The credential matchers on bytes

Each pattern has two loops over the places of a text: one that says whether there is a match (`anyPlace`), and one that
finds the first (`findPlace`). The names that the patterns look for are ASCII, and the loops work on bytes.
-/

namespace Innen.Credentials.Bytes

open Innen.Common

/-! ## Bytes -/

/-- The bytes of a text. -/
def ascii (s : String) : List UInt8 := utf8Bytes s.toList

/-- A byte from the first to the last of a range. -/
def between (first last : Char) (b : UInt8) : Bool := decide (first.toNat ≤ b.toNat ∧ b.toNat ≤ last.toNat)

/-- `is_aws_tail`. -/
def isAwsTail (b : UInt8) : Bool := between '0' '9' b || between 'A' 'Z' b

/-- `is_ghp_tail`. -/
def isGhpTail (b : UInt8) : Bool := between '0' '9' b || between 'A' 'Z' b || between 'a' 'z' b

/-- `is_anthropic_tail`. -/
def isAnthropicTail (b : UInt8) : Bool := isGhpTail b || decide (b ∈ ascii "-")

/-- `is_openai_tail`. -/
def isOpenaiTail (b : UInt8) : Bool := isGhpTail b || decide (b ∈ ascii "_-")

/-- `is_ascii_ws`. -/
def isAsciiWs (b : UInt8) : Bool := decide (b ∈ ascii " \t\n\r\x0b\x0c")

/-- Whether a text is at a place. -/
def startsAt (needle : String) (bytes : List UInt8) (i : ℕ) : Bool := (ascii needle).isPrefixOf (bytes.drop i)

/-- `starts_token`. -/
def startsToken (bytes : List UInt8) (i : ℕ) : Bool := decide (i = 0) || !(bytes[i - 1]?).any isOpenaiTail

/-! ## Loops -/

/-- A loop over the places where so many bytes are left, for a text of at least so many bytes. -/
def anyPlace (least width : ℕ) (check : List UInt8 → ℕ → Bool) (bytes : List UInt8) : Bool :=
  if bytes.length < least then false else (List.range (bytes.length - width + 1)).any (check bytes)

/-- The same loop, for the first place. -/
def findPlace (least width : ℕ) (check : List UInt8 → ℕ → Bool) (bytes : List UInt8) : Option ℕ :=
  if bytes.length < least then none else (List.range (bytes.length - width + 1)).find? (check bytes)

/-! ## Checks at a place -/

/-- `AKIA` and sixteen of `[0-9A-Z]`. -/
def awsCheck (bytes : List UInt8) (i : ℕ) : Bool :=
  startsAt "AKIA" bytes i && decide (i + 20 ≤ bytes.length) && ((bytes.drop (i + 4)).take 16).all isAwsTail

/-- A text with a run of so many bytes behind it at least. -/
def runCheck (needle : String) (isTail : UInt8 → Bool) (least : ℕ) (bytes : List UInt8) (i : ℕ) : Bool :=
  startsAt needle bytes i && decide (least ≤ ((bytes.drop (i + (ascii needle).length)).takeWhile isTail).length)

/-- A text with white space behind it, and then a colon or an equals sign. -/
def assignedCheck (needle : String) (bytes : List UInt8) (i : ℕ) : Bool :=
  let behind := bytes.drop (i + (ascii needle).length)
  startsAt needle bytes i && (behind[(behind.takeWhile isAsciiWs).length]?).any fun b => decide (b ∈ ascii ":=")

/-- `xox[bap]-`. -/
def slackCheck (bytes : List UInt8) (i : ℕ) : Bool :=
  startsAt "xoxb-" bytes i || startsAt "xoxa-" bytes i || startsAt "xoxp-" bytes i

/-- `sk-ant-[A-Za-z0-9-]+` at the start of a token. -/
def anthropicCheck (bytes : List UInt8) (i : ℕ) : Bool :=
  startsAt "sk-ant-" bytes i && startsToken bytes i && decide (i + 7 < bytes.length) &&
    (bytes[i + 7]?).any isAnthropicTail

/-- `sk-` at the start of a token, with a long tail. -/
def openaiCheck (bytes : List UInt8) (i : ℕ) : Bool := startsToken bytes i && runCheck "sk-" isOpenaiTail 20 bytes i

/-! ## Private keys -/

/-- `str::find`: the first place of a text. -/
def findText (needle : String) (bytes : List UInt8) : Option ℕ :=
  (List.range (bytes.length + 1)).find? (startsAt needle bytes)

/-- The marker in a line, if `PRIVATE KEY` is behind it. -/
def privateKeyIn (line : List UInt8) : Option ℕ := do
  let pos ← findText "-----BEGIN " line
  if (findText "PRIVATE KEY" (line.drop (pos + (ascii "-----BEGIN ").length))).isSome then some pos else none

/-- `has_private_key`. -/
def hasPrivateKey (text : String) : Bool := (lines text).any fun line => (privateKeyIn (ascii line)).isSome

/-- The loop of `find_private_key_offset`. -/
def privateKeyFrom : ℕ → List (List UInt8) → Option ℕ
  | _, [] => none
  | base, line :: rest =>
    match privateKeyIn line with
    | some pos => some (base + pos)
    | none => privateKeyFrom (base + line.length) rest

/-- `find_private_key_offset`. -/
def findPrivateKeyOffset (text : String) : Option ℕ := privateKeyFrom 0 ((splitInclusive '\n' text.toList).map utf8Bytes)

/-! ## Matchers -/

/-- `has_aws_key`. -/
def hasAwsKey : List UInt8 → Bool := anyPlace 20 4 awsCheck

/-- `find_aws_offset`. -/
def findAwsOffset : List UInt8 → Option ℕ := findPlace 20 4 awsCheck

/-- `has_github_token`. -/
def hasGithubToken : List UInt8 → Bool := anyPlace 4 4 (runCheck "ghp_" isGhpTail 36)

/-- `find_github_offset`. -/
def findGithubOffset : List UInt8 → Option ℕ := findPlace 4 4 (runCheck "ghp_" isGhpTail 36)

/-- `has_client_secret`. -/
def hasClientSecret : List UInt8 → Bool := anyPlace 13 13 (assignedCheck "client_secret")

/-- `find_client_secret_offset`. -/
def findClientSecretOffset : List UInt8 → Option ℕ := findPlace 13 13 (assignedCheck "client_secret")

/-- `has_slack_token`. -/
def hasSlackToken : List UInt8 → Bool := anyPlace 5 5 slackCheck

/-- `find_slack_offset`. -/
def findSlackOffset : List UInt8 → Option ℕ := findPlace 5 5 slackCheck

/-- `has_anthropic_key`. -/
def hasAnthropicKey : List UInt8 → Bool := anyPlace 8 7 anthropicCheck

/-- `find_anthropic_offset`. -/
def findAnthropicOffset : List UInt8 → Option ℕ := findPlace 8 7 anthropicCheck

/-- `has_openai_key`. -/
def hasOpenaiKey : List UInt8 → Bool := anyPlace 23 3 openaiCheck

/-- `find_openai_offset`. -/
def findOpenaiOffset : List UInt8 → Option ℕ := findPlace 23 3 openaiCheck

/-- `has_upstash_token`. -/
def hasUpstashToken : List UInt8 → Bool := anyPlace 24 24 (assignedCheck "UPSTASH_REDIS_REST_TOKEN")

/-- `find_upstash_offset`, which does not look at what is behind the name. -/
def findUpstashOffset : List UInt8 → Option ℕ := findPlace 24 24 (startsAt "UPSTASH_REDIS_REST_TOKEN")

/-- `scan_credentials`. -/
def scanCredentials (text : String) : List String :=
  let bytes := utf8Bytes text.toList
  (if hasAwsKey bytes then ["aws-access-key"] else []) ++
    (if hasGithubToken bytes then ["github-token"] else []) ++
    (if hasPrivateKey text then ["private-key"] else []) ++
    (if hasClientSecret bytes then ["client-secret"] else []) ++
    (if hasSlackToken bytes then ["slack-token"] else []) ++
    (if hasAnthropicKey bytes then ["anthropic-key"] else []) ++
    (if hasOpenaiKey bytes then ["openai-key"] else []) ++
    if hasUpstashToken bytes then ["upstash-token"] else []

/-- The offset that a preview asks for. -/
def offsetOf (content pattern : String) : Option ℕ :=
  let bytes := utf8Bytes content.toList
  if pattern = "aws-access-key" then findAwsOffset bytes
  else if pattern = "github-token" then findGithubOffset bytes
  else if pattern = "private-key" then findPrivateKeyOffset content
  else if pattern = "client-secret" then findClientSecretOffset bytes
  else if pattern = "slack-token" then findSlackOffset bytes
  else if pattern = "anthropic-key" then findAnthropicOffset bytes
  else if pattern = "openai-key" then findOpenaiOffset bytes
  else if pattern = "upstash-token" then findUpstashOffset bytes
  else none

/-- `credential_preview`. -/
def credentialPreview (content pattern : String) : String :=
  match (offsetOf content pattern).bind fun o => slice content o content.utf8ByteSize with
  | some tail => String.ofList (tail.toList.take 6) ++ "***"
  | none => String.ofList (content.toList.take 6) ++ "***"

end Innen.Credentials.Bytes
