import Innen.Common.Places
import Innen.Common.Text

/-!
# The credential scan

Eight patterns of secrets, each a check of the text from a place on (`At`). A pattern is in a text if its check passes
at some place of it, and the first such place is where the preview of a report starts. All the characters that the
patterns name are ASCII, so places are counted in characters.
-/

namespace Innen.Credentials

open Innen.Common

/-- A check at a place: from the character before it and the text from it on, the length of the match. -/
abbrev At := Option Char → List Char → Option ℕ

/-! ## Characters -/

/-- `is_aws_tail`. -/
def isAwsTail (c : Char) : Bool := c.isDigit || c.isUpper

/-- `is_ghp_tail`. -/
def isGhpTail (c : Char) : Bool := c.isDigit || c.isUpper || c.isLower

/-- `is_anthropic_tail`. -/
def isAnthropicTail (c : Char) : Bool := isGhpTail c || c == '-'

/-- `is_openai_tail`. -/
def isOpenaiTail (c : Char) : Bool := isGhpTail c || c == '_' || c == '-'

/-- `is_ascii_ws`. -/
def isAsciiWs (c : Char) : Bool := c == ' ' || c == '\t' || c == '\n' || c == '\r' || c == '\x0b' || c == '\x0c'

/-- `starts_token`: the character before is not one of a word. -/
def startsToken (before : Option Char) : Bool := !before.any isOpenaiTail

/-! ## Checks -/

/-- What follows a text. -/
def behind (needle : String) (text : List Char) : Option (List Char) :=
  if needle.toList.isPrefixOf text then some (text.drop needle.toList.length) else none

/-- A text with a run of characters behind it. -/
def runAt (needle : String) (isTail : Char → Bool) (least : ℕ) (text : List Char) : Option ℕ := do
  let tail ← behind needle text
  let run := (tail.takeWhile isTail).length
  if least ≤ run then some (needle.toList.length + run) else none

/-- A text that is assigned to: white space, and then a colon or an equals sign. -/
def assignedAt (needle : String) (text : List Char) : Option ℕ := do
  let tail ← behind needle text
  let space := (tail.takeWhile isAsciiWs).length
  if (tail.drop space).head?.any fun c => c == ':' || c == '=' then some (needle.toList.length + space + 1) else none

/-- `AKIA[0-9A-Z]\x7b16\x7d`. -/
def awsAt : At := fun _ text => do
  let tail ← behind "AKIA" text
  if 16 ≤ tail.length ∧ (tail.take 16).all isAwsTail then some 20 else none

/-- `ghp_[A-Za-z0-9]\x7b36,\x7d`. -/
def githubAt : At := fun _ => runAt "ghp_" isGhpTail 36

/-- `client_secret\s*[:=]`. -/
def clientSecretAt : At := fun _ => assignedAt "client_secret"

/-- `xox[bap]-`. -/
def slackAt : At := fun _ text =>
  if (behind "xoxb-" text).isSome ∨ (behind "xoxa-" text).isSome ∨ (behind "xoxp-" text).isSome then some 5 else none

/-- `sk-ant-[A-Za-z0-9-]+` at the start of a token. -/
def anthropicAt : At := fun before text =>
  if startsToken before then runAt "sk-ant-" isAnthropicTail 1 text else none

/-- `sk-` and a long tail at the start of a token. -/
def openaiAt : At := fun before text => if startsToken before then runAt "sk-" isOpenaiTail 20 text else none

/-- `UPSTASH_REDIS_REST_TOKEN\s*[:=]`. -/
def upstashAt : At := fun _ => assignedAt "UPSTASH_REDIS_REST_TOKEN"

/-! ## Scanning -/

/-- The first place where a check passes. -/
def firstPlace (check : At) : Option Char → List Char → Option ℕ
  | before, [] => if (check before []).isSome then some 0 else none
  | before, c :: cs =>
    if (check before (c :: cs)).isSome then some 0 else (firstPlace check (some c) cs).map (· + 1)

/-- Where the marker of a private key is in a line, if `PRIVATE KEY` is behind it. -/
def privateKeyIn (line : List Char) : Option ℕ := do
  let marker ← findChars "-----BEGIN ".toList line
  if (findChars "PRIVATE KEY".toList (line.drop (marker + 11))).isSome then some marker else none

/-- `has_private_key`. -/
def hasPrivateKey (text : List Char) : Bool := (linesOf text).any fun line => (privateKeyIn line).isSome

/-- `find_private_key_offset` on the lines that are left. -/
def privateKeyOffset : ℕ → List (List Char) → Option ℕ
  | _, [] => none
  | base, line :: rest =>
    match privateKeyIn line with
    | some marker => some (base + marker)
    | none => privateKeyOffset (base + line.length) rest

/-- Whether a check passes somewhere. -/
def has (check : At) (text : List Char) : Bool := (firstPlace check none text).isSome

/-- `scan_credentials`: the names of the patterns that match, in this order. -/
def scanCredentials (text : List Char) : List String :=
  [("aws-access-key", has awsAt text), ("github-token", has githubAt text), ("private-key", hasPrivateKey text),
    ("client-secret", has clientSecretAt text), ("slack-token", has slackAt text),
    ("anthropic-key", has anthropicAt text), ("openai-key", has openaiAt text),
    ("upstash-token", has upstashAt text)].filterMap fun (hit : String × Bool) => if hit.2 then some hit.1 else none

/-- Where the preview of a pattern starts. The one of `upstash-token` does not look behind the name. -/
def previewOffset (content : List Char) (pattern : String) : Option ℕ :=
  if pattern = "aws-access-key" then firstPlace awsAt none content
  else if pattern = "github-token" then firstPlace githubAt none content
  else if pattern = "private-key" then privateKeyOffset 0 (splitInclusive '\n' content)
  else if pattern = "client-secret" then firstPlace clientSecretAt none content
  else if pattern = "slack-token" then firstPlace slackAt none content
  else if pattern = "anthropic-key" then firstPlace anthropicAt none content
  else if pattern = "openai-key" then firstPlace openaiAt none content
  else if pattern = "upstash-token" then findChars "UPSTASH_REDIS_REST_TOKEN".toList content
  else none

/-- `credential_preview`. -/
def credentialPreview (content : String) (pattern : String) : String :=
  String.ofList ((content.toList.drop ((previewOffset content.toList pattern).getD 0)).take 6) ++ "***"

end Innen.Credentials
