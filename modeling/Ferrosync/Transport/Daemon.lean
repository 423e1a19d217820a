import Ferrosync.Lib.Utf8
import Ferrosync.Server.Listener

set_option autoImplicit false

/-! # The client's side of the daemon protocol

The transport reads the daemon's greeting with the digests it offers, sends its own, asks for a
module and answers a challenge, with the digest it picks from the offer.

The daemon of this repository offers no digest in its greeting, so the transport falls back to
MD4, and the daemon compares with MD5: an answer with the right password is accepted exactly if
the two digests agree on it (`response_accepted_iff`).
-/

namespace Ferrosync.Transport

open Server (Digests)

def maxLineLength : Nat := 8192

def daemonProtocolVersion : Nat := 32

def daemonSubProtocolVersion : Nat := 0

/-- `AUTH_DIGEST_LIST`, in the order of preference. -/
def authDigestList : Text := "md5 md4".toList

inductive TransportError where
  | connectionFailed (message : Text)
  | authFailed (message : Text)
  | moduleNotFound (module : Text)
  deriving DecidableEq, Repr

/-! ## Lines -/

/-- Unlike the daemon's, this reader takes any bytes. The text of the error for a long line also
tells its length if the line feed came with the last read. -/
def readLine (input : List UInt8) : Except TransportError (Text × List UInt8) :=
  let raw := (Text.takeLine input).1
  if raw = [] then
    .error (.connectionFailed "daemon closed connection unexpectedly".toList)
  else if maxLineLength < raw.length then
    .error (.connectionFailed "daemon sent line exceeding maximum length (8192 bytes)".toList)
  else .ok (Text.stripLast '\r' (Text.stripLast '\n' (Text.fromUtf8Lossy raw)), (Text.takeLine input).2)

theorem readLine_rest_length {input rest : List UInt8} {line : Text}
    (h : readLine input = .ok (line, rest)) : rest.length < input.length := by
  unfold readLine at h
  dsimp only at h
  split_ifs at h with hnil hlong
  obtain ⟨-, rfl⟩ := Prod.mk.inj (Except.ok.inj h)
  have hlen := Text.length_takeLine input
  have hpos := List.length_pos_of_ne_nil hnil
  omega

theorem readLine_encode_append {t : Text} (hnl : '\n' ∉ t) (hcr : t.getLast? ≠ some '\r')
    (hlen : (Text.encode t).length < maxLineLength) (rest : List UInt8) :
    readLine (Text.encode (t ++ ['\n']) ++ rest) = .ok (t, rest) := by
  have hline := Text.encode_line t
  have hne : Text.encode (t ++ ['\n']) ≠ [] := by simp [hline]
  have hshort : ¬ maxLineLength < (Text.encode (t ++ ['\n'])).length := by
    simp [hline]
    omega
  have hstrip : Text.stripLast '\r' (Text.stripLast '\n' (t ++ ['\n'])) = t := by
    simp [Text.stripLast, hcr]
  simp only [readLine, Text.takeLine_encode hnl rest, if_neg hne, if_neg hshort, Text.fromUtf8Lossy,
    Text.decode_encode, hstrip]

/-! ## Greetings and digests -/

inductive AuthDigest where
  | md4
  | md5
  deriving DecidableEq, Repr

structure DaemonGreeting where
  version : UInt8
  digestList : List Text
  deriving DecidableEq, Repr

/-- The greeting's line: the version, then the names of the digests. -/
def parseGreeting (line : Text) : Except TransportError DaemonGreeting :=
  if ¬ "@RSYNCD: ".toList <+: line then
    .error (.connectionFailed ("expected daemon greeting, got: ".toList ++ line))
  else
    let versionStr := Text.trim (Text.trimStartMatches "@RSYNCD: ".toList line)
    let tokens := Text.splitWhitespace versionStr
    let verToken := tokens.headD versionStr
    let major := (Text.split (· == '.') verToken).headD verToken
    match Text.parseU8 major with
    | some version => .ok ⟨version, tokens.tail⟩
    | none => .error (.connectionFailed ("invalid daemon version: ".toList ++ versionStr))

def readGreeting (input : List UInt8) : Except TransportError (DaemonGreeting × List UInt8) := do
  let (line, rest) ← readLine input
  let greeting ← parseGreeting line
  return (greeting, rest)

def clientGreeting : Text :=
  "@RSYNCD: ".toList ++ (Nat.repr daemonProtocolVersion).toList ++ ['.'] ++
    (Nat.repr daemonSubProtocolVersion).toList ++ [' '] ++ authDigestList ++ ['\n']

def AuthDigest.ofName (name : Text) : Option AuthDigest :=
  if name = "md5".toList then some .md5 else if name = "md4".toList then some .md4 else none

/-- The first of our digests that the server offers; MD4 if it offers none. -/
def negotiateAuthDigest (serverDigests : List Text) : AuthDigest :=
  if serverDigests = [] then .md4
  else
    let common := (Text.splitWhitespace authDigestList).filter (· ∈ serverDigests)
    (common.findSome? AuthDigest.ofName).getD .md4

def AuthDigest.hash (digests : Digests) : AuthDigest → List UInt8 → Server.Digest16
  | .md4 => digests.md4
  | .md5 => digests.md5

def computeAuthResponse (digests : Digests) (challenge user password : Text)
    (digest : AuthDigest) : Text :=
  let hash := digest.hash digests (Server.padPassword password ++ Text.encode challenge)
  user ++ [' '] ++ Base64.encode hash ++ ['\n']

/-! ## Connecting -/

structure DaemonTransportConfig where
  module : Text
  path : Text
  user : Option Text
  password : Option Text
  amSender : Bool
  options : List Text

def buildArgs (config : DaemonTransportConfig) : List Text :=
  ["--server".toList] ++ (if config.amSender then [] else ["--sender".toList]) ++ config.options ++
    [['.'], if config.path = [] then ['.'] else config.path]

/-- What the client wrote, and the daemon's bytes after the handshake. -/
structure Handshake where
  sent : List Text
  outcome : Except TransportError (List UInt8)

def Handshake.after (sent : List Text) (h : Handshake) : Handshake :=
  { h with sent := sent ++ h.sent }

/-- Step 4: the arguments, and an empty line. -/
def sendArgs (config : DaemonTransportConfig) (input : List UInt8) : Handshake where
  sent := (buildArgs config).map (· ++ ['\n']) ++ [['\n']]
  outcome := .ok input

/-- The challenge of a line that asks for authentication. -/
def challengeOf (line : Text) : Text :=
  Text.trim (Text.trimStartMatches "@RSYNCD: AUTHREQD ".toList line)

/-- The result of the authentication. -/
def readAuthResult (config : DaemonTransportConfig) (input : List UInt8) : Handshake :=
  match readLine input with
  | .error e => ⟨[], .error e⟩
  | .ok (authLine, rest) =>
    if "@RSYNCD: OK".toList <+: authLine then sendArgs config rest
    else if "@ERROR:".toList <+: authLine then
      let msg := Text.trim (Text.trimStartMatches "@ERROR:".toList authLine)
      if "auth failed".toList <:+: msg then
        ⟨[], .error (.authFailed ("authentication failed on module ".toList ++ config.module))⟩
      else ⟨[], .error (.connectionFailed msg)⟩
    else ⟨[], .error (.authFailed ("unexpected response after auth: ".toList ++ authLine))⟩

/-- Step 3: lines of the daemon until it takes the module, asks for a password or refuses. Other
lines are its message of the day. -/
def awaitModule (digests : Digests) (config : DaemonTransportConfig) (remote : DaemonGreeting)
    (input : List UInt8) : Handshake :=
  match _h : readLine input with
  | .error e => ⟨[], .error e⟩
  | .ok (line, rest) =>
    if "@RSYNCD: OK".toList <+: line then sendArgs config rest
    else if "@RSYNCD: AUTHREQD ".toList <+: line then
      let response := computeAuthResponse digests (challengeOf line) (config.user.getD [])
        (config.password.getD []) (negotiateAuthDigest remote.digestList)
      (readAuthResult config rest).after [response]
    else if "@ERROR:".toList <+: line then
      let msg := Text.trim (Text.trimStartMatches "@ERROR:".toList line)
      if "Unknown module".toList <:+: msg then ⟨[], .error (.moduleNotFound config.module)⟩
      else ⟨[], .error (.connectionFailed msg)⟩
    else if "@RSYNCD: EXIT".toList <+: line then
      ⟨[], .error (.connectionFailed
        "daemon sent EXIT before module selection completed".toList)⟩
    else awaitModule digests config remote rest
termination_by input.length
decreasing_by exact readLine_rest_length _h

/-- `connect`, as a function of the bytes the daemon sends. -/
def connect (digests : Digests) (config : DaemonTransportConfig) (input : List UInt8) : Handshake :=
  match readGreeting input with
  | .error e => ⟨[], .error e⟩
  | .ok (remote, rest) =>
    (awaitModule digests config remote rest).after [clientGreeting, config.module ++ ['\n']]

/-! ## The daemon's greeting and challenge -/

/-- The greeting of this daemon offers no digests. -/
theorem parseGreeting_daemon : parseGreeting "@RSYNCD: 32.0".toList = .ok ⟨32, []⟩ := by
  have htrim : Text.trimStartMatches "@RSYNCD: ".toList "@RSYNCD: 32.0".toList = "32.0".toList := by
    show Text.trimStartMatches "@RSYNCD: ".toList ("@RSYNCD: ".toList ++ "32.0".toList) = _
    rw [Text.trimStartMatches_append (by decide), Text.trimStartMatches_of_not_prefix (by decide)]
  rw [parseGreeting, htrim]
  decide

theorem readGreeting_daemon (rest : List UInt8) :
    readGreeting (Text.encode Server.Reply.greeting.render ++ rest) = .ok (⟨32, []⟩, rest) := by
  have hline : readLine (Text.encode Server.Reply.greeting.render ++ rest) =
      .ok ("@RSYNCD: 32.0".toList, rest) := by
    exact readLine_encode_append (by decide) (by decide) (by decide) rest
  simp only [readGreeting, hline, bind, Except.bind, parseGreeting_daemon]
  rfl

section Challenge
variable (raw : List UInt8)

theorem challengeOf_encode :
    challengeOf ("@RSYNCD: AUTHREQD ".toList ++ Base64.encode raw) = Base64.encode raw := by
  have hstart : ¬ "@RSYNCD: AUTHREQD ".toList <+: Base64.encode raw := by
    intro hinitial
    have hmem : ' ' ∈ Base64.encode raw := hinitial.subset (by decide)
    have := Base64.not_whitespace_of_mem_encode hmem
    simp [Text.isWhitespace] at this
  rw [challengeOf, Text.trimStartMatches_append (by decide),
    Text.trimStartMatches_of_not_prefix hstart]
  apply Text.trim_eq_self
  · intro c hc
    exact Base64.not_whitespace_of_mem_encode (List.mem_of_mem_head? hc)
  · intro c hc
    exact Base64.not_whitespace_of_mem_encode (List.mem_of_getLast? hc)

/-- The client reads the line with which the daemon asks for authentication. -/
theorem readLine_authRequired (hraw : raw.length = 16) (rest : List UInt8) :
    readLine (Text.encode (Server.Reply.authRequired (Base64.encode raw)).render ++ rest) =
      .ok ("@RSYNCD: AUTHREQD ".toList ++ Base64.encode raw, rest) := by
  have hspace : ∀ c ∈ Base64.encode raw, Text.isWhitespace c = false :=
    fun c hc => Base64.not_whitespace_of_mem_encode hc
  have hne : Base64.encode raw ≠ [] := Base64.encode_ne_nil (by rintro rfl; cases hraw)
  -- no newline within the line, no carriage return at its end, and not too long
  have hnl : '\n' ∉ "@RSYNCD: AUTHREQD ".toList ++ Base64.encode raw := by
    intro hmem
    rcases List.mem_append.mp hmem with h | h
    · exact absurd h (by decide)
    · exact absurd (hspace _ h) (by decide)
  have hcr : ("@RSYNCD: AUTHREQD ".toList ++ Base64.encode raw).getLast? ≠ some '\r' := by
    rw [List.getLast?_append_of_ne_nil _ hne]
    intro hlast
    exact absurd (hspace _ (List.mem_of_getLast? hlast)) (by decide)
  refine readLine_encode_append hnl hcr ?_ rest
  have hbytes := Text.length_encode_le ("@RSYNCD: AUTHREQD ".toList ++ Base64.encode raw)
  have hchars : ("@RSYNCD: AUTHREQD ".toList ++ Base64.encode raw).length = 42 := by
    simp [Base64.length_encode, hraw]
  have hlimit : maxLineLength = 8192 := rfl
  omega

end Challenge

/-- What the daemon sends up to its challenge. -/
def daemonHello (challenge : Text) : List UInt8 :=
  Text.encode Server.Reply.greeting.render ++
    Text.encode (Server.Reply.authRequired challenge).render

/-- The client's answer to this daemon is made with MD4. -/
theorem connect_response (digests : Digests) (config : DaemonTransportConfig) {raw : List UInt8}
    (hraw : raw.length = 16) (rest : List UInt8) :
    (connect digests config (daemonHello (Base64.encode raw) ++ rest)).sent[2]? =
      some (computeAuthResponse digests (Base64.encode raw) (config.user.getD [])
        (config.password.getD []) .md4) := by
  have hok : ¬ "@RSYNCD: OK".toList <+: "@RSYNCD: AUTHREQD ".toList ++ Base64.encode raw := by
    intro h
    have := h.getElem (i := 9) (by decide)
    simp at this
  rw [connect, daemonHello, List.append_assoc, readGreeting_daemon]
  dsimp only
  rw [awaitModule]
  -- the two branches of the read: this line is read, and it asks for authentication
  split
  · next e he =>
      rw [readLine_authRequired raw hraw rest] at he
      cases he
  · next line input he =>
      rw [readLine_authRequired raw hraw rest] at he
      obtain ⟨rfl, rfl⟩ := Prod.mk.inj (Except.ok.inj he)
      rw [if_neg hok, challengeOf_encode]
      rfl

/-! ## What the daemon makes of the answer -/

open Server (verifyResponse parseAuthResponse secretsEntry PasswordOf)

/-- The daemon takes the client's line `response` as the right answer to its challenge. -/
def Accepts (digests : Digests) (readToString : Server.PathBuf → Except IoKind Text)
    (secretsPath : Server.PathBuf) (challenge response : Text) : Prop :=
  ∃ user hash, parseAuthResponse response = .ok (user, hash) ∧
    verifyResponse digests readToString user hash challenge secretsPath = .ok ()

/-- The secrets file holds the line `user:password`, and no entry of the user before it. -/
def HoldsSecret (content user password : Text) : Prop :=
  ∃ before after, Text.lines content = before ++ (user ++ ':' :: password) :: after ∧
    ∀ earlier ∈ before, ∀ other, secretsEntry earlier ≠ some (user, other)

/-- A user name the secrets file and the protocol can carry: a blank ends it on the wire, a colon
ends it in the file, and a line that starts with `#` is a comment there. -/
structure UserName (user : Text) : Prop where
  ne_nil : user ≠ []
  not_space : ∀ c ∈ user, Text.isWhitespace c = false
  not_colon : ':' ∉ user
  not_comment : user.head? ≠ some '#'

section Accept
variable {user password content : Text}

theorem UserName.head_not_space (huser : UserName user) (t : Text) :
    ∀ c ∈ (user ++ t).head?, Text.isWhitespace c = false := by
  intro c hc
  cases hu : user with
  | nil => exact absurd hu huser.ne_nil
  | cons a as =>
    have hac : a = c := by simpa [hu] using hc
    rw [← hac]
    exact huser.not_space a (by simp [hu])

/-- The line of a user and password is an entry with that user and password. -/
theorem secretsEntry_line (huser : UserName user) (hpass : password ≠ [])
    (htrim : Text.trim password = password) :
    secretsEntry (user ++ ':' :: password) = some (user, password) := by
  -- trimming the line and its parts changes nothing, and the first colon is the one behind the user
  have hline : Text.trim (user ++ ':' :: password) = user ++ ':' :: password := by
    apply Text.trim_eq_self (huser.head_not_space _)
    intro c hc
    have hlast : password.getLast? = some c := by
      have hsplit : user ++ ':' :: password = (user ++ [':']) ++ password := by simp
      rw [hsplit, List.getLast?_append_of_ne_nil _ hpass] at hc
      exact hc
    exact Text.last_trim (by rw [htrim]; exact hlast)
  have hname : Text.trim user = user := by
    apply Text.trim_eq_self
    · intro c hc
      exact huser.not_space c (List.mem_of_mem_head? hc)
    · intro c hc
      exact huser.not_space c (List.mem_of_getLast? hc)
  have hhead : (user ++ ':' :: password).head? ≠ some '#' := by
    intro hc
    cases hu : user with
    | nil => exact absurd hu huser.ne_nil
    | cons a as =>
      have hac : a = '#' := by simpa [hu] using hc
      exact huser.not_comment (by simp [hu, hac])
  have hentry : ¬ (user ++ ':' :: password = [] ∨ (user ++ ':' :: password).head? = some '#') := by
    rintro (h | h)
    · simp at h
    · exact hhead h
  simp only [secretsEntry, hline]
  rw [if_neg hentry, Text.splitOnce_append huser.not_colon]
  simp [hname, htrim]

theorem passwordOf_iff_of_holds (huser : UserName user) (hpass : password ≠ [])
    (htrim : Text.trim password = password) (hholds : HoldsSecret content user password)
    (other : Text) : PasswordOf content user other ↔ other = password := by
  obtain ⟨before, after, hlines, hfirst⟩ := hholds
  have hthis : PasswordOf content user password :=
    ⟨before, _, after, hlines, secretsEntry_line huser hpass htrim, hfirst⟩
  constructor
  · intro hother
    rw [← Server.findPassword_eq_some_iff] at hthis hother
    simpa [hthis] using hother.symm
  · rintro rfl
    exact hthis

theorem parseAuthResponse_compute (digests : Digests) (huser : UserName user)
    (challenge password : Text) (digest : AuthDigest) :
    parseAuthResponse (computeAuthResponse digests challenge user password digest) =
      .ok (user, Base64.encode (digest.hash digests
        (Server.padPassword password ++ Text.encode challenge))) := by
  generalize hhash : digest.hash digests (Server.padPassword password ++ Text.encode challenge) = hash
  have hne : Base64.encode hash.val ≠ [] := by
    apply Base64.encode_ne_nil
    intro hnil
    have := hash.property
    simp [hnil] at this
  -- the answer ends with the digest, which has no blank to be trimmed
  have hlast : ∀ c ∈ (user ++ ' ' :: Base64.encode hash.val).getLast?,
      Text.isWhitespace c = false := by
    intro c hc
    have hsplit : user ++ ' ' :: Base64.encode hash.val = (user ++ [' ']) ++ Base64.encode hash.val := by
      simp
    rw [hsplit, List.getLast?_append_of_ne_nil _ hne] at hc
    exact Base64.not_whitespace_of_mem_encode (List.mem_of_getLast? hc)
  have hline : computeAuthResponse digests challenge user password digest =
      user ++ ' ' :: Base64.encode hash.val ++ ['\n'] := by
    simp [computeAuthResponse, hhash]
  have hspace : ' ' ∉ user := fun h => absurd (huser.not_space _ h) (by decide)
  refine (Server.parseAuthResponse_eq_ok_iff _ _ _).mpr ⟨?_, hspace, huser.ne_nil, hne⟩
  rw [hline, Text.trim_append_newline (huser.head_not_space _) hlast]

/-- The daemon accepts an MD4 answer exactly if it is also the MD5 answer. -/
theorem accepts_md4_iff (digests : Digests) {readToString : Server.PathBuf → Except IoKind Text}
    {secretsPath : Server.PathBuf} (challenge : Text) (huser : UserName user)
    (hpass : password ≠ []) (htrim : Text.trim password = password)
    (hread : readToString secretsPath = .ok content) (hholds : HoldsSecret content user password) :
    Accepts digests readToString secretsPath challenge
        (computeAuthResponse digests challenge user password .md4) ↔
      digests.md4 (Server.padPassword password ++ Text.encode challenge) =
        digests.md5 (Server.padPassword password ++ Text.encode challenge) := by
  have hpassword := passwordOf_iff_of_holds huser hpass htrim hholds
  -- the daemon compares texts; they are the same if the digests are
  have hencode : ∀ a b : Server.Digest16, Base64.encode a = Base64.encode b ↔ a = b := by
    intro a b
    constructor
    · intro h
      exact Subtype.ext (Base64.encode_inj (a.property.trans b.property.symm) h)
    · rintro rfl
      rfl
  unfold Accepts
  rw [parseAuthResponse_compute digests huser]
  simp only [Except.ok.injEq, Prod.mk.injEq, Server.verifyResponse_eq_ok_iff, hread,
    AuthDigest.hash]
  constructor
  · rintro ⟨u, hash, ⟨rfl, rfl⟩, c, p, rfl, hp, hsame⟩
    rw [hpassword] at hp
    subst hp
    exact (hencode _ _).mp hsame
  · intro hsame
    exact ⟨user, _, ⟨rfl, rfl⟩, content, password, rfl, (hpassword password).mpr rfl,
      (hencode _ _).mpr hsame⟩

end Accept

/-- **Client and daemon agree on the password** exactly as far as the two digests agree: the
answer of the transport to this daemon's greeting and challenge, with the user and password that
the secrets file holds, is accepted if and only if MD4 and MD5 of the padded password and the
challenge are the same. -/
theorem response_accepted_iff (digests : Digests) (seed : Server.ChallengeSeed)
    (config : DaemonTransportConfig) (rest : List UInt8)
    (readToString : Server.PathBuf → Except IoKind Text) (secretsPath : Server.PathBuf)
    (user password content : Text) (hconfig : config.user = some user ∧ config.password = some password)
    (huser : UserName user) (hpass : password ≠ []) (htrim : Text.trim password = password)
    (hread : readToString secretsPath = .ok content) (hholds : HoldsSecret content user password) :
    (∃ response,
      (connect digests config
        (daemonHello (Server.generateChallenge digests seed) ++ rest)).sent[2]? = some response ∧
      Accepts digests readToString secretsPath (Server.generateChallenge digests seed) response) ↔
      digests.md4 (Server.padPassword password ++
          Text.encode (Server.generateChallenge digests seed)) =
        digests.md5 (Server.padPassword password ++
          Text.encode (Server.generateChallenge digests seed)) := by
  -- the third message of the client is its answer
  have hsent : (connect digests config
      (daemonHello (Server.generateChallenge digests seed) ++ rest)).sent[2]? =
        some (computeAuthResponse digests (Server.generateChallenge digests seed) user password
          .md4) := by
    obtain ⟨raw, hraw, hchallenge⟩ := Server.generateChallenge_eq digests seed
    rw [hchallenge, connect_response digests config hraw rest, hconfig.1, hconfig.2]
    rfl
  rw [hsent, ← accepts_md4_iff digests _ huser hpass htrim hread hholds]
  simp

/-! A user `al` with the password `pw`, in a file that holds them after a comment. -/

def alConfig : DaemonTransportConfig where
  module := ['m']
  path := []
  user := some "al".toList
  password := some "pw".toList
  amSender := false
  options := []

def alSecrets : Text := "# secrets\nal:pw\n".toList

def seed0 : Server.ChallengeSeed := ⟨0, 0, 0, 0⟩

theorem userName_al : UserName "al".toList where
  ne_nil := by decide
  not_space := by simp [Text.isWhitespace]
  not_colon := by decide
  not_comment := by decide

theorem holdsSecret_al : HoldsSecret alSecrets "al".toList "pw".toList := by
  refine ⟨["# secrets".toList], [], by decide, ?_⟩
  intro earlier hmem other
  rw [List.mem_singleton.mp hmem]
  have hnone : secretsEntry "# secrets".toList = none := by decide
  exact Option.some_ne_none _ ∘ Eq.symm

theorem response_accepted_al :
    ∃ response,
      (connect Server.zeroDigests alConfig
        (daemonHello (Server.generateChallenge Server.zeroDigests seed0) ++ [])).sent[2]? =
          some response ∧
      Accepts Server.zeroDigests (fun _ => .ok alSecrets) []
        (Server.generateChallenge Server.zeroDigests seed0) response :=
  (response_accepted_iff Server.zeroDigests seed0 alConfig [] (fun _ => .ok alSecrets) []
    "al".toList "pw".toList alSecrets ⟨rfl, rfl⟩ userName_al (by decide) (by decide) rfl
    holdsSecret_al).mpr rfl

/-- Two digests that differ everywhere. -/
def unlikeDigests : Digests where
  md4 _ := ⟨List.replicate 16 4, rfl⟩
  md5 _ := ⟨List.replicate 16 5, rfl⟩

/-- The right password is refused. -/
theorem right_password_refused :
    ∃ response,
      (connect unlikeDigests alConfig
        (daemonHello (Server.generateChallenge unlikeDigests seed0))).sent[2]? = some response ∧
      ¬ Accepts unlikeDigests (fun _ => .ok alSecrets) []
        (Server.generateChallenge unlikeDigests seed0) response := by
  refine ⟨computeAuthResponse unlikeDigests (Server.generateChallenge unlikeDigests seed0)
    "al".toList "pw".toList .md4, ?_, ?_⟩
  · obtain ⟨raw, hraw, hchallenge⟩ := Server.generateChallenge_eq unlikeDigests seed0
    have hsent := connect_response unlikeDigests alConfig hraw []
    rw [← hchallenge] at hsent
    exact hsent
  · intro haccepts
    have hread : (fun _ => Except.ok alSecrets : Server.PathBuf → Except IoKind Text) [] =
        .ok alSecrets := rfl
    have hsame := (accepts_md4_iff unlikeDigests _ userName_al (by decide) (by decide) hread
      holdsSecret_al).mp haccepts
    exact absurd hsame (by decide)

end Ferrosync.Transport
