import Ferrosync.Server.Auth

set_option autoImplicit false

/-! # The daemon's connection handler

The text protocol a client goes through before a session starts: greetings, message of the
day, module selection, host rules, authentication. A connection is a function of the bytes the
client sends; it gives the replies and how it ends.

Authentication is sound, whatever the client sends, exactly if the module has a secrets file
and names at least one user (`auth_sound_iff`): a missing secrets file skips the check of the
response, and a user list without a name skips the check of the user.
-/

namespace Ferrosync.Server

/-! ## Lines -/

/-- `MAX_LINE_LENGTH`, in bytes. -/
def maxLineLength : Nat := 8192

inductive ConnError where
  | closed
  | invalidData
  | lineTooLong (length : Nat)
  | invalidGreeting (greeting : Text)
  | invalidVersion (version : Text)
  | overflow
  deriving DecidableEq, Repr

def readLine (input : List UInt8) : Except ConnError (Text × List UInt8) :=
  let raw := (Text.takeLine input).1
  match Text.decode raw with
  | none => .error .invalidData
  | some line =>
    if raw = [] then .error .closed
    else if maxLineLength < raw.length then .error (.lineTooLong raw.length)
    else .ok (Text.stripLast '\r' (Text.stripLast '\n' line), (Text.takeLine input).2)

/-- What a line that is read tells of the bytes: it takes some, and is not longer than they
are. -/
theorem readLine_ok {input rest : List UInt8} {line : Text} (h : readLine input = .ok (line, rest)) :
    rest.length < input.length ∧ (Text.encode line).length ≤ maxLineLength := by
  unfold readLine at h
  dsimp only at h
  cases hdec : Text.decode (Text.takeLine input).1 with
  | none => simp [hdec] at h
  | some raw =>
    rw [hdec] at h
    split_ifs at h with hnil hlong
    obtain ⟨rfl, rfl⟩ := Prod.mk.inj (Except.ok.inj h)
    have hlen := Text.length_takeLine input
    have hpos := List.length_pos_of_ne_nil hnil
    -- what is cut off the end of the line makes it shorter only
    have hstrip : ∀ (c : Char) (t : Text), Text.stripLast c t <:+: t := by
      intro c t
      unfold Text.stripLast
      split_ifs
      · exact (List.dropLast_prefix t).isInfix
      · exact List.infix_refl t
    have hinfix : Text.stripLast '\r' (Text.stripLast '\n' raw) <:+: raw :=
      (hstrip _ _).trans (hstrip _ _)
    have hbytes := (Text.encode_infix hinfix).length_le
    simp [Text.encode_of_decode hdec] at hbytes
    omega

/-- A text that is sent as the last line, without a line feed, is read. -/
theorem readLine_encode {t : Text} (hne : t ≠ []) (hnl : '\n' ∉ t) (hcr : t.getLast? ≠ some '\r')
    (hlen : (Text.encode t).length ≤ maxLineLength) : readLine (Text.encode t) = .ok (t, []) := by
  have htake := Text.takeLine_of_not_mem (Text.not_mem_encode (by decide) hnl)
  have hbytes : Text.encode t ≠ [] := by
    intro h
    have := Text.one_le_length_encode hne
    simp [h] at this
  have hlast : t.getLast? ≠ some '\n' := fun h => hnl (List.mem_of_getLast? h)
  simp [readLine, htake, Text.decode_encode, hbytes, Nat.not_lt.mpr hlen, Text.stripLast, hlast, hcr]

/-- A text that is sent with a line feed is read, and no more. -/
theorem readLine_encode_append {t : Text} (hnl : '\n' ∉ t) (hcr : t.getLast? ≠ some '\r')
    (hlen : (Text.encode t).length < maxLineLength) (rest : List UInt8) :
    readLine (Text.encode (t ++ ['\n']) ++ rest) = .ok (t, rest) := by
  have htake := Text.takeLine_encode hnl rest
  have hline := Text.encode_line t
  have hshort : ¬ maxLineLength < (Text.encode (t ++ ['\n'])).length := by
    simp [hline]
    omega
  have hbytes : Text.encode (t ++ ['\n']) ≠ [] := by simp [hline]
  have hstrip : Text.stripLast '\r' (Text.stripLast '\n' (t ++ ['\n'])) = t := by
    simp [Text.stripLast, hcr]
  simp only [readLine, htake, Text.decode_encode, if_neg hbytes, if_neg hshort, hstrip]

/-! ## Replies -/

/-- `MAX_PROTOCOL_VERSION` and its sub-version. -/
def daemonProtocolVersion : Nat := 32

def daemonSubProtocolVersion : Nat := 0

/-- What the daemon writes to the client during the text protocol. -/
inductive Reply where
  | greeting
  | startupError
  | motd (line : Text)
  | listing (name comment : Text)
  | exit
  | unknownCommand (command : Text)
  | unknownModule (name : Text)
  | accessDenied (name ip : Text)
  | authRequired (challenge : Text)
  | authFailed (name : Text)
  | ok
  deriving DecidableEq, Repr

def Reply.render : Reply → Text
  | .greeting => "@RSYNCD: ".toList ++ (Nat.repr daemonProtocolVersion).toList ++ ['.'] ++
      (Nat.repr daemonSubProtocolVersion).toList ++ ['\n']
  | .startupError => "@ERROR: protocol startup error\n".toList
  | .motd line => line ++ ['\n']
  | .listing name comment => name ++ ['\t'] ++ comment ++ ['\n']
  | .exit => "@RSYNCD: EXIT\n".toList
  | .unknownCommand command => "@ERROR: Unknown command '".toList ++ command ++ "'\n".toList
  | .unknownModule name => "@ERROR: Unknown module '".toList ++ name ++ "'\n".toList
  | .accessDenied name ip => "@ERROR: access denied to ".toList ++ name ++ " from ".toList ++ ip ++
      " (".toList ++ ip ++ ")\n".toList
  | .authRequired challenge => "@RSYNCD: AUTHREQD ".toList ++ challenge ++ ['\n']
  | .authFailed name => "@ERROR: auth failed on module ".toList ++ name ++ ['\n']
  | .ok => "@RSYNCD: OK\n".toList

def parseVersion (greeting : Text) : Except ConnError UInt8 :=
  let versionStr := Text.trim (Text.trimStartMatches "@RSYNCD: ".toList greeting)
  let major := (Text.split (· == '.') versionStr).headD versionStr
  let major := (Text.splitWhitespace major).headD major
  match Text.parseU8 major with
  | some version => .ok version
  | none => .error (.invalidVersion versionStr)

/-! ## The handler -/

/-- What a connection reads besides the client's bytes. -/
structure Daemon where
  digests : Digests
  readToString : PathBuf → Except IoKind Text
  registry : ModuleRegistry
  motd : Option Text
  overflowChecks : Bool

/-- What is handed to the session: the module, the client's arguments and the bytes after
them. -/
structure SessionStart where
  module : Module
  args : List Text
  input : List UInt8

/-- What was written, and how the handshake ended: with an error, with the connection closed,
or with a session. -/
structure Transcript where
  sent : List Reply
  outcome : Except ConnError (Option SessionStart)

def Transcript.after (sent : List Reply) (t : Transcript) : Transcript :=
  { t with sent := sent ++ t.sent }

/-- The arguments: the lines up to an empty one. -/
def readArgs (input : List UInt8) : Except ConnError (List Text × List UInt8) :=
  match _h : readLine input with
  | .error e => .error e
  | .ok (line, rest) =>
    if line = [] then .ok ([], rest)
    else (readArgs rest).map fun r => (line :: r.1, r.2)
termination_by input.length
decreasing_by exact (readLine_ok _h).1

def startSession (module : Module) (input : List UInt8) : Transcript where
  sent := [.ok]
  outcome := (readArgs input).map fun r => some ⟨module, r.1, r.2⟩

/-- Step 6, after the challenge is sent. -/
def authenticate (d : Daemon) (challenge moduleName : Text) (module : Module)
    (input : List UInt8) : Transcript :=
  match readLine input with
  | .error e => ⟨[], .error e⟩
  | .ok (authLine, rest) =>
    match parseAuthResponse authLine with
    | .error _ => ⟨[.authFailed moduleName], .ok none⟩
    | .ok (user, clientHash) =>
      if module.auth.userList ≠ [] ∧ user ∉ module.auth.userList then
        ⟨[.authFailed moduleName], .ok none⟩
      else match module.auth.secretsFile with
        | none => startSession module rest
        | some secretsPath =>
          match verifyResponse d.digests d.readToString user clientHash challenge
            secretsPath with
          | .error _ => ⟨[.authFailed moduleName], .ok none⟩
          | .ok () => startSession module rest

/-- Steps 5 to 7: the module is known. -/
def openModule (d : Daemon) (peer challenge moduleName : Text) (module : Module)
    (input : List UInt8) : Transcript :=
  match module.access.checkHost d.overflowChecks peer with
  | none => ⟨[], .error .overflow⟩
  | some false => ⟨[.accessDenied moduleName peer], .ok none⟩
  | some true =>
    if module.auth.requiresAuth then
      (authenticate d challenge moduleName module input).after [.authRequired challenge]
    else startSession module input

/-- Step 4. -/
def selectModule (d : Daemon) (peer challenge : Text) (input : List UInt8) : Transcript :=
  match readLine input with
  | .error e => ⟨[], .error e⟩
  | .ok (moduleName, rest) =>
    if moduleName = [] ∨ moduleName = "#list".toList then
      ⟨d.registry.listVisible.map (fun m => .listing m.name m.comment) ++ [.exit], .ok none⟩
    else if moduleName.head? = some '#' then ⟨[.unknownCommand moduleName], .ok none⟩
    else match d.registry.resolveModule moduleName with
      | none => ⟨[.unknownModule moduleName], .ok none⟩
      | some module => openModule d peer challenge moduleName module rest

/-- `handle_connection` for a client at `peer` that sends `input` and then closes its side;
`challenge` is the challenge of this connection. -/
def handleConnection (d : Daemon) (peer challenge : Text) (input : List UInt8) : Transcript :=
  match readLine input with
  | .error e => ⟨[.greeting], .error e⟩
  | .ok (clientGreeting, rest) =>
    if ¬ "@RSYNCD: ".toList <+: clientGreeting then
      ⟨[.greeting, .startupError], .error (.invalidGreeting clientGreeting)⟩
    else match parseVersion clientGreeting with
      | .error e => ⟨[.greeting], .error e⟩
      | .ok _ =>
        let motd := (d.motd.toList.flatMap Text.lines).map Reply.motd
        (selectModule d peer challenge rest).after (.greeting :: motd)

/-! ## When a session starts -/

@[simp] theorem ok_mem_startSession (module : Module) (input : List UInt8) :
    Reply.ok ∈ (startSession module input).sent := List.mem_singleton.mpr rfl

/-- The client's answer to the challenge gets past the checks of `authenticate`. -/
def LogsIn (d : Daemon) (auth : ModuleAuth) (challenge line : Text) : Prop :=
  ∃ user clientHash, parseAuthResponse line = .ok (user, clientHash) ∧
    (auth.userList = [] ∨ user ∈ auth.userList) ∧
    ∀ secretsPath, auth.secretsFile = some secretsPath →
      verifyResponse d.digests d.readToString user clientHash challenge secretsPath = .ok ()

theorem logsIn_iff_of_parse {d : Daemon} {auth : ModuleAuth} {challenge line user clientHash : Text}
    (h : parseAuthResponse line = .ok (user, clientHash)) :
    LogsIn d auth challenge line ↔ (auth.userList = [] ∨ user ∈ auth.userList) ∧
      ∀ secretsPath, auth.secretsFile = some secretsPath →
        verifyResponse d.digests d.readToString user clientHash challenge secretsPath = .ok () := by
  constructor
  · rintro ⟨u, c, hparse, hlogin⟩
    have huc : user = u ∧ clientHash = c := by simpa [h] using hparse
    obtain ⟨rfl, rfl⟩ := huc
    exact hlogin
  · intro hlogin
    exact ⟨user, clientHash, h, hlogin⟩

theorem ok_mem_authenticate_iff (d : Daemon) (challenge moduleName : Text) (module : Module)
    (input : List UInt8) :
    Reply.ok ∈ (authenticate d challenge moduleName module input).sent ↔
      ∃ line rest, readLine input = .ok (line, rest) ∧ LogsIn d module.auth challenge line := by
  unfold authenticate
  cases hread : readLine input with
  | error e => simp
  | ok r =>
    obtain ⟨line, rest⟩ := r
    have hline : (∃ l r, Except.ok (ε := ConnError) (line, rest) = .ok (l, r) ∧
        LogsIn d module.auth challenge l) ↔ LogsIn d module.auth challenge line := by
      simp
    rw [hline]
    -- unparsable, not listed, without secrets, or verified: one branch of the source each
    cases hparse : parseAuthResponse line with
    | error e => simp [LogsIn, hparse]
    | ok login =>
      obtain ⟨user, clientHash⟩ := login
      rw [logsIn_iff_of_parse hparse]
      by_cases hlisted : module.auth.userList ≠ [] ∧ user ∉ module.auth.userList
      · grind
      · have hlisted' : module.auth.userList = [] ∨ user ∈ module.auth.userList := by tauto
        simp only [hparse, if_neg hlisted]
        cases hsecrets : module.auth.secretsFile with
        | none => simpa using hlisted'
        | some path =>
          cases hverify : verifyResponse d.digests d.readToString user clientHash challenge
            path with
          | error e => simp [hverify]
          | ok u => simpa [hverify] using hlisted'

theorem ok_mem_openModule_iff (d : Daemon) (peer challenge moduleName : Text) (module : Module)
    (input : List UInt8) :
    Reply.ok ∈ (openModule d peer challenge moduleName module input).sent ↔
      module.access.checkHost d.overflowChecks peer = some true ∧
      (module.auth.requiresAuth = true →
        ∃ line rest, readLine input = .ok (line, rest) ∧ LogsIn d module.auth challenge line) := by
  unfold openModule
  cases hhost : module.access.checkHost d.overflowChecks peer with
  | none => simp
  | some allowed =>
    cases allowed with
    | false => simp
    | true =>
      cases hauth : module.auth.requiresAuth with
      | false => simp
      | true => simp [Transcript.after, ok_mem_authenticate_iff]

theorem ok_mem_selectModule_iff (d : Daemon) (peer challenge : Text) (input : List UInt8) :
    Reply.ok ∈ (selectModule d peer challenge input).sent ↔
      ∃ name rest module, readLine input = .ok (name, rest) ∧ name ≠ [] ∧
        name.head? ≠ some '#' ∧ d.registry.resolveModule name = some module ∧
        Reply.ok ∈ (openModule d peer challenge name module rest).sent := by
  unfold selectModule
  cases hread : readLine input with
  | error e => simp
  | ok r =>
    obtain ⟨name, rest⟩ := r
    by_cases hlist : name = [] ∨ name = "#list".toList
    · simp only [if_pos hlist]
      grind
    · by_cases hhash : name.head? = some '#'
      · grind
      · cases hmod : d.registry.resolveModule name with
        | none => grind
        | some module => grind

/-- **When the daemon says OK**: the client greeted, asked for a module that exists and that
its host may use, and, if the module asks for it, logged in. -/
theorem ok_mem_handleConnection_iff (d : Daemon) (peer challenge : Text) (input : List UInt8) :
    Reply.ok ∈ (handleConnection d peer challenge input).sent ↔
      ∃ greeting rest version, readLine input = .ok (greeting, rest) ∧
        "@RSYNCD: ".toList <+: greeting ∧ parseVersion greeting = .ok version ∧
        Reply.ok ∈ (selectModule d peer challenge rest).sent := by
  unfold handleConnection
  cases hread : readLine input with
  | error e => simp
  | ok r =>
    obtain ⟨greeting, rest⟩ := r
    by_cases hstart : "@RSYNCD: ".toList <+: greeting
    · simp only [not_true_eq_false, if_false, hstart]
      cases hver : parseVersion greeting with
      | error e => simp [hver]
      | ok version =>
        -- the greeting and the message of the day are no OK
        have hsent : ∀ t : Transcript, ∀ motd : List Text,
            Reply.ok ∈ (t.after (.greeting :: motd.map Reply.motd)).sent ↔
              Reply.ok ∈ t.sent := by
          simp [Transcript.after]
        grind
    · simp only [hstart, not_false_eq_true, if_true]
      grind

/-! ## Soundness of the authentication -/

/-- The client's line `n`, counted from zero. -/
def clientLine : Nat → List UInt8 → Option Text
  | 0, input => (readLine input).toOption.map Prod.fst
  | n + 1, input => match readLine input with
    | .ok (_, rest) => clientLine n rest
    | .error _ => none

/-- The client's line proves that it knows the password of a listed user: it names one that has
an entry in the secrets file, with the response of that entry's password to the challenge. -/
def Authentic (d : Daemon) (auth : ModuleAuth) (challenge line : Text) : Prop :=
  ∃ user hash secretsPath content password,
    Text.trim line = user ++ ' ' :: hash ∧ ' ' ∉ user ∧ user ∈ auth.userList ∧
    auth.secretsFile = some secretsPath ∧ d.readToString secretsPath = .ok content ∧
    PasswordOf content user password ∧ hash = computeResponse d.digests password challenge

/-- The daemon, whatever else its configuration is, says OK for a module with these settings
only to a client whose line is authentic. -/
def AuthSound (auth : ModuleAuth) : Prop :=
  ∀ (d : Daemon) (peer challenge : Text) (input : List UInt8) (name : Text) (module : Module),
    clientLine 1 input = some name → d.registry.resolveModule name = some module →
    module.auth = auth → Reply.ok ∈ (handleConnection d peer challenge input).sent →
    ∃ line, clientLine 2 input = some line ∧ Authentic d auth challenge line

/-- The user name fits on a line with a response. -/
def FitsLine (user : Text) : Prop := (Text.encode user).length + 2 ≤ maxLineLength

/-- Past all checks, with a secrets file and a list of users, a line is authentic. -/
theorem authentic_of_logsIn {d : Daemon} {auth : ModuleAuth} {challenge line : Text}
    (husers : auth.userList ≠ []) (hsecrets : auth.secretsFile ≠ none)
    (h : LogsIn d auth challenge line) : Authentic d auth challenge line := by
  obtain ⟨user, hash, hparse, hlisted, hverify⟩ := h
  obtain ⟨htrim, hspace, -, -⟩ := (parseAuthResponse_eq_ok_iff line user hash).mp hparse
  obtain ⟨secretsPath, hpath⟩ := Option.ne_none_iff_exists'.mp hsecrets
  obtain ⟨content, password, hread, hentry, hhash⟩ :=
    (verifyResponse_eq_ok_iff _ _ _ _ _ _).mp (hverify secretsPath hpath)
  have hmem : user ∈ auth.userList := hlisted.resolve_left husers
  exact ⟨user, hash, secretsPath, content, password, htrim, hspace, hmem, hpath, hread, hentry,
    hhash⟩

/-- A user who gets in without a secrets file has a name that fits on a line. -/
theorem fitsLine_of_logsIn {d : Daemon} {auth : ModuleAuth} {challenge line : Text}
    (hlen : (Text.encode line).length ≤ maxLineLength) (husers : auth.userList ≠ [])
    (h : LogsIn d auth challenge line) : ∃ user ∈ auth.userList, FitsLine user := by
  obtain ⟨user, hash, hparse, hlisted, -⟩ := h
  obtain ⟨htrim, -, -, hhash⟩ := (parseAuthResponse_eq_ok_iff line user hash).mp hparse
  have hshort := (Text.encode_infix (Text.trim_infix line)).length_le
  have hone := Text.one_le_length_encode hhash
  have hsplit : (Text.encode (Text.trim line)).length =
      (Text.encode user).length + 1 + (Text.encode hash).length := by
    have hspace : (String.utf8EncodeChar ' ').length = 1 := by decide
    rw [htrim, Text.encode_append, Text.encode_cons, List.length_append, List.length_append]
    omega
  refine ⟨user, hlisted.resolve_left husers, ?_⟩
  unfold FitsLine
  omega

theorem logsIn_of_ok {d : Daemon} {peer challenge : Text} {input : List UInt8} {name : Text}
    {module : Module} (hname : clientLine 1 input = some name)
    (hmodule : d.registry.resolveModule name = some module)
    (hauth : module.auth.requiresAuth = true)
    (hok : Reply.ok ∈ (handleConnection d peer challenge input).sent) :
    ∃ line, clientLine 2 input = some line ∧ LogsIn d module.auth challenge line ∧
      (Text.encode line).length ≤ maxLineLength := by
  obtain ⟨greeting, rest, version, hread, -, -, hok⟩ :=
    (ok_mem_handleConnection_iff d peer challenge input).mp hok
  obtain ⟨name', rest', module', hread', -, -, hmodule', hok⟩ :=
    (ok_mem_selectModule_iff d peer challenge rest).mp hok
  -- the lines of the transcript are those the client sent
  have hsame : name' = name := by
    simpa [clientLine, hread, hread', Except.toOption] using hname
  subst hsame
  have hsame : module' = module := by simpa [hmodule] using hmodule'.symm
  subst hsame
  obtain ⟨line, rest'', hline, hlogs⟩ :=
    ((ok_mem_openModule_iff d peer challenge name' module' rest').mp hok).2 hauth
  refine ⟨line, ?_, hlogs, (readLine_ok hline).2⟩
  simp [clientLine, hread, hread', hline, Except.toOption]

/-! ### A client that gets in

A daemon with one module `m`, and a client that asks for it with a given line. -/

def zeroDigests : Digests where
  md4 _ := ⟨List.replicate 16 0, rfl⟩
  md5 _ := ⟨List.replicate 16 0, rfl⟩

def oneModule (auth : ModuleAuth) : Module where
  name := ['m']
  path := "/srv".toList
  readOnly := true
  list := true
  comment := []
  auth := auth
  access := .default

def oneModuleDaemon (auth : ModuleAuth) : Daemon where
  digests := zeroDigests
  readToString _ := .ok "u:p".toList
  registry := ModuleRegistry.new.register (oneModule auth)
  motd := none
  overflowChecks := true

def loginInput (line : Text) : List UInt8 :=
  Text.encode ("@RSYNCD: 31".toList ++ ['\n']) ++
    (Text.encode (['m'] ++ ['\n']) ++ Text.encode line)

theorem readLine_loginInput (line : Text) :
    readLine (loginInput line) =
      .ok ("@RSYNCD: 31".toList, Text.encode (['m'] ++ ['\n']) ++ Text.encode line) :=
  readLine_encode_append (by decide) (by decide) (by decide) _

theorem readLine_moduleName (line : Text) :
    readLine (Text.encode (['m'] ++ ['\n']) ++ Text.encode line) = .ok (['m'], Text.encode line) :=
  readLine_encode_append (by decide) (by decide) (by decide) _

theorem parseVersion_31 : parseVersion "@RSYNCD: 31".toList = .ok 31 := by
  have htrim : Text.trimStartMatches "@RSYNCD: ".toList "@RSYNCD: 31".toList = ['3', '1'] := by
    show Text.trimStartMatches "@RSYNCD: ".toList ("@RSYNCD: ".toList ++ ['3', '1']) = _
    rw [Text.trimStartMatches_append (by decide),
      Text.trimStartMatches_of_not_prefix (by decide)]
  rw [parseVersion, htrim]
  decide

section Login
variable {auth : ModuleAuth} {line : Text}

/-- The client is let in with any line that gets past the checks. -/
theorem ok_of_logsIn (hread : readLine (Text.encode line) = .ok (line, []))
    (hlogs : LogsIn (oneModuleDaemon auth) auth [] line) :
    Reply.ok ∈ (handleConnection (oneModuleDaemon auth) [] [] (loginInput line)).sent := by
  have hmodule : (oneModuleDaemon auth).registry.resolveModule ['m'] = some (oneModule auth) :=
    ModuleRegistry.resolveModule_register .new (oneModule auth)
  have hopen : Reply.ok ∈ (openModule (oneModuleDaemon auth) [] [] ['m'] (oneModule auth)
      (Text.encode line)).sent :=
    (ok_mem_openModule_iff _ _ _ _ _ _).mpr ⟨rfl, fun _ => ⟨line, [], hread, hlogs⟩⟩
  have hselect : Reply.ok ∈ (selectModule (oneModuleDaemon auth) [] []
      (Text.encode (['m'] ++ ['\n']) ++ Text.encode line)).sent :=
    (ok_mem_selectModule_iff _ _ _ _).mpr
      ⟨['m'], _, oneModule auth, readLine_moduleName line, by decide, by decide, hmodule, hopen⟩
  exact (ok_mem_handleConnection_iff _ _ _ _).mpr
    ⟨_, _, _, readLine_loginInput line, by decide, parseVersion_31, hselect⟩

theorem clientLine_loginInput (hread : readLine (Text.encode line) = .ok (line, [])) :
    clientLine 1 (loginInput line) = some ['m'] ∧ clientLine 2 (loginInput line) = some line := by
  simp only [clientLine, readLine_loginInput, readLine_moduleName, hread]
  exact ⟨rfl, rfl⟩

theorem authentic_of_authSound (hsound : AuthSound auth)
    (hread : readLine (Text.encode line) = .ok (line, []))
    (hlogs : LogsIn (oneModuleDaemon auth) auth [] line) :
    Authentic (oneModuleDaemon auth) auth [] line := by
  obtain ⟨hname, hline⟩ := clientLine_loginInput hread
  obtain ⟨line', hline', hauthentic⟩ := hsound (oneModuleDaemon auth) [] [] (loginInput line) ['m']
    (oneModule auth) hname (ModuleRegistry.resolveModule_register .new (oneModule auth)) rfl
    (ok_of_logsIn hread hlogs)
  have hsame : line = line' := by simpa [hline] using hline'
  rwa [hsame]

end Login

/-- The line of a user `u` with the password `p`, for the digests and challenge of
`oneModuleDaemon`. -/
def uLine : Text := "u ".toList ++ computeResponse zeroDigests ['p'] []

theorem readLine_uLine : readLine (Text.encode uLine) = .ok (uLine, []) :=
  readLine_encode (by decide) (by decide) (by decide) (by decide)

/-- With no user named, a user with an entry in the secrets file gets in, listed or not. -/
theorem logsIn_uLine {auth : ModuleAuth} (husers : auth.userList = []) :
    LogsIn (oneModuleDaemon auth) auth [] uLine := by
  refine ⟨['u'], computeResponse zeroDigests ['p'] [], by decide, Or.inl husers, ?_⟩
  intro secretsPath _
  refine (verifyResponse_eq_ok_iff _ _ _ _ _ _).mpr ⟨"u:p".toList, ['p'], rfl, ?_, rfl⟩
  exact (findPassword_eq_some_iff _ _ _).mp (by decide)

/-- The line of a listed user with a response that is none. -/
theorem readLine_user {user : Text} (hsep : ∀ c ∈ user, ModuleAuth.isSeparator c = false)
    (hfits : FitsLine user) :
    readLine (Text.encode (user ++ [' ', 'x'])) = .ok (user ++ [' ', 'x'], []) := by
  have hnl : '\n' ∉ user := by
    intro hmem
    have := hsep _ hmem
    simp [ModuleAuth.isSeparator, Text.isAsciiWhitespace] at this
  have hlen : (Text.encode (user ++ [' ', 'x'])).length = (Text.encode user).length + 2 := by
    rw [Text.encode_append, List.length_append]
    rfl
  refine readLine_encode (by simp) (by simp [hnl]) (by simp) ?_
  rw [hlen]
  exact hfits

theorem parseAuthResponse_user {user : Text} (hne : user ≠ [])
    (hhead : ∀ c ∈ user.head?, Text.isWhitespace c = false)
    (hsep : ∀ c ∈ user, ModuleAuth.isSeparator c = false) :
    parseAuthResponse (user ++ [' ', 'x']) = .ok (user, ['x']) := by
  have hspace : ' ' ∉ user := by
    intro hmem
    have := hsep _ hmem
    simp [ModuleAuth.isSeparator, Text.isAsciiWhitespace] at this
  refine (parseAuthResponse_eq_ok_iff _ _ _).mpr ⟨?_, hspace, hne, by decide⟩
  apply Text.trim_eq_self
  · intro c hc
    apply hhead c
    cases user with
    | nil => exact absurd rfl hne
    | cons a user => simpa using hc
  · intro c hc
    have hc : c = 'x' := by simpa using hc.symm
    rw [hc]
    decide

/-- **Soundness of the authentication.** With `auth users` set, the daemon lets in nobody but
authentic users, whatever the client sends and whatever the rest of its configuration is, if and
only if `auth users` names a user and there is a secrets file (or all the names are too long to
be sent). -/
theorem auth_sound_iff (auth : ModuleAuth) (hset : auth.authUsers ≠ []) :
    AuthSound auth ↔
      auth.userList ≠ [] ∧ (auth.secretsFile ≠ none ∨ ∀ user ∈ auth.userList, ¬ FitsLine user) := by
  have hrequires : auth.requiresAuth = true := by simpa [ModuleAuth.requiresAuth] using hset
  constructor
  · intro hsound
    constructor
    -- with an empty list of users any name logs in
    · intro husers
      obtain ⟨user, -, -, -, -, -, -, hmem, -⟩ :=
        authentic_of_authSound hsound readLine_uLine (logsIn_uLine husers)
      simp [husers] at hmem
    -- without a secrets file a listed user logs in with any digest
    · by_contra hnone
      push Not at hnone
      obtain ⟨hsecrets, user, hmem, hfits⟩ := hnone
      obtain ⟨hne, hhead, hsep⟩ := mem_userList hmem
      have hlogs : LogsIn (oneModuleDaemon auth) auth [] (user ++ [' ', 'x']) := by
        refine ⟨user, ['x'], parseAuthResponse_user hne hhead hsep, Or.inr hmem, ?_⟩
        simp [hsecrets]
      obtain ⟨-, -, path, -, -, -, -, -, hpath, -⟩ :=
        authentic_of_authSound hsound (readLine_user hsep hfits) hlogs
      simp [hsecrets] at hpath
  · rintro ⟨husers, hsecrets⟩ d peer challenge input name module hname hmodule rfl hok
    obtain ⟨line, hline, hlogs, hlen⟩ := logsIn_of_ok hname hmodule hrequires hok
    refine ⟨line, hline, ?_⟩
    rcases hsecrets with hsecrets | hlong
    · exact authentic_of_logsIn husers hsecrets hlogs
    · obtain ⟨user, hmem, hfits⟩ := fitsLine_of_logsIn hlen husers hlogs
      exact absurd hfits (hlong user hmem)

theorem auth_sound_alice :
    AuthSound ⟨"alice, bob".toList, some "/etc/rsyncd.secrets".toList⟩ :=
  (auth_sound_iff _ (by decide)).mpr ⟨by decide, Or.inl (by decide)⟩

/-- A module that names a user and has no secrets file. -/
def aliceOnly : ModuleAuth := ⟨"alice".toList, none⟩

/-- Alice gets in with any word for a response. -/
theorem ok_without_secrets :
    Reply.ok ∈ (handleConnection (oneModuleDaemon aliceOnly) [] []
      (loginInput "alice x".toList)).sent ∧
    ¬ ∃ line, clientLine 2 (loginInput "alice x".toList) = some line ∧
      Authentic (oneModuleDaemon aliceOnly) aliceOnly [] line := by
  have hread : readLine (Text.encode "alice x".toList) = .ok ("alice x".toList, []) :=
    readLine_encode (by decide) (by decide) (by decide) (by decide)
  constructor
  · refine ok_of_logsIn hread ⟨"alice".toList, ['x'], by decide, Or.inr (by decide), ?_⟩
    intro secretsPath hpath
    cases hpath
  · rintro ⟨line, -, user, hash, path, content, password, -, -, -, hpath, -⟩
    cases hpath

end Ferrosync.Server
