import NatcpSpec.Base.Shell
import NatcpSpec.Client.QueryBuffer
import NatcpSpec.Server.RequestCodec

/-!
# The client that the server launches

`main` and `start_server`, `src/server.cc:214–248,334–350`. The server writes its arguments into
a command for the shell, which starts the emulated link and, inside of it, a second shell, which
starts the client. The client's arguments thus go through `sprintf`, two shells and the link
before the client writes them into its query and the server reads them again.
-/

namespace NatcpSpec.System

open NatcpSpec.Base NatcpSpec.Client NatcpSpec.Server

/-! ### The command -/

/-- What `main` keeps of its arguments; `src/server.cc:44–54,87–88`. -/
structure Options where
  delayMs : ℤ
  fileName : Text
  clientPort : ℤ
  downlink : Text
  uplink : Text
  logFile : Text
  lagTime : ℚ
  feedback : ℤ
  bwScale : ℚ
  cwndScale : ℚ
  codel : ℤ
  qsize : ℤ

/-- `main` reads twelve arguments behind the name of the program, or prints its usage;
`src/server.cc:214–218,232–245`. -/
def serverOptions : List Text → Option Options
  | [_, delay, file, port, down, up, log, lag, feedback, bw, cwnd, codel, qsize] =>
    some
      { delayMs := atoi delay
        fileName := file
        clientPort := atoi port
        downlink := down
        uplink := up
        logFile := log
        lagTime := 1000 * atoi lag
        feedback := atoi feedback
        bwScale := atoi bw
        cwndScale := atoi cwnd
        codel := atoi codel
        qsize := atoi qsize }
  | _ => none

/-- Size of the buffer `cmd`; `src/server.cc:334`. -/
def cmdBuffer : ℕ := 1000

/-- The options for the queues of the link; `src/server.cc:337,340`. -/
def queueOptions (codel qsize : ℤ) : Text :=
  if codel = 1 then
    ascii " --uplink-queue=codel --uplink-queue-args=\"interval=100, target=5, packets=" ++
      signedDecimal qsize ++
      ascii "\" --downlink-queue=codel --downlink-queue-args=\"interval=100, target=5, packets=" ++
      signedDecimal qsize ++ ascii "\""
  else if codel = 2 then
    ascii " --uplink-queue=droptail --uplink-queue-args=\"packets=" ++ signedDecimal qsize ++
      ascii "\" --downlink-queue=droptail --downlink-queue-args=\"packets=" ++
      signedDecimal qsize ++ ascii "\""
  else []

/-- The command that `sprintf` writes, from one of three formats; `src/server.cc:335–346`. -/
def launchCommand (o : Options) : Text :=
  ascii "sudo -u `logname` mm-delay " ++ signedDecimal o.delayMs ++
    ascii " mm-link /usr/local/share/mahimahi/traces/" ++ o.uplink ++
    ascii " /usr/local/share/mahimahi/traces/" ++ o.downlink ++
    ascii " --once --uplink-log=up-" ++ o.logFile ++ ascii " --downlink-log=down-" ++ o.logFile ++
    queueOptions o.codel o.qsize ++
    ascii " -- sh -c 'sudo ./client $MAHIMAHI_BASE 1 2700 100.64.0.4 " ++
    signedDecimal o.clientPort ++ ascii "' &"

/-! ### Its words -/

/-- The command of the inner shell. -/
def clientCommand (o : Options) : Text :=
  ascii "sudo ./client $MAHIMAHI_BASE 1 2700 100.64.0.4 " ++ signedDecimal o.clientPort

/-- The options for the queues word by word, with what is around their arguments. -/
def queueWords (quote : Text → Text) (codel qsize : ℤ) : List Text :=
  if codel = 1 then
    [ascii "--uplink-queue=codel",
      ascii "--uplink-queue-args=" ++
        quote (ascii "interval=100, target=5, packets=" ++ signedDecimal qsize),
      ascii "--downlink-queue=codel",
      ascii "--downlink-queue-args=" ++
        quote (ascii "interval=100, target=5, packets=" ++ signedDecimal qsize)]
  else if codel = 2 then
    [ascii "--uplink-queue=droptail",
      ascii "--uplink-queue-args=" ++ quote (ascii "packets=" ++ signedDecimal qsize),
      ascii "--downlink-queue=droptail",
      ascii "--downlink-queue-args=" ++ quote (ascii "packets=" ++ signedDecimal qsize)]
  else []

/-- The words that `mm-delay` is started with, up to the command that it runs. -/
def delayWords (o : Options) : List Text := [ascii "mm-delay", signedDecimal o.delayMs]

/-- The words that `mm-link` is started with, up to the command that it runs. -/
def linkWords (quote : Text → Text) (o : Options) : List Text :=
  [ascii "mm-link", ascii "/usr/local/share/mahimahi/traces/" ++ o.uplink,
    ascii "/usr/local/share/mahimahi/traces/" ++ o.downlink, ascii "--once",
    ascii "--uplink-log=up-" ++ o.logFile, ascii "--downlink-log=down-" ++ o.logFile] ++
    queueWords quote o.codel o.qsize ++ [ascii "--"]

private def doubleQuoted (t : Text) : Text := 34 :: t ++ [34]

private theorem queueOptions_eq (codel qsize : ℤ) :
    queueOptions codel qsize = (queueWords doubleQuoted codel qsize).flatMap (32 :: ·) := by
  have hcodel :
      ascii " --uplink-queue=codel --uplink-queue-args=\"interval=100, target=5, packets=" =
        32 :: ascii "--uplink-queue=codel" ++ 32 :: ascii "--uplink-queue-args=" ++
          34 :: ascii "interval=100, target=5, packets=" := by decide +kernel
  have hcodel' :
      ascii "\" --downlink-queue=codel --downlink-queue-args=\"interval=100, target=5, packets=" =
        34 :: 32 :: ascii "--downlink-queue=codel" ++ 32 :: ascii "--downlink-queue-args=" ++
          34 :: ascii "interval=100, target=5, packets=" := by decide +kernel
  have hdroptail : ascii " --uplink-queue=droptail --uplink-queue-args=\"packets=" =
      32 :: ascii "--uplink-queue=droptail" ++ 32 :: ascii "--uplink-queue-args=" ++
        34 :: ascii "packets=" := by decide +kernel
  have hdroptail' : ascii "\" --downlink-queue=droptail --downlink-queue-args=\"packets=" =
      34 :: 32 :: ascii "--downlink-queue=droptail" ++ 32 :: ascii "--downlink-queue-args=" ++
        34 :: ascii "packets=" := by decide +kernel
  have hquote : ascii "\"" = [34] := by decide +kernel
  unfold queueOptions queueWords
  by_cases h1 : codel = 1
  · rw [if_pos h1, if_pos h1, hcodel, hcodel', hquote]
    simp [doubleQuoted]
  · rw [if_neg h1, if_neg h1]
    by_cases h2 : codel = 2
    · rw [if_pos h2, if_pos h2, hdroptail, hdroptail', hquote]
      simp [doubleQuoted]
    · rw [if_neg h2, if_neg h2]
      rfl

private theorem launchCommand_eq (o : Options) :
    launchCommand o = ascii "sudo" ++
      ([ascii "-u", 96 :: ascii "logname" ++ [96]] ++ delayWords o ++ linkWords doubleQuoted o ++
        [ascii "sh", ascii "-c", 39 :: clientCommand o ++ [39]]).flatMap (32 :: ·) ++
      [32, 38] := by
  have hhead : ascii "sudo -u `logname` mm-delay " =
      ascii "sudo" ++ 32 :: ascii "-u" ++ 32 :: 96 :: ascii "logname" ++
        96 :: 32 :: ascii "mm-delay" ++ [32] := by decide +kernel
  have hup : ascii " mm-link /usr/local/share/mahimahi/traces/" =
      32 :: ascii "mm-link" ++ 32 :: ascii "/usr/local/share/mahimahi/traces/" := by
    decide +kernel
  have hdown : ascii " /usr/local/share/mahimahi/traces/" =
      32 :: ascii "/usr/local/share/mahimahi/traces/" := by decide +kernel
  have huplog : ascii " --once --uplink-log=up-" =
      32 :: ascii "--once" ++ 32 :: ascii "--uplink-log=up-" := by decide +kernel
  have hdownlog : ascii " --downlink-log=down-" = 32 :: ascii "--downlink-log=down-" := by
    decide +kernel
  have htail : ascii " -- sh -c 'sudo ./client $MAHIMAHI_BASE 1 2700 100.64.0.4 " =
      32 :: ascii "--" ++ 32 :: ascii "sh" ++ 32 :: ascii "-c" ++
        32 :: 39 :: ascii "sudo ./client $MAHIMAHI_BASE 1 2700 100.64.0.4 " := by decide +kernel
  have hend : ascii "' &" = [39, 32, 38] := by decide +kernel
  rw [launchCommand, hhead, hup, hdown, huplog, hdownlog, htail, hend, queueOptions_eq]
  simp [delayWords, linkWords, clientCommand]

section Words

variable {env : ShellEnv} {name : Text}

private theorem isPlain_of_mem_signedDecimal {n : ℤ} {b : UInt8} (h : b ∈ signedDecimal n) :
    isPlain b = true := by
  unfold signedDecimal at h
  rcases List.mem_append.mp h with h | h
  · split at h
    · rw [List.mem_singleton.mp h]
      decide
    · cases h
  · simp [isPlain, isNameByte, isDigit_of_mem_decimal h]

private theorem signedDecimal_ne_nil (n : ℤ) : signedDecimal n ≠ [] := by
  simp [signedDecimal, decimal_ne_nil]

private theorem adds_named {x : Text} (hx : ∀ b ∈ x, isPlain b = true ∨ b = 61) (hne : x ≠ [])
    (hname : ∀ b ∈ name, isPlain b = true) : Adds env (x ++ name) (x ++ name) := by
  refine adds_literal ?_ (by simp [hne])
  intro b hb
  rcases List.mem_append.mp hb with hb | hb
  · exact hx b hb
  · exact Or.inl (hname b hb)

private theorem spells_literal {x : Text} (hx : ∀ b ∈ x, isPlain b = true ∨ b = 61)
    (hne : x ≠ []) : Spells env x x := (adds_literal hx hne).spells

private theorem spells_signedDecimal (n : ℤ) : Spells env (signedDecimal n) (signedDecimal n) :=
  spells_literal (fun _ hb ↦ Or.inl (isPlain_of_mem_signedDecimal hb)) (signedDecimal_ne_nil n)

private theorem spells_quoted {x y : Text} (hx : ∀ b ∈ x, isPlain b = true ∨ b = 61)
    (hne : x ≠ []) (hy : ∀ b ∈ y, b ≠ 34 ∧ b ≠ 36 ∧ b ≠ 92 ∧ b ≠ 96) (n : ℤ) :
    Spells env (x ++ doubleQuoted (y ++ signedDecimal n)) (x ++ (y ++ signedDecimal n)) := by
  refine ((adds_literal hx hne).append (adds_double ?_)).spells
  intro b hb
  rcases List.mem_append.mp hb with hb | hb
  · exact hy b hb
  · have hplain := isPlain_of_mem_signedDecimal hb
    refine ⟨?_, ?_, ?_, ?_⟩
    all_goals
      rintro rfl
      exact absurd hplain (by decide)

private theorem spells_queueWords (codel qsize : ℤ) :
    List.Forall₂ (Spells env) (queueWords doubleQuoted codel qsize)
      (queueWords id codel qsize) := by
  unfold queueWords
  by_cases h1 : codel = 1
  · rw [if_pos h1, if_pos h1]
    refine .cons (spells_literal ?_ ?_) (.cons (spells_quoted ?_ ?_ ?_ _)
      (.cons (spells_literal ?_ ?_) (.cons (spells_quoted ?_ ?_ ?_ _) .nil)))
    all_goals decide +kernel
  · rw [if_neg h1, if_neg h1]
    by_cases h2 : codel = 2
    · rw [if_pos h2, if_pos h2]
      refine .cons (spells_literal ?_ ?_) (.cons (spells_quoted ?_ ?_ ?_ _)
        (.cons (spells_literal ?_ ?_) (.cons (spells_quoted ?_ ?_ ?_ _) .nil)))
      all_goals decide +kernel
    · rw [if_neg h2, if_neg h2]
      exact .nil

/-- Names of traces and logs that the shell takes as they are. -/
structure Options.Plain (o : Options) : Prop where
  downlink : ∀ b ∈ o.downlink, isPlain b = true
  uplink : ∀ b ∈ o.uplink, isPlain b = true
  logFile : ∀ b ∈ o.logFile, isPlain b = true

private theorem spells_delayWords (o : Options) :
    List.Forall₂ (Spells env) (delayWords o) (delayWords o) := by
  refine .cons (spells_literal ?_ ?_) (.cons (spells_signedDecimal _) .nil)
  all_goals decide +kernel

private theorem spells_linkWords {o : Options} (ho : o.Plain) :
    List.Forall₂ (Spells env) (linkWords doubleQuoted o) (linkWords id o) := by
  refine List.rel_append (List.rel_append ?_ (spells_queueWords o.codel o.qsize))
    (.cons (spells_literal ?_ ?_) .nil)
  · refine .cons (spells_literal ?_ ?_) (.cons (adds_named ?_ ?_ ho.uplink).spells
      (.cons (adds_named ?_ ?_ ho.downlink).spells (.cons (spells_literal ?_ ?_)
      (.cons (adds_named ?_ ?_ ho.logFile).spells
      (.cons (adds_named ?_ ?_ ho.logFile).spells .nil)))))
    all_goals decide +kernel
  all_goals decide +kernel

private theorem shellWords_launchCommand {o : Options} (ho : o.Plain)
    (huser : IsField (env.output (ascii "logname"))) :
    shellWords env (launchCommand o) =
      some ([ascii "sudo", ascii "-u", env.output (ascii "logname")] ++ (delayWords o ++
        (linkWords id o ++ [ascii "sh", ascii "-c", clientCommand o]))) := by
  have hquote : 39 ∉ clientCommand o := by
    intro h
    rcases List.mem_append.mp h with h | h
    · revert h
      decide +kernel
    · exact absurd (isPlain_of_mem_signedDecimal h) (by decide)
  have huserWords : List.Forall₂ (Spells env) [ascii "-u", 96 :: ascii "logname" ++ [96]]
      [ascii "-u", env.output (ascii "logname")] := by
    refine .cons (spells_literal ?_ ?_) (.cons (spells_command ?_ huser) .nil)
    all_goals decide +kernel
  have hshell : List.Forall₂ (Spells env)
      [ascii "sh", ascii "-c", 39 :: clientCommand o ++ [39]]
      [ascii "sh", ascii "-c", clientCommand o] := by
    refine .cons (spells_literal ?_ ?_) (.cons (spells_literal ?_ ?_)
      (.cons (adds_single hquote).spells .nil))
    all_goals decide +kernel
  rw [launchCommand_eq, shellWords_background (by decide +kernel) (by decide +kernel)
    (List.rel_append (List.rel_append (List.rel_append huserWords (spells_delayWords o))
      (spells_linkWords ho)) hshell)]
  simp

private theorem shellWords_clientCommand {o : Options}
    (hbase : IsField (env.parameter (ascii "MAHIMAHI_BASE"))) :
    shellWords env (clientCommand o) =
      some [ascii "sudo", ascii "./client", env.parameter (ascii "MAHIMAHI_BASE"), ascii "1",
        ascii "2700", ascii "100.64.0.4", signedDecimal o.clientPort] := by
  have hcommand : ascii "sudo ./client $MAHIMAHI_BASE 1 2700 100.64.0.4 " =
      ascii "sudo" ++ 32 :: ascii "./client" ++ 32 :: 36 :: ascii "MAHIMAHI_BASE" ++
        32 :: ascii "1" ++ 32 :: ascii "2700" ++ 32 :: ascii "100.64.0.4" ++ [32] := by
    decide +kernel
  have hwords : clientCommand o = ascii "sudo" ++
      [ascii "./client", 36 :: ascii "MAHIMAHI_BASE", ascii "1", ascii "2700",
        ascii "100.64.0.4", signedDecimal o.clientPort].flatMap (32 :: ·) := by
    rw [clientCommand, hcommand]
    simp
  have hname : ascii "MAHIMAHI_BASE" = 77 :: ascii "AHIMAHI_BASE" := by decide +kernel
  have hparameter : Spells env (36 :: ascii "MAHIMAHI_BASE")
      (env.parameter (ascii "MAHIMAHI_BASE")) := by
    rw [hname] at hbase ⊢
    exact spells_parameter (by decide) (by decide +kernel) hbase
  rw [hwords]
  refine shellWords_eq ?_ ?_ (.cons (spells_literal ?_ ?_) (.cons hparameter
    (.cons (spells_literal ?_ ?_) (.cons (spells_literal ?_ ?_) (.cons (spells_literal ?_ ?_)
    (.cons (spells_signedDecimal _) .nil))))))
  all_goals decide +kernel

end Words

/-! ### From the server's arguments to the client's -/

/-- What `system` finds in the buffer `cmd`, if the command has room there;
`src/server.cc:334–350`. -/
def writtenCommand (o : Options) : Option Text :=
  if (launchCommand o).length + 1 ≤ cmdBuffer then some (launchCommand o) else none

/-- What the launch relies on of programs that are not part of the repository. A program that is
started with some words runs a command: `sudo` what it is given, `mm-delay` and `mm-link` what
stands behind their own words, for this delay and these traces, and a shell its script. -/
structure RunsInside (runs : List Text → Option (List Text)) (o : Options) (user : Text)
    (inner : ShellEnv) : Prop where
  sudoUser : ∀ command, runs ([ascii "sudo", ascii "-u", user] ++ command) = some command
  mmDelay : ∀ command, runs (delayWords o ++ command) = some command
  mmLink : ∀ command, runs (linkWords id o ++ command) = some command
  shell : ∀ script, runs [ascii "sh", ascii "-c", script] = shellWords inner script
  sudoClient : ∀ args, runs ([ascii "sudo", ascii "./client"] ++ args) =
    some (ascii "./client" :: args)

/-- A command is read by a shell, and the programs that it starts, one from the other, come to
one that is started with the given words. -/
def Launches (runs : List Text → Option (List Text)) (outer : ShellEnv) (command : Text)
    (argv : List Text) : Prop :=
  ∃ words, shellWords outer command = some words ∧
    Relation.ReflTransGen (fun x y ↦ runs x = some y) words argv

/-- The words that the launched client is given besides the address of the server. -/
def launchedArgs (base : Word) : Args where
  server := base
  flowid := ⟨ascii "1", by decide +kernel, by decide +kernel, by decide +kernel⟩
  dataSize := ⟨ascii "2700", by decide +kernel, by decide +kernel, by decide +kernel⟩
  dstIp := ⟨ascii "100.64.0.4", by decide +kernel, by decide +kernel, by decide +kernel⟩

private theorem serverOptions_inInt32 {argv : List Text} {o : Options}
    (h : serverOptions argv = some o) :
    InInt32 o.delayMs ∧ InInt32 o.clientPort ∧ InInt32 o.qsize := by
  unfold serverOptions at h
  split at h
  · cases h
    exact ⟨inInt32_int32 _, inInt32_int32 _, inInt32_int32 _⟩
  · cases h

private theorem launches_client {runs : List Text → Option (List Text)} {o : Options}
    {outer inner : ShellEnv} (hplain : o.Plain)
    (hruns : RunsInside runs o (outer.output (ascii "logname")) inner)
    (huser : IsField (outer.output (ascii "logname")))
    (hbase : IsField (inner.parameter (ascii "MAHIMAHI_BASE"))) :
    Launches runs outer (launchCommand o)
      [ascii "./client", inner.parameter (ascii "MAHIMAHI_BASE"), ascii "1", ascii "2700",
        ascii "100.64.0.4", signedDecimal o.clientPort] := by
  refine ⟨_, shellWords_launchCommand hplain huser, ?_⟩
  refine .head (hruns.sudoUser _) (.head (hruns.mmDelay _) (.head (hruns.mmLink _) (.head ?_
    (.single (hruns.sudoClient _)))))
  exact (hruns.shell _).trans (shellWords_clientCommand hbase)

/-- The launch closes the circle: for a command that has room in its buffer, with names that the
shell takes as they are, the client is started with six words, the last of which is the port
that the server listens on. Its query stays in the buffer exactly if the address of the server
and the time have at most 25 bytes, and the server then reads it as a request for 2700
megabytes. -/
theorem launched_client (runs : List Text → Option (List Text)) (argv : List Text) (o : Options)
    (ho : serverOptions argv = some o) (hplain : o.Plain)
    (hcmd : (launchCommand o).length + 1 ≤ cmdBuffer) (outer inner : ShellEnv)
    (hruns : RunsInside runs o (outer.output (ascii "logname")) inner)
    (huser : IsField (outer.output (ascii "logname")))
    (base : Word) (hbase : inner.parameter (ascii "MAHIMAHI_BASE") = base.bytes)
    (hfield : IsField base.bytes) (basetime : UInt64) (c : Conn) :
    (∃ command port, writtenCommand o = some command ∧
      Launches runs outer command
        [ascii "./client", (launchedArgs base).server.bytes, (launchedArgs base).flowid.bytes,
          (launchedArgs base).dataSize.bytes, (launchedArgs base).dstIp.bytes, port] ∧
      atoi port = o.clientPort) ∧
    (StaysInside (launchedArgs base).invocation basetime ↔
      base.bytes.length + (timeS basetime).length ≤ 25) ∧
    (StaysInside (launchedArgs base).invocation basetime →
      dataRequest (query (launchedArgs base) basetime) c =
        (.accepted base.bytes (ascii "100.64.0.4"),
          ⟨1, 2700 * 1024, 2700 * 1024, basetime.toNat * 1000 % 2 ^ 64, true⟩)) := by
  refine ⟨⟨_, signedDecimal o.clientPort, if_pos hcmd, ?_, ?_⟩, ?_, ?_⟩
  · have hlaunch := launches_client hplain hruns huser (hbase ▸ hfield)
    rwa [hbase] at hlaunch
  · exact atoi_signedDecimal (serverOptions_inInt32 ho).2.1
  · have h1 : (ascii "1").length = 1 := by decide +kernel
    have h2 : (ascii "2700").length = 4 := by decide +kernel
    have h3 : (ascii "100.64.0.4").length = 10 := by decide +kernel
    rw [staysInside_iff_fits, Fits, length_query, queryBuffer]
    simp only [launchedArgs, Args.timeAt, Args.dstIpAt, Args.dataSizeAt, Args.flowidAt, h1, h2, h3]
    omega
  · intro hstays
    have hflow : atoi (ascii "1") = 1 := by decide +kernel
    have hsize : uint32 (1024 * atoi (ascii "2700")) = 2700 * 1024 := by decide +kernel
    have hlength : (query (launchedArgs base) basetime).length < 1024 := by
      rw [staysInside_iff_fits, Fits, queryBuffer] at hstays
      omega
    rw [dataRequest_query c hlength]
    simp only [decoded, launchedArgs, hflow, hsize]

/-- The arguments that `natcp.sh` gives the server, with short names. -/
def natcpArgv : List Text :=
  [ascii "./server", ascii "5", ascii "./feedback/t", ascii "4445", ascii "t.down", ascii "t.up",
    ascii "natcp-t", ascii "1", ascii "1", ascii "1", ascii "2", ascii "2", ascii "100"]

/-- Programs that run what they are given. -/
def runsBehind (o : Options) (inner : ShellEnv) (words : List Text) : Option (List Text) :=
  if words.take 2 = [ascii "sudo", ascii "-u"] then some (words.drop 3)
  else if words.head? = some (ascii "sudo") then some (words.drop 1)
  else if words.head? = some (ascii "mm-delay") then some (words.drop 2)
  else if words.head? = some (ascii "mm-link") then some (words.drop (linkWords id o).length)
  else (words[2]?).bind (shellWords inner)

private theorem runsInside_runsBehind (o : Options) (user : Text) (inner : ShellEnv) :
    RunsInside (runsBehind o inner) o user inner := by
  have hsudo : ascii "./client" ≠ ascii "-u" := by decide +kernel
  have hdelay : ascii "mm-delay" ≠ ascii "sudo" := by decide +kernel
  have hlink : ascii "mm-link" ≠ ascii "sudo" := by decide +kernel
  have hlink' : ascii "mm-link" ≠ ascii "mm-delay" := by decide +kernel
  have hsh : ascii "sh" ≠ ascii "sudo" := by decide +kernel
  have hsh' : ascii "sh" ≠ ascii "mm-delay" := by decide +kernel
  have hsh'' : ascii "sh" ≠ ascii "mm-link" := by decide +kernel
  refine ⟨?_, ?_, ?_, ?_, ?_⟩
  · simp [runsBehind]
  · simp [runsBehind, delayWords, hdelay]
  · intro command
    have hhead : (linkWords id o ++ command).head? = some (ascii "mm-link") := rfl
    have htake : (linkWords id o ++ command).take 2 ≠ [ascii "sudo", ascii "-u"] := by
      simp [linkWords, hlink]
    rw [runsBehind, if_neg htake, hhead]
    simp [hlink, hlink']
  · simp [runsBehind, hsh, hsh', hsh'']
  · simp [runsBehind, hsudo]

/-- A launch whose request reaches the server. -/
theorem launched_client_natcp : ∃ (runs : List Text → Option (List Text)) (o : Options)
    (base : Word) (outer inner : ShellEnv) (command port : Text),
    serverOptions natcpArgv = some o ∧ o.clientPort = 4445 ∧ base.bytes = ascii "100.64.0.1" ∧
      RunsInside runs o (outer.output (ascii "logname")) inner ∧
      writtenCommand o = some command ∧
      Launches runs outer command
        [ascii "./client", base.bytes, ascii "1", ascii "2700", ascii "100.64.0.4", port] ∧
      atoi port = o.clientPort ∧
      dataRequest (query (launchedArgs base) 12) ⟨0, 0, 0, 0, false⟩ =
        (.accepted base.bytes (ascii "100.64.0.4"),
          ⟨1, 2700 * 1024, 2700 * 1024, 12000, true⟩) := by
  have hfield : IsField (ascii "100.64.0.1") := ⟨by decide +kernel, by decide +kernel⟩
  have huser : IsField (ascii "user") := ⟨by decide +kernel, by decide +kernel⟩
  obtain ⟨o, ho, hplain, hcmd, hport⟩ : ∃ o, serverOptions natcpArgv = some o ∧ o.Plain ∧
      (launchCommand o).length + 1 ≤ cmdBuffer ∧ o.clientPort = 4445 :=
    ⟨_, rfl, ⟨by decide +kernel, by decide +kernel, by decide +kernel⟩, by decide +kernel,
      by decide +kernel⟩
  have hruns := runsInside_runsBehind o (ascii "user") ⟨fun _ ↦ ascii "100.64.0.1", fun _ ↦ []⟩
  obtain ⟨⟨command, port, hwritten, hlaunch, hatoi⟩, hstays, hrequest⟩ :=
    launched_client _ natcpArgv o ho hplain hcmd ⟨fun _ ↦ [], fun _ ↦ ascii "user"⟩
      ⟨fun _ ↦ ascii "100.64.0.1", fun _ ↦ []⟩ hruns huser
      ⟨ascii "100.64.0.1", by decide +kernel, by decide +kernel, by decide +kernel⟩ rfl hfield 12
      ⟨0, 0, 0, 0, false⟩
  refine ⟨_, o, _, _, _, command, port, ho, hport, rfl, hruns, hwritten, hlaunch, hatoi, ?_⟩
  exact hrequest (hstays.mpr (by decide +kernel))

/-! ### The buffer of the command -/

/-- Bytes of the names in the command. -/
def Options.nameLength (o : Options) : ℕ :=
  o.uplink.length + o.downlink.length + 2 * o.logFile.length

private theorem length_queueOptions_le (codel qsize : ℤ) :
    (queueOptions codel qsize).length ≤ 156 + 2 * (signedDecimal qsize).length := by
  have hcodel :
      (ascii " --uplink-queue=codel --uplink-queue-args=\"interval=100, target=5, packets=").length
        = 75 := by
    decide +kernel
  have hcodel' :
      (ascii
        "\" --downlink-queue=codel --downlink-queue-args=\"interval=100, target=5, packets=").length
        = 80 := by
    decide +kernel
  have hquote : (ascii "\"").length = 1 := by decide +kernel
  have hdroptail : (ascii " --uplink-queue=droptail --uplink-queue-args=\"packets=").length =
      54 := by decide +kernel
  have hdroptail' : (ascii "\" --downlink-queue=droptail --downlink-queue-args=\"packets=").length =
      59 := by decide +kernel
  unfold queueOptions
  split
  · simp only [List.length_append, hcodel, hcodel', hquote]
    omega
  · split
    · simp only [List.length_append, hdroptail, hdroptail', hquote]
      omega
    · simp

private theorem length_launchCommand (o : Options) :
    (launchCommand o).length = 209 + o.nameLength + (signedDecimal o.delayMs).length +
      (signedDecimal o.clientPort).length + (queueOptions o.codel o.qsize).length := by
  have hhead : (ascii "sudo -u `logname` mm-delay ").length = 27 := by decide +kernel
  have hup : (ascii " mm-link /usr/local/share/mahimahi/traces/").length = 42 := by decide +kernel
  have hdown : (ascii " /usr/local/share/mahimahi/traces/").length = 34 := by decide +kernel
  have huplog : (ascii " --once --uplink-log=up-").length = 24 := by decide +kernel
  have hdownlog : (ascii " --downlink-log=down-").length = 21 := by decide +kernel
  have htail : (ascii " -- sh -c 'sudo ./client $MAHIMAHI_BASE 1 2700 100.64.0.4 ").length =
      58 := by decide +kernel
  have hend : (ascii "' &").length = 3 := by decide +kernel
  rw [launchCommand, Options.nameLength]
  simp only [List.length_append, hhead, hup, hdown, huplog, hdownlog, htail, hend]
  omega

/-- `sprintf` stays inside its buffer for all numbers exactly up to 590 bytes of names. -/
theorem launchCommand_fits_iff (n : ℕ) :
    (∀ argv o, serverOptions argv = some o → o.nameLength ≤ n →
      (launchCommand o).length + 1 ≤ cmdBuffer) ↔ n ≤ 590 := by
  constructor
  · intro h
    by_contra hn
    -- The longest numbers, and all bytes of the names in one of them.
    have hnumber : (signedDecimal (atoi (ascii "-2147483648"))).length = 11 := by decide +kernel
    have hqueue : (queueOptions (atoi (ascii "1")) (atoi (ascii "-2147483648"))).length = 178 := by
      decide +kernel
    have hlong : ∀ up : Text, up.length ≠ 591 := by
      intro up hup
      have hover := h [[], ascii "-2147483648", [], ascii "-2147483648", [], up, [], [], [], [], [],
        ascii "1", ascii "-2147483648"] _ rfl (by
          change up.length + 0 + 2 * 0 ≤ n
          omega)
      rw [length_launchCommand] at hover
      change 209 + (up.length + 0 + 2 * 0) + _ + _ + _ + 1 ≤ cmdBuffer at hover
      rw [hnumber, hqueue, cmdBuffer] at hover
      omega
    exact hlong (List.replicate 591 97) List.length_replicate
  · intro hn argv o ho hnames
    obtain ⟨hdelay, hport, hqsize⟩ := serverOptions_inInt32 ho
    have h1 := length_signedDecimal_le hdelay
    have h2 := length_signedDecimal_le hport
    have h3 := length_signedDecimal_le hqsize
    have h4 := length_queueOptions_le o.codel o.qsize
    rw [length_launchCommand, cmdBuffer]
    omega

end NatcpSpec.System
