import NatcpSpec.System.Connection

/-!
# The clock of the link

The emulated link writes the time of its start to the file `basetime`. The client sends that
time with its query, `src/client.c:98–106,190`, and the replay loop starts from the time that
has passed since, `src/server.cc:434–438`. Between the two are a connection that may cut the
query and a shared variable that one thread writes and another one reads.
-/

namespace NatcpSpec.System

open NatcpSpec.Base NatcpSpec.Client NatcpSpec.Server

/-- What the server is seen to do. -/
def serverOf (actions : List NetAction) : List Action :=
  actions.filterMap fun
    | .server a => some a
    | _ => none

/-! ### The server by itself -/

/-- `DataThread` has not called `recv` yet. -/
def Unread (d : DataPc) : Prop := d = .absent ∨ d = .receiving

section Server

variable {c : Arith} {g : Settings} {trace : List STrace} {q : Text}

-- Before `recv` no thread looks at the request.
private theorem step_of_request {y : Text} (y' : Text) {s t : Sys} {b : Action}
    (h : ThreadStep c ⟨g, trace, y⟩ s b t) (hb : onStream b = false) (hd : Unread s.data) :
    Step c ⟨g, trace, y'⟩ s b t := by
  cases h with
  | main hr h =>
    refine .main hr ?_
    cases h with
    | accept h => exact .accept h
    | acceptFails h => exact .acceptFails h
    | createCnt h hf => exact .createCnt h hf
    | noCnt h => exact .noCnt h
    | createData h => exact .createData h
    | noData h => exact .noData h
    | join h hret => exact .join h hret
    | joinNothing h hd => exact .joinNothing h hd
  | data hr h =>
    rcases hd with hd | hd <;> cases h <;> simp_all [onStream]
  | cnt hr h =>
    refine .cnt hr ?_
    cases h with
    | sleep h hg => exact .sleep h hg
    | wake h hg => exact .wake h hg
    | noDelay h ho => exact .noDelay h ho
    | noDelayFails h => exact .noDelayFails h
    | start initial raw inForce h => exact .start initial raw inForce h
    | finish h he => exact .finish h he
    | skip h he hs => exact .skip h he hs
    | late h he hs ho => exact .late h he hs ho
    | apply begun h he hs ho => exact .apply begun h he hs ho
    | feedback result h hr => exact .feedback result h hr
    | fail h hf => exact .fail h hf
    | goOn finished h hf => exact .goOn finished h hf

-- What is not read after a step other than `recv` was not read before it.
private theorem unread_of_step {x : Session} {s t : Sys} {b : Action}
    (h : ThreadStep c x s b t) (hs : s.Staged x) (hb : b ≠ .recv) (hd : Unread t.data) :
    Unread s.data := by
  rcases data_of_threadStep h hs with ⟨heq, -⟩ | ⟨habsent, -⟩ | hstep
  · rwa [← heq]
  · exact Or.inl habsent
  · rcases hd with hd | hd <;> cases hstep <;> simp_all

private theorem unread_of_recv {x : Session} {s t : Sys} (h : ThreadStep c x s .recv t) :
    Unread s.data ∧ ¬Unread t.data := by
  cases h with
  | main _ h => cases h
  | data _ h =>
    cases h with
    | @recv out hd ho =>
      refine ⟨Or.inr hd, ?_⟩
      obtain ⟨exit, conn⟩ := out
      cases exit <;> simp [Unread, afterRequest]
  | cnt _ h => cases h

private theorem not_unread_of_send {x : Session} {s t : Sys} {result : ℤ}
    (h : ThreadStep c x s (.send result) t) : ¬Unread t.data := by
  cases h with
  | main _ h => cases h
  | data _ h =>
    cases h with
    | send result hd hl => simp [Unread]
  | cnt _ h => cases h

/-- The server is seen to make the same calls and to read the same clock. -/
structure SameCalls (acts : List Action) (actions : List NetAction) : Prop where
  feedback : feedbackOf acts = feedbackOf (serverOf actions)
  readings : readingsOf acts = readingsOf (serverOf actions)

/-- An action of the server is one of both. -/
theorem SameCalls.server {acts : List Action} {actions : List NetAction}
    (h : SameCalls acts actions) (b : Action) :
    SameCalls (acts ++ [b]) (actions ++ [.server b]) := by
  have hsnoc : serverOf (actions ++ [.server b]) = serverOf actions ++ [b] := by simp [serverOf]
  constructor
  · rw [hsnoc, feedbackOf, List.filterMap_append, feedbackOf, List.filterMap_append]
    exact congrArg (· ++ _) h.feedback
  · rw [hsnoc, readingsOf, List.filterMap_append, readingsOf, List.filterMap_append]
    exact congrArg (· ++ _) h.readings

/-- A failure that is no call and no reading is not seen. -/
theorem SameCalls.failure {acts : List Action} {actions : List NetAction}
    (h : SameCalls acts actions) {b : Action} (hc : b.call? = none) (hr : b.reading? = none) :
    SameCalls (acts ++ [b]) (actions ++ [.failure]) := by
  have hsnoc : serverOf (actions ++ [.failure]) = serverOf actions := by simp [serverOf]
  constructor
  · rw [hsnoc, ← h.feedback]
    simp [feedbackOf, hc]
  · rw [hsnoc, ← h.readings]
    simp [readingsOf, hr]

/-- The server goes through a run of its own on what it has read, with the same calls. -/
structure Net.Projects (c : Arith) (g : Settings) (trace : List STrace)
    (actions : List NetAction) (s : Net) : Prop where
  run : ∃ acts, SameCalls acts actions ∧
    Run (Step c ⟨g, trace, s.request⟩) .start acts s.server ∧
    (Unread s.server.data → s.request = [] ∧
      ∀ y, Run (Step c ⟨g, trace, y⟩) .start acts s.server)

/-- Every step keeps it. -/
theorem NetStep.projects {actions : List NetAction} {s t : Net} {b : NetAction}
    (hs : s.Projects c g trace actions) (h : NetStep c g trace q s b t) :
    t.Projects c g trace (actions ++ [b]) := by
  obtain ⟨acts, hacts, hrun, hunread⟩ := hs
  cases h with
  | @server b u hb h =>
    refine ⟨acts ++ [b], hacts.server b, hrun.append (.single (.thread h)), ?_⟩
    intro hd
    have hd' : Unread s.server.data :=
      unread_of_step h (staged_of_run hrun) (by rintro rfl; cases hb) hd
    obtain ⟨hnil, hany⟩ := hunread hd'
    exact ⟨hnil, fun y ↦ (hany y).append (.single (step_of_request y h hb hd'))⟩
  | @serverRecv u r hne hpre hlen h =>
    obtain ⟨hbefore, hafter⟩ := unread_of_recv h
    refine ⟨acts ++ [.recv], hacts.server .recv,
      ((hunread hbefore).2 r).append (.single (.thread h)), ?_⟩
    exact fun hd ↦ absurd hd hafter
  | @serverSend u result h =>
    refine ⟨acts ++ [.send result], hacts.server _, hrun.append (.single (.thread h)), ?_⟩
    exact fun hd ↦ absurd hd (not_unread_of_send h)
  | @serverRecvFails u h =>
    obtain ⟨hbefore, hafter⟩ := unread_of_recv h
    rw [← (hunread hbefore).1] at h
    refine ⟨acts ++ [.recv], hacts.failure rfl rfl, hrun.append (.single (.thread h)), ?_⟩
    exact fun hd ↦ absurd hd hafter
  | signal hr =>
    refine ⟨acts ++ [.exit], hacts.failure rfl rfl, hrun.append (.single (.signal hr)), ?_⟩
    intro hd
    obtain ⟨hnil, hany⟩ := hunread hd
    exact ⟨hnil, fun y ↦ (hany y).append (.single (.signal hr))⟩
  | _ =>
    refine ⟨acts, ⟨?_, ?_⟩, hrun, hunread⟩
    · simpa [serverOf] using hacts.feedback
    · simpa [serverOf] using hacts.readings

/-- In every run of client, server and connection, the server goes through a run of its own
on what it has read. -/
theorem projects_of_run {actions : List NetAction} {s : Net}
    (h : Run (NetStep c g trace q) (Net.start q) actions s) : s.Projects c g trace actions :=
  h.history (fun actions s ↦ s.Projects c g trace actions)
    ⟨[], ⟨rfl, rfl⟩, .nil _, fun _ ↦ ⟨rfl, fun _ ↦ .nil _⟩⟩
    (fun _ _ _ _ hs hstep ↦ hstep.projects hs)

end Server

/-! ### The time in the query -/

/-- A request that reaches to the end of the time in the query has the client's start. -/
theorem startOfClient_of_query {a : Args} {basetime : UInt64} {g : Settings}
    {trace : List STrace} {r : Text} {conn : Conn} (hquery : (query a basetime).length < 1024)
    (hr : r <+: query a basetime) (hread : a.timeAt + (timeS basetime).length ≤ r.length)
    (hacc : Accepts ⟨g, trace, r⟩ conn) :
    UInt64.ofNat conn.startOfClient = startTimestamp basetime := by
  obtain ⟨srcIp, dstAddr, ho⟩ := hacc
  have hcut : r = (query a basetime).take r.length := List.prefix_iff_eq_take.mp hr
  have hd := dataRequest_cut_of_le ⟨0, 0, 0, 0, false⟩ hquery hread
  rw [← hcut] at hd
  have hout := ho (by simp [hd])
  rw [hd] at hout
  have hconn : conn = decoded a basetime := congrArg Prod.snd hout
  rw [hconn, decoded, ← toNat_startTimestamp, UInt64.ofNat_toNat]

/-- Calls of `send` take all that they are given, and the query is shorter than the server's
buffer. In every run of client, server and connection in which the server has read the query to
the end of its time, the calls of the replay loop are the first ones of the sequential loop
whose bias is the time from the start in the client's file to the one reading of the clock that
the run has taken for it: its clock is that of the link. -/
theorem feedback_from_basetime (c : Arith) (g : Settings) (trace : List STrace) (a : Args)
    (basetime : UInt64) (hquery : (query a basetime).length < 1024) (actions : List NetAction)
    (s : Net)
    (h : Run (WholeStep c g trace (query a basetime)) (Net.start (query a basetime)) actions s)
    (hread : a.timeAt + (timeS basetime).length ≤ s.request.length) :
    feedbackOf (serverOf actions) = [] ∨
    ∃ (initial raw : UInt64) (env : ℕ → IterEnv) (inForce : SockOpt → ℤ),
      readingsOf (serverOf actions) = [(initial, raw)] ∧
      feedbackOf (serverOf actions) <+: replayCalls c g
        (cntThread c ⟨g, trace, raw - startTimestamp basetime⟩ env inForce) ∧
      (s.server.cnt = .returned → feedbackOf (serverOf actions) = replayCalls c g
        (cntThread c ⟨g, trace, raw - startTimestamp basetime⟩ env inForce)) := by
  have hsound := sound_of_run hquery rfl h
  obtain ⟨acts, hacts, hrun, -⟩ := projects_of_run (h.mono (fun _ _ _ hstep ↦ hstep.1))
  rw [← hacts.feedback, ← hacts.readings]
  rcases (traced_of_run hrun).exists_thread with
    hnil | ⟨setup, env, inForce, ⟨conn, initial, raw, hacc, hreading, rfl⟩, hpre, hall⟩
  · exact Or.inl hnil
  · have hstart := startOfClient_of_query hquery hsound.request_prefix_query hread hacc
    rw [setupTime_eq, hstart] at hpre hall
    exact Or.inr ⟨initial, raw, env, inForce, hreading, hpre, hall⟩

private theorem feedbackOf_serverOf_snoc (actions : List NetAction) (call : SockOpt × ℤ) :
    feedbackOf (serverOf (actions ++ [.server (.feedback call)])) ≠ [] := by
  simp [serverOf, feedbackOf, Action.call?]

/-- A run with a call, for a trace of one line and a client whose file says 12. -/
theorem feedback_from_basetime_oneLine : ∃ (actions : List NetAction) (s : Net)
    (initial raw : UInt64) (env : ℕ → IterEnv) (inForce : SockOpt → ℤ),
    Run (WholeStep .amd64 ⟨5, 1, 1, 2⟩ [⟨1, 1, 1⟩] (query oneMegabyte 12))
      (Net.start (query oneMegabyte 12)) actions s ∧
    feedbackOf (serverOf actions) ≠ [] ∧ readingsOf (serverOf actions) = [(initial, raw)] ∧
    feedbackOf (serverOf actions) <+: replayCalls .amd64 ⟨5, 1, 1, 2⟩
      (cntThread .amd64 ⟨⟨5, 1, 1, 2⟩, [⟨1, 1, 1⟩], raw - startTimestamp 12⟩ env inForce) := by
  have hquery : (query oneMegabyte 12).length < 1024 := by decide +kernel
  obtain ⟨first, hfirst⟩ := exists_run_handOff .amd64 ⟨5, 1, 1, 2⟩ [⟨1, 1, 1⟩] oneMegabyte 12 hquery
    (Or.inr ⟨rfl, by decide⟩)
  have hwake := hfirst.append (.single ⟨.server rfl (.cnt rfl (.wake rfl rfl)), trivial⟩)
  have hdelay := hwake.append (.single ⟨.server rfl (.cnt rfl (.noDelay rfl rfl)), trivial⟩)
  have hstart := hdelay.append
    (.single ⟨.server rfl (.cnt rfl (.start 0 12000 (fun _ ↦ 0) rfl)), trivial⟩)
  have happly := hstart.append
    (.single ⟨.server rfl (.cnt rfl (.apply 0 rfl rfl (by decide +kernel) (by decide +kernel))),
      trivial⟩)
  have hcall := happly.append
    (.single ⟨.server rfl (.cnt rfl (.feedback true rfl (fun h ↦ by cases h))), trivial⟩)
  rcases feedback_from_basetime .amd64 ⟨5, 1, 1, 2⟩ [⟨1, 1, 1⟩] oneMegabyte 12 hquery _ _ hcall
    (by decide +kernel) with hnil | ⟨initial, raw, env, inForce, hreading, hpre, -⟩
  · exact absurd hnil (feedbackOf_serverOf_snoc _ _)
  · exact ⟨_, _, initial, raw, env, inForce, hcall, feedbackOf_serverOf_snoc _ _, hreading, hpre⟩

end NatcpSpec.System
