import NatcpSpec.System.Setup
import Mathlib.Tactic.ByContra

/-!
# How the set-up of the connection ends

`src/server.cc:272–365` and `src/client.c:96–264`. Every step keeps account of the failures
before it, so that the state in which nothing is left to do tells which calls have failed: the
two are connected, the server has returned, or it waits for a client that does not come.
-/

namespace NatcpSpec.System

open NatcpSpec.Base

/-! ### Failures -/

/-- A failure on account of which the server gives up: at once, or for `listen` in the
`accept` after it. -/
def SetupAction.endsServer : SetupAction → Bool
  | .server .setReuse _ | .server .system _ | .server .close _ => false
  | .server _ failed => failed
  | .client _ _ => false

/-- A failure on account of which there is no client, or it gives up. -/
def SetupAction.endsClient : SetupAction → Bool
  | .server .system failed => failed
  | .server _ _ => false
  | .client .usleep _ | .client .close _ => false
  | .client _ failed => failed

/-- The server has given up, or will. -/
def Setup.serverEnds (s : Setup) : Bool :=
  s.server = .closing || s.server = .returned ||
    (s.server = .accepting && s.serverSock ≠ .listening)

/-- There will be no client, or it has given up. -/
def Setup.clientEnds (s : Setup) : Bool :=
  s.client = .missing || s.client = .closing || s.client = .returned

/-! ### What a state tells about the failures before it -/

section Failures

variable {s t : Setup} {a : SetupAction}

private theorem serverEnds_step (hs : s.Consistent) (h : SetupStep s a t) :
    t.serverEnds = (s.serverEnds || a.endsServer) := by
  have hfinds := hs.server
  obtain ⟨p, d, q, e⟩ := s
  cases h with
  | server failed h hk =>
    change p.call? = _ at h
    cases p with
    | opening | creating | reusing | binding | launching =>
      cases h
      cases failed <;> rfl
    | listening =>
      cases h
      obtain rfl : d = .bound := of_decide_eq_true hfinds
      cases failed <;> rfl
    | accepting =>
      cases h
      obtain ⟨rfl, hne⟩ := hk rfl
      obtain rfl := (ServerSetup.bound_or_listening hfinds).resolve_right hne
      rfl
    | closing =>
      cases h
      cases failed <;> rfl
    | returned => cases h
  | client failed h hk => exact (Bool.or_false _).symm

private theorem clientEnds_step (hs : s.Consistent) (h : SetupStep s a t) :
    t.clientEnds = (s.clientEnds || a.endsClient) := by
  cases h with
  | @server call failed h hk =>
    rcases hs.launch_cases h failed with ⟨hcall, hsame⟩ | ⟨rfl, -, hclient, hlaunch⟩
    · have hends : (SetupAction.server call failed).endsClient = false := by
        cases call with
        | system => exact absurd rfl hcall
        | _ => rfl
      rw [hends, Bool.or_false, Setup.clientEnds, hsame]
      rfl
    · rw [Setup.clientEnds, Setup.clientEnds, hlaunch, hclient]
      cases failed <;> rfl
  | client failed h hk =>
    obtain ⟨p, d, q, e⟩ := s
    change q.call? = _ at h
    cases q with
    | absent | missing | connected | returned => cases h
    | _ =>
      cases h
      cases failed <;> rfl

-- The socket of the server listens, which takes a `listen` that succeeded.
private theorem listening_step (h : SetupStep s a t) (ht : t.serverSock = .listening) :
    s.serverSock = .listening ∨ a = .server .listen false := by
  cases h with
  | @server call failed h hk =>
    cases call with
    | listen =>
      cases failed with
      | false => exact .inr rfl
      | true => exact .inl ht
    | socket | bind | connect =>
      cases failed with
      | false => cases ht
      | true => exact .inl ht
    | close => cases ht
    | _ => exact .inl ht
  | client failed h hk => exact .inl ht

variable {as : List SetupAction}

/-- A state of a run keeps account of a test of the actions, if every step does. -/
theorem any_eq_of_run (f : SetupAction → Bool) (p : Setup → Bool)
    (hstep : ∀ s a t, s.Consistent → SetupStep s a t → p t = (p s || f a))
    (hp : p .start = false) (h : Run SetupStep .start as s) : as.any f = p s :=
  h.any_eq Setup.Consistent (fun _ _ _ hs hst ↦ hs.step hst) f p hstep
    (consistent_of_run (.nil _)) hp

private theorem any_endsServer (h : Run SetupStep .start as s) :
    as.any SetupAction.endsServer = s.serverEnds :=
  any_eq_of_run _ _ (fun _ _ _ ↦ serverEnds_step) rfl h

private theorem any_endsClient (h : Run SetupStep .start as s) :
    as.any SetupAction.endsClient = s.clientEnds :=
  any_eq_of_run _ _ (fun _ _ _ ↦ clientEnds_step) rfl h

private theorem mem_listen (h : Run SetupStep .start as s) (hs : s.serverSock = .listening) :
    .server .listen false ∈ as := by
  refine h.history (fun as s ↦ s.serverSock = .listening → .server .listen false ∈ as)
    (by simp [Setup.start]) ?_ hs
  intro as s a t ih hst ht
  rw [List.mem_append, List.mem_singleton]
  exact (listening_step hst ht).imp ih Eq.symm

end Failures

/-! ### How the set-up ends -/

/-- Calls that the server has still to make at most. -/
def ServerSetup.left : ServerSetup → ℕ
  | .opening => 8
  | .creating => 7
  | .reusing => 6
  | .binding => 5
  | .launching => 4
  | .listening => 3
  | .accepting => 2
  | .closing => 1
  | .returned => 0

/-- Calls that the client has still to make at most. -/
def ClientSetup.left : ClientSetup → ℕ
  | .absent | .sleeping => 9
  | .opening => 8
  | .counting => 7
  | .creating => 6
  | .settingNoDelay => 5
  | .settingBwVal => 4
  | .binding => 3
  | .connecting => 2
  | .closing => 1
  | .missing | .connected | .returned => 0

section Ending

variable {s t : Setup} {a : SetupAction} {as : List SetupAction}

private theorem ServerSetup.left_next {p : ServerSetup} {call : SetupCall} {failed : Bool}
    (h : p.call? = some call) (hk : call = .accept → failed = true) :
    (p.next failed).left < p.left := by
  cases p with
  | accepting =>
    obtain rfl := hk (Option.some.inj h).symm
    decide
  | returned => cases h
  | _ => cases failed <;> decide

private theorem ClientSetup.left_next {p : ClientSetup} {call : SetupCall} (failed : Bool)
    (h : p.call? = some call) : (p.next failed).left < p.left := by
  cases p with
  | absent | missing | connected | returned => cases h
  | _ => cases failed <;> decide

private theorem left_lt (hs : s.Consistent) (h : SetupStep s a t) :
    t.server.left + t.client.left < s.server.left + s.client.left := by
  cases h with
  | @server call failed h hk =>
    have hserver := ServerSetup.left_next h (fun hcall ↦ (hk hcall).1)
    have hclient : (s.client.launch call failed).left ≤ s.client.left := by
      rcases hs.launch_cases h failed with ⟨-, hsame⟩ | ⟨-, -, habsent, hlaunch⟩
      · exact Nat.le_of_eq (congrArg ClientSetup.left hsame)
      · rw [hlaunch, habsent]
        cases failed <;> decide
    exact Nat.add_lt_add_of_lt_of_le hserver hclient
  | client failed h hk => exact Nat.add_lt_add_left (ClientSetup.left_next failed h) _

private theorem server_of_stuck (h : s.Stuck) :
    s.server = .returned ∨ s.server = .accepting ∧ s.serverSock = .listening := by
  cases hcall : s.server.call? with
  | none =>
    left
    cases hp : s.server with
    | returned => rfl
    | _ =>
      rw [hp] at hcall
      cases hcall
  | some call =>
    right
    by_contra hnot
    refine h _ _ (.server true hcall fun haccept ↦ ⟨rfl, fun hlistening ↦ hnot ⟨?_, hlistening⟩⟩)
    rw [haccept] at hcall
    exact ServerSetup.eq_accepting_of_call hcall

private theorem client_of_stuck (h : s.Stuck) : s.client.call? = none := by
  cases hcall : s.client.call? with
  | none => rfl
  | some call => exact absurd (.client true hcall (by simp)) (h _ _)

-- A client with nothing left to do is connected, or there will be none.
private theorem connected_or_ends (hcall : s.client.call? = none) (hlaunched : s.client ≠ .absent) :
    s.client = .connected ∧ s.clientEnds = false ∨
      (s.client = .missing ∨ s.client = .returned) ∧ s.clientEnds = true := by
  rw [Setup.clientEnds]
  cases hp : s.client with
  | absent => exact absurd hp hlaunched
  | connected => exact .inl ⟨rfl, rfl⟩
  | missing => exact .inr ⟨.inl rfl, rfl⟩
  | returned => exact .inr ⟨.inr rfl, rfl⟩
  | _ =>
    rw [hp] at hcall
    cases hcall

private theorem connected_iff (hs : s.Consistent) (h : s.Stuck) :
    s.Connected ↔ s.serverEnds = false ∧ s.clientEnds = false := by
  constructor
  · rintro ⟨hclient, hserver, hlistening⟩
    simp [Setup.serverEnds, Setup.clientEnds, hclient, hserver, hlistening]
  · rintro ⟨hserver, hclient⟩
    rcases server_of_stuck h with hreturned | ⟨haccepting, hlistening⟩
    · simp [Setup.serverEnds, hreturned] at hserver
    · rcases connected_or_ends (client_of_stuck h) (hs.launched (.inr haccepting)) with
        ⟨hconnected, -⟩ | ⟨-, hends⟩
      · exact ⟨hconnected, haccepting, hlistening⟩
      · rw [hclient] at hends
        cases hends

private theorem returned_iff (h : s.Stuck) : s.server = .returned ↔ s.serverEnds = true := by
  rcases server_of_stuck h with hreturned | ⟨haccepting, hlistening⟩
  · simp [Setup.serverEnds, hreturned]
  · simp [Setup.serverEnds, haccepting, hlistening]

private theorem abandoned_iff (hs : s.Consistent) (h : s.Stuck) :
    s.Abandoned ↔ s.serverEnds = false ∧ s.clientEnds = true := by
  rcases server_of_stuck h with hreturned | ⟨haccepting, hlistening⟩
  · simp [Setup.Abandoned, Setup.serverEnds, hreturned]
  · have hserver : s.serverEnds = false := by simp [Setup.serverEnds, haccepting, hlistening]
    rw [Setup.Abandoned, hserver]
    rcases connected_or_ends (client_of_stuck h) (hs.launched (.inr haccepting)) with
      ⟨hconnected, hends⟩ | ⟨hgone, hends⟩
    · simp [hconnected, hends]
    · simp [haccepting, hlistening, hgone, hends]

end Ending

/-! ### Runs to their end -/

/-- The server up to `system`, and a client that is brought up. -/
def launching : List SetupAction :=
  [.server .fopen false, .server .socket false, .server .setReuse false, .server .bind false,
    .server .system false]

private def preparing : List SetupAction :=
  [.client .usleep false, .client .fopen false, .client .argc false, .client .socket false,
    .client .setNoDelay false, .client .setBwVal false, .client .bind false]

/-- The client has been brought up. -/
theorem run_launching :
    Run SetupStep .start launching ⟨.listening, .bound, .sleeping, .absent⟩ :=
  .cons (.server false rfl (by simp)) (.cons (.server false rfl (by simp))
    (.cons (.server false rfl (by simp)) (.cons (.server false rfl (by simp))
      (.single (.server false rfl (by simp))))))

private theorem run_preparing (p : ServerSetup) (d : Descriptor) :
    Run SetupStep ⟨p, d, .sleeping, .absent⟩ preparing ⟨p, d, .connecting, .bound⟩ :=
  .cons (.client false rfl (by simp)) (.cons (.client false rfl (by simp))
    (.cons (.client false rfl (by simp)) (.cons (.client false rfl (by simp))
      (.cons (.client false rfl (by simp)) (.cons (.client false rfl (by simp))
        (.single (.client false rfl (by simp))))))))

private theorem stuck_of_accepting (p : ClientSetup) (d : Descriptor) (hp : p.call? = none) :
    Setup.Stuck ⟨.accepting, .listening, p, d⟩ := by
  intro a t h
  cases h with
  | server failed h hk => exact (hk (Option.some.inj h).symm).2 rfl
  | client failed h hk =>
    rw [hp] at h
    cases h

/-- However the calls of server and client interleave, they are 17 at most, the test of `argc`
included. When none is left, the two are connected exactly if no call failed but those that
nothing depends on. The server has returned exactly if one of its own calls failed, `listen`
included. In all other cases the client was not brought up or has given up, and the server
waits for it in `accept`, which does not fail on a socket that listens. -/
theorem setup_outcome (as : List SetupAction) (s : Setup) (h : Run SetupStep .start as s) :
    as.length ≤ 17 ∧
    (s.Stuck →
      (s.Connected ↔ ∀ a ∈ as, a.endsServer = false ∧ a.endsClient = false) ∧
      (s.server = .returned ↔ ∃ a ∈ as, a.endsServer = true) ∧
      (s.Abandoned ↔ (∀ a ∈ as, a.endsServer = false) ∧ ∃ a ∈ as, a.endsClient = true)) := by
  have hlength := h.length_le Setup.Consistent (fun s ↦ s.server.left + s.client.left)
    (fun _ _ _ hs hst ↦ ⟨hs.step hst, left_lt hs hst⟩) (consistent_of_run (.nil _))
  refine ⟨Nat.le_of_add_right_le hlength, fun hstuck ↦ ?_⟩
  have hs := consistent_of_run h
  rw [connected_iff hs hstuck, returned_iff hstuck, abandoned_iff hs hstuck, ← any_endsServer h,
    ← any_endsClient h]
  simp [forall_and]

/-- The server listens before the client has prepared its socket. -/
theorem setup_outcome_connected :
    ∃ as s, Run SetupStep .start as s ∧ s.Stuck ∧ s.Connected := by
  have hrun := run_launching.append (.cons (.server false rfl (by simp))
    ((run_preparing .accepting .listening).append (.single (.client false rfl (by simp)))))
  have hstuck := stuck_of_accepting .connected .connected rfl
  refine ⟨_, _, hrun, hstuck, ?_⟩
  exact ((setup_outcome _ _ hrun).2 hstuck).1.mpr (by decide)

/-- The client connects only after the server has called `listen`, although it is started
before. If it comes earlier it is refused, and the server, unless it fails itself, waits for
it in `accept` when nothing else is left to do. -/
theorem early_connect (before after : List SetupAction) (failed : Bool) (s : Setup)
    (h : Run SetupStep .start (before ++ .client .connect failed :: after) s) :
    (failed = false → .server .listen false ∈ before) ∧
    (.server .listen false ∉ before → failed = true ∧
      (s.Stuck → (∀ a ∈ before ++ .client .connect failed :: after, a.endsServer = false) →
        s.Abandoned)) := by
  obtain ⟨t, hbefore, hrest⟩ := h.of_append
  have hlisten : failed = false → .server .listen false ∈ before := by
    intro hok
    cases hrest with
    | cons hstep _ =>
      cases hstep with
      | client _ hcall hk => exact mem_listen hbefore (hk rfl hok)
  refine ⟨hlisten, fun hearly ↦ ?_⟩
  have hfailed : failed = true := by
    cases failed with
    | false => exact absurd (hlisten rfl) hearly
    | true => rfl
  refine ⟨hfailed, fun hstuck hserver ↦ ?_⟩
  rw [abandoned_iff (consistent_of_run h) hstuck, ← any_endsServer h, ← any_endsClient h]
  constructor
  · exact List.any_eq_false.mpr (fun a ha ↦ by simp [hserver a ha])
  · simp [hfailed, SetupAction.endsClient]

/-- All calls but `connect` succeed, and the server is left in `accept`. -/
theorem early_connect_refused :
    ∃ before after s, Run SetupStep .start (before ++ .client .connect true :: after) s ∧
      .server .listen false ∉ before ∧ s.Stuck ∧ s.Abandoned := by
  have hrun := (run_launching.append (run_preparing .listening .bound)).append
    (.cons (.client true rfl (by simp)) (.cons (.client false rfl (by simp))
      (.single (.server false rfl (by simp)))))
  have hstuck := stuck_of_accepting .returned .closed rfl
  have hearly : .server .listen false ∉ launching ++ preparing := by decide
  refine ⟨_, _, _, hrun, hearly, hstuck, ?_⟩
  exact ((early_connect _ _ _ _ hrun).2 hearly).2 hstuck (by decide)

end NatcpSpec.System
