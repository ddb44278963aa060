import NatcpSpec.Base.Transition

/-!
# Setting up the connection

`src/server.cc:272–365` and `src/client.c:96–264`: the calls of server and client before the
client sends its query. The server starts the client with `system` before it calls `listen`,
and from then on the two processes go on in any order. A call can fail at any time, except for
`accept`, which is taken to fail only on a socket that does not listen. The client that was
started is the only one that connects. What the processes do with the files that they have
opened makes no difference here and is left out.

`accept` returns without an error only after `connect` has succeeded; what follows is
`System.Connection`, with the server in `accept` and the client in front of its send loop.
-/

namespace NatcpSpec.System

open NatcpSpec.Base

/-! ### Calls -/

/-- Calls of the set-up. The test of `argc` at `src/client.c:107` is counted among them. -/
inductive SetupCall where
  | usleep
  | fopen
  | argc
  | socket
  | setReuse
  | setNoDelay
  | setBwVal
  | bind
  | system
  | listen
  | accept
  | connect
  | close
deriving DecidableEq

/-- The socket behind `sockfd` or `server_sockfd`. -/
inductive Descriptor where
  | absent
  | fresh
  | bound
  | listening
  | connected
  | closed
deriving DecidableEq

/-- The process holds the descriptor. -/
def Descriptor.isOpen : Descriptor → Bool
  | .absent | .closed => false
  | _ => true

/-- The socket after a call. A call that fails leaves it as it was, except for `close`. -/
def SetupCall.effect : SetupCall → Bool → Descriptor → Descriptor
  | .close, _, _ => .closed
  | .socket, false, _ => .fresh
  | .bind, false, _ => .bound
  | .listen, false, _ => .listening
  | .connect, false, _ => .connected
  | _, _, d => d

/-! ### Places -/

/-- Places in `start_server` up to `accept`; `src/server.cc:272–365`. -/
inductive ServerSetup where
  | opening
  | creating
  | reusing
  | binding
  | launching
  | listening
  | accepting
  | closing
  | returned
deriving DecidableEq

/-- Places in `main` of the client up to `connect`; `src/client.c:96–264`. -/
inductive ClientSetup where
  /-- The server has not called `system` yet. -/
  | absent
  /-- The command of the server did not bring up the client. -/
  | missing
  | sleeping
  | opening
  | counting
  | creating
  | settingNoDelay
  | settingBwVal
  | binding
  | connecting
  | connected
  | closing
  | returned
deriving DecidableEq

/-- The next call of the server. -/
def ServerSetup.call? : ServerSetup → Option SetupCall
  | .opening => some .fopen
  | .creating => some .socket
  | .reusing => some .setReuse
  | .binding => some .bind
  | .launching => some .system
  | .listening => some .listen
  | .accepting => some .accept
  | .closing => some .close
  | .returned => none

/-- Where the server goes after its call, given whether it failed. The results of
`setsockopt`, `system` and `listen` make no difference; `src/server.cc:323–324,350,353`. -/
def ServerSetup.next : ServerSetup → Bool → ServerSetup
  | .opening, false => .creating
  | .creating, false => .reusing
  | .reusing, _ => .binding
  | .binding, false => .launching
  | .binding, true => .closing
  | .launching, _ => .listening
  | .listening, _ => .accepting
  | .accepting, false => .accepting
  | .accepting, true => .closing
  | _, _ => .returned

/-- The next call of the client. -/
def ClientSetup.call? : ClientSetup → Option SetupCall
  | .sleeping => some .usleep
  | .opening => some .fopen
  | .counting => some .argc
  | .creating => some .socket
  | .settingNoDelay => some .setNoDelay
  | .settingBwVal => some .setBwVal
  | .binding => some .bind
  | .connecting => some .connect
  | .closing => some .close
  | _ => none

/-- Where the client goes after its call, given whether it failed. After a failed `bind` it
returns without `close`; `src/client.c:232–236`. -/
def ClientSetup.next : ClientSetup → Bool → ClientSetup
  | .sleeping, _ => .opening
  | .opening, false => .counting
  | .counting, false => .creating
  | .creating, false => .settingNoDelay
  | .settingNoDelay, false => .settingBwVal
  | .settingNoDelay, true => .closing
  | .settingBwVal, false => .binding
  | .settingBwVal, true => .closing
  | .binding, false => .connecting
  | .connecting, false => .connected
  | .connecting, true => .closing
  | _, _ => .returned

/-! ### Steps -/

/-- Both processes and their sockets. -/
structure Setup where
  server : ServerSetup
  serverSock : Descriptor
  client : ClientSetup
  clientSock : Descriptor
deriving DecidableEq

/-- The server has been called with its arguments. -/
def Setup.start : Setup := ⟨.opening, .absent, .absent, .absent⟩

/-- A call, who makes it and whether it fails. For `system` this is whether the command brings
up the client. -/
inductive SetupAction where
  | server (call : SetupCall) (failed : Bool)
  | client (call : SetupCall) (failed : Bool)
deriving DecidableEq

/-- The client after a call of the server. -/
def ClientSetup.launch (call : SetupCall) (failed : Bool) (p : ClientSetup) : ClientSetup :=
  if call = .system then if failed then .missing else .sleeping else p

/-- Steps of the two processes. `connect` succeeds only on a server that listens. As long as
there is no connection, `accept` returns only if the socket does not listen, and then with an
error. -/
inductive SetupStep (s : Setup) : SetupAction → Setup → Prop where
  | server {call : SetupCall} (failed : Bool) (h : s.server.call? = some call)
      (hk : call = .accept → failed = true ∧ s.serverSock ≠ .listening) :
      SetupStep s (.server call failed)
        { s with
          server := s.server.next failed
          serverSock := call.effect failed s.serverSock
          client := s.client.launch call failed }
  | client {call : SetupCall} (failed : Bool) (h : s.client.call? = some call)
      (hk : call = .connect → failed = false → s.serverSock = .listening) :
      SetupStep s (.client call failed)
        { s with
          client := s.client.next failed
          clientSock := call.effect failed s.clientSock }

/-- No call can be made or returns. -/
def Setup.Stuck (s : Setup) : Prop := ∀ a t, ¬SetupStep s a t

/-- The client is connected and the server about to return from `accept`. -/
def Setup.Connected (s : Setup) : Prop :=
  s.client = .connected ∧ s.server = .accepting ∧ s.serverSock = .listening

/-- The server waits in `accept`, and no client will connect. -/
def Setup.Abandoned (s : Setup) : Prop :=
  s.server = .accepting ∧ s.serverSock = .listening ∧
    (s.client = .missing ∨ s.client = .returned)

/-! ### What a place tells about the socket -/

/-- The socket of the server at its places. -/
def ServerSetup.finds : ServerSetup → Descriptor → Bool
  | .opening, d | .creating, d => d = .absent
  | .reusing, d | .binding, d => d = .fresh
  | .launching, d | .listening, d => d = .bound
  | .accepting, d => d = .bound || d = .listening
  | .closing, d => d = .fresh || d = .bound
  | .returned, d => !d.isOpen

/-- The socket of the client at its places. -/
def ClientSetup.finds : ClientSetup → Descriptor → Bool
  | .settingNoDelay, d | .settingBwVal, d | .binding, d => d = .fresh
  | .connecting, d => d = .bound
  | .connected, d => d = .connected
  | .closing, d => d.isOpen
  | .returned, d => d = .absent || d = .fresh || d = .closed
  | _, d => d = .absent

/-- The server is in front of `system`. -/
def ServerSetup.beforeLaunch : ServerSetup → Bool
  | .opening | .creating | .reusing | .binding | .launching => true
  | _ => false

/-- What holds in every state of the set-up. -/
structure Setup.Consistent (s : Setup) : Prop where
  server : s.server.finds s.serverSock = true
  client : s.client.finds s.clientSock = true
  absent : s.server.beforeLaunch = true → s.client = .absent
  launched : s.server = .listening ∨ s.server = .accepting → s.client ≠ .absent
  connected : s.client = .connected → s.server = .accepting ∧ s.serverSock = .listening

section Step

variable {call : SetupCall} {failed : Bool} {d : Descriptor}

/-- In `accept` the socket listens, or `listen` has failed. -/
theorem ServerSetup.bound_or_listening (h : ServerSetup.accepting.finds d = true) :
    d = .bound ∨ d = .listening := by
  rw [finds, Bool.or_eq_true] at h
  exact h.imp of_decide_eq_true of_decide_eq_true

private theorem ServerSetup.finds_next {p : ServerSetup} (h : p.call? = some call)
    (hk : call = .accept → failed = true ∧ d ≠ .listening) (hd : p.finds d = true) :
    (p.next failed).finds (call.effect failed d) = true := by
  cases p with
  | opening | creating =>
    cases h
    obtain rfl : d = .absent := of_decide_eq_true hd
    cases failed <;> rfl
  | reusing | binding =>
    cases h
    obtain rfl : d = .fresh := of_decide_eq_true hd
    cases failed <;> rfl
  | launching | listening =>
    cases h
    obtain rfl : d = .bound := of_decide_eq_true hd
    cases failed <;> rfl
  | accepting =>
    cases h
    obtain ⟨rfl, hne⟩ := hk rfl
    obtain rfl := (bound_or_listening hd).resolve_right hne
    rfl
  | closing =>
    cases h
    cases failed <;> rfl
  | returned => cases h

private theorem ClientSetup.finds_next {p : ClientSetup} (h : p.call? = some call)
    (hd : p.finds d = true) : (p.next failed).finds (call.effect failed d) = true := by
  cases p with
  | sleeping | opening | counting | creating =>
    cases h
    obtain rfl : d = .absent := of_decide_eq_true hd
    cases failed <;> rfl
  | settingNoDelay | settingBwVal | binding =>
    cases h
    obtain rfl : d = .fresh := of_decide_eq_true hd
    cases failed <;> rfl
  | connecting =>
    cases h
    obtain rfl : d = .bound := of_decide_eq_true hd
    cases failed <;> rfl
  | closing =>
    cases h
    cases failed <;> rfl
  | absent | missing | connected | returned => cases h

/-- Only a server in `accept` has a socket that listens. -/
theorem ServerSetup.eq_accepting {p : ServerSetup} (h : p.finds .listening = true) :
    p = .accepting := by
  cases p with
  | accepting => rfl
  | _ => cases h

/-- Only one place calls `accept`. -/
theorem ServerSetup.eq_accepting_of_call {p : ServerSetup} (h : p.call? = some .accept) :
    p = .accepting := by
  cases p with
  | accepting => rfl
  | _ => cases h

private theorem ServerSetup.eq_launching {p : ServerSetup} (h : p.call? = some .system) :
    p = .launching := by
  cases p with
  | launching => rfl
  | _ => cases h

private theorem ClientSetup.connects {p : ClientSetup} (h : p.call? = some call)
    (hn : p.next failed = .connected) : call = .connect ∧ failed = false := by
  cases p with
  | connecting =>
    cases h
    cases failed with
    | false => exact ⟨rfl, rfl⟩
    | true => cases hn
  | _ => cases failed <;> cases hn

private theorem ClientSetup.next_ne_absent (p : ClientSetup) : p.next failed ≠ .absent := by
  cases p <;> cases failed <;> exact nofun

private theorem ServerSetup.beforeLaunch_of_next {p : ServerSetup}
    (h : (p.next failed).beforeLaunch = true) : p.beforeLaunch = true := by
  cases p with
  | opening | creating | reusing | binding | launching => rfl
  | _ => cases failed <;> cases h

-- A server behind `system` has called it, or was behind it before.
private theorem ServerSetup.launched_of_next {p : ServerSetup} (h : p.call? = some call)
    (hcall : call ≠ .system) (hn : p.next failed = .listening ∨ p.next failed = .accepting) :
    p = .listening ∨ p = .accepting := by
  cases p with
  | listening => exact .inl rfl
  | accepting => exact .inr rfl
  | launching => exact absurd (Option.some.inj h).symm hcall
  | _ => cases failed <;> rcases hn with hn | hn <;> cases hn

end Step

section Consistent

variable {s t : Setup} {a : SetupAction}

/-- A call of the server leaves the client alone, or it starts the client. -/
theorem Setup.Consistent.launch_cases {call : SetupCall} (hs : s.Consistent)
    (h : s.server.call? = some call) (failed : Bool) :
    (call ≠ .system ∧ s.client.launch call failed = s.client) ∨
      (call = .system ∧ s.server = .launching ∧ s.client = .absent ∧
        s.client.launch call failed = if failed then .missing else .sleeping) := by
  by_cases hcall : call = .system
  · subst hcall
    have hserver := ServerSetup.eq_launching h
    exact .inr ⟨rfl, hserver, hs.absent (by rw [hserver]; rfl), if_pos rfl⟩
  · exact .inl ⟨hcall, if_neg hcall⟩

private theorem Setup.Consistent.serverStep {call : SetupCall} {failed : Bool}
    (hs : s.Consistent) (h : s.server.call? = some call)
    (hk : call = .accept → failed = true ∧ s.serverSock ≠ .listening) :
    Setup.Consistent
      { s with
        server := s.server.next failed
        serverSock := call.effect failed s.serverSock
        client := s.client.launch call failed } := by
  have hfinds := ServerSetup.finds_next h hk hs.server
  rcases hs.launch_cases h failed with ⟨hcall, hsame⟩ | ⟨-, hserver, hclient, hlaunch⟩
  · -- `accept` does not return to a connected client in this part of the program
    have hconn : s.client ≠ .connected := by
      intro hc
      obtain ⟨hserver, hlistening⟩ := hs.connected hc
      rw [hserver] at h
      exact (hk (Option.some.inj h).symm).2 hlistening
    rw [hsame]
    refine ⟨hfinds, hs.client, fun hb ↦ ?_, fun hl ↦ ?_, fun hc ↦ absurd hc hconn⟩
    · exact hs.absent (ServerSetup.beforeLaunch_of_next hb)
    · exact hs.launched (ServerSetup.launched_of_next h hcall hl)
  · have hsock := hs.client
    rw [hclient] at hsock
    rw [hlaunch]
    refine ⟨hfinds, ?_, fun hb ↦ ?_, fun _ ↦ ?_, fun hc ↦ ?_⟩
    · cases failed <;> exact hsock
    · rw [hserver] at hb
      cases hb
    · cases failed <;> exact nofun
    · cases failed <;> cases hc

private theorem Setup.Consistent.clientStep {call : SetupCall} {failed : Bool}
    (hs : s.Consistent) (h : s.client.call? = some call)
    (hk : call = .connect → failed = false → s.serverSock = .listening) :
    Setup.Consistent
      { s with
        client := s.client.next failed
        clientSock := call.effect failed s.clientSock } := by
  refine ⟨hs.server, ClientSetup.finds_next h hs.client, fun hb ↦ ?_,
    fun _ ↦ ClientSetup.next_ne_absent _, fun hc ↦ ?_⟩
  · rw [hs.absent hb] at h
    cases h
  · obtain ⟨hcall, hok⟩ := ClientSetup.connects h hc
    have hlistening := hk hcall hok
    exact ⟨ServerSetup.eq_accepting (hlistening ▸ hs.server), hlistening⟩

/-- Every step keeps what holds of the set-up. -/
theorem Setup.Consistent.step (hs : s.Consistent) (h : SetupStep s a t) : t.Consistent := by
  cases h with
  | server failed h hk => exact hs.serverStep h hk
  | client failed h hk => exact hs.clientStep h hk

/-- What holds of the set-up holds in every run. -/
theorem consistent_of_run {as : List SetupAction} (h : Run SetupStep .start as s) :
    s.Consistent :=
  h.history (fun _ s ↦ s.Consistent) ⟨rfl, rfl, fun _ ↦ rfl, by simp [Setup.start],
    fun h ↦ by cases h⟩ (fun _ _ _ _ hs hstep ↦ hs.step hstep)

end Consistent

end NatcpSpec.System
