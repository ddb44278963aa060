import NatcpSpec.System.Handshake

/-!
# Descriptors of the set-up

`src/server.cc:315–361` and `src/client.c:210–264`. Which state every call of the set-up finds
its socket in, and what becomes of the descriptors when a process gives up.
-/

namespace NatcpSpec.System

open NatcpSpec.Base

/-- The call can be made on the socket: `socket` has none yet, `bind` needs an unbound one,
`listen` and `connect` a bound one and `accept` one that listens; any other call on a socket
needs an open one. -/
def SetupCall.fits : SetupCall → Descriptor → Bool
  | .usleep, _ | .fopen, _ | .argc, _ | .system, _ => true
  | .socket, d => d = .absent
  | .bind, d => d = .fresh
  | .listen, d | .connect, d => d = .bound
  | .accept, d => d = .listening
  | _, d => d.isOpen

/-- The client has returned and still holds its descriptor. -/
def Setup.leaks (s : Setup) : Bool := s.client = .returned && s.clientSock.isOpen

/-- The server has not called `listen` yet. -/
def ServerSetup.beforeListen : ServerSetup → Bool
  | .accepting | .closing | .returned => false
  | _ => true

/-- Whether `listen` has been called, and what became of it, at the places of the server. -/
structure Setup.Listened (as : List SetupAction) (s : Setup) : Prop where
  before : s.server.beforeListen = true → ∀ failed, .server .listen failed ∉ as
  after : s.server = .accepting → (s.serverSock = .listening ↔ .server .listen true ∉ as)

section Descriptors

variable {s t : Setup} {a : SetupAction} {as : List SetupAction} {call : SetupCall}
  {failed : Bool} {d : Descriptor}

private theorem ServerSetup.eq_listening {p : ServerSetup} (h : p.call? = some .listen) :
    p = .listening := by
  cases p with
  | listening => rfl
  | _ => cases h

-- A call other than `listen` does not lead past it, and not to `accept`.
private theorem ServerSetup.next_of_ne_listen {p : ServerSetup} (failed : Bool)
    (h : p.call? = some call) (hcall : call ≠ .listen) (hk : call = .accept → failed = true) :
    p.next failed ≠ .accepting ∧
      ((p.next failed).beforeListen = true → p.beforeListen = true) := by
  cases p with
  | listening => exact absurd (Option.some.inj h).symm hcall
  | accepting =>
    obtain rfl := hk (Option.some.inj h).symm
    exact ⟨nofun, nofun⟩
  | closing => exact ⟨nofun, nofun⟩
  | returned => cases h
  | _ => cases failed <;> exact ⟨nofun, fun _ ↦ rfl⟩

private theorem listened_step (hs : s.Consistent) (hl : s.Listened as) (h : SetupStep s a t) :
    t.Listened (as ++ [a]) := by
  cases h with
  | @server call failed h hk =>
    by_cases hcall : call = .listen
    · subst hcall
      have hserver := ServerSetup.eq_listening h
      have hnone := hl.before (by rw [hserver]; rfl) true
      have hsock := hs.server
      rw [hserver] at hsock
      have hbound : s.serverSock = .bound := of_decide_eq_true hsock
      refine ⟨fun hb ↦ ?_, fun _ ↦ ?_⟩
      · rw [hserver] at hb
        cases hb
      · rw [hbound]
        cases failed with
        | false => simp [SetupCall.effect, hnone]
        | true => simp [SetupCall.effect]
    · obtain ⟨hne, hbefore⟩ := ServerSetup.next_of_ne_listen failed h hcall
        (fun haccept ↦ (hk haccept).1)
      refine ⟨fun hb f hmem ↦ ?_, fun haccepting ↦ absurd haccepting hne⟩
      rcases List.mem_append.mp hmem with hmem | hmem
      · exact hl.before (hbefore hb) f hmem
      · cases List.mem_singleton.mp hmem
        exact hcall rfl
  | client failed h hk =>
    refine ⟨fun hb f ↦ ?_, fun haccepting ↦ ?_⟩
    · simpa using hl.before hb f
    · simpa using hl.after haccepting

private theorem listened_of_run (h : Run SetupStep .start as s) : s.Listened as := by
  have hboth : s.Consistent ∧ s.Listened as := by
    refine h.history (fun as s ↦ s.Consistent ∧ s.Listened as)
      ⟨consistent_of_run (.nil _), fun _ _ ↦ List.not_mem_nil, nofun⟩ ?_
    rintro as s a t ⟨hs, hl⟩ hst
    exact ⟨hs.step hst, listened_step hs hl hst⟩
  exact hboth.2

private theorem leaks_step (hs : s.Consistent) (h : SetupStep s a t) :
    t.leaks = (s.leaks || a = .client .bind true) := by
  cases h with
  | @server call failed h hk =>
    have hother : decide (SetupAction.server call failed = .client .bind true) = false := rfl
    rw [hother, Bool.or_false]
    rcases hs.launch_cases h failed with ⟨-, hsame⟩ | ⟨-, -, hclient, hlaunch⟩
    · rw [Setup.leaks, hsame]
      rfl
    · rw [Setup.leaks, Setup.leaks, hlaunch, hclient]
      cases failed <;> rfl
  | client failed h hk =>
    have hfinds := hs.client
    obtain ⟨p, d, q, e⟩ := s
    change q.call? = _ at h
    cases q with
    | sleeping | opening | counting | creating =>
      cases h
      obtain rfl : e = .absent := of_decide_eq_true hfinds
      cases failed <;> rfl
    | settingNoDelay | settingBwVal | binding =>
      cases h
      obtain rfl : e = .fresh := of_decide_eq_true hfinds
      cases failed <;> rfl
    | connecting =>
      cases h
      cases failed <;> rfl
    | closing =>
      cases h
      cases failed <;> rfl
    | absent | missing | connected | returned => cases h

private theorem ServerSetup.fits_of_finds {p : ServerSetup} (h : p.call? = some call)
    (hcall : call ≠ .accept) (hd : p.finds d = true) : call.fits d = true := by
  cases p with
  | opening | launching =>
    cases h
    rfl
  | creating | binding | listening =>
    cases h
    exact hd
  | reusing =>
    cases h
    obtain rfl : d = .fresh := of_decide_eq_true hd
    rfl
  | accepting => exact absurd (Option.some.inj h).symm hcall
  | closing =>
    cases h
    rw [finds, Bool.or_eq_true] at hd
    rcases hd with hd | hd
    · obtain rfl : d = .fresh := of_decide_eq_true hd
      rfl
    · obtain rfl : d = .bound := of_decide_eq_true hd
      rfl
  | returned => cases h

private theorem ClientSetup.fits_of_finds {p : ClientSetup} (h : p.call? = some call)
    (hd : p.finds d = true) : call.fits d = true := by
  cases p with
  | sleeping | opening | counting =>
    cases h
    rfl
  | creating | binding | connecting | closing =>
    cases h
    exact hd
  | settingNoDelay | settingBwVal =>
    cases h
    obtain rfl : d = .fresh := of_decide_eq_true hd
    rfl
  | absent | missing | connected | returned => cases h

end Descriptors

/-- In every interleaving each call finds its socket in a state that it can be made on, so that
nothing is done on a descriptor before `socket` or after `close`. There is one exception: after
a `listen` that failed, the server calls `accept` on a socket that does not listen. The server
returns from a failed set-up with its descriptor closed, and so does the client, except when it
was `bind` that failed. -/
theorem descriptors_closed (as : List SetupAction) (s : Setup) (h : Run SetupStep .start as s) :
    (∀ call, s.server.call? = some call → (call.fits s.serverSock = true ↔
      ¬(call = .accept ∧ .server .listen true ∈ as))) ∧
    (∀ call, s.client.call? = some call → call.fits s.clientSock = true) ∧
    (s.server = .returned → s.serverSock.isOpen = false) ∧
    (s.client = .returned → (s.clientSock.isOpen = true ↔ .client .bind true ∈ as)) := by
  have hs := consistent_of_run h
  refine ⟨fun call hcall ↦ ?_, fun call hcall ↦ ?_, fun hreturned ↦ ?_, fun hreturned ↦ ?_⟩
  · by_cases haccept : call = .accept
    · subst haccept
      have hlistened := (listened_of_run h).after (ServerSetup.eq_accepting_of_call hcall)
      rw [← hlistened.not_left, SetupCall.fits]
      simp
    · simp [ServerSetup.fits_of_finds hcall haccept hs.server, haccept]
  · exact ClientSetup.fits_of_finds hcall hs.client
  · have hfinds := hs.server
    rw [hreturned] at hfinds
    simpa [ServerSetup.finds] using hfinds
  · have hleaks := any_eq_of_run _ _ (fun _ _ _ ↦ leaks_step) rfl h
    rw [Setup.leaks, hreturned] at hleaks
    simpa using (congrArg (· = true) hleaks).symm

/-- The client returns from a failed `bind` with its descriptor, and the server calls `accept`
after a failed `listen`. -/
theorem descriptors_closed_bind :
    (∃ as s, Run SetupStep .start as s ∧ s.client = .returned ∧ s.clientSock.isOpen = true) ∧
      ∃ as s, Run SetupStep .start as s ∧ s.server.call? = some .accept ∧
        SetupCall.accept.fits s.serverSock ≠ true := by
  have hbind := run_launching.append (.cons (.client false rfl (by simp))
    (.cons (.client false rfl (by simp)) (.cons (.client false rfl (by simp))
      (.cons (.client false rfl (by simp)) (.cons (.client false rfl (by simp))
        (.cons (.client false rfl (by simp)) (.single (.client true rfl (by simp)))))))))
  have hlisten := run_launching.append (.single (.server true rfl (by simp)))
  refine ⟨⟨_, _, hbind, rfl, ?_⟩, _, _, hlisten, rfl, ?_⟩
  · exact ((descriptors_closed _ _ hbind).2.2.2 rfl).mpr (by decide)
  · intro hfits
    exact ((descriptors_closed _ _ hlisten).1 .accept rfl).mp hfits ⟨rfl, by decide⟩

end NatcpSpec.System
