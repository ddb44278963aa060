import NatcpSpec.Base.Transition
import NatcpSpec.Server.ReplayDue
import NatcpSpec.Server.RequestSafety

/-!
# Interleaving of the threads

`start_server`, `src/server.cc:354–389`, and the two threads that it creates for its one
connection: `CntThread`, `src/server.cc:390–499`, and `DataThread`, `src/server.cc:501–636`.
They share the socket and the variables `start_of_client`, `got_message` and `done`. A call
on the socket and the assignment to `got_message` are steps of their own, and any thread may
take the next step. A signal ends the process through `handler`, `src/server.cc:176–193`, also
the one that a null pointer raises.

The loop of `CntThread` does not look at `done`, whose test is commented out of its condition
at `src/server.cc:442`. Nothing else keeps it from a socket that `DataThread` has closed.
-/

namespace NatcpSpec.Server

open NatcpSpec.Base

/-! ### States -/

/-- What the server is given: its settings, the trace that it has loaded and the bytes that
`recv` returns. -/
structure Session where
  settings : Settings
  trace : List STrace
  received : Text

/-- The replay of a session, for a time since the client's base timestamp. -/
@[simps]
def Session.replay (x : Session) (setup : UInt64) : Replay := ⟨x.settings, x.trace, setup⟩

/-- Places in `start_server`; `src/server.cc:356–388`. -/
inductive MainPc where
  | accepting
  | creatingCnt
  | creatingData
  | joining

/-- Places in `DataThread`; `src/server.cc:538–635`. -/
inductive DataPc where
  | absent
  | receiving
  /-- About to close the socket of a request that is no good. -/
  | discarding
  /-- A null pointer is about to be used. -/
  | faulted
  | handingOff (conn : Conn)
  /-- In the send loop with `len` bytes outstanding; the lengths of the messages after it. -/
  | sending (len : ℤ) (rest : List ℕ)
  /-- About to close the socket after the transfer. -/
  | closing
  | returned

/-- Places in `CntThread`; `src/server.cc:407–498`. -/
inductive CntPc where
  | absent
  | waiting
  | settingNoDelay
  | starting
  /-- At the head of the replay loop. -/
  | looping (setup : UInt64) (t : CntState)
  /-- Applying a line: when its iteration began, which calls have succeeded and the calls
  still to come. -/
  | applying (setup : UInt64) (t : CntState) (e : STrace) (begun : UInt64) (ok : SockOpt → Bool)
      (calls : List (SockOpt × ℤ))
  | returned

/-- The process and what its threads share. -/
structure Sys where
  running : Bool
  main : MainPc
  data : DataPc
  cnt : CntPc
  startOfClient : ℕ
  gotMessage : Bool
  done : Bool
  closed : Bool

/-- The server before `accept`; `src/server.cc:39,41,50`. -/
def Sys.start : Sys := ⟨true, .accepting, .absent, .absent, 0, false, false, false⟩

/-- What a step is seen to do. -/
inductive Action where
  | accept
  | create
  | recv
  | gotMessage
  | send (result : ℤ)
  | close
  | setNoDelay
  /-- The readings of the clock from which the bias is computed: at the start of the server
  and now. -/
  | readClock (initial raw : UInt64)
  /-- A `setsockopt` call of the replay loop. -/
  | feedback (call : SockOpt × ℤ)
  /-- The process ends. -/
  | exit
  /-- Sleeps, other clock readings and tests of one thread. -/
  | internal

/-! ### Steps -/

/-- What the parser can make of a request: one thing, or anything if it reads on behind the
buffer. -/
def RequestOutcome (received : Text) (out : Exit × Conn) : Prop :=
  (dataRequest received ⟨0, 0, 0, 0, false⟩).1 ≠ .overrun →
    out = dataRequest received ⟨0, 0, 0, 0, false⟩

/-- Where `DataThread` goes with a request; `src/server.cc:539–582`. -/
def afterRequest : Exit × Conn → DataPc
  | (.accepted _ _, conn) => .handingOff conn
  | (.discarded, _) => .discarding
  | _ => .faulted

/-- The lengths of the messages of a transfer; `src/server.cc:608–623`. -/
def sendLengths (size : ℤ) : List ℕ :=
  List.replicate (loopCount size).toNat bufsiz ++ [(remainingSize size).toNat]

/-- Steps of `start_server`; `src/server.cc:356–388`. -/
inductive MainStep (x : Session) (s : Sys) : Action → Sys → Prop where
  | accept (h : s.main = .accepting) : MainStep x s .accept { s with main := .creatingCnt }
  | acceptFails (h : s.main = .accepting) : MainStep x s .exit { s with running := false }
  | createCnt (h : s.main = .creatingCnt) (hf : x.settings.feedback ≠ 0) :
      MainStep x s .create { s with main := .creatingData, cnt := .waiting }
  /-- Feedback is off, or the thread cannot be created: errors are positive numbers, and the
  test is for negative ones. -/
  | noCnt (h : s.main = .creatingCnt) : MainStep x s .internal { s with main := .creatingData }
  | createData (h : s.main = .creatingData) :
      MainStep x s .create { s with main := .joining, data := .receiving }
  | noData (h : s.main = .creatingData) : MainStep x s .internal { s with main := .joining }
  | join (h : s.main = .joining) (hd : s.data = .returned) :
      MainStep x s .exit { s with running := false }
  /-- The identifier of a thread that was not created is not set. `pthread_join` does not wait
  on it: it fails, and `main` returns, or it faults. -/
  | joinNothing (h : s.main = .joining) (hd : s.data = .absent) :
      MainStep x s .exit { s with running := false }

/-- Steps of `DataThread`; `src/server.cc:538–635`. -/
inductive DataStep (x : Session) (s : Sys) : Action → Sys → Prop where
  | recv {out : Exit × Conn} (h : s.data = .receiving) (ho : RequestOutcome x.received out) :
      DataStep x s .recv { s with data := afterRequest out }
  | discard (h : s.data = .discarding) :
      DataStep x s .close { s with data := .returned, closed := true }
  /-- The handler of `SIGSEGV` ends the process. -/
  | fault (h : s.data = .faulted) : DataStep x s .exit { s with running := false }
  | handOff {conn : Conn} (h : s.data = .handingOff conn) :
      DataStep x s .gotMessage
        { s with
          data := .sending 0 (sendLengths conn.size)
          startOfClient := conn.startOfClient
          gotMessage := true }
  | next {len : ℤ} {n : ℕ} {rest : List ℕ} (h : s.data = .sending len (n :: rest))
      (hl : len ≤ 0) : DataStep x s .internal { s with data := .sending n rest }
  | send {len : ℤ} {rest : List ℕ} (result : ℤ) (h : s.data = .sending len rest) (hl : 0 < len) :
      DataStep x s (.send result) { s with data := .sending (int32 (len - result)) rest }
  | finish {len : ℤ} (h : s.data = .sending len []) (hl : len ≤ 0) :
      DataStep x s .internal { s with data := .closing, done := true }
  | close (h : s.data = .closing) :
      DataStep x s .close { s with data := .returned, closed := true }

/-- Steps of `CntThread`; `src/server.cc:407–498`. Calls on a closed socket fail. -/
inductive CntStep (c : Arith) (x : Session) (s : Sys) : Action → Sys → Prop where
  | sleep (h : s.cnt = .waiting) (hg : s.gotMessage = false) : CntStep c x s .internal s
  | wake (h : s.cnt = .waiting) (hg : s.gotMessage = true) :
      CntStep c x s .internal { s with cnt := .settingNoDelay }
  | noDelay (h : s.cnt = .settingNoDelay) (ho : s.closed = false) :
      CntStep c x s .setNoDelay { s with cnt := .starting }
  | noDelayFails (h : s.cnt = .settingNoDelay) :
      CntStep c x s .setNoDelay { s with cnt := .returned }
  | start (initial raw : UInt64) (inForce : SockOpt → ℤ) (h : s.cnt = .starting) :
      CntStep c x s (.readClock initial raw)
        { s with
          cnt := .looping (setupTime initial (.ofNat s.startOfClient) raw) (cntStart inForce) }
  | finish {setup : UInt64} {t : CntState} (h : s.cnt = .looping setup t)
      (he : x.trace[t.it]? = none) : CntStep c x s .internal { s with cnt := .returned }
  | skip {setup : UInt64} {t : CntState} {e : STrace} (h : s.cnt = .looping setup t)
      (he : x.trace[t.it]? = some e) (hs : (x.replay setup).Skips c e) :
      CntStep c x s .internal { s with cnt := .looping setup (t.afterSkip c (x.replay setup)) }
  | late {setup : UInt64} {t : CntState} {e : STrace} (h : s.cnt = .looping setup t)
      (he : x.trace[t.it]? = some e) (hs : ¬(x.replay setup).Skips c e)
      (ho : Replay.offset c t e < 0) :
      CntStep c x s .internal
        { s with cnt := .looping setup (t.afterLate c e (Replay.offset c t e)) }
  | apply {setup : UInt64} {t : CntState} {e : STrace} (begun : UInt64)
      (h : s.cnt = .looping setup t) (he : x.trace[t.it]? = some e)
      (hs : ¬(x.replay setup).Skips c e) (ho : 0 ≤ Replay.offset c t e) :
      CntStep c x s .internal
        { s with
          cnt := .applying setup t e begun (fun _ ↦ false) (feedbackCalls c x.settings e) }
  | feedback {setup : UInt64} {t : CntState} {e : STrace} {begun : UInt64}
      {ok : SockOpt → Bool} {call : SockOpt × ℤ} {calls : List (SockOpt × ℤ)} (result : Bool)
      (h : s.cnt = .applying setup t e begun ok (call :: calls))
      (hr : s.closed = true → result = false) :
      CntStep c x s (.feedback call)
        { s with cnt := .applying setup t e begun (Function.update ok call.1 result) calls }
  | fail {setup : UInt64} {t : CntState} {e : STrace} {begun : UInt64} {ok : SockOpt → Bool}
      (h : s.cnt = .applying setup t e begun ok [])
      (hf : feedbackFails x.settings ok = true) :
      CntStep c x s .internal { s with cnt := .returned }
  | goOn {setup : UInt64} {t : CntState} {e : STrace} {begun : UInt64} {ok : SockOpt → Bool}
      (finished : UInt64) (h : s.cnt = .applying setup t e begun ok [])
      (hf : feedbackFails x.settings ok = false) :
      CntStep c x s .internal
        { s with
          cnt := .looping setup
            (t.afterApply c x.settings ⟨begun, finished, ok⟩ e (Replay.offset c t e)) }

/-- A step of any thread of a process that has not ended. -/
inductive ThreadStep (c : Arith) (x : Session) (s : Sys) : Action → Sys → Prop where
  | main {a : Action} {t : Sys} (hr : s.running = true) (h : MainStep x s a t) :
      ThreadStep c x s a t
  | data {a : Action} {t : Sys} (hr : s.running = true) (h : DataStep x s a t) :
      ThreadStep c x s a t
  | cnt {a : Action} {t : Sys} (hr : s.running = true) (h : CntStep c x s a t) :
      ThreadStep c x s a t

/-- A step of a thread, or the end of the process by a signal; `src/server.cc:176–193`. -/
inductive Step (c : Arith) (x : Session) (s : Sys) : Action → Sys → Prop where
  | thread {a : Action} {t : Sys} (h : ThreadStep c x s a t) : Step c x s a t
  | signal (hr : s.running = true) : Step c x s .exit { s with running := false }

section Steps

variable {c : Arith} {x : Session} {s t : Sys} {a : Action}

/-- A step of `start_server` is a step. -/
theorem Step.main (hr : s.running = true) (h : MainStep x s a t) : Step c x s a t :=
  .thread (.main hr h)

/-- A step of `DataThread` is a step. -/
theorem Step.data (hr : s.running = true) (h : DataStep x s a t) : Step c x s a t :=
  .thread (.data hr h)

/-- A step of `CntThread` is a step. -/
theorem Step.cnt (hr : s.running = true) (h : CntStep c x s a t) : Step c x s a t :=
  .thread (.cnt hr h)

/-- Threads step only while the process runs. -/
theorem ThreadStep.running (h : ThreadStep c x s a t) : s.running = true := by
  cases h with
  | main hr _ => exact hr
  | data hr _ => exact hr
  | cnt hr _ => exact hr

/-- A step of `DataThread` behind `recv`, in which a call of `send` takes all that it is
given. -/
structure WholeSend (x : Session) (s : Sys) (a : Action) (t : Sys) : Prop where
  running : s.running = true
  step : DataStep x s a t
  ne_recv : a ≠ .recv
  whole : ∀ result, a = .send result → ∀ len rest, s.data = .sending len rest → result = len

/-- It is a step of a thread. -/
theorem WholeSend.threadStep (h : WholeSend x s a t) : ThreadStep c x s a t :=
  .data h.running h.step

end Steps

/-! ### The property -/

/-- No call of the replay loop comes after the socket was closed. -/
def NoFeedbackAfterClose (actions : List Action) : Prop :=
  ∀ before after call, actions = before ++ .close :: after → .feedback call ∉ after

/-- The request can be accepted: there are five tokens before its first NUL, or there is no
NUL at all that would stop the parser. -/
def MayAccept (received : Text) : Prop :=
  received ≠ [] ∧ (Terminated received → 5 ≤ (tokens isBlank (visible received)).length)

instance (received : Text) : Decidable (MayAccept received) := inferInstanceAs (Decidable (_ ∧ _))

/-! ### Requests -/

private theorem requestModel_outcome (ts : List Text) (conn : Conn) :
    (requestModel ts conn).1 ≠ .overrun ∧
    ((∃ srcIp dstAddr, (requestModel ts conn).1 = .accepted srcIp dstAddr) ↔ 5 ≤ ts.length) := by
  match ts with
  | [] => simp [requestModel]
  | [_] => simp [requestModel]
  | [_, _] => simp [requestModel]
  | [_, _, _] => simp [requestModel]
  | [_, _, _, _] => simp [requestModel]
  | _ :: _ :: _ :: _ :: _ :: _ => simp [requestModel]

private theorem outcome_iff {received : Text} {ts : List Text}
    (h : dataRequest received ⟨0, 0, 0, 0, false⟩ = requestModel ts ⟨0, 0, 0, 0, false⟩) :
    (∃ srcIp dstAddr conn, RequestOutcome received (.accepted srcIp dstAddr, conn)) ↔
      5 ≤ ts.length := by
  obtain ⟨hover, hacc⟩ := requestModel_outcome ts ⟨0, 0, 0, 0, false⟩
  unfold RequestOutcome
  rw [← hacc, h]
  constructor
  · rintro ⟨srcIp, dstAddr, conn, ho⟩
    exact ⟨srcIp, dstAddr, (congrArg Prod.fst (ho hover)).symm⟩
  · rintro ⟨srcIp, dstAddr, ha⟩
    exact ⟨srcIp, dstAddr, _, fun _ ↦ Prod.ext ha.symm rfl⟩

/-- Which requests the parser can accept. -/
theorem mayAccept_iff (received : Text) :
    MayAccept received ↔
      ∃ srcIp dstAddr conn, RequestOutcome received (.accepted srcIp dstAddr, conn) := by
  unfold MayAccept
  by_cases hne : received = []
  · subst hne
    simp [RequestOutcome, dataRequest]
  by_cases hterm : Terminated received
  · rw [outcome_iff (dataRequest_of_terminated hne hterm _)]
    simp [hne, hterm]
  · refine iff_of_true ⟨hne, fun h ↦ absurd h hterm⟩ ?_
    have hnul : 0 ∉ received := fun h ↦ hterm (Or.inr h)
    have heq := dataRequest_of_not_terminated hterm ⟨0, 0, 0, 0, false⟩
    rcases parseRequest_open hnul ⟨0, 0, 0, 0, false⟩ with ⟨h5, hp⟩ | ⟨-, hover⟩
    · exact (outcome_iff (heq.trans hp)).mpr h5
    · refine ⟨[], [], ⟨0, 0, 0, 0, false⟩, fun hno ↦ absurd ?_ hno⟩
      rw [heq, hover]

/-! ### What every run keeps -/

/-- The loop in steps gets only to states of the loop in one piece. -/
def CntPc.Sound (c : Arith) (x : Session) : CntPc → Prop
  | .looping setup t => ∃ ps, Reached c (x.replay setup) ps t
  | .applying setup t e _ _ _ =>
    (∃ ps, Reached c (x.replay setup) ps t) ∧ x.trace[t.it]? = some e ∧
      ¬(x.replay setup).Skips c e ∧ 0 ≤ Replay.offset c t e
  | _ => True

/-- What holds in every state of a session: `CntThread` is there only with feedback on, and
gets past its wait only after a request was accepted. -/
structure Sys.Sound (c : Arith) (x : Session) (s : Sys) : Prop where
  feedback : s.cnt ≠ .absent → x.settings.feedback ≠ 0
  woken : s.cnt ≠ .absent → s.cnt ≠ .waiting → s.gotMessage = true
  accepted : (s.gotMessage = true ∨ ∃ conn, s.data = .handingOff conn) → MayAccept x.received
  cnt : s.cnt.Sound c x

section Sound

variable {c : Arith} {x : Session} {s t : Sys} {a : Action}

/-- It holds at the start. -/
theorem Sys.Sound.start (c : Arith) (x : Session) : Sys.start.Sound c x where
  feedback h := absurd rfl h
  woken h := absurd rfl h
  accepted := by
    rintro (h | ⟨conn, h⟩) <;> cases h
  cnt := trivial

/-- `start_server` keeps it. -/
theorem MainStep.sound (h : MainStep x s a t) (hs : s.Sound c x) : t.Sound c x := by
  cases h with
  | accept _ => exact ⟨hs.feedback, hs.woken, hs.accepted, hs.cnt⟩
  | acceptFails _ => exact ⟨hs.feedback, hs.woken, hs.accepted, hs.cnt⟩
  | createCnt _ hf => exact ⟨fun _ ↦ hf, fun _ hw ↦ absurd rfl hw, hs.accepted, trivial⟩
  | noCnt _ => exact ⟨hs.feedback, hs.woken, hs.accepted, hs.cnt⟩
  | createData _ =>
    refine ⟨hs.feedback, hs.woken, ?_, hs.cnt⟩
    rintro (h | ⟨conn, h⟩)
    · exact hs.accepted (Or.inl h)
    · cases h
  | noData _ => exact ⟨hs.feedback, hs.woken, hs.accepted, hs.cnt⟩
  | join _ _ => exact ⟨hs.feedback, hs.woken, hs.accepted, hs.cnt⟩
  | joinNothing _ _ => exact ⟨hs.feedback, hs.woken, hs.accepted, hs.cnt⟩

/-- `DataThread` keeps it. -/
theorem DataStep.sound (h : DataStep x s a t) (hs : s.Sound c x) : t.Sound c x := by
  -- Only `recv` gets to the hand-off, and only the hand-off sets `got_message`.
  have hother {d : DataPc} (hd : ∀ conn, d ≠ .handingOff conn) :
      (s.gotMessage = true ∨ ∃ conn, d = .handingOff conn) → MayAccept x.received := by
    rintro (h | ⟨conn, h⟩)
    · exact hs.accepted (Or.inl h)
    · exact absurd h (hd conn)
  cases h with
  | @recv out _ ho =>
    refine ⟨hs.feedback, hs.woken, ?_, hs.cnt⟩
    rintro (h | ⟨conn, h⟩)
    · exact hs.accepted (Or.inl h)
    · obtain ⟨exit, conn'⟩ := out
      cases exit with
      | accepted srcIp dstAddr => exact (mayAccept_iff _).mpr ⟨srcIp, dstAddr, conn', ho⟩
      | discarded => cases h
      | fault => cases h
      | overrun => cases h
  | discard _ => exact ⟨hs.feedback, hs.woken, hother (fun _ ↦ nofun), hs.cnt⟩
  | fault _ => exact ⟨hs.feedback, hs.woken, hs.accepted, hs.cnt⟩
  | @handOff conn h =>
    exact ⟨hs.feedback, fun _ _ ↦ rfl, fun _ ↦ hs.accepted (Or.inr ⟨conn, h⟩), hs.cnt⟩
  | next _ _ => exact ⟨hs.feedback, hs.woken, hother (fun _ ↦ nofun), hs.cnt⟩
  | send _ _ _ => exact ⟨hs.feedback, hs.woken, hother (fun _ ↦ nofun), hs.cnt⟩
  | finish _ _ => exact ⟨hs.feedback, hs.woken, hother (fun _ ↦ nofun), hs.cnt⟩
  | close _ => exact ⟨hs.feedback, hs.woken, hother (fun _ ↦ nofun), hs.cnt⟩

/-- `CntThread` keeps it. -/
theorem CntStep.sound (h : CntStep c x s a t) (hs : s.Sound c x) : t.Sound c x := by
  have hmove {pc : CntPc} (ha : s.cnt ≠ .absent) (hw : s.cnt ≠ .waiting) (hpc : pc.Sound c x) :
      Sys.Sound c x { s with cnt := pc } :=
    ⟨fun _ ↦ hs.feedback ha, fun _ _ ↦ hs.woken ha hw, hs.accepted, hpc⟩
  have hsound := hs.cnt
  cases h with
  | sleep _ _ => exact hs
  | wake h hg => exact ⟨fun _ ↦ hs.feedback (by simp [h]), fun _ _ ↦ hg, hs.accepted, trivial⟩
  | noDelay h _ => exact hmove (by simp [h]) (by simp [h]) trivial
  | noDelayFails h => exact hmove (by simp [h]) (by simp [h]) trivial
  | start initial raw inForce h =>
    exact hmove (by simp [h]) (by simp [h])
      ⟨[], fun _ ↦ ⟨0, 0, fun _ ↦ false⟩, inForce, .nil⟩
  | finish h _ => exact hmove (by simp [h]) (by simp [h]) trivial
  | skip h he hskip =>
    rw [h] at hsound
    obtain ⟨ps, hreached⟩ := hsound
    refine hmove (by simp [h]) (by simp [h]) ?_
    exact ⟨_, hreached.next he (x := ⟨0, 0, fun _ ↦ false⟩) (by simp [iterate, hskip])⟩
  | late h he hskip ho =>
    rw [h] at hsound
    obtain ⟨ps, hreached⟩ := hsound
    refine hmove (by simp [h]) (by simp [h]) ?_
    exact ⟨_, hreached.next he (x := ⟨0, 0, fun _ ↦ false⟩) (by simp [iterate, hskip, ho])⟩
  | apply begun h he hskip ho =>
    rw [h] at hsound
    exact hmove (by simp [h]) (by simp [h]) ⟨hsound, he, hskip, ho⟩
  | feedback result h _ =>
    rw [h] at hsound
    exact hmove (by simp [h]) (by simp [h]) hsound
  | fail h _ => exact hmove (by simp [h]) (by simp [h]) trivial
  | @goOn setup t e begun ok finished h hf =>
    rw [h] at hsound
    obtain ⟨⟨ps, hreached⟩, he, hskip, ho⟩ := hsound
    refine hmove (by simp [h]) (by simp [h]) ⟨_, hreached.next he (x := ⟨begun, finished, ok⟩) ?_⟩
    simp [iterate, hskip, not_lt.mpr ho, hf]

/-- Every step keeps it. -/
theorem Step.sound (hs : s.Sound c x) (h : Step c x s a t) : t.Sound c x := by
  cases h with
  | thread h =>
    cases h with
    | main _ h => exact h.sound hs
    | data _ h => exact h.sound hs
    | cnt _ h => exact h.sound hs
  | signal _ => exact ⟨hs.feedback, hs.woken, hs.accepted, hs.cnt⟩

/-- A call of the replay loop needs feedback, a request and a line. -/
theorem Step.of_feedback {call : SockOpt × ℤ} (hs : s.Sound c x)
    (h : Step c x s (.feedback call) t) :
    x.settings.feedback ≠ 0 ∧ MayAccept x.received ∧ MayApply c x.settings x.trace := by
  cases h with
  | thread h =>
  cases h with
  | main _ h => cases h
  | data _ h => cases h
  | cnt _ h =>
    cases h with
    | @feedback setup t e _ _ _ _ _ h _ =>
      have hsound := hs.cnt
      rw [h] at hsound
      obtain ⟨⟨ps, hreached⟩, he, hskip, ho⟩ := hsound
      exact ⟨hs.feedback (by simp [h]),
        hs.accepted (Or.inl (hs.woken (by simp [h]) (by simp [h]))),
        hreached.mayApply he hskip ho⟩

end Sound

/-! ### A run that does it -/

section Late

variable {c : Arith} {x : Session} {s : Sys}

private theorem exists_run_sent (hr : s.running = true) {len : ℤ} {rest : List ℕ}
    (hd : s.data = .sending len rest) :
    ∃ actions len', len' ≤ 0 ∧
      Run (WholeSend x) s actions { s with data := .sending len' rest } := by
  by_cases hl : 0 < len
  · refine ⟨_, _, by simp [int32], .single ⟨hr, .send len hd hl, nofun, ?_⟩⟩
    rintro result ⟨⟩ len' rest' hd'
    rw [hd] at hd'
    exact (DataPc.sending.inj hd').1
  · refine ⟨[], len, not_lt.mp hl, ?_⟩
    rw [← hd]
    exact .nil s

/-- A transfer can be completed whatever else goes on: one call takes all of a message. -/
theorem exists_run_transfer (hr : s.running = true) {len : ℤ} {rest : List ℕ}
    (hd : s.data = .sending len rest) :
    ∃ actions, Run (WholeSend x) s actions { s with data := .closing, done := true } := by
  induction rest generalizing s len with
  | nil =>
    obtain ⟨actions, len', hl, hrun⟩ := exists_run_sent (x := x) hr hd
    exact ⟨_, hrun.append (.single ⟨hr, .finish rfl hl, nofun, nofun⟩)⟩
  | cons n rest ih =>
    obtain ⟨actions, len', hl, hrun⟩ := exists_run_sent (x := x) hr hd
    have hnext := hrun.append (.single ⟨hr, .next rfl hl, nofun, nofun⟩)
    obtain ⟨actions', hrun'⟩ := ih (s := { s with data := .sending n rest }) hr rfl
    exact ⟨_, hnext.append hrun'⟩

/-- The loop in steps can do what the loop in one piece does up to the first line that is
applied. -/
theorem exists_run_passes (hr : s.running = true) {setup : UInt64} {env : ℕ → IterEnv}
    {inForce : SockOpt → ℤ} (hc : s.cnt = .looping setup (cntStart inForce)) {i : ℕ}
    {p : Pass CntState Iteration} (hp : (cntThread c (x.replay setup) env inForce)[i]? = some p)
    (hfirst : ∀ j q o, j < i → (cntThread c (x.replay setup) env inForce)[j]? = some q →
      q.out.visit ≠ .applied o) :
    ∃ actions, Run (Step c x) s actions { s with cnt := .looping setup p.head } := by
  induction i generalizing p with
  | zero =>
    refine ⟨[], ?_⟩
    rw [passes_head hp, ← hc]
    exact .nil s
  | succ i ih =>
    obtain ⟨q, hq⟩ := passes_before (Nat.le_succ i) hp
    obtain ⟨actions, hrun⟩ := ih hq (fun j q o hj ↦ hfirst j q o (by omega))
    have hnext := passes_next hq hp
    obtain ⟨he, -, ⟨hskip, -, hn⟩ | ⟨hskip, ho, -, hn⟩ | ⟨-, -, hv, -⟩⟩ := cntThread_cases hq
    · rw [hnext, Option.some.injEq] at hn
      rw [hn]
      exact ⟨_, hrun.append (.single (.cnt hr (.skip rfl he hskip)))⟩
    · rw [hnext, Option.some.injEq] at hn
      rw [hn]
      exact ⟨_, hrun.append (.single (.cnt hr (.late rfl he hskip ho)))⟩
    · exact absurd hv (hfirst i q _ (Nat.lt_succ_self i) hq)

/-- From a closed socket the loop can go on to a call. -/
theorem exists_run_feedback (hr : s.running = true) {setup : UInt64} {env : ℕ → IterEnv}
    {inForce : SockOpt → ℤ} (hc : s.cnt = .looping setup (cntStart inForce)) {i : ℕ}
    {p : Pass CntState Iteration} {o : ℤ}
    (hp : (cntThread c (x.replay setup) env inForce)[i]? = some p)
    (hv : p.out.visit = .applied o) :
    ∃ actions call t, Run (Step c x) s (actions ++ [.feedback call]) t := by
  classical
  -- The first line that is applied, because a call that fails ends the loop.
  have hex : ∃ (j : ℕ) (q : Pass CntState Iteration) (o : ℤ),
      (cntThread c (x.replay setup) env inForce)[j]? = some q ∧ q.out.visit = .applied o :=
    ⟨i, p, o, hp, hv⟩
  obtain ⟨q, o', hq, hv'⟩ := Nat.find_spec hex
  have hfirst : ∀ j q o, j < Nat.find hex →
      (cntThread c (x.replay setup) env inForce)[j]? = some q → q.out.visit ≠ .applied o :=
    fun j q o hj hq hv ↦ Nat.find_min hex hj ⟨q, o, hq, hv⟩
  obtain ⟨actions, hrun⟩ := exists_run_passes hr hc hq hfirst
  obtain ⟨hskip, ho, hnonneg, -⟩ := applied_spec hq hv'
  have happly := hrun.append
    (.single (.cnt hr (.apply 0 rfl (cntThread_cases hq).1 hskip (ho ▸ hnonneg))))
  exact ⟨_, _, _, happly.append (.single (.cnt hr (.feedback false rfl (fun _ ↦ rfl))))⟩

/-- The replay loop can be entered with any time since the base timestamp, while all of the
transfer is still to come. -/
theorem exists_run_start (hf : x.settings.feedback ≠ 0) (ha : MayAccept x.received)
    (setup : UInt64) (inForce : SockOpt → ℤ) :
    ∃ actions s len rest, Run (Step c x) .start actions s ∧ s.running = true ∧
      s.data = .sending len rest ∧ s.cnt = .looping setup (cntStart inForce) := by
  obtain ⟨srcIp, dstAddr, conn, ho⟩ := (mayAccept_iff _).mp ha
  have hsetup : setupTime 0 (.ofNat conn.startOfClient) (.ofNat conn.startOfClient + setup) =
      setup := by
    rw [setupTime_eq]
    grind
  refine ⟨[.accept, .create, .create, .recv, .gotMessage, .internal, .setNoDelay,
      .readClock 0 (.ofNat conn.startOfClient + setup)],
    ⟨true, .joining, .sending 0 (sendLengths conn.size), .looping setup (cntStart inForce),
      conn.startOfClient, true, false, false⟩, _, _, ?_, rfl, rfl, rfl⟩
  refine .cons (.main rfl (.accept rfl)) ?_
  refine .cons (.main rfl (.createCnt rfl hf)) ?_
  refine .cons (.main rfl (.createData rfl)) ?_
  refine .cons (.data rfl (.recv rfl ho)) ?_
  refine .cons (.data rfl (.handOff rfl)) ?_
  refine .cons (.cnt rfl (.wake rfl rfl)) ?_
  refine .cons (.cnt rfl (.noDelay rfl rfl)) ?_
  have hstart := CntStep.start (c := c) (x := x) (s := ⟨true, .joining,
    .sending 0 (sendLengths conn.size), .starting, conn.startOfClient, true, false, false⟩)
    0 (.ofNat conn.startOfClient + setup) inForce rfl
  rw [hsetup] at hstart
  exact .single (.cnt rfl hstart)

/-- With feedback, a request and a line there is a run with a call on the closed socket. -/
theorem exists_feedback_after_close (hf : x.settings.feedback ≠ 0) (ha : MayAccept x.received)
    (hl : MayApply c x.settings x.trace) :
    ∃ actions t, Run (Step c x) .start actions t ∧ ¬NoFeedbackAfterClose actions := by
  obtain ⟨setup, env, inForce, i, p, o, hp, hv⟩ := hl
  obtain ⟨first, s, len, rest, hfirst, hr, hd, hc⟩ := exists_run_start (c := c) hf ha setup inForce
  obtain ⟨sends, htransfer⟩ := exists_run_transfer (x := x) hr hd
  have hsends : Run (Step c x) s sends _ := htransfer.mono (fun _ _ _ h ↦ .thread h.threadStep)
  have hclose : Run (Step c x) { s with data := .closing, done := true } [.close]
      { s with data := .returned, done := true, closed := true } :=
    .single (.data hr (.close rfl))
  obtain ⟨passes, call, t, hlast⟩ := exists_run_feedback (c := c) (x := x)
    (s := { s with data := .returned, done := true, closed := true }) hr hc hp hv
  refine ⟨_, t, (hfirst.append hsends).append (hclose.append hlast), ?_⟩
  intro hno
  exact hno (first ++ sends) (passes ++ [.feedback call]) call rfl (by simp)

end Late

/-! ### Main result -/

/-- Schedules that keep off the closed socket are those of sessions in which the replay loop
makes no call at all. -/
theorem noFeedbackAfterClose_iff_mayApply (c : Arith) (x : Session) :
    (∀ actions t, Run (Step c x) .start actions t → NoFeedbackAfterClose actions) ↔
      x.settings.feedback = 0 ∨ ¬MayAccept x.received ∨ ¬MayApply c x.settings x.trace := by
  constructor
  · intro h
    by_contra hcon
    push Not at hcon
    obtain ⟨hf, ha, hl⟩ := hcon
    obtain ⟨actions, t, hrun, hno⟩ := exists_feedback_after_close hf ha hl
    exact hno (h actions t hrun)
  · rintro hcond actions t hrun before after call rfl hmem
    obtain ⟨s, s', hs, hstep⟩ := hrun.exists_step (Sys.Sound c x) (fun _ _ _ ↦ Step.sound)
      (Sys.Sound.start c x) (a := .feedback call) (by simp [hmem])
    obtain ⟨hf, ha, hl⟩ := hstep.of_feedback hs
    rcases hcond with h | h | h
    · exact hf h
    · exact h ha
    · exact h hl

/-- Which sessions keep every schedule on amd64 from a call on the closed socket: those with
feedback off, a request that is not accepted, or a trace without a line that can be applied.
The number of lines is an `int`. -/
theorem noFeedbackAfterClose_iff (x : Session) (hlen : x.trace.length < 2 ^ 31) :
    (∀ actions t, Run (Step .amd64 x) .start actions t → NoFeedbackAfterClose actions) ↔
      x.settings.feedback = 0 ∨ ¬MayAccept x.received ∨ ¬Applicable x.trace := by
  rw [noFeedbackAfterClose_iff_mayApply, mayApply_amd64_iff x.settings hlen]

/-- One line a second before the start, and a request of five tokens. -/
def earlyLineSession : Session :=
  ⟨⟨5, 1, 1, 2⟩, [⟨-1, 1, 1⟩], [97, 32, 49, 32, 50, 32, 98, 32, 51]⟩

/-- No schedule gets to a call for a trace without a line that can be applied. -/
theorem noFeedbackAfterClose_earlyLine :
    MayAccept earlyLineSession.received ∧ ∀ actions t,
      Run (Step .amd64 earlyLineSession) .start actions t → NoFeedbackAfterClose actions := by
  refine ⟨by decide, (noFeedbackAfterClose_iff earlyLineSession (by decide)).mpr ?_⟩
  exact Or.inr (Or.inr (by decide +kernel))

/-- One line a second after the start, and a request of five tokens. -/
def oneLineSession : Session :=
  ⟨⟨5, 1, 1, 2⟩, [⟨1, 1, 1⟩], [97, 32, 49, 32, 50, 32, 98, 32, 51]⟩

/-- A schedule makes a call on the closed socket even for a trace of one line. -/
theorem feedback_after_close_oneLine :
    ∃ actions t, Run (Step .amd64 oneLineSession) .start actions t ∧
      ¬NoFeedbackAfterClose actions :=
  exists_feedback_after_close (by decide) (by decide)
    ((mayApply_amd64_iff _ (by decide)).mpr (by decide +kernel))

end NatcpSpec.Server
