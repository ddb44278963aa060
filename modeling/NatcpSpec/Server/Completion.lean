import NatcpSpec.Server.Threads

/-!
# Completion of a session

`src/server.cc:354–636`. Whether the server gets to its end, whatever the schedule: every
step but the sleep of `CntThread` before `got_message` brings some thread further, so that
only boundedly many can be made while `send` takes a byte or more; and as long as the process
is not over, some thread can take such a step.
-/

namespace NatcpSpec.Server

open NatcpSpec.Base

/-- A step that changes the state, in which a call of `send` takes at least one byte and at
most a block. -/
def Progress (c : Arith) (x : Session) (s : Sys) (a : Action) (t : Sys) : Prop :=
  Step c x s a t ∧ t ≠ s ∧ ∀ result, a = .send result → 1 ≤ result ∧ result ≤ bufsiz

/-- The size that the session's request asks for. -/
def Session.size (x : Session) : ℤ := (dataRequest x.received ⟨0, 0, 0, 0, false⟩).2.size

/-! ### What is left to do -/

/-- Steps left in `start_server`. -/
def MainPc.left : MainPc → ℕ
  | .accepting => 3
  | .creatingCnt => 2
  | .creatingData => 1
  | .joining => 0

/-- Calls and messages left in the transfer, if every call takes one byte. -/
def sendLeft (len : ℤ) (rest : List ℕ) : ℕ := len.toNat + (rest.map (· + 1)).sum

/-- Steps left in `DataThread`. -/
def DataPc.left (size : ℤ) : DataPc → ℕ
  | .absent | .receiving => 4 + sendLeft 0 (sendLengths size)
  | .handingOff conn => 3 + sendLeft 0 (sendLengths conn.size)
  | .sending len rest => 2 + sendLeft len rest
  | .discarding | .closing => 1
  | .faulted | .returned => 0

/-- Steps left in `CntThread`; no line takes more than the decision, six calls and the end of
the iteration. -/
def CntPc.left (lines : ℕ) : CntPc → ℕ
  | .absent | .waiting => 4 + 8 * lines
  | .settingNoDelay => 3 + 8 * lines
  | .starting => 2 + 8 * lines
  | .looping _ t => 1 + 8 * (lines - t.it)
  | .applying _ t _ _ _ calls => 2 + 8 * (lines - (t.it + 1)) + calls.length
  | .returned => 0

/-- Steps left in the process. -/
def Sys.left (x : Session) (s : Sys) : ℕ :=
  (if s.running then 1 else 0) + s.main.left + s.data.left x.size + s.cnt.left x.trace.length

/-- Counts that the transfer can be in: an `int` holds them, and they are of the session's
request. -/
def DataPc.Counted (size : ℤ) : DataPc → Prop
  | .handingOff conn => conn.size = size
  | .sending len rest => len < 2 ^ 31 ∧ ∀ n ∈ rest, n < 2 ^ 31
  | _ => True

section Left

variable {c : Arith} {x : Session} {s t : Sys} {a : Action}

private theorem length_feedbackCalls_le (c : Arith) (g : Settings) (e : STrace) :
    (feedbackCalls c g e).length ≤ 6 := by
  unfold feedbackCalls
  by_cases h1 : g.feedback = 1 <;> by_cases h3 : g.feedback = 3 <;> simp [h1, h3]

private theorem lt_of_mem_sendLengths {size : ℤ} {n : ℕ} (h : n ∈ sendLengths size) :
    n < 2 ^ 31 := by
  rcases List.mem_append.mp h with h | h
  · rw [List.eq_of_mem_replicate h]
    decide
  · rw [List.mem_singleton.mp h, remainingSize]
    have := (inInt32_int32
      (uint32 (uint32 (size * 1024) - uint32 (int32 (loopCount size * bufsiz))))).2
    omega

/-- `start_server` has one step less to do. -/
theorem MainStep.left_lt (h : MainStep x s a t) (hr : s.running = true) (hs : s.Staged x) :
    t.left x < s.left x := by
  cases h with
  | accept h => simp [Sys.left, MainPc.left, h]
  | acceptFails h => simp [Sys.left, hr]
  | createCnt h _ =>
    simp [Sys.left, MainPc.left, CntPc.left, h, hs.cntAbsent (Or.inr h)]
  | noCnt h => simp [Sys.left, MainPc.left, h]
  | createData h =>
    simp [Sys.left, MainPc.left, DataPc.left, h, hs.dataAbsent (by simp [h])]
  | noData h => simp [Sys.left, MainPc.left, h]
  | join h _ => simp [Sys.left, hr]
  | joinNothing h _ => simp [Sys.left, hr]

/-- `DataThread` keeps its counts. -/
theorem DataStep.counted (h : DataStep x s a t)
    (hreq : (dataRequest x.received ⟨0, 0, 0, 0, false⟩).1 ≠ .overrun)
    (hv : ∀ result, a = .send result → 1 ≤ result ∧ result ≤ bufsiz)
    (hs : s.data.Counted x.size) : t.data.Counted x.size := by
  cases h with
  | @recv out _ ho =>
    have hout := ho hreq
    obtain ⟨exit, conn⟩ := out
    cases exit with
    | accepted srcIp dstAddr => exact congrArg (fun out ↦ out.2.size) hout
    | discarded => trivial
    | fault => trivial
    | overrun => trivial
  | handOff h => exact ⟨by decide, fun n hn ↦ lt_of_mem_sendLengths hn⟩
  | next h _ =>
    rw [h] at hs
    obtain ⟨-, hrest⟩ := hs
    refine ⟨?_, fun n hn ↦ hrest n (List.mem_cons_of_mem _ hn)⟩
    exact_mod_cast hrest _ List.mem_cons_self
  | send result h hl =>
    rw [h] at hs
    obtain ⟨hlen, hrest⟩ := hs
    have hr := hv result rfl
    simp only [bufsiz] at hr
    exact ⟨by rw [int32_of_inInt32 ⟨by omega, by omega⟩]; omega, hrest⟩
  | fault _ => exact hs
  | discard _ => trivial
  | finish _ _ => trivial
  | close _ => trivial

/-- `DataThread` has less to do after each of its steps. -/
theorem DataStep.left_lt (h : DataStep x s a t) (hr : s.running = true)
    (hreq : (dataRequest x.received ⟨0, 0, 0, 0, false⟩).1 ≠ .overrun)
    (hv : ∀ result, a = .send result → 1 ≤ result ∧ result ≤ bufsiz)
    (hs : s.data.Counted x.size) : t.left x < s.left x := by
  -- All steps but the fault only bring `DataThread` to another place.
  have hmove {d : DataPc} {t : Sys} (ht : t.running = s.running ∧ t.main = s.main ∧
      t.data = d ∧ t.cnt = s.cnt) (hd : d.left x.size < s.data.left x.size) :
      t.left x < s.left x := by
    obtain ⟨hrun, hm, hdata, hc⟩ := ht
    rw [Sys.left, Sys.left, hrun, hm, hdata, hc]
    omega
  cases h with
  | fault _ => simp [Sys.left, hr]
  | @recv out h ho =>
    refine hmove ⟨rfl, rfl, rfl, rfl⟩ ?_
    have hout := ho hreq
    rw [h]
    obtain ⟨exit, conn⟩ := out
    cases exit with
    | accepted srcIp dstAddr =>
      have hsize : conn.size = x.size := congrArg (fun out ↦ out.2.size) hout
      simp [afterRequest, DataPc.left, hsize]
    | discarded => simp [afterRequest, DataPc.left]; omega
    | fault => simp [afterRequest, DataPc.left]
    | overrun => simp [afterRequest, DataPc.left]
  | discard h => exact hmove ⟨rfl, rfl, rfl, rfl⟩ (by simp [DataPc.left, h])
  | handOff h => exact hmove ⟨rfl, rfl, rfl, rfl⟩ (by simp [DataPc.left, h])
  | next h hl =>
    refine hmove ⟨rfl, rfl, rfl, rfl⟩ ?_
    simp only [DataPc.left, sendLeft, h, List.map_cons, List.sum_cons]
    omega
  | @send len rest result h hl =>
    rw [h] at hs
    have hlen := hs.1
    have hresult := hv result rfl
    simp only [bufsiz] at hresult
    refine hmove ⟨rfl, rfl, rfl, rfl⟩ ?_
    simp only [DataPc.left, sendLeft, h, int32_of_inInt32 (n := len - result)
      ⟨by omega, by omega⟩]
    omega
  | finish h _ =>
    refine hmove ⟨rfl, rfl, rfl, rfl⟩ ?_
    simp only [DataPc.left, h]
    omega
  | close h => exact hmove ⟨rfl, rfl, rfl, rfl⟩ (by simp [DataPc.left, h])

/-- `CntThread` has less to do after each of its steps that changes anything. -/
theorem CntStep.left_lt (h : CntStep c x s a t) (hne : t ≠ s) : t.left x < s.left x := by
  have hframe := h.frame.2
  suffices hd : t.cnt.left x.trace.length < s.cnt.left x.trace.length by
    rw [hframe]
    simp only [Sys.left]
    omega
  cases h with
  | sleep _ _ => exact absurd rfl hne
  | wake h _ => simp [CntPc.left, h]
  | noDelay h _ => simp [CntPc.left, h]
  | noDelayFails h => simp [CntPc.left, h]
  | start _ _ _ h => simp [CntPc.left, h, cntStart]
  | finish h _ => simp [CntPc.left, h]
  | skip h he _ =>
    obtain ⟨hlt, -⟩ := List.getElem?_eq_some_iff.mp he
    simp only [CntPc.left, h, CntState.afterSkip]
    omega
  | late h he _ _ =>
    obtain ⟨hlt, -⟩ := List.getElem?_eq_some_iff.mp he
    simp only [CntPc.left, h, CntState.afterLate]
    omega
  | @apply setup t e begun h he _ _ =>
    obtain ⟨hlt, -⟩ := List.getElem?_eq_some_iff.mp he
    have hcalls := length_feedbackCalls_le c x.settings e
    simp only [CntPc.left, h]
    omega
  | feedback _ h _ => simp [CntPc.left, h]
  | fail h _ => simp [CntPc.left, h]
  | goOn _ h _ =>
    simp only [CntPc.left, h, CntState.afterApply, List.length_nil]
    omega

/-- What a bounded session keeps. -/
theorem Progress.left_lt
    (hreq : (dataRequest x.received ⟨0, 0, 0, 0, false⟩).1 ≠ .overrun)
    (hs : s.Staged x ∧ s.data.Counted x.size) (h : Progress c x s a t) :
    (t.Staged x ∧ t.data.Counted x.size) ∧ t.left x < s.left x := by
  obtain ⟨hstep, hne, hv⟩ := h
  obtain ⟨hstaged, hcounted⟩ := hs
  have hstaged' := hstep.staged hstaged
  cases hstep with
  | thread hstep =>
    cases hstep with
    | main hr h =>
      refine ⟨⟨hstaged', ?_⟩, h.left_lt hr hstaged⟩
      cases h with
      | createData _ => trivial
      | _ => exact hcounted
    | data hr h => exact ⟨⟨hstaged', h.counted hreq hv hcounted⟩, h.left_lt hr hreq hv hcounted⟩
    | cnt hr h =>
      refine ⟨⟨hstaged', ?_⟩, h.left_lt hne⟩
      rw [h.frame.2]
      exact hcounted
  | signal hr => exact ⟨⟨hstaged', hcounted⟩, by simp [Sys.left, hr]⟩

end Left

/-! ### Steps that can be taken -/

section Stuck

variable {c : Arith} {x : Session} {s : Sys}

/-- `DataThread` can go on from every place but its ends, by a call that takes one byte where
it sends. -/
theorem exists_dataStep (hd : s.data ≠ .absent) (hf : s.data ≠ .faulted)
    (hret : s.data ≠ .returned) : ∃ a t, DataStep x s a t ∧ t.data ≠ s.data ∧
      ∀ result, a = .send result → 1 ≤ result ∧ result ≤ bufsiz := by
  rcases hdata : s.data with _ | _ | _ | _ | conn | ⟨len, rest⟩ | _ | _
  case absent => exact absurd hdata hd
  case faulted => exact absurd hdata hf
  case returned => exact absurd hdata hret
  case receiving =>
    refine ⟨_, _, .recv hdata (requestOutcome_dataRequest _), ?_, nofun⟩
    rcases dataRequest x.received ⟨0, 0, 0, 0, false⟩ with ⟨_ | _ | _ | ⟨srcIp, dstAddr⟩, conn⟩ <;>
      exact nofun
  case discarding => exact ⟨_, _, .discard hdata, nofun, nofun⟩
  case handingOff => exact ⟨_, _, .handOff hdata, nofun, nofun⟩
  case sending =>
    by_cases hl : 0 < len
    · refine ⟨_, _, .send 1 hdata hl, ?_, ?_⟩
      · simp only [ne_eq, DataPc.sending.injEq, and_true]
        unfold int32
        rw [Int.bmod_def]
        norm_num
        split <;> omega
      · rintro result ⟨⟩
        decide
    · cases rest with
      | nil => exact ⟨_, _, .finish hdata (not_lt.mp hl), nofun, nofun⟩
      | cons n rest => exact ⟨_, _, .next hdata (not_lt.mp hl), by simp, nofun⟩
  case closing => exact ⟨_, _, .close hdata, nofun, nofun⟩

/-- `start_server` can go on from every place but its last. -/
theorem exists_mainStep (h : s.main ≠ .joining) :
    ∃ a t, MainStep x s a t ∧ t.main ≠ s.main ∧ ∀ result, a ≠ .send result := by
  rcases hmain : s.main with _ | _ | _ | _
  · exact ⟨_, _, .accept hmain, nofun, nofun⟩
  · exact ⟨_, _, .noCnt hmain, nofun, nofun⟩
  · exact ⟨_, _, .createData hmain, nofun, nofun⟩
  · exact absurd hmain h

/-- As long as the process is not over, a thread can make a change. -/
theorem exists_threadStep (hr : s.running = true) :
    ∃ a t, ThreadStep c x s a t ∧ t ≠ s ∧
      ∀ result, a = .send result → 1 ≤ result ∧ result ≤ bufsiz := by
  -- The step that ends the process.
  have hend {t : Sys} (ht : t = { s with running := false }) : t ≠ s := by
    intro h
    rw [← h, ht] at hr
    cases hr
  by_cases hm : s.main = .joining
  · by_cases hd : s.data = .absent
    · exact ⟨_, _, .main hr (.joinNothing hm hd), hend rfl, nofun⟩
    by_cases hf : s.data = .faulted
    · exact ⟨_, _, .data hr (.fault hf), hend rfl, nofun⟩
    by_cases hret : s.data = .returned
    · exact ⟨_, _, .main hr (.join hm hret), hend rfl, nofun⟩
    obtain ⟨a, t, hstep, hne, hsend⟩ := exists_dataStep (x := x) hd hf hret
    exact ⟨a, t, .data hr hstep, fun h ↦ hne (congrArg Sys.data h), hsend⟩
  · obtain ⟨a, t, hstep, hne, hsend⟩ := exists_mainStep (x := x) hm
    exact ⟨a, t, .main hr hstep, fun h ↦ hne (congrArg Sys.main h),
      fun result h ↦ absurd h (hsend result)⟩

end Stuck

/-! ### Runs to the end -/

/-- The threads can bring the process to its end. -/
def CanEnd (c : Arith) (x : Session) (s : Sys) : Prop :=
  ∃ actions t, Run (ThreadStep c x) s actions t ∧ t.running = false

section Ends

variable {c : Arith} {x : Session} {s t : Sys} {a : Action}

/-- It is enough that they can after some steps. -/
theorem CanEnd.of_run {actions : List Action} (h : Run (ThreadStep c x) s actions t)
    (ht : CanEnd c x t) : CanEnd c x s := by
  obtain ⟨rest, u, hrun, hover⟩ := ht
  exact ⟨actions ++ rest, u, h.append hrun, hover⟩

/-- It is enough that they can after one step. -/
theorem CanEnd.of_step (h : ThreadStep c x s a t) (ht : CanEnd c x t) : CanEnd c x s :=
  .of_run (.single h) ht

private theorem canEnd_of_returned (hr : s.running = true) (hm : s.main = .joining)
    (hd : s.data = .returned) : CanEnd c x s :=
  ⟨_, _, .single (.main hr (.join hm hd)), rfl⟩

private theorem canEnd_of_sending (hr : s.running = true) (hm : s.main = .joining) {len : ℤ}
    {rest : List ℕ} (hd : s.data = .sending len rest) : CanEnd c x s := by
  obtain ⟨actions, hrun⟩ := exists_run_transfer (x := x) hr hd
  exact .of_run (hrun.mono (fun _ _ _ h ↦ h.threadStep))
    (.of_step (.data hr (.close rfl)) (canEnd_of_returned hr hm rfl))

private theorem canEnd_of_handingOff (hr : s.running = true) (hm : s.main = .joining) {conn : Conn}
    (hd : s.data = .handingOff conn) : CanEnd c x s :=
  .of_step (.data hr (.handOff hd)) (canEnd_of_sending hr hm rfl)

private theorem canEnd_of_discarding (hr : s.running = true) (hm : s.main = .joining)
    (hd : s.data = .discarding) : CanEnd c x s :=
  .of_step (.data hr (.discard hd)) (canEnd_of_returned hr hm rfl)

private theorem canEnd_of_faulted (hr : s.running = true) (hd : s.data = .faulted) :
    CanEnd c x s :=
  ⟨_, _, .single (.data hr (.fault hd)), rfl⟩

private theorem canEnd_of_receiving (hr : s.running = true) (hm : s.main = .joining)
    (hd : s.data = .receiving) : CanEnd c x s := by
  refine .of_step (.data hr (.recv hd (requestOutcome_dataRequest _))) ?_
  rcases dataRequest x.received ⟨0, 0, 0, 0, false⟩ with ⟨_ | _ | _ | ⟨srcIp, dstAddr⟩, conn⟩
  · exact canEnd_of_discarding hr hm rfl
  · exact canEnd_of_faulted hr rfl
  · exact canEnd_of_faulted hr rfl
  · exact canEnd_of_handingOff hr hm rfl

private theorem canEnd_of_joining (hr : s.running = true) (hm : s.main = .joining) :
    CanEnd c x s := by
  rcases hdata : s.data with _ | _ | _ | _ | conn | ⟨len, rest⟩ | _ | _
  case absent => exact ⟨_, _, .single (.main hr (.joinNothing hm hdata)), rfl⟩
  case receiving => exact canEnd_of_receiving hr hm hdata
  case discarding => exact canEnd_of_discarding hr hm hdata
  case faulted => exact canEnd_of_faulted hr hdata
  case handingOff => exact canEnd_of_handingOff hr hm hdata
  case sending => exact canEnd_of_sending hr hm hdata
  case closing => exact .of_step (.data hr (.close hdata)) (canEnd_of_returned hr hm rfl)
  case returned => exact canEnd_of_returned hr hm hdata

/-- The threads can always bring the process to its end. -/
theorem canEnd (s : Sys) : CanEnd c x s := by
  cases hr : s.running with
  | false => exact ⟨[], s, .nil s, hr⟩
  | true =>
    have hcreating {t : Sys} (ht : t.running = true) (hm : t.main = .creatingData) :
        CanEnd c x t :=
      .of_step (.main ht (.createData hm)) (canEnd_of_joining ht rfl)
    have haccepted {t : Sys} (ht : t.running = true) (hm : t.main = .creatingCnt) :
        CanEnd c x t :=
      .of_step (.main ht (.noCnt hm)) (hcreating ht rfl)
    rcases hm : s.main with _ | _ | _ | _
    case accepting => exact .of_step (.main hr (.accept hm)) (haccepted hr rfl)
    case creatingCnt => exact haccepted hr hm
    case creatingData => exact hcreating hr hm
    case joining => exact canEnd_of_joining hr hm

end Ends

/-! ### Main results -/

/-- However the threads are scheduled, a session in which every call of `send` takes a byte or
more makes at most a number of changes that is known in advance, one for every byte and every
message of the transfer, eight for every line of the trace and twelve others; and as long as
it is not over, some thread can make the next one. -/
theorem session_completes (c : Arith) (x : Session) (actions : List Action) (s : Sys)
    (hreq : (dataRequest x.received ⟨0, 0, 0, 0, false⟩).1 ≠ .overrun)
    (h : Run (Progress c x) Sys.start actions s) :
    actions.length ≤
        12 + ((sendLengths x.size).sum + (sendLengths x.size).length) + 8 * x.trace.length ∧
      (s.running = false ∨ ∃ a t, ThreadStep c x s a t ∧ Progress c x s a t) := by
  constructor
  · have hle := h.length_le (fun s ↦ s.Staged x ∧ s.data.Counted x.size) (Sys.left x)
      (fun _ _ _ hs hstep ↦ hstep.left_lt hreq hs) ⟨.start x, trivial⟩
    have hsum : ((sendLengths x.size).map (· + 1)).sum =
        (sendLengths x.size).sum + (sendLengths x.size).length := by
      simp [List.sum_map_add]
    have hstart : Sys.start.left x =
        12 + ((sendLengths x.size).sum + (sendLengths x.size).length) + 8 * x.trace.length := by
      rw [← hsum]
      simp only [Sys.left, Sys.start, MainPc.left, DataPc.left, CntPc.left, sendLeft, if_true,
        Int.toNat_zero]
      omega
    omega
  · cases hr : s.running with
    | false => exact Or.inl rfl
    | true =>
      obtain ⟨a, t, hstep, hne, hsend⟩ := exists_threadStep (c := c) (x := x) hr
      exact Or.inr ⟨a, t, hstep, .thread hstep, hne, hsend⟩

/-- Four changes of a session, up to its request, and a fifth. -/
theorem session_completes_oneLine :
    ∃ s, Run (Progress .amd64 oneLineSession) Sys.start [.accept, .create, .create, .recv] s ∧
      4 ≤ 12 + ((sendLengths oneLineSession.size).sum + (sendLengths oneLineSession.size).length) +
        8 * oneLineSession.trace.length ∧
      ∃ a t, Progress .amd64 oneLineSession s a t := by
  have hrun : ∃ s, Run (Progress .amd64 oneLineSession) Sys.start
      [.accept, .create, .create, .recv] s ∧ s.running = true := by
    refine ⟨_, .cons ⟨.main rfl (.accept rfl), ?_, nofun⟩ <|
      .cons ⟨.main rfl (.createCnt rfl (by decide)), ?_, nofun⟩ <|
      .cons ⟨.main rfl (.createData rfl), ?_, nofun⟩ <|
      .single ⟨.data rfl (.recv rfl (requestOutcome_dataRequest _)), ?_, nofun⟩, rfl⟩
    · exact fun h ↦ nomatch congrArg Sys.main h
    · exact fun h ↦ nomatch congrArg Sys.main h
    · exact fun h ↦ nomatch congrArg Sys.main h
    · exact fun h ↦ nomatch congrArg Sys.data h
  obtain ⟨s, h, hr⟩ := hrun
  obtain ⟨hle, hover | ⟨a, t, -, hnext⟩⟩ :=
    session_completes .amd64 oneLineSession _ s (by decide) h
  · rw [hr] at hover
    cases hover
  · exact ⟨s, h, hle, a, t, hnext⟩

/-- A schedule never runs into a dead end: no thread can change anything exactly when the
process is over, and from every state the threads can bring it to its end by themselves. -/
theorem no_dead_end (c : Arith) (x : Session) (s : Sys) :
    ((∀ a t, ThreadStep c x s a t → t = s) ↔ s.running = false) ∧
      ∃ actions t, Run (ThreadStep c x) s actions t ∧ t.running = false := by
  refine ⟨⟨?_, ?_⟩, canEnd s⟩
  · intro hstuck
    by_contra hr
    obtain ⟨a, t, hstep, hne, -⟩ := exists_threadStep (c := c) (x := x) (by simpa using hr)
    exact hne (hstuck a t hstep)
  · intro hr a t hstep
    rw [hstep.running] at hr
    cases hr

end NatcpSpec.Server
