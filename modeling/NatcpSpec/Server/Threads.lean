import NatcpSpec.Server.Interleaving

/-!
# The threads of a run

`src/server.cc:354–636`. In a run the threads make their calls in any order, and they share
the socket and three variables. Still each thread by itself makes the calls of its sequential
model: `CntThread` those of `cntThread`, started from the timestamp of the request that
`DataThread` accepted, and `DataThread` one `recv`, the send loops of its messages and one
`close`.
-/

namespace NatcpSpec.Server

open NatcpSpec.Base

/-! ### What a thread is seen to do -/

/-- The call of the replay loop that an action is. -/
def Action.call? : Action → Option (SockOpt × ℤ)
  | .feedback call => some call
  | _ => none

/-- The calls of the replay loop in a run. -/
def feedbackOf (actions : List Action) : List (SockOpt × ℤ) := actions.filterMap Action.call?

/-- The readings of the clock for a bias that an action is. -/
def Action.reading? : Action → Option (UInt64 × UInt64)
  | .readClock initial raw => some (initial, raw)
  | _ => none

/-- The readings of the clock for a bias in a run, each with the one at the server's start. -/
def readingsOf (actions : List Action) : List (UInt64 × UInt64) :=
  actions.filterMap Action.reading?

/-- Whether an action is one of `DataThread`. -/
def Action.isData : Action → Bool
  | .recv | .gotMessage | .send _ | .close => true
  | _ => false

/-- The actions of `DataThread` in a run. -/
def dataOf (actions : List Action) : List Action := actions.filter Action.isData

/-- The calls of one iteration of the sequential loop; `src/server.cc:472–486`. -/
def Iteration.calls (c : Arith) (g : Settings) (i : Iteration) : List (SockOpt × ℤ) :=
  match i.visit with
  | .applied _ => feedbackCalls c g i.entry
  | _ => []

/-- The calls of iterations one after the other. -/
def replayCalls (c : Arith) (g : Settings) (ps : List (Pass CntState Iteration)) :
    List (SockOpt × ℤ) :=
  ps.flatMap (fun p ↦ p.out.calls c g)

/-- The results of the calls made for messages one after the other, given the length of each
message and what the calls for it return; `src/server.cc:610–628`. -/
def resultsOf (fuel : ℕ) (msgs : List (ℕ × (ℕ → ℤ))) : List ℤ :=
  msgs.flatMap (fun m ↦ (passes (sendBody m.2) fuel 0 m.1).map Pass.out)

/-- Everything `DataThread` does on its socket, by what the parser made of the request;
`src/server.cc:538–635`. -/
def dataThread (out : Exit × Conn) (results : List ℤ) : List Action :=
  match out.1 with
  | .accepted _ _ => [.recv, .gotMessage] ++ results.map .send ++ [.close]
  | .discarded => [.recv, .close]
  | _ => [.recv]

/-- The parser can accept the session's request with these fields. -/
def Accepts (x : Session) (conn : Conn) : Prop :=
  ∃ srcIp dstAddr, RequestOutcome x.received (.accepted srcIp dstAddr, conn)

/-- The parser makes of a request what it makes of it. -/
theorem requestOutcome_dataRequest (received : Text) :
    RequestOutcome received (dataRequest received ⟨0, 0, 0, 0, false⟩) := fun _ ↦ rfl

section Words

variable {actions : List Action} {a : Action}

private theorem feedbackOf_snoc : feedbackOf (actions ++ [a]) =
    feedbackOf actions ++ a.call?.toList := by
  cases h : a.call? <;> simp [feedbackOf, h]

private theorem feedbackOf_snoc_of_none (h : a.call? = none) :
    feedbackOf (actions ++ [a]) = feedbackOf actions := by
  rw [feedbackOf_snoc, h, Option.toList_none, List.append_nil]

private theorem readingsOf_snoc : readingsOf (actions ++ [a]) =
    readingsOf actions ++ a.reading?.toList := by
  cases h : a.reading? <;> simp [readingsOf, h]

private theorem readingsOf_snoc_of_none (h : a.reading? = none) :
    readingsOf (actions ++ [a]) = readingsOf actions := by
  rw [readingsOf_snoc, h, Option.toList_none, List.append_nil]

private theorem dataOf_snoc (h : a.isData = true) : dataOf (actions ++ [a]) =
    dataOf actions ++ [a] := by
  simp [dataOf, h]

private theorem dataOf_snoc_of_false (h : a.isData = false) :
    dataOf (actions ++ [a]) = dataOf actions := by
  simp [dataOf, h]

end Words

/-! ### The order of the stages -/

/-- `DataThread` has not assigned to `got_message` yet. -/
def DataPc.early : DataPc → Bool
  | .absent | .receiving | .discarding | .faulted | .handingOff _ => true
  | _ => false

/-- In which order the threads come into being, and where the shared timestamp is from. -/
structure Sys.Staged (x : Session) (s : Sys) : Prop where
  cntAbsent : s.main = .accepting ∨ s.main = .creatingCnt → s.cnt = .absent
  dataAbsent : s.main ≠ .joining → s.data = .absent
  early : s.data.early = true → s.gotMessage = false
  handing : ∀ conn, s.data = .handingOff conn → Accepts x conn
  handed : s.gotMessage = true → ∃ conn, Accepts x conn ∧ s.startOfClient = conn.startOfClient

section Staged

variable {c : Arith} {x : Session} {s t : Sys} {a : Action}

/-- It holds at the start. -/
theorem Sys.Staged.start (x : Session) : Sys.start.Staged x where
  cntAbsent _ := rfl
  dataAbsent _ := rfl
  early _ := rfl
  handing _ h := nomatch h
  handed h := nomatch h

/-- `start_server` keeps it. -/
theorem MainStep.staged (h : MainStep x s a t) (hs : s.Staged x) : t.Staged x := by
  obtain ⟨hcnt, hdata, hearly, hhanding, hhanded⟩ := hs
  cases h with
  | accept h =>
    exact ⟨fun _ ↦ hcnt (Or.inl h), fun _ ↦ hdata (by simp [h]), hearly, hhanding, hhanded⟩
  | acceptFails h => exact ⟨hcnt, hdata, hearly, hhanding, hhanded⟩
  | createCnt h hf =>
    exact ⟨(by rintro (h | h) <;> cases h), fun _ ↦ hdata (by simp [h]), hearly, hhanding, hhanded⟩
  | noCnt h =>
    exact ⟨fun _ ↦ hcnt (Or.inr h), fun _ ↦ hdata (by simp [h]), hearly, hhanding, hhanded⟩
  | createData h =>
    refine ⟨(by rintro (h | h) <;> cases h), fun hj ↦ absurd rfl hj, ?_, nofun, hhanded⟩
    exact fun _ ↦ hearly (by rw [hdata (by simp [h])]; rfl)
  | noData h =>
    exact ⟨(by rintro (h | h) <;> cases h), fun hj ↦ absurd rfl hj, hearly, hhanding, hhanded⟩
  | join h hd => exact ⟨hcnt, hdata, hearly, hhanding, hhanded⟩
  | joinNothing h hd => exact ⟨hcnt, hdata, hearly, hhanding, hhanded⟩

/-- `DataThread` keeps it. -/
theorem DataStep.staged (h : DataStep x s a t) (hs : s.Staged x) : t.Staged x := by
  obtain ⟨hcnt, hdata, hearly, hhanding, hhanded⟩ := hs
  -- A thread that takes a step has been created.
  have hjoining (hd : s.data ≠ .absent) : s.main = .joining := by
    by_contra hm
    exact hd (hdata hm)
  cases h with
  | @recv out h ho =>
    refine ⟨hcnt, fun hm ↦ absurd (hjoining (by simp [h])) hm, fun _ ↦ hearly (by rw [h]; rfl),
      ?_, hhanded⟩
    rintro conn hconn
    obtain ⟨exit, conn'⟩ := out
    cases exit with
    | accepted srcIp dstAddr =>
      obtain rfl : conn' = conn := by simpa [afterRequest] using hconn
      exact ⟨srcIp, dstAddr, ho⟩
    | discarded => cases hconn
    | fault => cases hconn
    | overrun => cases hconn
  | discard h =>
    exact ⟨hcnt, fun hm ↦ absurd (hjoining (by simp [h])) hm, nofun, nofun, hhanded⟩
  | fault h => exact ⟨hcnt, hdata, hearly, hhanding, hhanded⟩
  | @handOff conn h =>
    exact ⟨hcnt, fun hm ↦ absurd (hjoining (by simp [h])) hm, nofun, nofun,
      fun _ ↦ ⟨conn, hhanding conn h, rfl⟩⟩
  | next h _ => exact ⟨hcnt, fun hm ↦ absurd (hjoining (by simp [h])) hm, nofun, nofun, hhanded⟩
  | send _ h _ => exact ⟨hcnt, fun hm ↦ absurd (hjoining (by simp [h])) hm, nofun, nofun, hhanded⟩
  | finish h _ => exact ⟨hcnt, fun hm ↦ absurd (hjoining (by simp [h])) hm, nofun, nofun, hhanded⟩
  | close h => exact ⟨hcnt, fun hm ↦ absurd (hjoining (by simp [h])) hm, nofun, nofun, hhanded⟩

/-- `CntThread` changes only its own place, and only after it was created. -/
theorem CntStep.frame (h : CntStep c x s a t) :
    s.cnt ≠ .absent ∧ t = { s with cnt := t.cnt } := by
  cases h with
  | sleep h _ => exact ⟨by simp [h], rfl⟩
  | wake h _ => exact ⟨by simp [h], rfl⟩
  | noDelay h _ => exact ⟨by simp [h], rfl⟩
  | noDelayFails h => exact ⟨by simp [h], rfl⟩
  | start _ _ _ h => exact ⟨by simp [h], rfl⟩
  | finish h _ => exact ⟨by simp [h], rfl⟩
  | skip h _ _ => exact ⟨by simp [h], rfl⟩
  | late h _ _ _ => exact ⟨by simp [h], rfl⟩
  | apply _ h _ _ _ => exact ⟨by simp [h], rfl⟩
  | feedback _ h _ => exact ⟨by simp [h], rfl⟩
  | fail h _ => exact ⟨by simp [h], rfl⟩
  | goOn _ h _ => exact ⟨by simp [h], rfl⟩

/-- `CntThread` keeps it. -/
theorem CntStep.staged (h : CntStep c x s a t) (hs : s.Staged x) : t.Staged x := by
  obtain ⟨hcnt, hdata, hearly, hhanding, hhanded⟩ := hs
  obtain ⟨hpresent, ht⟩ := h.frame
  rw [ht]
  exact ⟨fun hm ↦ absurd (hcnt hm) hpresent, hdata, hearly, hhanding, hhanded⟩

/-- Every step keeps it. -/
theorem Step.staged (hs : s.Staged x) (h : Step c x s a t) : t.Staged x := by
  cases h with
  | thread h =>
    cases h with
    | main _ h => exact h.staged hs
    | data _ h => exact h.staged hs
    | cnt _ h => exact h.staged hs
  | signal _ => exact ⟨hs.cntAbsent, hs.dataAbsent, hs.early, hs.handing, hs.handed⟩

/-- It holds in every run. -/
theorem staged_of_run {actions : List Action} (h : Run (Step c x) Sys.start actions s) :
    s.Staged x :=
  h.history (fun _ s ↦ s.Staged x) (.start x) (fun _ _ _ _ hs hstep ↦ hstep.staged hs)

/-- Before `recv` it does not matter what the request will be. -/
theorem Sys.Staged.of_receiving (y : Session) (hs : s.Staged x) (hd : s.data = .receiving) :
    s.Staged y := by
  refine ⟨hs.cntAbsent, hs.dataAbsent, hs.early, ?_, ?_⟩
  · intro conn hconn
    rw [hd] at hconn
    cases hconn
  · intro hg
    rw [hs.early (by rw [hd]; rfl)] at hg
    cases hg

end Staged

/-! ### The replay loop -/

section Calls

variable {c : Arith} {g : Settings} {ps qs : List (Pass CntState Iteration)}

@[simp]
private theorem replayCalls_nil : replayCalls c g [] = [] := rfl

@[simp]
private theorem replayCalls_append :
    replayCalls c g (ps ++ qs) = replayCalls c g ps ++ replayCalls c g qs :=
  List.flatMap_append

@[simp]
private theorem replayCalls_singleton (p : Pass CntState Iteration) :
    replayCalls c g [p] = p.out.calls c g := by
  simp [replayCalls]

private theorem replayCalls_of_isPrefix (h : ps <+: qs) :
    replayCalls c g ps <+: replayCalls c g qs := by
  obtain ⟨rs, rfl⟩ := h
  rw [replayCalls_append]
  exact List.prefix_append _ _

private theorem calls_passOf_of_skips {r : Replay} {t : CntState} {e : STrace} {x : IterEnv}
    (hs : r.Skips c e) : (passOf c r t e x).out.calls c g = [] := by
  simp [passOf, Iteration.calls, iterate, hs]

private theorem calls_passOf_of_late {r : Replay} {t : CntState} {e : STrace} {x : IterEnv}
    (hs : ¬r.Skips c e) (ho : Replay.offset c t e < 0) :
    (passOf c r t e x).out.calls c g = [] := by
  simp [passOf, Iteration.calls, iterate, hs, ho]

private theorem calls_passOf_of_apply {r : Replay} {t : CntState} {e : STrace} {x : IterEnv}
    (hs : ¬r.Skips c e) (ho : 0 ≤ Replay.offset c t e) :
    (passOf c r t e x).out.calls c g = feedbackCalls c g e := by
  have hvisit : (iterate c r x e t).1 = .applied (Replay.offset c t e) := by
    simp only [iterate, if_neg hs, if_neg (not_lt.mpr ho)]
    split <;> rfl
  simp [passOf, Iteration.calls, hvisit]

end Calls

/-- The bias of a replay is computed from the timestamp of the session's request and the one
pair of readings of the clock that was taken for it; `src/server.cc:424–437`. -/
def SetUp (x : Session) (actions : List Action) (setup : UInt64) : Prop :=
  ∃ (conn : Conn) (initial raw : UInt64), Accepts x conn ∧
    readingsOf actions = [(initial, raw)] ∧
    setup = setupTime initial (.ofNat conn.startOfClient) raw

/-- The calls made so far are those of the iterations that led to this place. -/
def CntPc.Traced (c : Arith) (x : Session) (actions : List Action) : CntPc → Prop
  | .looping setup t =>
    SetUp x actions setup ∧ ∃ ps, Reached c (x.replay setup) ps t ∧
      feedbackOf actions = replayCalls c x.settings ps
  | .applying setup t e _ _ rest =>
    SetUp x actions setup ∧ x.trace[t.it]? = some e ∧ ¬(x.replay setup).Skips c e ∧
      0 ≤ Replay.offset c t e ∧
      ∃ ps, Reached c (x.replay setup) ps t ∧
        feedbackOf actions ++ rest = replayCalls c x.settings ps ++ feedbackCalls c x.settings e
  | .returned =>
    feedbackOf actions = [] ∨ ∃ setup env inForce, SetUp x actions setup ∧
      feedbackOf actions = replayCalls c x.settings (cntThread c (x.replay setup) env inForce)
  | _ => feedbackOf actions = [] ∧ readingsOf actions = []

section Traced

variable {c : Arith} {x : Session} {s t : Sys} {a : Action} {actions : List Action}

private theorem SetUp.snoc {setup : UInt64} (h : SetUp x actions setup) (ha : a.reading? = none) :
    SetUp x (actions ++ [a]) setup := by
  obtain ⟨conn, initial, raw, hacc, hread, hsetup⟩ := h
  exact ⟨conn, initial, raw, hacc, by rw [readingsOf_snoc_of_none ha, hread], hsetup⟩

private theorem CntPc.Traced.snoc {pc : CntPc} (h : pc.Traced c x actions) (hc : a.call? = none)
    (hr : a.reading? = none) : pc.Traced c x (actions ++ [a]) := by
  cases pc with
  | looping setup t =>
    obtain ⟨hsetup, ps, hreached, hmade⟩ := h
    exact ⟨hsetup.snoc hr, ps, hreached, by rw [feedbackOf_snoc_of_none hc, hmade]⟩
  | applying setup t e begun ok rest =>
    obtain ⟨hsetup, he, hskip, ho, ps, hreached, hmade⟩ := h
    exact ⟨hsetup.snoc hr, he, hskip, ho, ps, hreached, by rw [feedbackOf_snoc_of_none hc, hmade]⟩
  | returned =>
    obtain hnil | ⟨setup, env, inForce, hsetup, hmade⟩ := h
    · exact Or.inl (by rw [feedbackOf_snoc_of_none hc, hnil])
    · exact Or.inr ⟨setup, env, inForce, hsetup.snoc hr, by rw [feedbackOf_snoc_of_none hc, hmade]⟩
  | absent | waiting | settingNoDelay | starting =>
    exact ⟨by rw [feedbackOf_snoc_of_none hc, h.1], by rw [readingsOf_snoc_of_none hr, h.2]⟩

/-- A step of `CntThread` makes the next call of the sequential loop, or none. -/
theorem CntStep.traced (h : CntStep c x s a t) (hs : s.Staged x) (hw : s.Sound c x)
    (hm : s.cnt.Traced c x actions) : t.cnt.Traced c x (actions ++ [a]) := by
  cases h with
  | sleep h _ => exact hm.snoc rfl rfl
  | wake h _ | noDelay h _ =>
    rw [h] at hm
    exact CntPc.Traced.snoc hm rfl rfl
  | noDelayFails h =>
    rw [h] at hm
    have hreturned : CntPc.returned.Traced c x actions := Or.inl hm.1
    exact hreturned.snoc rfl rfl
  | start initial raw inForce h =>
    rw [h] at hm
    obtain ⟨conn, hacc, hconn⟩ := hs.handed (hw.woken (by simp [h]) (by simp [h]))
    refine ⟨⟨conn, initial, raw, hacc, ?_, by rw [hconn]⟩, [],
      ⟨fun _ ↦ ⟨0, 0, fun _ ↦ true⟩, inForce, .nil⟩, ?_⟩
    · rw [readingsOf_snoc, hm.2]
      rfl
    · rw [feedbackOf_snoc_of_none rfl, hm.1]
      rfl
  | finish h he =>
    rw [h] at hm
    obtain ⟨hsetup, ps, hreached, hmade⟩ := hm
    obtain ⟨env, inForce, hthread⟩ := hreached.exists_end he
    refine Or.inr ⟨_, env, inForce, hsetup.snoc rfl, ?_⟩
    rw [hthread, feedbackOf_snoc_of_none rfl, hmade]
  | skip h he hskip =>
    rw [h] at hm
    obtain ⟨hsetup, ps, hreached, hmade⟩ := hm
    refine ⟨hsetup.snoc rfl, _, hreached.next he (x := ⟨0, 0, fun _ ↦ true⟩)
      (by simp [iterate, hskip]), ?_⟩
    rw [replayCalls_append, replayCalls_singleton, calls_passOf_of_skips hskip, List.append_nil,
      feedbackOf_snoc_of_none rfl, hmade]
  | late h he hskip ho =>
    rw [h] at hm
    obtain ⟨hsetup, ps, hreached, hmade⟩ := hm
    refine ⟨hsetup.snoc rfl, _, hreached.next he (x := ⟨0, 0, fun _ ↦ true⟩)
      (by simp [iterate, hskip, ho]), ?_⟩
    rw [replayCalls_append, replayCalls_singleton, calls_passOf_of_late hskip ho, List.append_nil,
      feedbackOf_snoc_of_none rfl, hmade]
  | apply begun h he hskip ho =>
    rw [h] at hm
    obtain ⟨hsetup, ps, hreached, hmade⟩ := hm
    refine ⟨hsetup.snoc rfl, he, hskip, ho, ps, hreached, ?_⟩
    rw [feedbackOf_snoc_of_none rfl, hmade]
  | feedback result h _ =>
    rw [h] at hm
    obtain ⟨hsetup, he, hskip, ho, ps, hreached, hmade⟩ := hm
    refine ⟨hsetup.snoc rfl, he, hskip, ho, ps, hreached, ?_⟩
    rw [← hmade, feedbackOf_snoc]
    simp [Action.call?]
  | @fail setup t' e begun ok h hf =>
    rw [h] at hm
    obtain ⟨hsetup, he, hskip, ho, ps, hreached, hmade⟩ := hm
    obtain ⟨env, inForce, more, hthread, hmore⟩ := hreached.exists_pass he ⟨begun, 0, ok⟩
    have hnone : (iterate c (x.replay setup) ⟨begun, 0, ok⟩ e t').2 = none := by
      simp [iterate, hskip, not_lt.mpr ho, hf]
    refine Or.inr ⟨setup, env, inForce, hsetup.snoc rfl, ?_⟩
    rw [hthread, hmore hnone, replayCalls_append, replayCalls_singleton,
      calls_passOf_of_apply hskip ho, ← hmade, feedbackOf_snoc_of_none rfl, List.append_nil]
  | @goOn setup t' e begun ok finished h hf =>
    rw [h] at hm
    obtain ⟨hsetup, he, hskip, ho, ps, hreached, hmade⟩ := hm
    refine ⟨hsetup.snoc rfl, _, hreached.next he (x := ⟨begun, finished, ok⟩)
      (by simp [iterate, hskip, not_lt.mpr ho, hf]), ?_⟩
    rw [replayCalls_append, replayCalls_singleton, calls_passOf_of_apply hskip ho, ← hmade,
      feedbackOf_snoc_of_none rfl, List.append_nil]

/-- Every step keeps the calls of the run those of the sequential loop. -/
theorem Step.traced (hs : s.Staged x) (hw : s.Sound c x) (hm : s.cnt.Traced c x actions)
    (h : Step c x s a t) : t.cnt.Traced c x (actions ++ [a]) := by
  cases h with
  | thread h =>
    cases h with
    | main _ h =>
      cases h with
      | createCnt hmain _ =>
        rw [hs.cntAbsent (Or.inr hmain)] at hm
        exact CntPc.Traced.snoc hm rfl rfl
      | _ => exact hm.snoc rfl rfl
    | data _ h => cases h <;> exact hm.snoc rfl rfl
    | cnt _ h => exact h.traced hs hw hm
  | signal _ => exact hm.snoc rfl rfl

/-- In every run the place of `CntThread` says which calls were made. -/
theorem traced_of_run (h : Run (Step c x) Sys.start actions s) :
    s.cnt.Traced c x actions := by
  have hinv : s.Staged x ∧ s.Sound c x ∧ s.cnt.Traced c x actions :=
    h.history (fun actions s ↦ s.Staged x ∧ s.Sound c x ∧ s.cnt.Traced c x actions)
      ⟨.start x, .start c x, rfl, rfl⟩
      (fun _ _ _ _ ⟨hs, hw, hm⟩ hstep ↦ ⟨hstep.staged hs, hstep.sound hw, hstep.traced hs hw hm⟩)
  exact hinv.2.2

/-- At every place the calls made so far are the first ones of the sequential loop. -/
theorem CntPc.Traced.exists_thread {pc : CntPc} (h : pc.Traced c x actions) :
    feedbackOf actions = [] ∨
    ∃ (setup : UInt64) (env : ℕ → IterEnv) (inForce : SockOpt → ℤ), SetUp x actions setup ∧
      feedbackOf actions <+:
        replayCalls c x.settings (cntThread c (x.replay setup) env inForce) ∧
      (pc = .returned → feedbackOf actions =
        replayCalls c x.settings (cntThread c (x.replay setup) env inForce)) := by
  cases pc with
  | looping setup t =>
    obtain ⟨hsetup, ps, hreached, hmade⟩ := h
    obtain ⟨env, inForce, hpre⟩ := hreached.exists_thread
    refine Or.inr ⟨setup, env, inForce, hsetup, ?_, nofun⟩
    rw [hmade]
    exact replayCalls_of_isPrefix hpre
  | applying setup t e begun ok rest =>
    obtain ⟨hsetup, he, hskip, ho, ps, hreached, hmade⟩ := h
    obtain ⟨env, inForce, more, hthread, -⟩ := hreached.exists_pass he ⟨begun, 0, ok⟩
    refine Or.inr ⟨setup, env, inForce, hsetup, ?_, nofun⟩
    rw [hthread, ← List.singleton_append, replayCalls_append, replayCalls_append,
      replayCalls_singleton, calls_passOf_of_apply hskip ho, ← List.append_assoc, ← hmade,
      List.append_assoc]
    exact List.prefix_append _ _
  | returned =>
    obtain hnil | ⟨setup, env, inForce, hsetup, hmade⟩ := h
    · exact Or.inl hnil
    · exact Or.inr ⟨setup, env, inForce, hsetup, by rw [hmade], fun _ ↦ hmade⟩
  | absent | waiting | settingNoDelay | starting => exact Or.inl h.1

/-- In every run the calls of the replay loop are, in order, the first calls of the
sequential loop, whose bias is computed from the timestamp of an accepted request and the one
reading of the clock that the run has taken for it. They are all of its calls once `CntThread`
has returned from the loop. -/
theorem feedback_refines_cntThread (c : Arith) (x : Session) (actions : List Action) (s : Sys)
    (h : Run (Step c x) Sys.start actions s) :
    feedbackOf actions = [] ∨
    ∃ (conn : Conn) (initial raw : UInt64) (env : ℕ → IterEnv) (inForce : SockOpt → ℤ),
      Accepts x conn ∧ readingsOf actions = [(initial, raw)] ∧
      feedbackOf actions <+: replayCalls c x.settings
        (cntThread c (x.replay (setupTime initial (.ofNat conn.startOfClient) raw)) env inForce) ∧
      (s.cnt = .returned → feedbackOf actions = replayCalls c x.settings
        (cntThread c (x.replay (setupTime initial (.ofNat conn.startOfClient) raw))
          env inForce)) := by
  rcases (traced_of_run h).exists_thread with hnil |
    ⟨setup, env, inForce, ⟨conn, initial, raw, hacc, hread, rfl⟩, hpre, hall⟩
  · exact Or.inl hnil
  · exact Or.inr ⟨conn, initial, raw, env, inForce, hacc, hread, hpre, hall⟩

/-- A run with a call for a trace of one line. -/
theorem feedback_refines_cntThread_oneLine :
    ∃ (actions : List Action) (s : Sys) (conn : Conn) (initial raw : UInt64)
      (env : ℕ → IterEnv) (inForce : SockOpt → ℤ),
      Run (Step .amd64 oneLineSession) .start actions s ∧ feedbackOf actions ≠ [] ∧
      readingsOf actions = [(initial, raw)] ∧
      feedbackOf actions <+: replayCalls .amd64 oneLineSession.settings
        (cntThread .amd64 (oneLineSession.replay
          (setupTime initial (.ofNat conn.startOfClient) raw)) env inForce) := by
  have hvisits : (cntThread .amd64 (oneLineSession.replay 0) (fun _ ↦ ⟨0, 0, fun _ ↦ true⟩)
      (fun _ ↦ 0)).map (fun p ↦ p.out.visit) = [.applied 1000000] := by
    decide +kernel
  obtain ⟨p, hp, hv⟩ := List.map_eq_singleton_iff.mp hvisits
  obtain ⟨first, s, len, rest, hfirst, hr, -, hc⟩ := exists_run_start (c := .amd64)
    (x := oneLineSession) (by decide) (by decide) 0 (fun _ ↦ 0)
  obtain ⟨passes, call, t, hlast⟩ := exists_run_feedback (c := .amd64) (x := oneLineSession) hr hc
    (show (cntThread .amd64 (oneLineSession.replay 0) (fun _ ↦ ⟨0, 0, fun _ ↦ true⟩)
      (fun _ ↦ 0))[0]? = some p by rw [hp]; rfl) hv
  have hrun := hfirst.append hlast
  have hne : feedbackOf (first ++ (passes ++ [.feedback call])) ≠ [] := by
    simp [feedbackOf, Action.call?]
  rcases feedback_refines_cntThread _ _ _ _ hrun with
    hnil | ⟨conn, initial, raw, env, inForce, -, hread, hpre, -⟩
  · exact absurd hnil hne
  · exact ⟨_, t, conn, initial, raw, env, inForce, hrun, hne, hread, hpre⟩

end Traced

/-! ### The transfer -/

section Sending

variable {lens : List ℕ} {sends : List ℤ} {len : ℤ} {fuel : ℕ} {msgs : List (ℕ × (ℕ → ℤ))}

/-- Every send loop is over within the fuel. -/
def LoopsEnd (fuel : ℕ) (msgs : List (ℕ × (ℕ → ℤ))) : Prop :=
  ∀ m ∈ msgs, ended (sendBody m.2) fuel 0 m.1 = true

private theorem LoopsEnd.add (h : LoopsEnd fuel msgs) (n : ℕ) : LoopsEnd (fuel + n) msgs :=
  fun m hm ↦ ended_add (h m hm) n

private theorem resultsOf_add (h : LoopsEnd fuel msgs) (n : ℕ) :
    resultsOf (fuel + n) msgs = resultsOf fuel msgs := by
  unfold resultsOf
  rw [List.flatMap_def, List.flatMap_def]
  congr 1
  apply List.map_congr_left
  intro m hm
  rw [passes_of_ended (h m hm)]

private theorem resultsOf_append (msgs msgs' : List (ℕ × (ℕ → ℤ))) :
    resultsOf fuel (msgs ++ msgs') = resultsOf fuel msgs ++ resultsOf fuel msgs' :=
  List.flatMap_append

/-- The calls for the messages of these lengths have returned these results, and the last
message has so much outstanding. -/
def Sending (lens : List ℕ) (sends : List ℤ) (len : ℤ) : Prop :=
  ∃ (fuel : ℕ) (msgs : List (ℕ × (ℕ → ℤ))), LoopsEnd fuel msgs ∧
    ((lens = msgs.map Prod.fst ∧ len ≤ 0 ∧ sends = resultsOf fuel msgs) ∨
      ∃ (n : ℕ) (results : ℕ → ℤ) (ps : List (Pass ℤ ℤ)), lens = msgs.map Prod.fst ++ [n] ∧
        Passed (sendBody results) 0 n ps len ∧ sends = resultsOf fuel msgs ++ ps.map Pass.out)

private theorem Sending.nil : Sending [] [] 0 := ⟨0, [], nofun, Or.inl ⟨rfl, le_rfl, rfl⟩⟩

/-- When nothing is outstanding, all loops so far are over. -/
theorem Sending.settled (h : Sending lens sends len) (hl : len ≤ 0) :
    ∃ (fuel : ℕ) (msgs : List (ℕ × (ℕ → ℤ))), LoopsEnd fuel msgs ∧ lens = msgs.map Prod.fst ∧
      sends = resultsOf fuel msgs := by
  obtain ⟨fuel, msgs, hend, ⟨hlens, -, hsends⟩ | ⟨n, results, ps, hlens, hpassed, hsends⟩⟩ := h
  · exact ⟨fuel, msgs, hend, hlens, hsends⟩
  · have hnone : sendBody results (0 + ps.length) len = none := if_neg (not_lt.mpr hl)
    have hended : ended (sendBody results) (ps.length + 1) 0 n = true := by
      rw [hpassed.ended_eq, ended, hnone]
    have hpasses : passes (sendBody results) (ps.length + 1) 0 n = ps := by
      rw [hpassed.passes_eq, passes, hnone, List.append_nil]
    refine ⟨fuel + (ps.length + 1), msgs ++ [(n, results)], ?_, by simp [hlens], ?_⟩
    · intro m hm
      rcases List.mem_append.mp hm with hm | hm
      · exact hend.add _ m hm
      · rw [List.mem_singleton.mp hm, Nat.add_comm]
        exact ended_add hended fuel
    · rw [resultsOf_append, resultsOf_add hend, hsends, Nat.add_comm fuel]
      simp [resultsOf, passes_of_ended hended, hpasses]

private theorem Sending.next (h : Sending lens sends len) (hl : len ≤ 0) (n : ℕ) :
    Sending (lens ++ [n]) sends n := by
  obtain ⟨fuel, msgs, hend, hlens, hsends⟩ := h.settled hl
  exact ⟨fuel, msgs, hend, Or.inr ⟨n, fun _ ↦ 0, [], by rw [hlens], .nil, by simp [hsends]⟩⟩

private theorem Sending.send (h : Sending lens sends len) (hl : 0 < len) (result : ℤ) :
    Sending lens (sends ++ [result]) (int32 (len - result)) := by
  obtain ⟨fuel, msgs, hend, ⟨-, hle, -⟩ | ⟨n, results, ps, hlens, hpassed, hsends⟩⟩ := h
  · omega
  · -- The results that were not read yet are free.
    have hpassed' : Passed (sendBody (fun k ↦ if k < ps.length then results k else result)) 0 n ps
        len := by
      refine hpassed.congr ?_
      intro j _ hj
      funext s
      simp only [sendBody, if_pos (show j < ps.length by omega)]
    have hbody : sendBody (fun k ↦ if k < ps.length then results k else result) (0 + ps.length)
        len = some (result, some (int32 (len - result))) := by
      simp [sendBody, hl]
    refine ⟨fuel, msgs, hend, Or.inr ⟨n, _, _, hlens, .snoc hpassed' hbody, ?_⟩⟩
    simp [hsends]

-- Messages that were not begun can be sent by one call each.
private theorem exists_loopsEnd (rest : List ℕ) :
    ∃ msgs : List (ℕ × (ℕ → ℤ)), LoopsEnd 2 msgs ∧ msgs.map Prod.fst = rest := by
  refine ⟨rest.map (fun n ↦ (n, fun _ ↦ (n : ℤ))), ?_, by simp [Function.comp_def]⟩
  intro m hm
  obtain ⟨n, -, rfl⟩ := List.mem_map.mp hm
  by_cases hn : 0 < n <;> simp [ended, sendBody, hn, int32]

/-- What was sent is the beginning of a whole transfer. -/
theorem Sending.exists_msgs (h : Sending lens sends len) (rest : List ℕ) :
    ∃ (fuel : ℕ) (msgs : List (ℕ × (ℕ → ℤ))), LoopsEnd fuel msgs ∧
      msgs.map Prod.fst = lens ++ rest ∧ sends <+: resultsOf fuel msgs := by
  -- One more call can take what is outstanding.
  obtain ⟨sends', len', hl', h', hpre⟩ : ∃ (sends' : List ℤ) (len' : ℤ), len' ≤ 0 ∧
      Sending lens sends' len' ∧ sends <+: sends' := by
    by_cases hl : 0 < len
    · exact ⟨_, _, by simp [int32], h.send hl len, List.prefix_append _ _⟩
    · exact ⟨sends, len, not_lt.mp hl, h, List.prefix_refl _⟩
  obtain ⟨fuel, msgs, hend, hlens, hsends⟩ := h'.settled hl'
  obtain ⟨msgs', hend', hrest⟩ := exists_loopsEnd rest
  refine ⟨fuel + 2, msgs ++ msgs', ?_, by simp [hlens, hrest], ?_⟩
  · intro m hm
    rcases List.mem_append.mp hm with hm | hm
    · exact hend.add 2 m hm
    · rw [Nat.add_comm]
      exact hend'.add fuel m hm
  · rw [resultsOf_append, resultsOf_add hend, ← hsends]
    exact hpre.trans (List.prefix_append _ _)

end Sending

/-- What `DataThread` has done so far is the beginning of its sequential actions. -/
def DataPc.Traced (x : Session) (made : List Action) : DataPc → Prop
  | .absent | .receiving => made = []
  | .discarding => made = [.recv] ∧ ∃ conn, RequestOutcome x.received (.discarded, conn)
  | .faulted =>
    made = [.recv] ∧ ∃ out, RequestOutcome x.received out ∧ afterRequest out = .faulted
  | .handingOff conn => made = [.recv] ∧ Accepts x conn
  | .sending len rest =>
    ∃ conn lens sends, Accepts x conn ∧ sendLengths conn.size = lens ++ rest ∧
      Sending lens sends len ∧ made = [.recv, .gotMessage] ++ sends.map .send
  | .closing =>
    ∃ conn fuel msgs, Accepts x conn ∧ LoopsEnd fuel msgs ∧
      msgs.map Prod.fst = sendLengths conn.size ∧
      made = [.recv, .gotMessage] ++ (resultsOf fuel msgs).map .send
  | .returned =>
    ∃ out fuel msgs, RequestOutcome x.received out ∧ LoopsEnd fuel msgs ∧
      msgs.map Prod.fst = sendLengths out.2.size ∧ made = dataThread out (resultsOf fuel msgs)

section DataTraced

variable {c : Arith} {x : Session} {s t : Sys} {a : Action}

/-- A step of `DataThread` makes the next of its sequential actions. -/
theorem DataStep.traced {actions : List Action} (h : DataStep x s a t)
    (hm : s.data.Traced x (dataOf actions)) : t.data.Traced x (dataOf (actions ++ [a])) := by
  cases h with
  | @recv out h ho =>
    rw [h] at hm
    have hmade : dataOf (actions ++ [.recv]) = [.recv] := by
      rw [dataOf_snoc rfl, show dataOf actions = [] from hm, List.nil_append]
    obtain ⟨exit, conn⟩ := out
    cases exit with
    | accepted srcIp dstAddr => exact ⟨hmade, srcIp, dstAddr, ho⟩
    | discarded => exact ⟨hmade, conn, ho⟩
    | fault => exact ⟨hmade, _, ho, rfl⟩
    | overrun => exact ⟨hmade, _, ho, rfl⟩
  | discard h =>
    rw [h] at hm
    obtain ⟨hmade, conn, ho⟩ := hm
    obtain ⟨msgs, hend, hlens⟩ := exists_loopsEnd (sendLengths conn.size)
    refine ⟨_, 2, msgs, ho, hend, hlens, ?_⟩
    rw [dataOf_snoc rfl, hmade]
    rfl
  | fault h => rwa [dataOf_snoc_of_false rfl]
  | @handOff conn h =>
    rw [h] at hm
    obtain ⟨hmade, hacc⟩ := hm
    refine ⟨conn, [], [], hacc, rfl, .nil, ?_⟩
    rw [dataOf_snoc rfl, hmade]
    rfl
  | @next len n rest h hl =>
    rw [h] at hm
    obtain ⟨conn, lens, sends, hacc, hlens, hsending, hmade⟩ := hm
    refine ⟨conn, lens ++ [n], sends, hacc, by simp [hlens], hsending.next hl n, ?_⟩
    rw [dataOf_snoc_of_false rfl, hmade]
  | @send len rest result h hl =>
    rw [h] at hm
    obtain ⟨conn, lens, sends, hacc, hlens, hsending, hmade⟩ := hm
    refine ⟨conn, lens, sends ++ [result], hacc, hlens, hsending.send hl result, ?_⟩
    rw [dataOf_snoc rfl, hmade]
    simp
  | finish h hl =>
    rw [h] at hm
    obtain ⟨conn, lens, sends, hacc, hlens, hsending, hmade⟩ := hm
    obtain ⟨fuel, msgs, hend, hmsgs, hsends⟩ := hsending.settled hl
    refine ⟨conn, fuel, msgs, hacc, hend, by rw [← hmsgs, hlens, List.append_nil], ?_⟩
    rw [dataOf_snoc_of_false rfl, hmade, hsends]
  | close h =>
    rw [h] at hm
    obtain ⟨conn, fuel, msgs, ⟨srcIp, dstAddr, ho⟩, hend, hlens, hmade⟩ := hm
    refine ⟨_, fuel, msgs, ho, hend, hlens, ?_⟩
    rw [dataOf_snoc rfl, hmade]
    rfl

/-- Every step keeps what `DataThread` has done the beginning of its sequential actions. -/
theorem Step.dataTraced {actions : List Action} (hs : s.Staged x)
    (hm : s.data.Traced x (dataOf actions)) (h : Step c x s a t) :
    t.data.Traced x (dataOf (actions ++ [a])) := by
  cases h with
  | thread h =>
    cases h with
    | main _ h =>
      cases h with
      | createData hmain =>
        rw [hs.dataAbsent (by simp [hmain])] at hm
        rw [dataOf_snoc_of_false rfl]
        exact hm
      | _ => rwa [dataOf_snoc_of_false rfl]
    | data _ h => exact h.traced hm
    | cnt _ h =>
      rw [dataOf_snoc_of_false (by cases h <;> rfl), h.frame.2]
      exact hm
  | signal _ => rwa [dataOf_snoc_of_false rfl]

private theorem exists_msgs_of_recv {made : List Action} (out : Exit × Conn)
    (h : made <+: [.recv]) :
    ∃ (fuel : ℕ) (msgs : List (ℕ × (ℕ → ℤ))), LoopsEnd fuel msgs ∧
      msgs.map Prod.fst = sendLengths out.2.size ∧
      made <+: dataThread out (resultsOf fuel msgs) := by
  obtain ⟨msgs, hend, hlens⟩ := exists_loopsEnd (sendLengths out.2.size)
  refine ⟨2, msgs, hend, hlens, h.trans ?_⟩
  obtain ⟨exit, conn⟩ := out
  cases exit <;> simp [dataThread]

/-- At every place what was done so far is the beginning of the sequential actions. -/
theorem DataPc.Traced.exists_word {made : List Action} {d : DataPc} (h : d.Traced x made) :
    ∃ (out : Exit × Conn) (fuel : ℕ) (msgs : List (ℕ × (ℕ → ℤ))),
      RequestOutcome x.received out ∧ LoopsEnd fuel msgs ∧
      msgs.map Prod.fst = sendLengths out.2.size ∧
      made <+: dataThread out (resultsOf fuel msgs) ∧
      (d = .returned → made = dataThread out (resultsOf fuel msgs)) := by
  cases d with
  | absent | receiving =>
    obtain rfl : made = [] := h
    obtain ⟨fuel, msgs, hend, hlens, hpre⟩ := exists_msgs_of_recv
      (dataRequest x.received ⟨0, 0, 0, 0, false⟩) List.nil_prefix
    exact ⟨_, fuel, msgs, requestOutcome_dataRequest _, hend, hlens, hpre, nofun⟩
  | discarding =>
    obtain ⟨rfl, conn, ho⟩ := h
    obtain ⟨fuel, msgs, hend, hlens, hpre⟩ := exists_msgs_of_recv (.discarded, conn)
      (List.prefix_refl _)
    exact ⟨_, fuel, msgs, ho, hend, hlens, hpre, nofun⟩
  | faulted =>
    obtain ⟨rfl, out, ho, -⟩ := h
    obtain ⟨fuel, msgs, hend, hlens, hpre⟩ := exists_msgs_of_recv out (List.prefix_refl _)
    exact ⟨_, fuel, msgs, ho, hend, hlens, hpre, nofun⟩
  | handingOff conn =>
    obtain ⟨rfl, srcIp, dstAddr, ho⟩ := h
    obtain ⟨fuel, msgs, hend, hlens, hpre⟩ := exists_msgs_of_recv (.accepted srcIp dstAddr, conn)
      (List.prefix_refl _)
    exact ⟨_, fuel, msgs, ho, hend, hlens, hpre, nofun⟩
  | sending len rest =>
    obtain ⟨conn, lens, sends, ⟨srcIp, dstAddr, ho⟩, hlens, hsending, rfl⟩ := h
    obtain ⟨fuel, msgs, hend, hmsgs, hpre⟩ := hsending.exists_msgs rest
    refine ⟨_, fuel, msgs, ho, hend, by rw [hmsgs, hlens], ?_, nofun⟩
    refine List.IsPrefix.trans ?_ (List.prefix_append _ _)
    rw [List.prefix_append_right_inj]
    exact hpre.map _
  | closing =>
    obtain ⟨conn, fuel, msgs, ⟨srcIp, dstAddr, ho⟩, hend, hlens, rfl⟩ := h
    exact ⟨_, fuel, msgs, ho, hend, hlens, List.prefix_append _ _, nofun⟩
  | returned =>
    obtain ⟨out, fuel, msgs, ho, hend, hlens, rfl⟩ := h
    exact ⟨out, fuel, msgs, ho, hend, hlens, List.prefix_refl _, fun _ ↦ rfl⟩

/-- In every run `DataThread` does, in order, the first of its sequential actions: one
`recv`, and after an accepted request the hand-off, the calls of send loops that all end and
one `close`. It has done all of them once it has returned. -/
theorem data_refines_dataThread (c : Arith) (x : Session) (actions : List Action) (s : Sys)
    (h : Run (Step c x) Sys.start actions s) :
    ∃ (out : Exit × Conn) (fuel : ℕ) (msgs : List (ℕ × (ℕ → ℤ))),
      RequestOutcome x.received out ∧ LoopsEnd fuel msgs ∧
      msgs.map Prod.fst = sendLengths out.2.size ∧
      dataOf actions <+: dataThread out (resultsOf fuel msgs) ∧
      (s.data = .returned → dataOf actions = dataThread out (resultsOf fuel msgs)) := by
  have hinv : s.Staged x ∧ s.data.Traced x (dataOf actions) :=
    h.history (fun actions s ↦ s.Staged x ∧ s.data.Traced x (dataOf actions)) ⟨.start x, rfl⟩
      (fun _ _ _ _ ⟨hs, hm⟩ hstep ↦ ⟨hstep.staged hs, hstep.dataTraced hs hm⟩)
  exact hinv.2.exists_word

/-- A run to the end of a transfer. -/
theorem data_refines_dataThread_oneLine :
    ∃ (actions : List Action) (s : Sys) (out : Exit × Conn) (fuel : ℕ)
      (msgs : List (ℕ × (ℕ → ℤ))), Run (Step .amd64 oneLineSession) .start actions s ∧
      s.data = .returned ∧ LoopsEnd fuel msgs ∧
      dataOf actions = dataThread out (resultsOf fuel msgs) := by
  obtain ⟨first, s, len, rest, hfirst, hr, hd, -⟩ := exists_run_start (c := .amd64)
    (x := oneLineSession) (by decide) (by decide) 0 (fun _ ↦ 0)
  obtain ⟨sends, htransfer⟩ := exists_run_transfer (x := oneLineSession) hr hd
  have hsends : Run (Step .amd64 oneLineSession) s sends _ :=
    htransfer.mono (fun _ _ _ h ↦ .thread h.threadStep)
  have hrun := (hfirst.append hsends).append (.single (.data hr (.close rfl)))
  obtain ⟨out, fuel, msgs, -, hend, -, -, hall⟩ := data_refines_dataThread _ _ _ _ hrun
  exact ⟨_, _, out, fuel, msgs, hrun, rfl, hend, hall rfl⟩

end DataTraced

end NatcpSpec.Server
