import NatcpSpec.Server.Replay

/-!
# Options in force on the socket

`src/server.cc:472–491`. The thread means to stop when an option of a line cannot be set,
so that all options in force belong to one line of the trace. Results of the calls are
folded into two variables, and the assignment for the gain discards the result for the
target delay: only that failure goes unseen.
-/

namespace NatcpSpec.Server

open NatcpSpec.Base

/-- Options set with `IPPROTO_TCP`; `src/server.cc:472–485`. -/
def SockOpt.tcpLevel : SockOpt → Bool
  | .soMaxPacingRate => false
  | _ => true

/-- The TCP-level calls of one line. -/
def tcpCalls (c : Arith) (g : Settings) (e : STrace) : List (SockOpt × ℤ) :=
  (feedbackCalls c g e).filter (fun call ↦ call.1.tcpLevel)

/-- The socket always carries one line's feedback: an applied line that the thread goes on
from to the next one has set all its TCP-level options, these stay in force up to the next
applied line, and after a failed TCP-level call there is no next line. -/
def CarriesOneLine (c : Arith) (r : Replay) (env : ℕ → IterEnv) (inForce : SockOpt → ℤ) :
    Prop :=
  ∀ (i : ℕ) (p : Pass CntState Iteration) (o : ℤ),
    (cntThread c r env inForce)[i]? = some p → p.out.visit = .applied o →
    (∀ q, (cntThread c r env inForce)[i + 1]? = some q →
      ∀ call ∈ tcpCalls c r.settings p.out.entry, p.out.env.ok call.1 = true) ∧
    (∀ (j : ℕ) (q : Pass CntState Iteration), i < j →
      (cntThread c r env inForce)[j]? = some q →
      (∀ k m o', i < k → k < j → (cntThread c r env inForce)[k]? = some m →
        m.out.visit ≠ .applied o') →
      ∀ call ∈ tcpCalls c r.settings p.out.entry, q.head.inForce call.1 = call.2) ∧
    ((∃ call ∈ tcpCalls c r.settings p.out.entry, p.out.env.ok call.1 = false) →
      (cntThread c r env inForce)[i + 1]? = none)

section Options

variable {c : Arith} {r : Replay} {env : ℕ → IterEnv} {inForce : SockOpt → ℤ}

/-- TCP-level calls are made for bandwidth, target delay, gain and the mode's option. -/
theorem opt_of_mem_tcpCalls {g : Settings} {e : STrace} {call : SockOpt × ℤ}
    (h : call ∈ tcpCalls c g e) :
    call.1 = .tcpBbrBwval ∨ call.1 = .tcpBbrTrgtdelMs ∨ call.1 = .tcpBbrCwndrvgain ∨
      call.1 ∈ modeOpt g.feedback := by
  obtain ⟨hm, ht⟩ := List.mem_filter.mp h
  simp only [feedbackCalls, List.mem_append, List.mem_cons, List.not_mem_nil, or_false,
    List.mem_ite_nil_right] at hm
  rcases hm with (((rfl | rfl | rfl) | ⟨h1, rfl⟩) | ⟨h3, rfl⟩) | rfl
  · exact Or.inl rfl
  · exact Or.inr (Or.inl rfl)
  · exact Or.inr (Or.inr (Or.inl rfl))
  · simp [modeOpt, h1]
  · simp [modeOpt, h3]
  · simp [SockOpt.tcpLevel] at ht

/-- The target delay is set in every mode. -/
theorem trgtdel_mem_tcpCalls (c : Arith) (g : Settings) (e : STrace) :
    (.tcpBbrTrgtdelMs, (feedbackVals c g e).val2) ∈ tcpCalls c g e := by
  simp [tcpCalls, feedbackCalls, SockOpt.tcpLevel]

/-- When the test after the calls passes, only the target delay's call can have failed. -/
theorem ok_of_not_fails {g : Settings} {e : STrace} {ok : SockOpt → Bool}
    {call : SockOpt × ℤ} (hf : feedbackFails g ok = false) (hd : ok .tcpBbrTrgtdelMs = true)
    (hm : call ∈ tcpCalls c g e) : ok call.1 = true := by
  have hn : ¬ feedbackFails g ok = true := by simp [hf]
  rw [feedbackFails_iff, not_or, not_or, not_exists] at hn
  obtain ⟨hb, hg, hmode⟩ := hn
  rcases opt_of_mem_tcpCalls hm with he | he | he | he
  · rw [he]
    simpa using hb
  · rw [he]
    exact hd
  · rw [he]
    simpa using hg
  · simpa [he] using hmode call.1

-- Skipped and late lines make no call.
private theorem inForce_carried {i j : ℕ} {p q : Pass CntState Iteration} {s : CntState}
    (hp : (cntThread c r env inForce)[i]? = some p) (hn : p.next = some s)
    (hq : (cntThread c r env inForce)[j]? = some q) (hij : i < j)
    (hnone : ∀ k m o', i < k → k < j → (cntThread c r env inForce)[k]? = some m →
      m.out.visit ≠ .applied o') : q.head.inForce = s.inForce := by
  induction j, hij using Nat.le_induction generalizing q with
  | base =>
    have h := passes_next hp hq
    rw [hn, Option.some.injEq] at h
    rw [h]
  | succ j hij ih =>
    obtain ⟨m, hm⟩ := passes_before (Nat.le_succ j) hq
    have hh := ih hm (fun k m o' hik hkj ↦ hnone k m o' hik (by omega))
    have hnext := passes_next hm hq
    obtain ⟨-, -, ⟨-, -, hc⟩ | ⟨-, -, -, hc⟩ | ⟨-, -, ha, -⟩⟩ := cntThread_cases hm
    · rw [hc, Option.some.injEq] at hnext
      rw [← hnext]
      exact hh
    · rw [hc, Option.some.injEq] at hnext
      rw [← hnext]
      exact hh
    · exact absurd ha (hnone j m _ hij (Nat.lt_succ_self j) hm)

end Options

/-- In every run and every mode the socket carries one line's feedback if and only if no
applied line but the last of the trace has the target delay's call as the only failed one. -/
theorem carriesOneLine_iff (c : Arith) (r : Replay) (env : ℕ → IterEnv)
    (inForce : SockOpt → ℤ) :
    CarriesOneLine c r env inForce ↔
      ∀ (i : ℕ) (p : Pass CntState Iteration) (o : ℤ), i + 1 < r.trace.length →
        (cntThread c r env inForce)[i]? = some p → p.out.visit = .applied o →
        p.out.env.ok .tcpBbrTrgtdelMs = true ∨ p.out.env.ok .tcpBbrBwval = false ∨
          p.out.env.ok .tcpBbrCwndrvgain = false ∨
          ∃ m ∈ modeOpt r.settings.feedback, p.out.env.ok m = false := by
  constructor
  · intro h i p o hi hp hv
    rw [← feedbackFails_iff]
    cases hf : feedbackFails r.settings p.out.env.ok with
    | true => exact .inr rfl
    | false =>
      obtain ⟨-, -, -, hn⟩ := applied_spec hp hv
      rw [hf] at hn
      obtain ⟨q, hq, -⟩ := cntThread_succ hp hn hi
      left
      exact (h i p o hp hv).1 q hq _ (trgtdel_mem_tcpCalls c r.settings _)
  · intro h i p o hp hv
    rcases hnext : (cntThread c r env inForce)[i + 1]? with _ | q
    · refine ⟨(by rintro q ⟨⟩), ?_, fun _ ↦ rfl⟩
      intro j q hij hq
      obtain ⟨q', hq'⟩ := passes_before (show i + 1 ≤ j from hij) hq
      rw [cntThread, hq'] at hnext
      cases hnext
    -- The thread went on, so that the test after the calls passed.
    have hi := (List.getElem?_eq_some_iff.mp (cntThread_entry hnext)).1
    obtain ⟨-, -, -, hn⟩ := applied_spec hp hv
    have hf : feedbackFails r.settings p.out.env.ok = false := by
      rw [passes_next hp hnext] at hn
      split at hn
      · cases hn
      · next hf => simpa using hf
    rw [hf, if_neg Bool.false_ne_true] at hn
    have hd : p.out.env.ok .tcpBbrTrgtdelMs = true := by
      have hd := h i p o hi hp hv
      rw [← feedbackFails_iff] at hd
      simpa [hf] using hd
    have hok : ∀ call ∈ tcpCalls c r.settings p.out.entry, p.out.env.ok call.1 = true :=
      fun call hm ↦ ok_of_not_fails hf hd hm
    refine ⟨fun _ _ ↦ hok, ?_, ?_⟩
    · intro j q hij hq hnone call hm
      rw [inForce_carried hp hn hq hij hnone]
      exact setOptions_of_mem _ _ _ (feedbackCalls_nodup c r.settings p.out.entry)
        (List.mem_filter.mp hm).1 (hok call hm)
    · rintro ⟨call, hm, hbad⟩
      rw [hok call hm] at hbad
      cases hbad

/-- Three lines of growing bandwidth and delay. -/
def mixedReplay : Replay :=
  ⟨⟨5, 3, 1, 2⟩, [⟨1, 1, 100⟩, ⟨2, 2, 200⟩, ⟨3, 3, 300⟩], 0⟩

/-- The target delay cannot be set for the second line; all else succeeds. -/
def mixedEnv (k : ℕ) : IterEnv :=
  ⟨0, 1000000, fun o ↦ !(k == 1 && o == .tcpBbrTrgtdelMs)⟩

/-- The thread goes on with the second line's bandwidth and the first line's delay. -/
theorem not_carriesOneLine_mixed :
    (cntThread .amd64 mixedReplay mixedEnv (fun _ ↦ 0)).map
      (fun p ↦ (p.head.inForce .tcpBbrBwval, p.head.inForce .tcpBbrTrgtdelMs)) =
      [(0, 0), (1000, 10100), (2000, 10100)] ∧
    ¬ CarriesOneLine .amd64 mixedReplay mixedEnv (fun _ ↦ 0) := by
  refine ⟨by decide +kernel, ?_⟩
  intro h
  have hvisits : (cntThread .amd64 mixedReplay mixedEnv (fun _ ↦ 0)).map
      (fun p ↦ p.out.visit) =
      [.applied 1000000, .applied 1000000, .applied 1000000] := by
    decide +kernel
  obtain ⟨p, hp⟩ : ∃ p, (cntThread .amd64 mixedReplay mixedEnv (fun _ ↦ 0))[1]? = some p :=
    ⟨_, List.getElem?_eq_getElem (by decide +kernel)⟩
  have hv : p.out.visit = .applied 1000000 :=
    (Option.some.inj (visit_of_map hvisits hp)).symm
  have hx : p.out.env = mixedEnv 1 := (cntThread_cases hp).2.1
  have hgo : feedbackFails mixedReplay.settings (mixedEnv 1).ok = false := by decide
  have hbad : (mixedEnv 1).ok .tcpBbrTrgtdelMs = false := by decide
  obtain ⟨-, -, -, hn⟩ := applied_spec hp hv
  rw [hx, hgo] at hn
  obtain ⟨q, hq, -⟩ := cntThread_succ hp hn (by decide)
  have hok : p.out.env.ok .tcpBbrTrgtdelMs = true := (h 1 p _ hp hv).1 q hq _
    (trgtdel_mem_tcpCalls .amd64 mixedReplay.settings _)
  rw [hx, hbad] at hok
  cases hok

end NatcpSpec.Server
