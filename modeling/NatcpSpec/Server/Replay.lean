import NatcpSpec.Base.Loop
import NatcpSpec.Server.Feedback

/-!
# The replay loop of the control thread

`src/server.cc:422–498` with the clock functions of `src/server.cc:93–111`. An
iteration either skips a line the client is already past, drops a line that is late,
or sleeps and applies it. Readings of the system clock and results of `setsockopt` are
the environment: every iteration has its own. The loop keeps a trace time in seconds
and an overrun in microseconds; together they are its replay clock. Times of the trace, the
bias and the sleeps are computed in doubles, one operation at a time; the fields of a line are
the doubles that were read from its text.
-/

namespace NatcpSpec.Server

open NatcpSpec.Base

/-- What the system answers during one iteration: the clock when `timestamp_begin(1)`
and `timestamp_end()` read it, and which `setsockopt` calls succeed. -/
structure IterEnv where
  begun : UInt64
  finished : UInt64
  ok : SockOpt → Bool

/-- `timestamp_end()` with the start that the same iteration set;
`src/server.cc:101–111,445,496`. -/
def IterEnv.timestampEnd (x : IterEnv) : UInt64 := x.finished - x.begun

/-- Time that passed on the clock during the iteration, as a signed number. -/
def IterEnv.elapsed (x : IterEnv) : ℤ := (x.finished.toNat : ℤ) - x.begun.toNat

/-- What is fixed before the loop is entered: the globals, the loaded trace and the
time since the client's base timestamp in microseconds; `src/server.cc:435`. -/
structure Replay where
  settings : Settings
  trace : List STrace
  setupTime : UInt64

/-- Variables carried from one iteration to the next, and the option values in force on
the socket; `src/server.cc:47,422,441`. -/
structure CntState where
  it : ℕ
  preTime : ℚ
  fct : UInt64
  inForce : SockOpt → ℤ

/-- What an iteration did with its line, with the sleep it computed in microseconds. -/
inductive Visit
  | skipped
  | late (offset : ℤ)
  | applied (offset : ℤ)
  deriving DecidableEq, Repr

/-- Record of one iteration: its line, its environment and what it did. -/
structure Iteration where
  entry : STrace
  env : IterEnv
  visit : Visit

namespace Replay

variable (c : Arith) (r : Replay)

/-- `bias_time` in seconds, with `base_timestamp` zero; `src/server.cc:434–437`. -/
def biasTime : ℚ :=
  c.round (c.round (c.round r.setupTime.toNat / 1000000) + c.round (0 / 1000000))

/-- `bias_time_scaled` in milliseconds; `src/server.cc:438`. -/
def biasTimeScaled : ℤ := c.toInt (c.round (r.biasTime c * 1000))

/-- `time_scaled` of a line in milliseconds; `src/server.cc:446`. -/
def timeScaled (e : STrace) : ℤ := c.toInt (c.round (1000 * e.time))

/-- The client is already past the line; `src/server.cc:447`. -/
def Skips (e : STrace) : Prop := timeScaled c e ≤ r.biasTimeScaled c

instance (e : STrace) : Decidable (r.Skips c e) := inferInstanceAs (Decidable (_ ≤ _))

/-- The sleep before a line, from the state at the head; `src/server.cc:455–456`. -/
def offset (s : CntState) (e : STrace) : ℤ :=
  let delta := c.round (e.time - s.preTime)
  c.toInt64 (c.round (c.round (delta * 1000000) - c.round s.fct.toNat))

end Replay

namespace CntState

/-- State after a skipped line: only the trace time moves; `src/server.cc:449–452`. -/
def afterSkip (c : Arith) (r : Replay) (s : CntState) : CntState :=
  { s with it := s.it + 1, preTime := r.biasTime c }

/-- State after a late line; `src/server.cc:459–462`. -/
def afterLate (c : Arith) (e : STrace) (offset : ℤ) (s : CntState) : CntState :=
  { s with
    it := s.it + 1
    preTime := c.round (e.time - c.round (c.round offset / 1000000))
    fct := 0 }

/-- State after an applied line; `src/server.cc:465–486,493–497`. -/
def afterApply (c : Arith) (g : Settings) (x : IterEnv) (e : STrace) (offset : ℤ)
    (s : CntState) : CntState :=
  { it := s.it + 1
    preTime := e.time
    fct := x.timestampEnd - uint64 offset
    inForce := setOptions x.ok (feedbackCalls c g e) s.inForce }

/-- The replay clock in microseconds. -/
def clock (s : CntState) : ℚ := s.preTime * 1000000 + s.fct.toNat

end CntState

section Loop

variable (c : Arith) (r : Replay)

/-- One iteration on its line; the absent state is the return of
`src/server.cc:487–491`. -/
def iterate (x : IterEnv) (e : STrace) (s : CntState) : Visit × Option CntState :=
  if r.Skips c e then (.skipped, some (s.afterSkip c r))
  else
    let offset := Replay.offset c s e
    if offset < 0 then (.late offset, some (s.afterLate c e offset))
    else if feedbackFails r.settings x.ok then (.applied offset, none)
    else (.applied offset, some (s.afterApply c r.settings x e offset))

/-- The loop body with its condition; `src/server.cc:442`. -/
def cntBody (env : ℕ → IterEnv) (k : ℕ) (s : CntState) : Option (Iteration × Option CntState) :=
  match r.trace[s.it]? with
  | none => none
  | some e => some (⟨e, env k, (iterate c r (env k) e s).1⟩, (iterate c r (env k) e s).2)

/-- State in which the loop is entered; `src/server.cc:47,422,441`. -/
def cntStart (inForce : SockOpt → ℤ) : CntState := ⟨0, 0, 0, inForce⟩

/-- All iterations of the control thread's loop. -/
def cntThread (env : ℕ → IterEnv) (inForce : SockOpt → ℤ) : List (Pass CntState Iteration) :=
  passes (cntBody c r env) (r.trace.length + 1) 0 (cntStart inForce)

end Loop

/-! ### What an iteration can do -/

section Cases

variable {c : Arith} {r : Replay} {env : ℕ → IterEnv} {inForce : SockOpt → ℤ}

/-- Everything one iteration can do to its line and to the state. -/
theorem iterate_cases (c : Arith) (r : Replay) (x : IterEnv) (e : STrace) (s : CntState) :
    (r.Skips c e ∧ iterate c r x e s = (.skipped, some (s.afterSkip c r))) ∨
    (¬ r.Skips c e ∧ Replay.offset c s e < 0 ∧
      iterate c r x e s = (.late (Replay.offset c s e),
        some (s.afterLate c e (Replay.offset c s e)))) ∨
    (¬ r.Skips c e ∧ 0 ≤ Replay.offset c s e ∧
      iterate c r x e s = (.applied (Replay.offset c s e),
        if feedbackFails r.settings x.ok then none
        else some (s.afterApply c r.settings x e (Replay.offset c s e)))) := by
  unfold iterate
  by_cases hs : r.Skips c e
  · exact .inl ⟨hs, by rw [if_pos hs]⟩
  · rw [if_neg hs]
    by_cases hl : Replay.offset c s e < 0
    · exact .inr (.inl ⟨hs, hl, if_pos hl⟩)
    · refine .inr (.inr ⟨hs, by omega, ?_⟩)
      dsimp only
      rw [if_neg hl]
      split <;> rfl

/-- The pass that the thread makes at a given place: its line is the one the index
names, its environment is its own, and it does one of three things. -/
theorem cntThread_cases {i : ℕ} {p : Pass CntState Iteration}
    (h : (cntThread c r env inForce)[i]? = some p) :
    r.trace[p.head.it]? = some p.out.entry ∧ p.out.env = env i ∧
    ((r.Skips c p.out.entry ∧ p.out.visit = .skipped ∧ p.next = some (p.head.afterSkip c r)) ∨
     (¬ r.Skips c p.out.entry ∧ Replay.offset c p.head p.out.entry < 0 ∧
       p.out.visit = .late (Replay.offset c p.head p.out.entry) ∧
       p.next = some (p.head.afterLate c p.out.entry (Replay.offset c p.head p.out.entry))) ∨
     (¬ r.Skips c p.out.entry ∧ 0 ≤ Replay.offset c p.head p.out.entry ∧
       p.out.visit = .applied (Replay.offset c p.head p.out.entry) ∧
       p.next = if feedbackFails r.settings p.out.env.ok then none else
         some (p.head.afterApply c r.settings p.out.env p.out.entry
           (Replay.offset c p.head p.out.entry)))) := by
  have hb := passes_body h
  rw [Nat.zero_add, cntBody] at hb
  split at hb
  · cases hb
  · next e he =>
    obtain ⟨ho, hn⟩ := Prod.mk.inj (Option.some.inj hb)
    have hentry : p.out.entry = e := by rw [← ho]
    have henv : p.out.env = env i := by rw [← ho]
    have hvisit : p.out.visit = (iterate c r (env i) e p.head).1 := by rw [← ho]
    refine ⟨by rw [hentry]; exact he, henv, ?_⟩
    rw [hentry, henv, hvisit, ← hn]
    rcases iterate_cases c r (env i) e p.head with ⟨hs, hi⟩ | ⟨hs, ho, hi⟩ | ⟨hs, ho, hi⟩
    · exact .inl ⟨hs, by rw [hi], by rw [hi]⟩
    · exact .inr (.inl ⟨hs, ho, by rw [hi], by rw [hi]⟩)
    · exact .inr (.inr ⟨hs, ho, by rw [hi], by rw [hi]⟩)

/-- An iteration that goes on has moved to the next index. -/
theorem cntThread_next_it {i : ℕ} {p : Pass CntState Iteration} {s : CntState}
    (h : (cntThread c r env inForce)[i]? = some p) (hn : p.next = some s) :
    s.it = p.head.it + 1 := by
  obtain ⟨-, -, ⟨-, -, hc⟩ | ⟨-, -, -, hc⟩ | ⟨-, -, -, hc⟩⟩ := cntThread_cases h
  · rw [hc, Option.some.injEq] at hn
    rw [← hn]
    rfl
  · rw [hc, Option.some.injEq] at hn
    rw [← hn]
    rfl
  · rw [hc] at hn
    split at hn
    · cases hn
    · rw [Option.some.injEq] at hn
      rw [← hn]
      rfl

/-- Iterations visit the indices of the trace in order, each once. -/
theorem cntThread_it {i : ℕ} {p : Pass CntState Iteration}
    (h : (cntThread c r env inForce)[i]? = some p) : p.head.it = i := by
  have hi := passes_invariant (fun k s ↦ s.it = k) rfl (fun i p s hp hn hk ↦ by
    rw [cntThread_next_it hp hn, hk]) h
  rw [hi, Nat.zero_add]

/-- The line of an iteration is the line of the trace at its place. -/
theorem cntThread_entry {i : ℕ} {p : Pass CntState Iteration}
    (h : (cntThread c r env inForce)[i]? = some p) : r.trace[i]? = some p.out.entry := by
  have he := (cntThread_cases h).1
  rwa [cntThread_it h] at he

private theorem cntBody_isSome (c : Arith) (r : Replay) (env : ℕ → IterEnv) (k : ℕ)
    {s : CntState} (h : s.it < r.trace.length) :
    ∃ out next, cntBody c r env k s = some (out, next) := by
  unfold cntBody
  rw [List.getElem?_eq_getElem h]
  exact ⟨_, _, rfl⟩

/-- The first line of a trace is visited. -/
theorem cntThread_zero (h : 0 < r.trace.length) :
    ∃ p, (cntThread c r env inForce)[0]? = some p := by
  obtain ⟨out, next, hb⟩ := cntBody_isSome c r env 0 (s := cntStart inForce) h
  exact ⟨_, passes_zero hb (by omega)⟩

/-- The line after one that the thread goes on from is visited. -/
theorem cntThread_succ {i : ℕ} {p : Pass CntState Iteration} {s : CntState}
    (h : (cntThread c r env inForce)[i]? = some p) (hn : p.next = some s)
    (hi : i + 1 < r.trace.length) :
    ∃ q, (cntThread c r env inForce)[i + 1]? = some q ∧ q.head = s := by
  have hs : s.it = i + 1 := by rw [cntThread_next_it h hn, cntThread_it h]
  obtain ⟨out, next, hb⟩ := cntBody_isSome c r env (0 + (i + 1)) (s := s) (by omega)
  exact ⟨_, passes_succ h hn hb (by omega), rfl⟩

/-- A skipped line was skipped by the bias test. -/
theorem skips_of_skipped {i : ℕ} {p : Pass CntState Iteration}
    (h : (cntThread c r env inForce)[i]? = some p) (hv : p.out.visit = .skipped) :
    r.Skips c p.out.entry := by
  obtain ⟨-, -, ⟨hs, -, -⟩ | ⟨-, -, hl, -⟩ | ⟨-, -, ha, -⟩⟩ := cntThread_cases h
  · exact hs
  · rw [hl] at hv
    cases hv
  · rw [ha] at hv
    cases hv

/-- What is known of an iteration that dropped a late line. -/
theorem late_spec {i : ℕ} {p : Pass CntState Iteration} {o : ℤ}
    (h : (cntThread c r env inForce)[i]? = some p) (hv : p.out.visit = .late o) :
    ¬ r.Skips c p.out.entry ∧ o = Replay.offset c p.head p.out.entry ∧ o < 0 ∧
      p.next = some (p.head.afterLate c p.out.entry o) := by
  obtain ⟨-, -, ⟨-, hs, -⟩ | ⟨hs, ho, hl, hn⟩ | ⟨-, -, ha, -⟩⟩ := cntThread_cases h
  · rw [hs] at hv
    cases hv
  · rw [hl] at hv
    cases hv
    exact ⟨hs, rfl, ho, hn⟩
  · rw [ha] at hv
    cases hv

/-- What is known of an iteration that applied its line. -/
theorem applied_spec {i : ℕ} {p : Pass CntState Iteration} {o : ℤ}
    (h : (cntThread c r env inForce)[i]? = some p) (hv : p.out.visit = .applied o) :
    ¬ r.Skips c p.out.entry ∧ o = Replay.offset c p.head p.out.entry ∧ 0 ≤ o ∧
      p.next = if feedbackFails r.settings p.out.env.ok then none else
        some (p.head.afterApply c r.settings p.out.env p.out.entry o) := by
  obtain ⟨-, -, ⟨-, hs, -⟩ | ⟨-, -, hl, -⟩ | ⟨hs, ho, ha, hn⟩⟩ := cntThread_cases h
  · rw [hs] at hv
    cases hv
  · rw [hl] at hv
    cases hv
  · rw [ha] at hv
    cases hv
    exact ⟨hs, rfl, ho, hn⟩

/-- The state an applied line goes on to. -/
theorem applied_next {i : ℕ} {p : Pass CntState Iteration} {o : ℤ} {s : CntState}
    (h : (cntThread c r env inForce)[i]? = some p) (hv : p.out.visit = .applied o)
    (hn : p.next = some s) : s = p.head.afterApply c r.settings p.out.env p.out.entry o := by
  obtain ⟨-, -, -, hc⟩ := applied_spec h hv
  rw [hc] at hn
  split at hn
  · cases hn
  · exact (Option.some.inj hn).symm

/-- Reading one visit off the list of all visits. -/
theorem visit_of_map {ps : List (Pass CntState Iteration)} {vs : List Visit} {i : ℕ}
    {p : Pass CntState Iteration} (h : ps.map (fun p ↦ p.out.visit) = vs)
    (hp : ps[i]? = some p) : vs[i]? = some p.out.visit := by
  rw [← h, List.getElem?_map, hp]
  rfl

end Cases

end NatcpSpec.Server
