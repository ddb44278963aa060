import NatcpSpec.Server.Transfer

/-!
# Failing sends

The send loops of `DataThread`, `src/server.cc:611–628`, and of the client,
`src/client.c:267–272`, subtract what `send` returns from the bytes that are left. A call
that fails returns minus one, so that the count grows by one. Once the calls fail for good
the loop is left only after the count has wrapped to a negative number.
-/

namespace NatcpSpec.Server

open NatcpSpec.Base

/-- Results of `send` for a message: failures, or at least one byte and at most the bytes
it was asked to send. -/
def SendResults (m : Message) (results : ℕ → ℤ) : Prop :=
  ∀ k, results k = -1 ∨ 1 ≤ results k ∧ results k ≤ m.bytes.length

/-- The count of bytes left never exceeds the message and never grows, and a peer that is
gone ends the loop. -/
def KeepsAccount (m : Message) (results : ℕ → ℤ) : Prop :=
  (∀ fuel, ∀ p ∈ passes (sendBody results) fuel 0 m.bytes.length,
    p.head ≤ m.bytes.length ∧ ∀ len, p.next = some len → len ≤ p.head) ∧
  ((∃ n, ∀ k, n ≤ k → results k = -1) →
    ∃ fuel, ended (sendBody results) fuel 0 m.bytes.length = true)

/-- By the first failure the calls before it have taken as many bytes as the message has. -/
def FailsAfterEnd (m : Message) (results : ℕ → ℤ) : Prop :=
  ∀ k, results k = -1 → (∀ j < k, results j ≠ -1) →
    (m.bytes.length : ℤ) ≤ ∑ j ∈ Finset.range k, results j

section Loop

variable {m : Message} {results : ℕ → ℤ}

/-! ### A peer that is gone -/

private theorem inInt32_next {k : ℕ} {len out len' : ℤ}
    (h : sendBody results k len = some (out, some len')) : InInt32 len' := by
  obtain ⟨-, -, hn⟩ := sendBody_eq_some h
  rw [Option.some.inj hn]
  exact inInt32_int32 _

-- Each failure brings the count one closer to the wrap, after which it is negative.
private theorem ended_of_failing {k : ℕ} {len : ℤ} (h : ∀ i, k ≤ i → results i = -1)
    (hlen : InInt32 len) : ∃ fuel, ended (sendBody results) fuel k len = true := by
  refine ⟨_, ended_of_variant InInt32 (fun t ↦ if 0 < t then (2 ^ 31 - t).toNat else 0)
    ?_ hlen (Nat.lt_succ_self _)⟩
  intro i hi t out t' ht hb
  refine ⟨inInt32_next hb, ?_⟩
  obtain ⟨hpos, -, hn⟩ := sendBody_eq_some hb
  rw [h i hi, Option.some.injEq] at hn
  obtain ⟨hlo, hhi⟩ := ht
  rw [if_pos hpos]
  split
  · next hpos' =>
    have hlt : t + 1 < 2 ^ 31 := by
      by_contra hge
      have ht : t = 2 ^ 31 - 1 := by omega
      rw [hn, ht] at hpos'
      exact absurd hpos' (by decide)
    have heq : t' = t + 1 := by
      rw [hn, int32_of_inInt32 ⟨by omega, by omega⟩]
      omega
    omega
  · omega

/-- If every call fails from some point on, the loop ends, after a wrap of the count. -/
theorem ended_of_eventually_failing (n : ℕ) {k : ℕ} {len : ℤ}
    (h : ∀ i, k + n ≤ i → results i = -1) (hlen : InInt32 len) :
    ∃ fuel, ended (sendBody results) fuel k len = true := by
  induction n generalizing k len with
  | zero => exact ended_of_failing h hlen
  | succ n ih =>
    rcases hb : sendBody results k len with _ | ⟨out, _ | len'⟩
    · exact ⟨1, by simp [ended, hb]⟩
    · exact ⟨1, by simp [ended, hb]⟩
    · obtain ⟨fuel, hf⟩ := ih (k := k + 1) (fun i hi ↦ h i (by omega)) (inInt32_next hb)
      refine ⟨fuel + 1, ?_⟩
      rw [ended, hb]
      exact hf

/-! ### The count of bytes left -/

private theorem next_of_succeeds {k : ℕ} {len out : ℤ} {next : Option ℤ}
    (hm : (m.bytes.length : ℤ) ≤ bufsiz) (hlen : len ≤ m.bytes.length)
    (hr : 1 ≤ results k ∧ results k ≤ m.bytes.length)
    (h : sendBody results k len = some (out, next)) : next = some (len - results k) := by
  obtain ⟨hpos, -, hn⟩ := sendBody_eq_some h
  rw [hn, int32_of_inInt32]
  simp only [bufsiz] at hm
  exact ⟨by omega, by omega⟩

private theorem sum_nonneg_of_succeeds {k : ℕ} (hr : SendResults m results)
    (h : ∀ j < k, results j ≠ -1) : 0 ≤ ∑ j ∈ Finset.range k, results j := by
  apply Finset.sum_nonneg
  intro j hj
  have hj' := (hr j).resolve_left (h j (Finset.mem_range.mp hj))
  omega

-- A call is made only while the message is not over, when no call fails.
private theorem call_succeeds (h : FailsAfterEnd m results) {fuel i : ℕ} {p : Pass ℤ ℤ}
    (hp : (passes (sendBody results) fuel 0 m.bytes.length)[i]? = some p)
    (hhead : p.head = m.bytes.length - ∑ j ∈ Finset.range i, results j)
    (hok : ∀ j < i, results j ≠ -1) : results i ≠ -1 := by
  intro hfail
  have hbody := passes_body hp
  rw [Nat.zero_add] at hbody
  obtain ⟨hpos, -, -⟩ := sendBody_eq_some hbody
  have hsum := h i hfail hok
  omega

-- Before the first failure the count is what the calls have not taken.
private theorem head_of_failsAfterEnd (hr : SendResults m results) (h : FailsAfterEnd m results)
    {fuel i : ℕ} {p : Pass ℤ ℤ}
    (hp : (passes (sendBody results) fuel 0 m.bytes.length)[i]? = some p) :
    p.head = m.bytes.length - ∑ j ∈ Finset.range i, results j ∧ ∀ j ≤ i, results j ≠ -1 := by
  have hle : (m.bytes.length : ℤ) ≤ bufsiz := by exact_mod_cast m.length_le
  have hinv := passes_invariant (fun l len ↦
    len = m.bytes.length - ∑ j ∈ Finset.range l, results j ∧ ∀ j < l, results j ≠ -1)
    (by simp) (fun l q len hq hn hinv ↦ by
      rw [Nat.zero_add] at hinv ⊢
      have hok := call_succeeds h hq hinv.1 hinv.2
      have hbody := passes_body hq
      rw [Nat.zero_add] at hbody
      have hsum := sum_nonneg_of_succeeds hr hinv.2
      have hnext := next_of_succeeds hle (by omega) ((hr l).resolve_left hok) hbody
      rw [hnext, Option.some.injEq] at hn
      refine ⟨?_, ?_⟩
      · rw [Finset.sum_range_succ, ← hn, hinv.1]
        ring
      · intro j hj
        rcases Nat.lt_succ_iff_lt_or_eq.mp hj with hj | rfl
        · exact hinv.2 j hj
        · exact hok) hp
  rw [Nat.zero_add] at hinv
  refine ⟨hinv.1, ?_⟩
  intro j hj
  rcases Nat.lt_or_eq_of_le hj with hj | rfl
  · exact hinv.2 j hj
  · exact call_succeeds h hp hinv.1 hinv.2

private theorem sendBody_of_pos (k : ℕ) {len : ℤ} (h : 0 < len) :
    sendBody results k len = some (results k, some (int32 (len - results k))) :=
  if_pos h

-- A message is not over while the calls have taken less than it has.
private theorem exists_pass_of_sum_lt (hr : SendResults m results) {k : ℕ}
    (hok : ∀ j < k, results j ≠ -1)
    (hsum : ∑ j ∈ Finset.range k, results j < m.bytes.length) (i : ℕ) (hi : i ≤ k) :
    ∃ p, (passes (sendBody results) (k + 1) 0 m.bytes.length)[i]? = some p ∧
      p.head = m.bytes.length - ∑ j ∈ Finset.range i, results j := by
  have hle : (m.bytes.length : ℤ) ≤ bufsiz := by exact_mod_cast m.length_le
  have hbound {l : ℕ} (hl : l ≤ k) :
      0 ≤ ∑ j ∈ Finset.range l, results j ∧
      ∑ j ∈ Finset.range l, results j < m.bytes.length := by
    refine ⟨sum_nonneg_of_succeeds hr (fun j hj ↦ hok j (by omega)), lt_of_le_of_lt ?_ hsum⟩
    apply Finset.sum_le_sum_of_subset_of_nonneg (Finset.range_mono hl)
    intro j hj _
    have hj' := (hr j).resolve_left (hok j (Finset.mem_range.mp hj))
    omega
  induction i with
  | zero =>
    have h0 := (hbound (Nat.zero_le k)).2
    exact ⟨_, passes_zero (sendBody_of_pos _ (by simpa using h0)) (by omega), by simp⟩
  | succ i ih =>
    obtain ⟨p, hp, hhead⟩ := ih (by omega)
    have hbody := passes_body hp
    rw [Nat.zero_add] at hbody
    have hb := hbound (l := i) (by omega)
    have hb' := hbound (l := i + 1) hi
    have hnext := next_of_succeeds hle (by omega) ((hr i).resolve_left (hok i (by omega))) hbody
    have hlen : p.head - results i = m.bytes.length - ∑ j ∈ Finset.range (i + 1), results j := by
      rw [Finset.sum_range_succ, hhead]
      ring
    exact ⟨_, passes_succ hp hnext (sendBody_of_pos _ (by omega)) (by omega), hlen⟩

end Loop

/-- The account is kept exactly if no call that the loop makes fails: the first failure
comes, if at all, when the message is already over. -/
theorem keepsAccount_iff (m : Message) (results : ℕ → ℤ) (hr : SendResults m results) :
    KeepsAccount m results ↔ FailsAfterEnd m results := by
  have hle : (m.bytes.length : ℤ) ≤ bufsiz := by exact_mod_cast m.length_le
  constructor
  · intro h k hfail hok
    by_contra hsum
    obtain ⟨p, hp, hhead⟩ := exists_pass_of_sum_lt hr hok (not_le.mp hsum) k le_rfl
    have hpos := sum_nonneg_of_succeeds hr hok
    have hbody := passes_body hp
    rw [Nat.zero_add] at hbody
    obtain ⟨-, -, hn⟩ := sendBody_eq_some hbody
    rw [hfail, int32_of_inInt32 (by simp only [bufsiz] at hle; exact ⟨by omega, by omega⟩)] at hn
    have hgrow := (h.1 (k + 1) p (List.mem_of_getElem? hp)).2 _ hn
    omega
  · intro h
    refine ⟨?_, ?_⟩
    · intro fuel p hp
      obtain ⟨i, hi⟩ := List.mem_iff_getElem?.mp hp
      obtain ⟨hhead, hok⟩ := head_of_failsAfterEnd hr h hi
      have hsum := sum_nonneg_of_succeeds hr (fun j hj ↦ hok j (le_of_lt hj))
      have hri := (hr i).resolve_left (hok i le_rfl)
      have hbody := passes_body hi
      rw [Nat.zero_add] at hbody
      have hnext := next_of_succeeds hle (by omega) hri hbody
      refine ⟨by omega, ?_⟩
      intro len hlen
      rw [hnext, Option.some.injEq] at hlen
      omega
    · rintro ⟨n, hn⟩
      apply ended_of_eventually_failing n (fun i hi ↦ hn i (by omega))
      simp only [bufsiz] at hle
      exact ⟨by omega, by omega⟩

/-- Three bytes taken by two calls are accounted for, whatever calls would follow. -/
theorem keepsAccount_two_calls :
    KeepsAccount ⟨[49, 32, 49], by decide, by decide⟩
      (fun k ↦ if k = 0 then 1 else if k = 1 then 2 else -1) := by
  refine (keepsAccount_iff _ _ ?_).mpr ?_
  · intro k
    dsimp only
    split
    · exact Or.inr (by decide)
    · split
      · exact Or.inr (by decide)
      · exact Or.inl rfl
  · intro k hk hok
    have h2 : k = 2 := by
      rcases k with _ | _ | _ | k
      · simp at hk
      · simp at hk
      · rfl
      · exact absurd rfl (hok 2 (by omega))
    rw [h2]
    decide

/-- On the query `1 1 1 1 0 1` of eleven bytes a failed call leaves twelve bytes to be sent. -/
theorem not_keepsAccount_failing :
    ¬KeepsAccount ⟨[49, 32, 49, 32, 49, 32, 49, 32, 48, 32, 49], by decide, by decide⟩
      (fun _ ↦ -1) := by
  intro h
  have hgrow := (h.1 1 ⟨11, -1, some 12⟩ (by simp [passes, sendBody, int32])).2 12 rfl
  exact absurd hgrow (by decide)

end NatcpSpec.Server
