import NatcpSpec.Server.Request

/-!
# Requests of any bytes

`DataThread`, `src/server.cc:538–594`, on every byte string that one `recv` can return. A
request shorter than the buffer, or with a NUL byte in it, is read up to the first NUL. A
request that fills the buffer without a NUL has no terminator, and `strtok_r` stays inside
the buffer only while a blank follows each token that it returns.
-/

namespace NatcpSpec.Server

open NatcpSpec.Base

/-- The bytes of a request before its first NUL. -/
def visible (received : Text) : Text := received.takeWhile (· != 0)

/-- There is a NUL byte in the buffer after `recv`; `src/server.cc:524,538`. -/
def Terminated (received : Text) : Prop := received.length < 1024 ∨ 0 ∈ received

instance (received : Text) : Decidable (Terminated received) := by
  unfold Terminated
  infer_instance

/-- A request is handled cleanly: no null pointer is used and nothing behind the buffer is
read, five tokens are accepted, and anything less is discarded without a trace in the two
variables shared with the replay thread. -/
structure DiscardsCleanly (received : Text) (c : Conn) : Prop where
  no_fault : (dataRequest received c).1 ≠ .fault
  no_overrun : (dataRequest received c).1 ≠ .overrun
  accepts_iff : (∃ srcIp dstAddr, (dataRequest received c).1 = .accepted srcIp dstAddr) ↔
    5 ≤ (tokens isBlank received).length
  accepted : 5 ≤ (tokens isBlank received).length →
    (dataRequest received c).2.gotMessage = true ∧
    ∃ timeS, (tokens isBlank (visible received))[4]? = some timeS ∧
      (dataRequest received c).2.startOfClient = strtoull timeS
  discards : (tokens isBlank received).length < 5 →
    (dataRequest received c).1 = .discarded ∧
    (dataRequest received c).2.gotMessage = c.gotMessage ∧
    (dataRequest received c).2.startOfClient = c.startOfClient

/-- The requests that the parser handles cleanly: with a terminator, at least five tokens
before the first NUL, or none, one or three there and fewer than five in all; without one,
five tokens that a blank follows. -/
def CleanRequest (received : Text) : Prop :=
  let seen := (tokens isBlank (visible received)).length
  if Terminated received then
    5 ≤ seen ∨ (seen = 0 ∨ seen = 1 ∨ seen = 3) ∧ (tokens isBlank received).length < 5
  else 5 ≤ (closedTokens isBlank received).length

instance (received : Text) : Decidable (CleanRequest received) := by
  unfold CleanRequest
  infer_instance

/-! ### The parser by the number of tokens -/

private theorem requestModel_accepts {ts : List Text} (h : 5 ≤ ts.length) (c : Conn) :
    (∃ srcIp dstAddr, (requestModel ts c).1 = .accepted srcIp dstAddr) ∧
    (requestModel ts c).2.gotMessage = true ∧
    ∃ timeS, ts[4]? = some timeS ∧ (requestModel ts c).2.startOfClient = strtoull timeS := by
  match ts, h with
  | srcIp :: _ :: _ :: dstAddr :: timeS :: _, _ =>
    exact ⟨⟨srcIp, dstAddr, rfl⟩, rfl, timeS, rfl, rfl⟩

private theorem requestModel_faults {ts : List Text} (h : ts.length = 2 ∨ ts.length = 4)
    (c : Conn) : (requestModel ts c).1 = .fault := by
  match ts, h with
  | [_, _], _ => rfl
  | [_, _, _, _], _ => rfl

private theorem requestModel_discards {ts : List Text}
    (h : ts.length = 0 ∨ ts.length = 1 ∨ ts.length = 3) (c : Conn) :
    (requestModel ts c).1 = .discarded ∧
    (requestModel ts c).2.gotMessage = c.gotMessage ∧
    (requestModel ts c).2.startOfClient = c.startOfClient := by
  match ts, h with
  | [], _ => exact ⟨rfl, rfl, rfl⟩
  | [_], _ => exact ⟨rfl, rfl, rfl⟩
  | [_, _, _], _ => exact ⟨rfl, rfl, rfl⟩

/-- On a buffer without terminator the parser gets along with the tokens that a blank
follows if there are five of them, and otherwise reads past the end. -/
theorem parseRequest_open {l : Text} (hl : 0 ∉ l) (c : Conn) :
    (5 ≤ (closedTokens isBlank l).length ∧
      parseRequest l c = requestModel (closedTokens isBlank l) c) ∨
    ((closedTokens isBlank l).length < 5 ∧ (parseRequest l c).1 = .overrun) := by
  unfold parseRequest
  rcases strtokR_open (d := isBlank) hl with ⟨hc, h⟩ | ⟨t1, l1, hl1, hc1, h1⟩
  · exact Or.inr ⟨by simp [hc], by rw [h]⟩
  rw [h1, hc1]
  rcases strtokR_open (d := isBlank) hl1 with ⟨hc, h⟩ | ⟨t2, l2, hl2, hc2, h2⟩
  · exact Or.inr ⟨by simp [hc], by simp only [h]⟩
  rw [hc2]
  rcases strtokR_open (d := isBlank) hl2 with ⟨hc, h⟩ | ⟨t3, l3, hl3, hc3, h3⟩
  · exact Or.inr ⟨by simp [hc], by simp only [h2, h]⟩
  rw [hc3]
  rcases strtokR_open (d := isBlank) hl3 with ⟨hc, h⟩ | ⟨t4, l4, hl4, hc4, h4⟩
  · exact Or.inr ⟨by simp [hc], by simp only [h2, h3, h]⟩
  rw [hc4]
  rcases strtokR_open (d := isBlank) hl4 with ⟨hc, h⟩ | ⟨t5, l5, -, hc5, h5⟩
  · exact Or.inr ⟨by simp [hc], by simp only [h2, h3, h4, h]⟩
  refine Or.inl ⟨by simp [hc5], ?_⟩
  rw [hc5]
  simp only [h2, h3, h4, h5]
  rfl

/-! ### The buffer -/

private theorem eq_visible_append {received : Text} (h : 0 ∈ received) :
    ∃ z, received = visible received ++ 0 :: z := by
  have hne : received.dropWhile (· != 0) ≠ [] := by
    intro hnil
    simpa using List.dropWhile_eq_nil_iff.mp hnil 0 h
  obtain ⟨b, z, hbz⟩ := List.exists_cons_of_ne_nil hne
  have hb : b = 0 := by simpa [hbz] using List.head_dropWhile_not (· != 0) hne
  refine ⟨z, ?_⟩
  rw [← hb, ← hbz]
  exact List.takeWhile_append_dropWhile.symm

private theorem visible_of_notMem {received : Text} (h : 0 ∉ received) :
    visible received = received := by
  rw [visible, List.takeWhile_eq_self_iff]
  intro b hb
  have hb0 : b ≠ 0 := fun h' ↦ h (h' ▸ hb)
  simp [hb0]

private theorem zero_notMem_visible (received : Text) : 0 ∉ visible received := by
  intro h
  simpa using List.mem_takeWhile_imp h

/-- A terminated buffer holds the bytes before the first NUL, and that NUL. -/
theorem readMessage_of_terminated {received : Text} (h : Terminated received) :
    ∃ z, readMessage received = visible received ++ 0 :: z := by
  by_cases h0 : 0 ∈ received
  · obtain ⟨z, hz⟩ := eq_visible_append h0
    refine ⟨z ++ List.replicate (1024 - received.length) 0, ?_⟩
    rw [readMessage]
    nth_rewrite 1 [hz]
    rw [List.append_assoc, List.cons_append]
  · have hlen : received.length < 1024 := h.resolve_right h0
    refine ⟨List.replicate (1024 - received.length - 1) 0, ?_⟩
    rw [readMessage, visible_of_notMem h0, ← List.replicate_succ,
      Nat.sub_add_cancel (by omega)]

/-- A terminated request is parsed by the tokens before its first NUL. -/
theorem dataRequest_of_terminated {received : Text} (hne : received ≠ [])
    (h : Terminated received) (c : Conn) :
    dataRequest received c = requestModel (tokens isBlank (visible received)) c := by
  obtain ⟨z, hz⟩ := readMessage_of_terminated h
  rw [dataRequest, if_neg hne, hz]
  exact parseRequest_eq_model (zero_notMem_visible received) z c

private theorem length_tokens_visible_le (received : Text) :
    (tokens isBlank (visible received)).length ≤ (tokens isBlank received).length := by
  have h := length_tokens_le_append (d := isBlank) (received.takeWhile (· != 0))
    (received.dropWhile (· != 0))
  rwa [List.takeWhile_append_dropWhile] at h

/-- A request that fills the buffer without a NUL is the whole buffer. -/
theorem dataRequest_of_not_terminated {received : Text} (h : ¬Terminated received)
    (c : Conn) : dataRequest received c = parseRequest received c := by
  have hlen : 1024 ≤ received.length := not_lt.mp (fun hlt ↦ h (Or.inl hlt))
  have hne : received ≠ [] := by
    rintro rfl
    simp at hlen
  rw [dataRequest, if_neg hne, readMessage, Nat.sub_eq_zero_of_le hlen, List.replicate_zero,
    List.append_nil]

/-! ### Main result -/

private theorem discardsCleanly_of_accepts {received : Text} {c : Conn}
    (h : (∃ srcIp dstAddr, (dataRequest received c).1 = .accepted srcIp dstAddr) ∧
      (dataRequest received c).2.gotMessage = true ∧
      ∃ timeS, (tokens isBlank (visible received))[4]? = some timeS ∧
        (dataRequest received c).2.startOfClient = strtoull timeS)
    (h5 : 5 ≤ (tokens isBlank received).length) : DiscardsCleanly received c := by
  obtain ⟨⟨srcIp, dstAddr, hacc⟩, hgot⟩ := h
  exact {
    no_fault := by simp [hacc]
    no_overrun := by simp [hacc]
    accepts_iff := ⟨fun _ ↦ h5, fun _ ↦ ⟨srcIp, dstAddr, hacc⟩⟩
    accepted := fun _ ↦ hgot
    discards := fun hlt ↦ absurd hlt (by omega) }

private theorem discardsCleanly_of_discards {received : Text} {c : Conn}
    (h : (dataRequest received c).1 = .discarded ∧
      (dataRequest received c).2.gotMessage = c.gotMessage ∧
      (dataRequest received c).2.startOfClient = c.startOfClient)
    (h5 : (tokens isBlank received).length < 5) : DiscardsCleanly received c where
  no_fault := by simp [h.1]
  no_overrun := by simp [h.1]
  accepts_iff := ⟨fun ⟨_, _, hacc⟩ ↦ by simp [h.1] at hacc, fun hle ↦ absurd h5 (by omega)⟩
  accepted := fun hle ↦ absurd h5 (by omega)
  discards := fun _ ↦ h

/-- Which requests are handled cleanly: a second or a fourth token that is the last one
leaves a null pointer to `atoi` or `strtoull`, and a full buffer is read past its end. -/
theorem discardsCleanly_iff (received : Text) (hne : received ≠ []) (c : Conn) :
    DiscardsCleanly received c ↔ CleanRequest received := by
  unfold CleanRequest
  dsimp only
  split
  · next hterm =>
    have heq := dataRequest_of_terminated hne hterm c
    have hle := length_tokens_visible_le received
    constructor
    · intro h
      by_contra hcon
      have hcases : ((tokens isBlank (visible received)).length = 2 ∨
          (tokens isBlank (visible received)).length = 4) ∨
          ((tokens isBlank (visible received)).length = 0 ∨
            (tokens isBlank (visible received)).length = 1 ∨
            (tokens isBlank (visible received)).length = 3) ∧
          5 ≤ (tokens isBlank received).length := by
        omega
      rcases hcases with hf | ⟨hd, h5⟩
      · exact h.no_fault (by rw [heq, requestModel_faults hf])
      · obtain ⟨srcIp, dstAddr, hacc⟩ := h.accepts_iff.mpr h5
        rw [heq, (requestModel_discards hd c).1] at hacc
        simp at hacc
    · rintro (h5 | ⟨hd, hlt⟩)
      · exact discardsCleanly_of_accepts (by rw [heq]; exact requestModel_accepts h5 c)
          (by omega)
      · exact discardsCleanly_of_discards (by rw [heq]; exact requestModel_discards hd c) hlt
  · next hterm =>
    have heq := dataRequest_of_not_terminated hterm c
    have hle := length_closedTokens_le (d := isBlank) received
    rcases parseRequest_open (fun h ↦ hterm (Or.inr h)) c with ⟨h5, hm⟩ | ⟨hlt, hover⟩
    · refine iff_of_true (discardsCleanly_of_accepts ?_ (by omega)) h5
      obtain ⟨hacc, hgot, timeS, ht, hstart⟩ := requestModel_accepts h5 c
      rw [heq, hm, visible_of_notMem (fun h ↦ hterm (Or.inr h))]
      exact ⟨hacc, hgot, timeS, tokens_of_closedTokens ht, hstart⟩
    · refine iff_of_false (fun h ↦ h.no_overrun ?_) (by omega)
      rw [heq, hover]

/-- A request of five tokens is handled cleanly. -/
theorem discardsCleanly_five :
    DiscardsCleanly [97, 32, 49, 32, 50, 32, 98, 32, 51] ⟨0, 0, 0, 0, false⟩ :=
  (discardsCleanly_iff [97, 32, 49, 32, 50, 32, 98, 32, 51] (by decide)
    ⟨0, 0, 0, 0, false⟩).mpr (by decide +kernel)

/-- A request of two tokens hands a null pointer to `atoi`. -/
theorem not_discardsCleanly_two :
    ¬DiscardsCleanly [97, 32, 98] ⟨0, 0, 0, 0, false⟩ := by
  intro h
  exact h.no_fault (by decide)

end NatcpSpec.Server
