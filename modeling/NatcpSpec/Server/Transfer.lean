import NatcpSpec.Base.Loop
import NatcpSpec.Base.Machine

/-!
# Transfer plan and send loops

`src/server.cc:568,605–628` and `src/client.c:267–272`. The size field of a request is
scaled to bytes in 32-bit arithmetic and split into full blocks and a remainder. Every
message is handed to the stream by the same loop: it counts the bytes outstanding, but
each call starts again at the first byte of the buffer and asks for the whole message.
-/

namespace NatcpSpec.Server

open NatcpSpec.Base

/-- `BUFSIZ`, the size of a full block; `src/server.cc:532,605`. -/
def bufsiz : ℕ := 8192

/-! ### Transfer plan -/

/-- `flowinfo.size` for a size field of value `n`; an `int` product stored in an
`unsigned int`. `src/server.cc:568`, `src/flow.h:51`. -/
def requestSize (n : ℤ) : ℤ := uint32 (int32 (1024 * n))

/-- Number of full blocks, by unsigned division; `src/server.cc:606`. -/
def loopCount (size : ℤ) : ℤ := int32 (uint32 (size * 1024) / bufsiz)

/-- Bytes left after the full blocks. The `int` product is converted for the unsigned
subtraction; `src/server.cc:608`. -/
def remainingSize (size : ℤ) : ℤ :=
  int32 (uint32 (uint32 (size * 1024) - uint32 (int32 (loopCount size * bufsiz))))

private theorem uint32_requestSize (n : ℤ) :
    uint32 (requestSize n * 1024) = n * 1024 * 1024 % 2 ^ 32 := by
  rw [requestSize, uint32_int32]
  unfold uint32
  omega

/-- Full blocks of a request: the request in bytes, reduced to 32 bits, over the block. -/
theorem loopCount_requestSize (n : ℤ) :
    loopCount (requestSize n) = n * 1024 * 1024 % 2 ^ 32 / 8192 := by
  rw [loopCount, uint32_requestSize]
  apply int32_of_inInt32
  constructor <;> (simp only [bufsiz]; omega)

/-- Whole megabytes leave no remainder, also after the reduction. -/
theorem remainingSize_requestSize (n : ℤ) : remainingSize (requestSize n) = 0 := by
  rw [remainingSize, uint32_requestSize, uint32_int32, loopCount_requestSize]
  simp only [bufsiz, uint32]
  rw [int32_of_inInt32 (by constructor <;> omega)]
  omega

/-- The plan sends exactly the megabytes asked for, with its terminator inside the buffer,
if and only if they are fewer than 4096. -/
theorem plan_exact_iff (n : ℤ) (h0 : 0 ≤ n) (hn : InInt32 n) :
    (loopCount (requestSize n) * bufsiz + remainingSize (requestSize n) = n * 1024 * 1024 ∧
      0 ≤ remainingSize (requestSize n) ∧ remainingSize (requestSize n) < bufsiz) ↔
      n < 4096 := by
  have := hn.2
  rw [loopCount_requestSize, remainingSize_requestSize]
  simp only [bufsiz]
  omega

/-- A request of 2700 MB, two thirds of the unsigned range, is sent exactly. -/
theorem plan_exact_2700 :
    loopCount (requestSize 2700) * bufsiz + remainingSize (requestSize 2700) =
      2700 * 1024 * 1024 :=
  ((plan_exact_iff 2700 (by norm_num) (by decide)).mpr (by norm_num)).1

/-- A request of 4096 MB is answered with no data. -/
theorem plan_empty_4096 :
    loopCount (requestSize 4096) = 0 ∧ remainingSize (requestSize 4096) = 0 ∧
    loopCount (requestSize 4096) * bufsiz + remainingSize (requestSize 4096) ≠
      4096 * 1024 * 1024 := by
  decide

/-! ### The send loop -/

/-- A C string in one of the two send buffers: at most a block long and without a NUL. -/
structure Message where
  bytes : List UInt8
  length_le : bytes.length ≤ bufsiz
  no_nul : 0 ∉ bytes

/-- One pass of the loop on the outstanding count `len`; the result of `send` is recorded.
`src/server.cc:614–617,624–628`, `src/client.c:269–272`. -/
def sendBody (results : ℕ → ℤ) (k : ℕ) (len : ℤ) : Option (ℤ × Option ℤ) :=
  if 0 < len then some (results k, some (int32 (len - results k))) else none

/-- The calls made for a message, given the result of each call. -/
def sendCalls (m : Message) (results : ℕ → ℤ) : List (Pass ℤ ℤ) :=
  passes (sendBody results) (m.bytes.length + 1) 0 m.bytes.length

/-- Buffer positions handed to the stream, in order: a call takes from the start. -/
def sentPlaces (m : Message) (results : ℕ → ℤ) : List ℕ :=
  (sendCalls m results).flatMap (fun p ↦ List.range p.out.toNat)

/-- Bytes handed to the stream for one message. -/
def sentBytes (m : Message) (results : ℕ → ℤ) : List UInt8 :=
  (sendCalls m results).flatMap (fun p ↦ m.bytes.take p.out.toNat)

/-- Every call takes at least one byte and at most the bytes it was asked to send. -/
def ValidResults (m : Message) (results : ℕ → ℤ) : Prop :=
  m.bytes ≠ [] → ∀ k, 1 ≤ results k ∧ results k ≤ m.bytes.length

/-- The peer's stream for messages sent one after the other. -/
def peerStream (msgs : List Message) (results : ℕ → ℕ → ℤ) : List UInt8 :=
  (msgs.zipIdx.map (fun mi ↦ sentBytes mi.1 (results mi.2))).flatten

/-- Every loop ends having handed over each byte of its message once and in order, and
the peer's stream is the concatenation of the messages. -/
def SendsExactly (msgs : List Message) (results : ℕ → ℕ → ℤ) : Prop :=
  (∀ (i : ℕ) (m : Message), msgs[i]? = some m →
    ended (sendBody (results i)) (m.bytes.length + 1) 0 m.bytes.length = true ∧
    sentPlaces m (results i) = List.range m.bytes.length) ∧
  peerStream msgs results = (msgs.map Message.bytes).flatten

section Loop

variable {m : Message} {results : ℕ → ℤ}

private theorem int32_outstanding {len r : ℤ} (h0 : 0 ≤ len) (hl : len ≤ bufsiz) (hr : 1 ≤ r)
    (hrl : r ≤ bufsiz) : int32 (len - r) = len - r := by
  simp only [bufsiz] at hl hrl
  exact int32_of_inInt32 ⟨by omega, by omega⟩

/-- What a pass of the loop does. -/
theorem sendBody_eq_some {k : ℕ} {len out : ℤ} {next : Option ℤ}
    (h : sendBody results k len = some (out, next)) :
    0 < len ∧ out = results k ∧ next = some (int32 (len - results k)) := by
  unfold sendBody at h
  split at h
  · next hpos =>
    rw [Option.some.injEq, Prod.mk.injEq] at h
    exact ⟨hpos, h.1.symm, h.2.symm⟩
  · simp at h

/-- With results of at least one byte the loop is over after at most one call a byte. -/
theorem ended_of_valid (hv : ValidResults m results) :
    ended (sendBody results) (m.bytes.length + 1) 0 m.bytes.length = true := by
  by_cases hm : m.bytes = []
  · rw [hm]
    rfl
  have hle := m.length_le
  -- The count stays below the block size, where the subtraction does not wrap.
  apply ended_of_variant (fun len : ℤ ↦ len ≤ bufsiz) Int.toNat
  · intro k _ len out len' hlen hbody
    rcases sendBody_eq_some hbody with ⟨hpos, -, hnext⟩
    have hr := hv hm k
    rw [int32_outstanding hpos.le hlen hr.1 (by omega), Option.some.injEq] at hnext
    omega
  · omega
  · omega

/-- A call that takes the whole message is the only one. -/
theorem sendCalls_of_whole (hm : m.bytes ≠ []) (h : results 0 = m.bytes.length) :
    sendCalls m results = [⟨m.bytes.length, m.bytes.length, some 0⟩] := by
  have hpos : 0 < m.bytes.length := List.length_pos_iff.mpr hm
  obtain ⟨l, hl⟩ : ∃ l, m.bytes.length = l + 1 := ⟨m.bytes.length - 1, by omega⟩
  unfold sendCalls
  rw [hl, passes, sendBody, if_pos (by exact_mod_cast Nat.succ_pos l), h, hl, sub_self]
  simp [passes, sendBody, int32]

/-- A call that takes only part of the message is followed by one that starts again. -/
theorem sentPlaces_of_partial (hm : m.bytes ≠ []) (hv : ValidResults m results)
    (h : results 0 < m.bytes.length) :
    (sentPlaces m results)[(results 0).toNat]? = some 0 := by
  have hpos : 0 < m.bytes.length := List.length_pos_iff.mpr hm
  have hle := m.length_le
  obtain ⟨h1, -⟩ := hv hm 0
  obtain ⟨h2, -⟩ := hv hm 1
  obtain ⟨l, hl⟩ : ∃ l, m.bytes.length = l + 1 + 1 := ⟨m.bytes.length - 2, by omega⟩
  have hout : int32 ((m.bytes.length : ℤ) - results 0) = m.bytes.length - results 0 :=
    int32_outstanding (by omega) (by omega) h1 (by omega)
  have hcalls : ∃ rest, sentPlaces m results =
      List.range (results 0).toNat ++ (List.range (results 1).toNat ++ rest) := by
    unfold sentPlaces sendCalls
    rw [show m.bytes.length + 1 = l + 1 + 1 + 1 by omega, passes, sendBody,
      if_pos (by omega), hout]
    dsimp only
    rw [passes, sendBody, if_pos (by omega)]
    exact ⟨_, by rw [List.flatMap_cons, List.flatMap_cons]⟩
  obtain ⟨rest, hrest⟩ := hcalls
  rw [hrest, List.getElem?_append_right (by simp), List.length_range, Nat.sub_self,
    List.getElem?_append_left (by simp; omega), List.getElem?_range (by omega)]

/-- One message is handed over exactly if and only if it is empty or the first call
takes all of it. -/
theorem sentPlaces_eq_range_iff (hv : ValidResults m results) :
    sentPlaces m results = List.range m.bytes.length ↔
      m.bytes = [] ∨ results 0 = m.bytes.length := by
  constructor
  · intro h
    by_contra hc
    rw [not_or] at hc
    obtain ⟨hm, hne⟩ := hc
    obtain ⟨h1, h2⟩ := hv hm 0
    have hp := sentPlaces_of_partial hm hv (by omega)
    rw [h, List.getElem?_range (by omega), Option.some.injEq] at hp
    omega
  · rintro (h | h)
    · unfold sentPlaces sendCalls
      rw [h]
      rfl
    · by_cases hm : m.bytes = []
      · unfold sentPlaces sendCalls
        rw [hm]
        rfl
      · rw [sentPlaces, sendCalls_of_whole hm h]
        simp

/-- A message that is empty or taken by the first call reaches the stream as it is. -/
theorem sentBytes_of_whole (h : m.bytes = [] ∨ results 0 = m.bytes.length) :
    sentBytes m results = m.bytes := by
  by_cases hm : m.bytes = []
  · unfold sentBytes sendCalls
    rw [hm]
    rfl
  · rw [sentBytes, sendCalls_of_whole hm (h.resolve_left hm)]
    simp

end Loop

/-- Messages taken whole by their first calls reach the peer one after the other. -/
theorem peerStream_of_whole {msgs : List Message} {results : ℕ → ℕ → ℤ}
    (h : ∀ i m, msgs[i]? = some m → m.bytes = [] ∨ results i 0 = m.bytes.length) :
    peerStream msgs results = (msgs.map Message.bytes).flatten := by
  unfold peerStream
  congr 1
  apply List.ext_getElem
  · simp
  · intro i hi hj
    simp only [List.getElem_map, List.getElem_zipIdx, Nat.zero_add]
    apply sentBytes_of_whole
    exact h i _ (List.getElem?_eq_getElem (by simpa using hj))

/-- Messages are sent exactly if and only if each of them is empty or is taken whole by the
first call made for it. -/
theorem sendsExactly_iff (msgs : List Message) (results : ℕ → ℕ → ℤ)
    (hv : ∀ i m, msgs[i]? = some m → ValidResults m (results i)) :
    SendsExactly msgs results ↔
      ∀ i m, msgs[i]? = some m → m.bytes = [] ∨ results i 0 = m.bytes.length := by
  constructor
  · rintro ⟨h, -⟩ i m hi
    exact (sentPlaces_eq_range_iff (hv i m hi)).mp (h i m hi).2
  · intro h
    refine ⟨?_, peerStream_of_whole h⟩
    intro i m hi
    exact ⟨ended_of_valid (hv i m hi), (sentPlaces_eq_range_iff (hv i m hi)).mpr (h i m hi)⟩

/-- Two messages, one of them empty, sent by one call each. -/
theorem sendsExactly_whole :
    SendsExactly [⟨[49, 32, 49], by decide, by decide⟩, ⟨[], by decide, by decide⟩]
      (fun _ _ ↦ 3) := by
  have hmem : ∀ (i : ℕ) (m : Message),
      ([⟨[49, 32, 49], by decide, by decide⟩, ⟨[], by decide, by decide⟩] : List Message)[i]? =
        some m → m.bytes = [49, 32, 49] ∨ m.bytes = [] := by
    intro i m hi
    have hm := List.mem_of_getElem? hi
    simp only [List.mem_cons, List.not_mem_nil, or_false] at hm
    rcases hm with rfl | rfl
    · exact Or.inl rfl
    · exact Or.inr rfl
  refine (sendsExactly_iff _ _ ?_).mpr ?_
  · intro i m hi hne _
    rw [(hmem i m hi).resolve_right hne]
    norm_num
  · intro i m hi
    rcases hmem i m hi with h | h
    · exact Or.inr (by rw [h]; rfl)
    · exact Or.inl h

/-- The query `1 1 1 1 0 1`, of which the first call takes the first four bytes: the second
starts again, and the peer reads `1 1 1 1 1 1`. -/
theorem not_sendsExactly_partial :
    ∃ (m : Message) (results : ℕ → ℕ → ℤ), ValidResults m (results 0) ∧
      m.bytes = [49, 32, 49, 32, 49, 32, 49, 32, 48, 32, 49] ∧
      peerStream [m] results = [49, 32, 49, 32, 49, 32, 49, 32, 49, 32, 49] ∧
      ¬ SendsExactly [m] results := by
  let m : Message := ⟨[49, 32, 49, 32, 49, 32, 49, 32, 48, 32, 49], by decide, by decide⟩
  have hstream : peerStream [m] (fun _ k ↦ if k = 0 then 4 else 7) =
      [49, 32, 49, 32, 49, 32, 49, 32, 49, 32, 49] := by decide
  refine ⟨m, fun _ k ↦ if k = 0 then 4 else 7, ?_, rfl, hstream, ?_⟩
  · intro _ k
    have hlen : m.bytes.length = 11 := rfl
    dsimp only
    split <;> omega
  · rintro ⟨-, h⟩
    rw [hstream] at h
    exact absurd h (by decide)

end NatcpSpec.Server
