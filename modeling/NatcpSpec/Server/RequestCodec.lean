import NatcpSpec.Client.Query
import NatcpSpec.Server.Request

/-!
# Client query and server parser

The query that `src/client.c:181–191` writes and `src/server.cc:538–582` reads: a query
received whole is decoded to what was encoded, and a query cut short by the transport is
discarded, faults or is taken for another request depending on where the cut falls.
-/

namespace NatcpSpec.Server

open NatcpSpec.Base NatcpSpec.Client

variable {a : Args} {basetime : UInt64}

/-- What the server holds once the query of these arguments is decoded. -/
def decoded (a : Args) (basetime : UInt64) : Conn where
  flowid := atoi a.flowid.bytes
  size := uint32 (1024 * atoi a.dataSize.bytes)
  remSize := uint32 (1024 * atoi a.dataSize.bytes)
  startOfClient := basetime.toNat * 1000 % 2 ^ 64
  gotMessage := true

/-- A query received up to any byte is parsed by the words the cut leaves. -/
theorem dataRequest_take (hlen : (query a basetime).length < 1024) {k : ℕ} (hk : 0 < k) (c : Conn) :
    dataRequest ((query a basetime).take k) c =
      requestModel (cutWords (queryFields a basetime) k) c := by
  have hword : ∀ w ∈ queryFields a basetime, IsWord isBlank w :=
    fun w hw ↦ isWord_of_mem_queryFields hw
  have hne : query a basetime ≠ [] := by
    intro h
    have ht := tokens_intercalate (x := 32) rfl hword
    rw [← query, h] at ht
    simp [queryFields] at ht
  rw [← tokens_take_intercalate (x := 32) rfl hword, ← query]
  apply dataRequest_eq_model
  · rw [ne_eq, List.take_eq_nil_iff]
    exact not_or.mpr ⟨by omega, hne⟩
  · exact fun h ↦ no_nul_query a basetime (List.mem_of_mem_take h)
  · rw [List.length_take]
    omega

section Cut

variable {k : ℕ} (c : Conn)

/-- A cut that leaves one word discards the request. -/
theorem dataRequest_cut_one (hlen : (query a basetime).length < 1024) (h0 : 0 < k)
    (hk : k ≤ a.flowidAt) :
    dataRequest ((query a basetime).take k) c = (.discarded, c) := by
  rw [dataRequest_take hlen h0, queryFields, cutWords_of_le h0 hk]
  rfl

/-- A cut that leaves two words hands a null pointer to `atoi`. -/
theorem dataRequest_cut_two (hlen : (query a basetime).length < 1024) (h0 : a.flowidAt < k)
    (hk : k ≤ a.dataSizeAt) : (dataRequest ((query a basetime).take k) c).1 = .fault := by
  unfold Args.dataSizeAt Args.flowidAt at *
  rw [dataRequest_take hlen (by omega), queryFields, cutWords_of_lt h0,
    cutWords_of_le (by omega) (by omega)]
  rfl

/-- A cut that leaves three words discards the request, the flow's own fields apart. -/
theorem dataRequest_cut_three (hlen : (query a basetime).length < 1024) (h0 : a.dataSizeAt < k)
    (hk : k ≤ a.dstIpAt) :
    ∃ flowid size, dataRequest ((query a basetime).take k) c =
      (.discarded, { c with flowid := flowid, size := size }) := by
  unfold Args.dstIpAt Args.dataSizeAt Args.flowidAt at *
  rw [dataRequest_take hlen (by omega), queryFields, cutWords_of_lt (by omega),
    cutWords_of_lt (by omega), cutWords_of_le (by omega) (by omega)]
  exact ⟨_, _, rfl⟩

/-- A cut that leaves four words hands a null pointer to `strtoull`. -/
theorem dataRequest_cut_four (hlen : (query a basetime).length < 1024) (h0 : a.dstIpAt < k)
    (hk : k ≤ a.timeAt) :
    (dataRequest ((query a basetime).take k) c).1 = .fault := by
  unfold Args.timeAt Args.dstIpAt Args.dataSizeAt Args.flowidAt at *
  rw [dataRequest_take hlen (by omega), queryFields, cutWords_of_lt (by omega),
    cutWords_of_lt (by omega), cutWords_of_lt (by omega), cutWords_of_le (by omega) (by omega)]
  rfl

/-- A cut in the time or behind it is accepted, with what is left of the time. -/
theorem dataRequest_cut_five (hlen : (query a basetime).length < 1024) (h0 : a.timeAt < k) :
    dataRequest ((query a basetime).take k) c =
      (.accepted a.server.bytes a.dstIp.bytes,
        { decoded a basetime with
          startOfClient := strtoull ((timeS basetime).take (k - a.timeAt)) }) := by
  unfold Args.timeAt Args.dstIpAt Args.dataSizeAt Args.flowidAt at *
  rw [dataRequest_take hlen (by omega), queryFields, cutWords_of_lt (by omega),
    cutWords_of_lt (by omega), cutWords_of_lt (by omega), cutWords_of_lt (by omega)]
  rcases exists_cutWords_eq_cons (k := k - a.server.bytes.length - 1 - a.flowid.bytes.length - 1 -
    a.dataSize.bytes.length - 1 - a.dstIp.bytes.length - 1) (by omega) (timeS basetime)
    [a.dataSize.bytes] with ⟨rest, hrest⟩
  rw [hrest, requestModel, requestSize, uint32_int32, decoded]
  congr 4
  omega

/-- A cut behind the time leaves the request as it was encoded. -/
theorem dataRequest_cut_of_le (hlen : (query a basetime).length < 1024)
    (hk : a.timeAt + (timeS basetime).length ≤ k) :
    dataRequest ((query a basetime).take k) c =
      (.accepted a.server.bytes a.dstIp.bytes, decoded a basetime) := by
  have hpos := length_timeS_pos basetime
  rw [dataRequest_cut_five c hlen (by omega), List.take_of_length_le (by omega), timeS_eq,
    strtoull_decimal (by omega)]
  rfl

/-- A whole query is decoded to what the client encoded. -/
theorem dataRequest_query (hlen : (query a basetime).length < 1024) :
    dataRequest (query a basetime) c =
      (.accepted a.server.bytes a.dstIp.bytes, decoded a basetime) := by
  have hquery := length_query a basetime
  rw [← List.take_length (l := query a basetime)]
  exact dataRequest_cut_of_le c hlen (by omega)

end Cut

/-- A query received whole is decoded to what the client encoded, and so is the query
without its last field. -/
theorem request_round_trip (a : Args) (basetime : UInt64) (hfit : Fits a basetime) (c : Conn) :
    dataRequest (query a basetime) c =
      (.accepted a.server.bytes a.dstIp.bytes, decoded a basetime) ∧
    dataRequest ([32].intercalate (queryFields a basetime).dropLast) c =
      dataRequest (query a basetime) c := by
  have hlen : (query a basetime).length < 1024 := by
    unfold Fits queryBuffer at hfit
    omega
  refine ⟨dataRequest_query c hlen, ?_⟩
  rw [dataRequest_query c hlen, ← query_take_time]
  exact dataRequest_cut_of_le c hlen le_rfl

/-- The query `7 1 2 8 12000 2`. -/
theorem request_round_trip_short :
    ∃ a : Args, query a 12 = [55, 32, 49, 32, 50, 32, 56, 32, 49, 50, 48, 48, 48, 32, 50] ∧
      dataRequest (query a 12) ⟨0, 0, 0, 0, false⟩ =
        (.accepted [55] [56], ⟨1, 2048, 2048, 12000, true⟩) := by
  refine ⟨⟨⟨[55], by decide, by decide, by decide⟩, ⟨[49], by decide, by decide, by decide⟩,
    ⟨[50], by decide, by decide, by decide⟩, ⟨[56], by decide, by decide, by decide⟩⟩,
    by decide +kernel, ?_⟩
  rw [(request_round_trip _ 12 (by decide +kernel) _).1]
  decide +kernel

/-! ### Cut queries -/

/-- The cut query is discarded with the shared variables as they were, or decoded to the
flow, the size and the start of the whole one. -/
def CutSafely (a : Args) (basetime : UInt64) (k : ℕ) (c : Conn) : Prop :=
  let cut := dataRequest ((query a basetime).take k) c
  let whole := (dataRequest (query a basetime) c).2
  (cut.1 = .discarded ∧ cut.2.gotMessage = c.gotMessage ∧
    cut.2.startOfClient = c.startOfClient) ∨
  ∃ srcIp dstAddr, cut.1 = .accepted srcIp dstAddr ∧ cut.2.flowid = whole.flowid ∧
    cut.2.size = whole.size ∧ cut.2.startOfClient = whole.startOfClient

private theorem not_cutSafely_of_fault {k : ℕ} {c : Conn}
    (h : (dataRequest ((query a basetime).take k) c).1 = .fault) : ¬ CutSafely a basetime k c := by
  rintro (⟨hd, -⟩ | ⟨srcIp, dstAddr, ha, -⟩)
  · simp [h] at hd
  · simp [h] at ha

/-- A cut in the time or behind it is safe if and only if it leaves all of the time. -/
theorem cutSafely_of_timeAt_lt {k : ℕ} (hlen : (query a basetime).length < 1024) (c : Conn)
    (h : a.timeAt < k) :
    CutSafely a basetime k c ↔ a.timeAt + (timeS basetime).length ≤ k := by
  have hstart : strtoull ((timeS basetime).take (k - a.timeAt)) =
      basetime.toNat * 1000 % 2 ^ 64 ↔ (timeS basetime).length ≤ k - a.timeAt := by
    rw [timeS_eq]
    exact strtoull_take_decimal (by omega) (by omega)
  unfold CutSafely
  rw [dataRequest_query c hlen, dataRequest_cut_five c hlen h]
  simp only [reduceCtorEq, false_and, false_or]
  constructor
  · rintro ⟨srcIp, dstAddr, -, -, -, hs⟩
    have := hstart.mp hs
    omega
  · intro hle
    exact ⟨_, _, rfl, trivial, trivial, hstart.mpr (by omega)⟩

/-- A query that is shorter than the buffer of the server and that is cut is taken for no other
request if and only if the cut leaves one word or three, or falls behind the time. -/
theorem cutSafely_iff (a : Args) (basetime : UInt64)
    (hlen : (query a basetime).length < 1024) (k : ℕ) (h0 : 0 < k) (c : Conn) :
    CutSafely a basetime k c ↔
      k ≤ a.flowidAt ∨ (a.dataSizeAt < k ∧ k ≤ a.dstIpAt) ∨
        a.timeAt + (timeS basetime).length ≤ k := by
  have hpos := length_timeS_pos basetime
  have horder : a.flowidAt < a.dataSizeAt ∧ a.dataSizeAt < a.dstIpAt ∧ a.dstIpAt < a.timeAt := by
    unfold Args.timeAt Args.dstIpAt Args.dataSizeAt
    omega
  by_cases h1 : k ≤ a.flowidAt
  · refine iff_of_true (Or.inl ?_) (Or.inl h1)
    simp [dataRequest_cut_one c hlen h0 h1]
  by_cases h2 : k ≤ a.dataSizeAt
  · exact iff_of_false (not_cutSafely_of_fault (dataRequest_cut_two c hlen (by omega) h2))
      (by omega)
  by_cases h3 : k ≤ a.dstIpAt
  · refine iff_of_true (Or.inl ?_) (by omega)
    rcases dataRequest_cut_three c hlen (by omega) h3 with ⟨flowid, size, hd⟩
    simp [hd]
  by_cases h4 : k ≤ a.timeAt
  · exact iff_of_false (not_cutSafely_of_fault (dataRequest_cut_four c hlen (by omega) h4))
      (by omega)
  · rw [cutSafely_of_timeAt_lt hlen c (by omega)]
    omega

/-- The query `7 1 2 8 12000 2` cut behind its time. -/
theorem cutSafely_short :
    ∃ a : Args, query a 12 = [55, 32, 49, 32, 50, 32, 56, 32, 49, 50, 48, 48, 48, 32, 50] ∧
      CutSafely a 12 13 ⟨0, 0, 0, 0, false⟩ := by
  refine ⟨⟨⟨[55], by decide, by decide, by decide⟩, ⟨[49], by decide, by decide, by decide⟩,
    ⟨[50], by decide, by decide, by decide⟩, ⟨[56], by decide, by decide, by decide⟩⟩,
    by decide +kernel, ?_⟩
  exact (cutSafely_iff _ 12 (by decide +kernel) 13 (by decide) _).mpr (by decide +kernel)

/-- The query `7 1 2 8 12000 2` cut behind the second digit of its time is accepted with a
start of 12 instead of 12000. -/
theorem not_cutSafely_in_time :
    ∃ a : Args, query a 12 = [55, 32, 49, 32, 50, 32, 56, 32, 49, 50, 48, 48, 48, 32, 50] ∧
      (query a 12).length < 1024 ∧
      dataRequest ((query a 12).take 10) ⟨0, 0, 0, 0, false⟩ =
        (.accepted [55] [56], ⟨1, 2048, 2048, 12, true⟩) ∧
      ¬ CutSafely a 12 10 ⟨0, 0, 0, 0, false⟩ := by
  let a : Args :=
    ⟨⟨[55], by decide, by decide, by decide⟩, ⟨[49], by decide, by decide, by decide⟩,
      ⟨[50], by decide, by decide, by decide⟩, ⟨[56], by decide, by decide, by decide⟩⟩
  have hlen : (query a 12).length < 1024 := by decide +kernel
  refine ⟨a, by decide +kernel, hlen, by decide +kernel, ?_⟩
  rw [cutSafely_of_timeAt_lt hlen _ (by decide)]
  decide +kernel

end NatcpSpec.Server
