import NatcpSpec.Base.Tokens

/-!
# The client's query

`src/client.c:98–106,165–193`. The client writes its first four arguments, the base time
in microseconds and once more the size, one blank apart, into a buffer of fifty bytes and
sends the string without its terminator.
-/

namespace NatcpSpec.Client

open NatcpSpec.Base

/-- An argument that is a non-empty C string without blanks. -/
structure Word where
  bytes : Text
  ne_nil : bytes ≠ []
  no_blank : 32 ∉ bytes
  no_nul : 0 ∉ bytes

/-- The arguments `argv[1..4]` that go into the query. -/
structure Args where
  server : Word
  flowid : Word
  dataSize : Word
  dstIp : Word

/-- Size of the buffer `query`; `src/client.c:137`. -/
def queryBuffer : ℕ := 50

/-- The base time in microseconds, in 64 bits; `src/client.c:105`. -/
def startTimestamp (basetime : UInt64) : UInt64 := basetime * 1000

/-- `time_s`, of which `snprintf` writes at most 48 bytes; `src/client.c:165–170`. -/
def timeS (basetime : UInt64) : Text := (decimal (startTimestamp basetime).toNat).take (49 - 1)

/-- The fields of the query, in order; `src/client.c:181–191`. -/
def queryFields (a : Args) (basetime : UInt64) : List Text :=
  [a.server.bytes, a.flowid.bytes, a.dataSize.bytes, a.dstIp.bytes, timeS basetime,
    a.dataSize.bytes]

/-- The string that the calls of `strcat` build; `src/client.c:181–191`. -/
def query (a : Args) (basetime : UInt64) : Text := [32].intercalate (queryFields a basetime)

/-- The query and its terminator fit the buffer. -/
def Fits (a : Args) (basetime : UInt64) : Prop := (query a basetime).length + 1 ≤ queryBuffer

instance (a : Args) (basetime : UInt64) : Decidable (Fits a basetime) :=
  inferInstanceAs (Decidable (_ ≤ _))

/-! ### Places of the fields -/

/-- Where the flow identifier starts in the query. -/
def Args.flowidAt (a : Args) : ℕ := a.server.bytes.length + 1

/-- Where the size starts in the query. -/
def Args.dataSizeAt (a : Args) : ℕ := a.flowidAt + a.flowid.bytes.length + 1

/-- Where the destination starts in the query. -/
def Args.dstIpAt (a : Args) : ℕ := a.dataSizeAt + a.dataSize.bytes.length + 1

/-- Where the time starts in the query. -/
def Args.timeAt (a : Args) : ℕ := a.dstIpAt + a.dstIp.bytes.length + 1

variable {a : Args} {basetime : UInt64}

/-- The query up to the end of the time is its fields without the repeated size. -/
theorem query_take_time (a : Args) (basetime : UInt64) :
    (query a basetime).take (a.timeAt + (timeS basetime).length) =
      [32].intercalate (queryFields a basetime).dropLast := by
  have hq : query a basetime =
      [32].intercalate (queryFields a basetime).dropLast ++ 32 :: a.dataSize.bytes := by
    simp [query, queryFields, List.intercalate_cons_cons, List.intercalate_singleton]
  have hlen : ([32].intercalate (queryFields a basetime).dropLast).length =
      a.timeAt + (timeS basetime).length := by
    simp [queryFields, List.intercalate_cons_cons, List.intercalate_singleton, Args.timeAt,
      Args.dstIpAt, Args.dataSizeAt, Args.flowidAt]
    omega
  rw [hq, ← hlen, List.take_left]

/-- Length of the query. -/
theorem length_query (a : Args) (basetime : UInt64) :
    (query a basetime).length =
      a.timeAt + (timeS basetime).length + a.dataSize.bytes.length + 1 := by
  simp [query, queryFields, List.intercalate_cons_cons, List.intercalate_singleton, Args.timeAt,
    Args.dstIpAt, Args.dataSizeAt, Args.flowidAt]
  omega

/-- The base time in microseconds as a number. -/
theorem toNat_startTimestamp (basetime : UInt64) :
    (startTimestamp basetime).toNat = basetime.toNat * 1000 % 2 ^ 64 := by
  simp [startTimestamp, UInt64.toNat_mul]

/-- The numeral of the time is never cut. -/
theorem timeS_eq (basetime : UInt64) :
    timeS basetime = decimal (basetime.toNat * 1000 % 2 ^ 64) := by
  rw [timeS, toNat_startTimestamp]
  apply List.take_of_length_le
  calc (decimal (basetime.toNat * 1000 % 2 ^ 64)).length
      ≤ 20 := length_decimal_le (by norm_num) (by omega)
    _ ≤ 49 - 1 := by norm_num

/-- An argument is a word of the query. -/
theorem Word.isWord (w : Word) : IsWord isBlank w.bytes := by
  refine ⟨w.ne_nil, ?_⟩
  intro b hb
  rw [isBlank, beq_eq_false_iff_ne]
  rintro rfl
  exact w.no_blank hb

/-- The time is a word of the query without a NUL. -/
theorem isWord_timeS (basetime : UInt64) :
    IsWord isBlank (timeS basetime) ∧ 0 ∉ timeS basetime := by
  rw [timeS_eq]
  have hdigit : ∀ b ∈ decimal (basetime.toNat * 1000 % 2 ^ 64), isDigit b = true :=
    fun b hb ↦ isDigit_of_mem_decimal hb
  refine ⟨⟨decimal_ne_nil _, ?_⟩, ?_⟩
  · intro b hb
    rw [isBlank, beq_eq_false_iff_ne]
    rintro rfl
    exact absurd (hdigit 32 hb) (by decide)
  · intro h
    exact absurd (hdigit 0 h) (by decide)

/-- The time is not empty. -/
theorem length_timeS_pos (basetime : UInt64) : 0 < (timeS basetime).length :=
  List.length_pos_iff.mpr (isWord_timeS basetime).1.1

/-- Every field of the query is a word. -/
theorem isWord_of_mem_queryFields {w : Text} (h : w ∈ queryFields a basetime) :
    IsWord isBlank w := by
  simp only [queryFields, List.mem_cons, List.not_mem_nil, or_false] at h
  rcases h with rfl | rfl | rfl | rfl | rfl | rfl
  · exact a.server.isWord
  · exact a.flowid.isWord
  · exact a.dataSize.isWord
  · exact a.dstIp.isWord
  · exact (isWord_timeS basetime).1
  · exact a.dataSize.isWord

/-- The query has no NUL inside. -/
theorem no_nul_query (a : Args) (basetime : UInt64) : 0 ∉ query a basetime := by
  intro h
  rcases eq_or_mem_of_mem_intercalate h with h | ⟨w, hw, h⟩
  · exact absurd h (by decide)
  · simp only [queryFields, List.mem_cons, List.not_mem_nil, or_false] at hw
    rcases hw with rfl | rfl | rfl | rfl | rfl | rfl
    · exact a.server.no_nul h
    · exact a.flowid.no_nul h
    · exact a.dataSize.no_nul h
    · exact a.dstIp.no_nul h
    · exact (isWord_timeS basetime).2 h
    · exact a.dataSize.no_nul h

end NatcpSpec.Client
