import NatcpSpec.Base.Scanf
import NatcpSpec.Client.Query

/-!
# The buffer of the query

`src/client.c:97–106,137,165–193`. Eleven calls of `strcat` put the query together in a
buffer of fifty bytes, whatever the arguments are: `check_input` accepts everything, and no
length is tested. Five blanks and the terminator leave room for 44 bytes of fields.
-/

namespace NatcpSpec.Client

open NatcpSpec.Base

/-- A C string without its terminator. -/
structure CString where
  bytes : Text
  no_nul : 0 ∉ bytes

/-- The arguments `argv[1..4]` of a call with five arguments; each is any C string. -/
structure Invocation where
  argv1 : CString
  argv2 : CString
  argv3 : CString
  argv4 : CString

/-- The number read from the first line of `basetime`; of an empty file the line buffer
keeps what was in it. `src/client.c:92,103–104`. -/
def readBasetime (file buffer : Text) : UInt64 :=
  UInt64.ofNat (strtoull ((fgetsLines 4096 0 file).headD buffer))

/-- The strings that are appended, in order; `src/client.c:181–191`. -/
def strcatCalls (a : Invocation) (basetime : UInt64) : List Text :=
  [a.argv1.bytes, [32], a.argv2.bytes, [32], a.argv3.bytes, [32], a.argv4.bytes, [32],
    timeS basetime, [32], a.argv3.bytes]

/-- After every call the string and its terminator lie in the buffer. -/
def StaysInside (a : Invocation) (basetime : UInt64) : Prop :=
  ∀ n, ((strcatCalls a basetime).take n).flatten.length + 1 ≤ queryBuffer

/-- A word is a C string. -/
def Word.cString (w : Word) : CString := ⟨w.bytes, w.no_nul⟩

/-- The invocation with the given words. -/
def Args.invocation (a : Args) : Invocation :=
  ⟨a.server.cString, a.flowid.cString, a.dataSize.cString, a.dstIp.cString⟩

/-- On words the calls build the query. -/
theorem flatten_strcatCalls (a : Args) (basetime : UInt64) :
    (strcatCalls a.invocation basetime).flatten = query a basetime := by
  simp [strcatCalls, Args.invocation, Word.cString, query, queryFields, List.intercalate_cons_cons,
    List.intercalate_singleton]

/-- Length of the string after the last call. -/
theorem length_flatten_strcatCalls (a : Invocation) (basetime : UInt64) :
    (strcatCalls a basetime).flatten.length =
      a.argv1.bytes.length + a.argv2.bytes.length + 2 * a.argv3.bytes.length +
        a.argv4.bytes.length + (timeS basetime).length + 5 := by
  simp [strcatCalls]
  omega

/-- The calls stay inside exactly if the last one does. -/
theorem staysInside_iff_flatten (a : Invocation) (basetime : UInt64) :
    StaysInside a basetime ↔ (strcatCalls a basetime).flatten.length + 1 ≤ queryBuffer := by
  constructor
  · intro h
    simpa using h (strcatCalls a basetime).length
  · intro h n
    have hle := ((List.take_sublist n (strcatCalls a basetime)).flatten).length_le
    omega

/-- The query of words stays inside exactly if it fits the buffer. -/
theorem staysInside_iff_fits (a : Args) (basetime : UInt64) :
    StaysInside a.invocation basetime ↔ Fits a basetime := by
  rw [staysInside_iff_flatten, flatten_strcatCalls, Fits]

/-- Which arguments and which contents of `basetime` keep the query in its buffer. -/
theorem staysInside_iff (a : Invocation) (file buffer : Text) :
    StaysInside a (readBasetime file buffer) ↔
      a.argv1.bytes.length + a.argv2.bytes.length + 2 * a.argv3.bytes.length +
        a.argv4.bytes.length +
        (decimal ((readBasetime file buffer).toNat * 1000 % 2 ^ 64)).length ≤ 44 := by
  rw [staysInside_iff_flatten, length_flatten_strcatCalls, timeS_eq, queryBuffer]
  omega

/-- The command that the server starts, with `$MAHIMAHI_BASE` as Mahimahi sets it:
`100.64.0.1 1 2700 100.64.0.4`. `src/server.cc:337–344`. -/
def launched : Invocation where
  argv1 := ⟨[49, 48, 48, 46, 54, 52, 46, 48, 46, 49], by decide⟩
  argv2 := ⟨[49], by decide⟩
  argv3 := ⟨[50, 55, 48, 48], by decide⟩
  argv4 := ⟨[49, 48, 48, 46, 54, 52, 46, 48, 46, 52], by decide⟩

/-- A base time as Mahimahi writes it, in milliseconds: `1539225833805`. -/
def basetimeFile : Text := [49, 53, 51, 57, 50, 50, 53, 56, 51, 51, 56, 48, 53, 10]

/-- The query of the command that the server starts takes 51 bytes. -/
theorem not_staysInside_launched : ¬StaysInside launched (readBasetime basetimeFile []) := by
  have hlen : (strcatCalls launched (readBasetime basetimeFile [])).flatten.length + 1 = 51 := by
    decide +kernel
  intro h
  have hle := (staysInside_iff_flatten launched _).mp h
  rw [hlen, queryBuffer] at hle
  omega

end NatcpSpec.Client
