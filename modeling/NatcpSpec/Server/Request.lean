import NatcpSpec.Base.Tokens
import NatcpSpec.Server.Transfer

/-!
# Request parsing

`DataThread`, `src/server.cc:524–584`. One `recv` fills a zeroed buffer of 1024 bytes,
and five calls of `strtok_r` take it apart. The first, second and fourth token are
tested before use; the third and the fifth go to `atoi` and `strtoull` as they are.
The later `strtok_r` on the source address and the second test of the destination
change nothing that is read afterwards and are left out.
-/

namespace NatcpSpec.Server

open NatcpSpec.Base

/-- What the parser writes: the flow's fields and the two variables shared with the
replay thread. `src/server.cc:39,50`, `src/flow.h:37–57`. -/
structure Conn where
  flowid : ℤ
  size : ℤ
  remSize : ℤ
  startOfClient : ℕ
  gotMessage : Bool
deriving DecidableEq

/-- How the parsing of a request ends. -/
inductive Exit where
  /-- The socket is closed and the thread returns. -/
  | discarded
  /-- A null pointer is handed to `atoi` or `strtoull`. -/
  | fault
  /-- `strtok_r` reads past the end of the buffer. -/
  | overrun
  /-- The thread goes on to the transfer. -/
  | accepted (srcIp dstAddr : Text)
deriving DecidableEq

/-- The buffer after `recv`; `src/server.cc:524,538`. -/
def readMessage (received : Text) : Text := received ++ List.replicate (1024 - received.length) 0

/-- The calls of `strtok_r` and what is done with each token; `src/server.cc:550–582`. -/
def parseRequest (buf : Text) (c : Conn) : Exit × Conn :=
  match strtokR isBlank buf with
  | .overrun => (.overrun, c)
  | .null => (.discarded, c)
  | .token srcIp buf =>
    match strtokR isBlank buf with
    | .overrun => (.overrun, c)
    | .null => (.discarded, c)
    | .token isstr buf =>
      let c := { c with flowid := atoi isstr }
      match strtokR isBlank buf with
      | .overrun => (.overrun, c)
      -- There is no test before `atoi`.
      | .null => (.fault, c)
      | .token size buf =>
        let c := { c with size := requestSize (atoi size) }
        match strtokR isBlank buf with
        | .overrun => (.overrun, c)
        | .null => (.discarded, c)
        | .token dstAddr buf =>
          match strtokR isBlank buf with
          | .overrun => (.overrun, c)
          -- There is no test before `strtoull`.
          | .null => (.fault, c)
          | .token timeS _ =>
            (.accepted srcIp dstAddr,
              { c with startOfClient := strtoull timeS, gotMessage := true, remSize := c.size })

/-- The request of a connection, given the bytes that `recv` returned; none stand for an
error or an orderly shutdown. `src/server.cc:538–544`. -/
def dataRequest (received : Text) (c : Conn) : Exit × Conn :=
  if received = [] then (.discarded, c) else parseRequest (readMessage received) c

/-- Legible model of the parser: its outcome by the tokens of the text. -/
def requestModel : List Text → Conn → Exit × Conn
  | [], c => (.discarded, c)
  | [_], c => (.discarded, c)
  | [_, isstr], c => (.fault, { c with flowid := atoi isstr })
  | [_, isstr, size], c =>
    (.discarded, { c with flowid := atoi isstr, size := requestSize (atoi size) })
  | [_, isstr, size, _], c =>
    (.fault, { c with flowid := atoi isstr, size := requestSize (atoi size) })
  | srcIp :: isstr :: size :: dstAddr :: timeS :: _, _ =>
    (.accepted srcIp dstAddr,
      { flowid := atoi isstr
        size := requestSize (atoi size)
        remSize := requestSize (atoi size)
        startOfClient := strtoull timeS
        gotMessage := true })

/-- On a terminated text the parser does what its tokens say. -/
theorem parseRequest_eq_model {l : Text} (hl : 0 ∉ l) (z : Text) (c : Conn) :
    parseRequest (l ++ 0 :: z) c = requestModel (tokens isBlank l) c := by
  have h0 : isBlank 0 = false := rfl
  unfold parseRequest
  rcases strtokR_text h0 hl with ⟨h, hc⟩ | ⟨t1, l1, hl1, h1, hc1⟩
  · rw [h, hc]
    rfl
  rw [h1, hc1]
  dsimp only
  rcases strtokR_text h0 hl1 with ⟨h, hc⟩ | ⟨t2, l2, hl2, h2, hc2⟩
  · rw [h, hc]
    rfl
  rw [h2, hc2]
  dsimp only
  rcases strtokR_text h0 hl2 with ⟨h, hc⟩ | ⟨t3, l3, hl3, h3, hc3⟩
  · rw [h, hc]
    rfl
  rw [h3, hc3]
  dsimp only
  rcases strtokR_text h0 hl3 with ⟨h, hc⟩ | ⟨t4, l4, hl4, h4, hc4⟩
  · rw [h, hc]
    rfl
  rw [h4, hc4]
  dsimp only
  rcases strtokR_text h0 hl4 with ⟨h, hc⟩ | ⟨t5, l5, -, h5, hc5⟩
  · rw [h, hc]
    rfl
  rw [h5, hc5]
  rfl

/-- A text shorter than the buffer is parsed by its tokens. -/
theorem dataRequest_eq_model {l : Text} (hne : l ≠ []) (hl : 0 ∉ l) (hlen : l.length < 1024)
    (c : Conn) : dataRequest l c = requestModel (tokens isBlank l) c := by
  rw [dataRequest, if_neg hne, readMessage,
    show 1024 - l.length = (1024 - l.length - 1) + 1 by omega, List.replicate_succ]
  exact parseRequest_eq_model hl _ c

end NatcpSpec.Server
