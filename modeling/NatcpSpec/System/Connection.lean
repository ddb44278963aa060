import NatcpSpec.Server.Completion
import NatcpSpec.Server.RequestCodec

/-!
# Client, server and the connection between them

`src/client.c:264–298` against the threads of `src/server.cc:354–636`, over a TCP connection.
The two directions of the connection are byte queues: a call takes or adds what the kernel
lets it, so that the request may be read in part and the data in pieces of any size. After the
server has closed the socket, bytes of the client that it did not read make the kernel reset
the connection, and the end of the data may then be lost.
-/

namespace NatcpSpec.System

open NatcpSpec.Base NatcpSpec.Client NatcpSpec.Server

/-! ### States -/

/-- Places in `main` of the client after `connect`; `src/client.c:267–298`. -/
inductive ClientPc where
  /-- In the send loop with `len` bytes outstanding. -/
  | sending (len : ℤ)
  | receiving
  /-- `recv` has returned zero. -/
  | eof
  /-- `recv` has failed. -/
  | failed

/-- Both processes and the connection. The last three fields are what `recv` of the server has
returned, what the calls of `recv` of the client have returned, and whether the end of the
data was lost. -/
structure Net where
  server : Sys
  client : ClientPc
  up : Text
  down : Text
  request : Text
  got : Text
  lost : Bool

/-- A connection with the query still to be sent; `src/client.c:268`. -/
def Net.start (q : Text) : Net := ⟨.start, .sending q.length, [], [], [], [], false⟩

/-- The server's end of the connection is closed, by `DataThread` or by the end of the
process. -/
def Net.Finished (s : Net) : Prop := s.server.closed = true ∨ s.server.running = false

/-- What a step is seen to do. -/
inductive NetAction where
  | server (a : Action)
  | send (result : ℤ)
  | recv
  | eof
  /-- A failing call, a reset or a signal. -/
  | failure
  | internal

/-- An action that moves bytes. -/
def onStream : Action → Bool
  | .recv | .send _ => true
  | _ => false

/-! ### Steps -/

/-- Steps of the client, the server and the connection, for the query `q`. -/
inductive NetStep (c : Arith) (g : Settings) (trace : List STrace) (q : Text) (s : Net) :
    NetAction → Net → Prop where
  | server {a : Action} {t : Sys} (ha : onStream a = false)
      (h : ThreadStep c ⟨g, trace, s.request⟩ s.server a t) :
      NetStep c g trace q s (.server a) { s with server := t }
  /-- The buffer of `recv` has 1024 bytes; `src/server.cc:538`. -/
  | serverRecv {t : Sys} (r : Text) (hne : r ≠ []) (hpre : r <+: s.up) (hlen : r.length ≤ 1024)
      (h : ThreadStep c ⟨g, trace, r⟩ s.server .recv t) :
      NetStep c g trace q s (.server .recv)
        { s with
          server := t
          up := s.up.drop r.length
          request := r }
  /-- All bytes of the data are ones; `src/server.cc:532–533,620–621`. -/
  | serverSend {t : Sys} (result : ℤ)
      (h : ThreadStep c ⟨g, trace, s.request⟩ s.server (.send result) t) :
      NetStep c g trace q s (.server (.send result))
        { s with
          server := t
          down := s.down ++ List.replicate result.toNat 1 }
  | clientSend {len : ℤ} (result : ℤ) (h : s.client = .sending len) (hl : 0 < len) :
      NetStep c g trace q s (.send result)
        { s with
          client := .sending (int32 (len - result))
          up := s.up ++ q.take result.toNat }
  | clientSent {len : ℤ} (h : s.client = .sending len) (hl : len ≤ 0) :
      NetStep c g trace q s .internal { s with client := .receiving }
  | clientRecv (k : ℕ) (h : s.client = .receiving) (hpos : 0 < k) (hk : k ≤ s.down.length)
      (hbuf : k ≤ bufsiz) :
      NetStep c g trace q s .recv
        { s with
          got := s.got ++ s.down.take k
          down := s.down.drop k }
  | clientEof (h : s.client = .receiving) (hd : s.down = []) (hf : s.Finished)
      (hl : s.lost = false) : NetStep c g trace q s .eof { s with client := .eof }
  | clientFails (h : s.client = .receiving) :
      NetStep c g trace q s .failure { s with client := .failed }
  | serverRecvFails {t : Sys} (h : ThreadStep c ⟨g, trace, []⟩ s.server .recv t) :
      NetStep c g trace q s .failure { s with server := t }
  | signal (h : s.server.running = true) :
      NetStep c g trace q s .failure { s with server := { s.server with running := false } }
  | reset (k : ℕ) (hf : s.Finished) (hup : s.up ≠ []) :
      NetStep c g trace q s .failure
        { s with
          down := s.down.take k
          lost := true }

/-- Calls of `send` take all that they are given. -/
def Whole (q : Text) (s : Net) : NetAction → Prop
  | .send result => result = q.length
  | .server (.send result) => ∀ len rest, s.server.data = .sending len rest → result = len
  | _ => True

/-- A step in which a call of `send` takes all that it is given. -/
def WholeStep (c : Arith) (g : Settings) (trace : List STrace) (q : Text) (s : Net)
    (a : NetAction) (t : Net) : Prop :=
  NetStep c g trace q s a t ∧ Whole q s a

/-! ### What the parser makes of a part of the query -/

section Request

variable {a : Args} {basetime : UInt64} {r : Text} {out : Exit × Conn}

/-- A part of the query is accepted, with the size that was asked for, if it reaches into the
time; otherwise it is discarded or faults. -/
theorem outcome_of_query (hquery : (query a basetime).length < 1024) (hr : r <+: query a basetime)
    (ho : RequestOutcome r out) :
    (a.timeAt < r.length ∧ out.1 = .accepted a.server.bytes a.dstIp.bytes ∧
      out.2.size = requestSize (atoi a.dataSize.bytes)) ∨
    (r.length ≤ a.timeAt ∧ (out.1 = .discarded ∨ out.1 = .fault)) := by
  have hcut : r = (query a basetime).take r.length := List.prefix_iff_eq_take.mp hr
  by_cases hk : a.timeAt < r.length
  · have hd := dataRequest_cut_five ⟨0, 0, 0, 0, false⟩ hquery hk
    rw [← hcut] at hd
    have hout := ho (by simp [hd])
    rw [hd] at hout
    refine Or.inl ⟨hk, by rw [hout], ?_⟩
    rw [hout, requestSize, uint32_int32]
    rfl
  · have hd : (dataRequest r ⟨0, 0, 0, 0, false⟩).1 = .discarded ∨
        (dataRequest r ⟨0, 0, 0, 0, false⟩).1 = .fault := by
      by_cases h0 : r.length = 0
      · rw [List.length_eq_zero_iff.mp h0]
        exact Or.inl rfl
      rw [hcut]
      by_cases h1 : r.length ≤ a.flowidAt
      · exact Or.inl (by rw [dataRequest_cut_one _ hquery (by omega) h1])
      by_cases h2 : r.length ≤ a.dataSizeAt
      · exact Or.inr (dataRequest_cut_two _ hquery (by omega) h2)
      by_cases h3 : r.length ≤ a.dstIpAt
      · obtain ⟨flowid, size, hthree⟩ :=
          dataRequest_cut_three ⟨0, 0, 0, 0, false⟩ hquery (by omega) h3
        exact Or.inl (by rw [hthree])
      · exact Or.inr (dataRequest_cut_four _ hquery (by omega) (by omega))
    have hout := ho (by rcases hd with h | h <;> simp [h])
    rw [← hout] at hd
    exact Or.inr ⟨by omega, hd⟩

/-- The messages of a request for fewer than 4096 megabytes are that long together. -/
theorem sum_sendLengths {n : ℤ} (h0 : 0 ≤ n) (hn : n < 4096) :
    (sendLengths (requestSize n)).sum = (n * 1024 * 1024).toNat := by
  have hloop : (loopCount (requestSize n)).toNat * bufsiz = (n * 1024 * 1024).toNat := by
    rw [loopCount_requestSize, bufsiz]
    omega
  simp [sendLengths, remainingSize_requestSize, hloop]

end Request

/-! ### What every run keeps -/

/-- How many bytes `DataThread` has put on the stream at each place of a transfer of `total`
bytes. -/
def Stage (accepted : Prop) (total m : ℕ) : DataPc → Prop
  | .absent | .receiving | .faulted => m = 0
  | .discarding => m = 0 ∧ ¬accepted
  | .handingOff _ => m = 0 ∧ accepted
  | .sending len rest => accepted ∧ m + len.toNat + rest.sum = total
  | .closing => accepted ∧ m = total
  | .returned => (accepted ∧ m = total) ∨ (¬accepted ∧ m = 0)

/-- Bytes that an action of the server puts on the stream. -/
def bytesOf : Action → ℕ
  | .send result => result.toNat
  | _ => 0

section Stage

variable {accepted : Prop} {total m : ℕ} {x : Session} {s t : Sys} {b : Action}

private theorem Stage.le {d : DataPc} (h : Stage accepted total m d) : m ≤ total := by
  cases d <;> simp only [Stage] at h <;> omega

/-- A step of `DataThread` other than `recv` puts on the stream what its call takes. -/
theorem stage_of_dataStep (h : DataStep x s b t) (hb : b ≠ .recv)
    (hsize : ∀ conn, s.data = .handingOff conn → (sendLengths conn.size).sum = total)
    (hwhole : ∀ result, b = .send result → ∀ len rest, s.data = .sending len rest → result = len)
    (hs : Stage accepted total m s.data) : Stage accepted total (m + bytesOf b) t.data := by
  cases h with
  | recv _ _ => exact absurd rfl hb
  | discard h =>
    rw [h] at hs
    exact Or.inr ⟨hs.2, hs.1⟩
  | @handOff conn h =>
    rw [h] at hs
    refine ⟨hs.2, ?_⟩
    rw [hsize conn h, hs.1]
    simp [bytesOf]
  | next h hl =>
    rw [h] at hs
    refine ⟨hs.1, ?_⟩
    have hsum := hs.2
    simp only [List.sum_cons, bytesOf] at hsum ⊢
    omega
  | @send len rest result h hl =>
    obtain rfl := hwhole result rfl len rest h
    rw [h] at hs
    refine ⟨hs.1, ?_⟩
    have hsum := hs.2
    simp only [sub_self, show int32 0 = 0 by decide, bytesOf] at hsum ⊢
    omega
  | finish h hl =>
    rw [h] at hs
    refine ⟨hs.1, ?_⟩
    have hsum := hs.2
    simp only [List.sum_nil, bytesOf] at hsum ⊢
    omega
  | close h =>
    rw [h] at hs
    exact Or.inl hs
  | fault h => exact hs

/-- What a step of any thread does to the place of `DataThread` and to the socket. -/
theorem data_of_threadStep {c : Arith} (h : ThreadStep c x s b t) (hs : s.Staged x) :
    (t.data = s.data ∧ t.closed = s.closed ∧ bytesOf b = 0 ∧ b ≠ .recv) ∨
    (s.data = .absent ∧ t.data = .receiving ∧ t.closed = s.closed ∧ bytesOf b = 0 ∧ b ≠ .recv) ∨
    DataStep x s b t := by
  cases h with
  | main _ h =>
    cases h with
    | createData hm => exact Or.inr (Or.inl ⟨hs.dataAbsent (by simp [hm]), rfl, rfl, rfl, nofun⟩)
    | _ => exact Or.inl ⟨rfl, rfl, rfl, nofun⟩
  | data _ h => exact Or.inr (Or.inr h)
  | cnt _ h => cases h <;> exact Or.inl ⟨rfl, rfl, rfl, nofun⟩

end Stage

/-- What holds in every state of a connection on which calls of `send` take all they are
given. -/
structure Net.Sound (g : Settings) (trace : List STrace) (a : Args) (basetime : UInt64)
    (total : ℕ) (s : Net) : Prop where
  staged : s.server.Staged ⟨g, trace, s.request⟩
  unread : s.server.data = .absent ∨ s.server.data = .receiving → s.request = []
  sent : (s.client = .sending (query a basetime).length ∧ s.up = [] ∧ s.request = []) ∨
    ((∀ len, s.client = .sending len → len ≤ 0) ∧ s.request ++ s.up = query a basetime)
  closed : s.server.closed = true → s.server.data = .returned
  data : ∃ m, Stage (a.timeAt < s.request.length) total m s.server.data ∧
    s.got ++ s.down <+: List.replicate m 1 ∧
    (s.lost = false → s.got ++ s.down = List.replicate m 1)
  eof : s.client = .eof →
    (s.server.closed = true ∧
      s.got = List.replicate (if a.timeAt < s.request.length then total else 0) 1) ∨
    (s.server.closed = false ∧ s.server.running = false)

section Sound

variable {c : Arith} {g : Settings} {trace : List STrace} {a : Args} {basetime : UInt64}
  {total : ℕ} {s t : Net}

/-- It holds at the start. -/
theorem Net.Sound.start (g : Settings) (trace : List STrace) (a : Args) (basetime : UInt64)
    (total : ℕ) : (Net.start (query a basetime)).Sound g trace a basetime total where
  staged := .start _
  unread _ := rfl
  sent := Or.inl ⟨rfl, rfl, rfl⟩
  closed h := nomatch h
  data := ⟨0, rfl, List.prefix_refl _, fun _ ↦ rfl⟩
  eof h := nomatch h

/-- What the server has read is a part of the query. -/
theorem Net.Sound.request_prefix_query (hs : s.Sound g trace a basetime total) :
    s.request <+: query a basetime := by
  rcases hs.sent with ⟨-, -, hr⟩ | ⟨-, hq⟩
  · rw [hr]
    exact List.nil_prefix
  · rw [← hq]
    exact List.prefix_append _ _

private theorem isPrefix_append_replicate {l : Text} {m k : ℕ} (h : l <+: List.replicate m 1) :
    l ++ List.replicate k 1 <+: List.replicate (m + k) 1 := by
  obtain ⟨hlen, hl⟩ := List.prefix_replicate_iff.mp h
  rw [hl, ← List.replicate_add]
  exact List.prefix_replicate_iff.mpr ⟨by simp; omega, by simp⟩

/-- A step of the server other than `recv` keeps it. -/
theorem Net.Sound.server {b : Action} {u : Sys} (hs : s.Sound g trace a basetime total)
    (h : ThreadStep c ⟨g, trace, s.request⟩ s.server b u) (hb : b ≠ .recv)
    (hquery : (query a basetime).length < 1024)
    (htotal : (sendLengths (requestSize (atoi a.dataSize.bytes))).sum = total)
    (hwhole : ∀ result, b = .send result → ∀ len rest,
      s.server.data = .sending len rest → result = len) :
    ({ s with server := u, down := s.down ++ List.replicate (bytesOf b) 1 } : Net).Sound
      g trace a basetime total := by
  obtain ⟨m, hstage, hpre, heq⟩ := hs.data
  have hsize : ∀ conn, s.server.data = .handingOff conn → (sendLengths conn.size).sum = total := by
    intro conn hconn
    obtain ⟨srcIp, dstAddr, ho⟩ := hs.staged.handing conn hconn
    rcases outcome_of_query hquery hs.request_prefix_query ho with ⟨-, -, hsize⟩ | ⟨-, hd | hd⟩
    · rw [hsize, htotal]
    · cases hd
    · cases hd
  -- The place of `DataThread`, the bytes it has sent and the socket after the step.
  have hdata : Stage (a.timeAt < s.request.length) total (m + bytesOf b) u.data ∧
      (u.data = .absent ∨ u.data = .receiving → s.request = []) ∧
      (u.closed = true → u.data = .returned) ∧ (s.server.closed = true → u.closed = true) := by
    rcases data_of_threadStep h hs.staged with
      ⟨hd, hc, h0, -⟩ | ⟨hd, hd', hc, h0, -⟩ | hstep
    · rw [hd, hc, h0]
      exact ⟨hstage, hs.unread, hs.closed, id⟩
    · rw [hd', hc, h0]
      rw [hd] at hstage
      refine ⟨hstage, fun _ ↦ hs.unread (Or.inl hd), fun hclosed ↦ ?_, id⟩
      rw [hs.closed hclosed] at hd
      cases hd
    · refine ⟨stage_of_dataStep hstep hb hsize hwhole hstage, ?_⟩
      cases hstep with
      | recv _ _ => exact absurd rfl hb
      | discard _ | close _ =>
        exact ⟨(by rintro (h | h) <;> cases h), fun _ ↦ rfl, fun _ ↦ rfl⟩
      | fault _ => exact ⟨hs.unread, hs.closed, id⟩
      | handOff hd | next hd _ | send _ hd _ | finish hd _ =>
        refine ⟨(by rintro (h | h) <;> cases h), fun hclosed ↦ ?_, id⟩
        rw [hs.closed hclosed] at hd
        cases hd
  obtain ⟨hstage', hunread, hclosed, hmono⟩ := hdata
  refine ⟨(Step.thread h).staged hs.staged, hunread, hs.sent, hclosed,
    ⟨m + bytesOf b, hstage', ?_, ?_⟩, ?_⟩
  · rw [← List.append_assoc]
    exact isPrefix_append_replicate hpre
  · intro hl
    rw [← List.append_assoc, heq hl, List.replicate_add]
  · intro he
    rcases hs.eof he with ⟨hc, hgot⟩ | ⟨-, hr⟩
    · exact Or.inl ⟨hmono hc, hgot⟩
    · rw [h.running] at hr
      cases hr

/-- A client in its receive loop has sent the query. -/
theorem Net.Sound.query_sent (hs : s.Sound g trace a basetime total) (h : s.client = .receiving) :
    s.request ++ s.up = query a basetime := by
  rcases hs.sent with ⟨hc, -, -⟩ | ⟨-, hq⟩
  · rw [hc] at h
    cases h
  · exact hq

-- Behind the call of `recv` nothing has been sent yet.
private theorem stage_afterRequest (total : ℕ) {r : Text} {out : Exit × Conn}
    (hquery : (query a basetime).length < 1024) (hpre : r <+: query a basetime)
    (ho : RequestOutcome r out) :
    Stage (a.timeAt < r.length) total 0 (afterRequest out) ∧
      ¬(afterRequest out = .absent ∨ afterRequest out = .receiving) := by
  obtain ⟨exit, conn⟩ := out
  rcases outcome_of_query hquery hpre ho with ⟨hk, hacc, -⟩ | ⟨hk, hacc | hacc⟩
  · obtain rfl : exit = _ := hacc
    exact ⟨⟨rfl, hk⟩, by rintro (h | h) <;> cases h⟩
  · obtain rfl : exit = _ := hacc
    exact ⟨⟨rfl, not_lt.mpr hk⟩, by rintro (h | h) <;> cases h⟩
  · obtain rfl : exit = _ := hacc
    exact ⟨rfl, by rintro (h | h) <;> cases h⟩

/-- The call of `recv` keeps it, whatever part of the query it returns. -/
theorem Net.Sound.recv {u : Sys} {r : Text} (hs : s.Sound g trace a basetime total)
    (hpre : r <+: s.up) (h : ThreadStep c ⟨g, trace, r⟩ s.server .recv u)
    (hquery : (query a basetime).length < 1024) :
    ({ s with server := u, up := s.up.drop r.length, request := r } : Net).Sound
      g trace a basetime total := by
  obtain ⟨m, hstage, hgot, heq⟩ := hs.data
  cases h with
  | main _ h => cases h
  | cnt _ h => cases h
  | data hr h =>
    cases h with
    | @recv out hd ho =>
      have hempty : s.request = [] := hs.unread (Or.inr hd)
      have hup : r ++ s.up.drop r.length = s.up :=
        (List.prefix_append_drop hpre).symm
      have hopen : s.server.closed = false := by
        by_contra hc
        have hret := hs.closed (by simpa using hc)
        rw [hd] at hret
        cases hret
      have hsent : (s.client = .sending (query a basetime).length ∧ s.up.drop r.length = [] ∧
          r = []) ∨ ((∀ len, s.client = .sending len → len ≤ 0) ∧
          r ++ s.up.drop r.length = query a basetime) := by
        rcases hs.sent with ⟨hc, hu, -⟩ | ⟨hc, hq⟩
        · rw [hu, List.prefix_nil] at hpre
          exact Or.inl ⟨hc, by simp [hu], hpre⟩
        · rw [hempty, List.nil_append] at hq
          exact Or.inr ⟨hc, hup.trans hq⟩
      have hprefix : r <+: query a basetime := by
        rcases hsent with ⟨-, -, hr⟩ | ⟨-, hq⟩
        · rw [hr]
          exact List.nil_prefix
        · rw [← hq]
          exact List.prefix_append _ _
      obtain rfl : m = 0 := by
        rw [hd] at hstage
        exact hstage
      obtain ⟨hstage', hbehind⟩ := stage_afterRequest total hquery hprefix ho
      have hstaged := (Step.data (c := c) hr (.recv hd ho)).staged
        (hs.staged.of_receiving ⟨g, trace, r⟩ hd)
      refine ⟨hstaged, fun h ↦ absurd h hbehind, hsent, fun hc ↦ ?_, ⟨0, hstage', hgot, heq⟩, ?_⟩
      · rw [show s.server.closed = true from hc] at hopen
        cases hopen
      · intro he
        rcases hs.eof he with ⟨hc, -⟩ | ⟨-, hrun⟩
        · rw [hc] at hopen
          cases hopen
        · rw [hr] at hrun
          cases hrun

/-- The end of the stream is the end of the transfer, unless the server itself has ended. -/
theorem Net.Sound.ended (hs : s.Sound g trace a basetime total) (hd : s.down = [])
    (hf : s.Finished) (hl : s.lost = false) :
    (s.server.closed = true ∧
      s.got = List.replicate (if a.timeAt < s.request.length then total else 0) 1) ∨
    (s.server.closed = false ∧ s.server.running = false) := by
  obtain ⟨m, hstage, -, heq⟩ := hs.data
  rcases hclosed : s.server.closed with _ | _
  · rcases hf with hf | hf
    · rw [hclosed] at hf
      cases hf
    · exact Or.inr ⟨rfl, hf⟩
  · have hgot := heq hl
    rw [hd, List.append_nil] at hgot
    rw [hs.closed hclosed] at hstage
    refine Or.inl ⟨rfl, ?_⟩
    rcases hstage with ⟨hacc, hm⟩ | ⟨hacc, hm⟩
    · rw [if_pos hacc, hgot, hm]
    · rw [if_neg hacc, hgot, hm]

/-- Every step keeps it. -/
theorem WholeStep.sound {b : NetAction} (hquery : (query a basetime).length < 1024)
    (htotal : (sendLengths (requestSize (atoi a.dataSize.bytes))).sum = total)
    (hs : s.Sound g trace a basetime total)
    (h : WholeStep c g trace (query a basetime) s b t) : t.Sound g trace a basetime total := by
  obtain ⟨hstep, hwhole⟩ := h
  obtain ⟨m, hstage, hpre, heq⟩ := hs.data
  cases hstep with
  | @server b u hb h =>
    have hzero : bytesOf b = 0 := by cases b <;> first | rfl | cases hb
    have hnext := hs.server h (by rintro rfl; cases hb) hquery htotal
      (by rintro result rfl; cases hb)
    rwa [hzero, List.replicate_zero, List.append_nil] at hnext
  | serverRecv r hne hup hlen h => exact hs.recv hup h hquery
  | serverSend result h =>
    refine hs.server h (by rintro ⟨⟩) hquery htotal ?_
    rintro result' hr
    cases hr
    exact hwhole
  | @clientSend len result hc hl =>
    rcases hs.sent with ⟨hc', hu, hr⟩ | ⟨hle, -⟩
    · obtain rfl : len = (query a basetime).length := by
        rw [hc'] at hc
        exact (ClientPc.sending.inj hc).symm
      obtain rfl : result = (query a basetime).length := hwhole
      refine ⟨hs.staged, hs.unread, Or.inr ⟨?_, ?_⟩, hs.closed, hs.data, (by rintro ⟨⟩)⟩
      · rintro len hlen
        rw [← ClientPc.sending.inj hlen]
        simp [int32]
      · simp [hr, hu]
    · exact absurd hl (not_lt.mpr (hle len hc))
  | clientSent hc hl =>
    refine ⟨hs.staged, hs.unread, ?_, hs.closed, hs.data, (by rintro ⟨⟩)⟩
    rcases hs.sent with ⟨hc', -, -⟩ | ⟨-, hq⟩
    · -- The query is not empty, so that its loop cannot be over before a call.
      rw [hc'] at hc
      have hlen := length_query a basetime
      rw [← ClientPc.sending.inj hc] at hl
      omega
    · exact Or.inr ⟨(by rintro _ ⟨⟩), hq⟩
  | clientRecv k hc hpos hk hbuf =>
    have hsplit : (s.got ++ s.down.take k) ++ s.down.drop k = s.got ++ s.down := by
      rw [List.append_assoc, List.take_append_drop]
    refine ⟨hs.staged, hs.unread, hs.sent, hs.closed, ⟨m, hstage, ?_, ?_⟩, ?_⟩
    · rw [hsplit]
      exact hpre
    · rw [hsplit]
      exact heq
    · intro he
      rw [hc] at he
      cases he
  | clientEof hc hd hf hl =>
    exact ⟨hs.staged, hs.unread, Or.inr ⟨(by rintro _ ⟨⟩), hs.query_sent hc⟩, hs.closed, hs.data,
      fun _ ↦ hs.ended hd hf hl⟩
  | clientFails hc =>
    exact ⟨hs.staged, hs.unread, Or.inr ⟨(by rintro _ ⟨⟩), hs.query_sent hc⟩, hs.closed, hs.data,
      (by rintro ⟨⟩)⟩
  | serverRecvFails h =>
    have hrequest : s.request = [] := by
      cases h with
      | main _ h => cases h
      | cnt _ h => cases h
      | data _ h =>
        cases h with
        | recv hd _ => exact hs.unread (Or.inr hd)
    have hnext := hs.recv (r := []) List.nil_prefix h hquery
    rw [← hrequest] at hnext
    simpa [hrequest] using hnext
  | signal hr =>
    obtain ⟨hcnt, hdata, hearly, hhanding, hhanded⟩ := hs.staged
    refine ⟨⟨hcnt, hdata, hearly, hhanding, hhanded⟩, hs.unread, hs.sent, hs.closed, hs.data, ?_⟩
    intro he
    rcases hs.eof he with hc | ⟨hc, -⟩
    · exact Or.inl hc
    · exact Or.inr ⟨hc, rfl⟩
  | reset k hf hup =>
    refine ⟨hs.staged, hs.unread, hs.sent, hs.closed, ⟨m, hstage, ?_, (by rintro ⟨⟩)⟩, hs.eof⟩
    refine List.IsPrefix.trans ?_ hpre
    rw [List.prefix_append_right_inj]
    exact List.take_prefix _ _

/-- It holds in every run. -/
theorem sound_of_run {actions : List NetAction} (hquery : (query a basetime).length < 1024)
    (htotal : (sendLengths (requestSize (atoi a.dataSize.bytes))).sum = total)
    (h : Run (WholeStep c g trace (query a basetime)) (Net.start (query a basetime)) actions s) :
    s.Sound g trace a basetime total :=
  h.history (fun _ s ↦ s.Sound g trace a basetime total) (.start g trace a basetime total)
    (fun _ _ _ _ hs hstep ↦ hstep.sound hquery htotal hs)

end Sound

/-! ### What the client gets -/

/-- Calls of `send` take all that they are given, and the query is shorter than the server's
buffer. Whatever the schedule of the threads, the pieces that bytes arrive in and the end of the
connection, a client that asks for fewer than 4096 megabytes never gets a byte more than that.
If `recv` returns zero after the server has closed the socket, the client has got all of the
data, or none when what the server read of the query ends before its timestamp. -/
theorem download_exact (c : Arith) (g : Settings) (trace : List STrace) (a : Args)
    (basetime : UInt64) (hquery : (query a basetime).length < 1024) (h0 : 0 ≤ atoi a.dataSize.bytes)
    (hn : atoi a.dataSize.bytes < 4096) (actions : List NetAction) (s : Net)
    (h : Run (WholeStep c g trace (query a basetime)) (Net.start (query a basetime)) actions s) :
    s.request <+: query a basetime ∧
    s.got <+: List.replicate (atoi a.dataSize.bytes * 1024 * 1024).toNat 1 ∧
    (s.client = .eof → s.server.closed = true →
      s.got = if a.timeAt < s.request.length then
        List.replicate (atoi a.dataSize.bytes * 1024 * 1024).toNat 1 else []) := by
  have hs := sound_of_run hquery (sum_sendLengths h0 hn) h
  obtain ⟨m, hstage, hpre, -⟩ := hs.data
  refine ⟨hs.request_prefix_query, ?_, ?_⟩
  · have hle := hstage.le
    refine ((List.prefix_append _ _).trans hpre).trans ?_
    exact List.prefix_replicate_iff.mpr ⟨by simpa using hle, by simp⟩
  · intro he hc
    rcases hs.eof he with ⟨-, hgot⟩ | ⟨hopen, -⟩
    · rw [hgot]
      split <;> rfl
    · rw [hc] at hopen
      cases hopen

/-! ### A connection to its end -/

section Download

variable (c : Arith) (g : Settings) (trace : List STrace) (q : Text) {s : Net}

variable {c g trace q} in
private theorem wholeStep_of_wholeSend {t : Sys} {b : Action}
    (h : WholeSend ⟨g, trace, s.request⟩ s.server b t) :
    WholeStep c g trace q s (.server b)
      { s with server := t, down := s.down ++ List.replicate (bytesOf b) 1 } := by
  by_cases hb : onStream b = true
  · cases b with
    | send result => exact ⟨.serverSend result h.threadStep, h.whole result rfl⟩
    | recv => exact absurd rfl h.ne_recv
    | _ => cases hb
  · have hzero : bytesOf b = 0 := by cases b <;> first | rfl | exact absurd rfl hb
    rw [hzero, List.replicate_zero, List.append_nil]
    refine ⟨.server (by simpa using hb) h.threadStep, ?_⟩
    cases b <;> trivial

/-- The server can send its messages over the connection as it can by itself. -/
theorem exists_run_of_wholeSend {actions : List Action} {t : Sys}
    (h : Run (WholeSend ⟨g, trace, s.request⟩) s.server actions t) :
    ∃ acts m, Run (WholeStep c g trace q) s acts
      { s with server := t, down := s.down ++ List.replicate m 1 } := by
  generalize hs : s.server = u at h
  generalize hx : (⟨g, trace, s.request⟩ : Session) = x at h
  induction h generalizing s with
  | nil u =>
    subst hs
    exact ⟨[], 0, by simpa using .nil s⟩
  | @cons u v w b bs hb _ ih =>
    subst hs hx
    have hstep := wholeStep_of_wholeSend (c := c) (q := q) hb
    obtain ⟨acts, m, hrun⟩ := ih
      (s := { s with server := v, down := s.down ++ List.replicate (bytesOf b) 1 }) rfl rfl
    refine ⟨.server b :: acts, bytesOf b + m, .cons hstep ?_⟩
    rw [List.replicate_add, ← List.append_assoc]
    exact hrun

/-- The client can read all that is there. -/
theorem exists_run_read (hc : s.client = .receiving) :
    ∃ actions, Run (WholeStep c g trace q) s actions
      { s with
        got := s.got ++ s.down
        down := [] } := by
  rcases hdown : s.down with _ | ⟨b, down⟩
  · refine ⟨[], ?_⟩
    rw [List.append_nil, ← hdown]
    exact .nil s
  · induction down generalizing s b with
    | nil =>
      have hstep : WholeStep c g trace q s .recv
          { s with got := s.got ++ s.down.take 1, down := s.down.drop 1 } :=
        ⟨.clientRecv 1 hc (by decide) (by simp [hdown]) (by decide), trivial⟩
      rw [hdown] at hstep
      exact ⟨_, .single hstep⟩
    | cons b' down ih =>
      have hstep : WholeStep c g trace q s .recv
          { s with got := s.got ++ s.down.take 1, down := s.down.drop 1 } :=
        ⟨.clientRecv 1 hc (by decide) (by simp [hdown]) (by decide), trivial⟩
      rw [hdown] at hstep
      obtain ⟨actions, hrun⟩ := ih
        (s := { s with got := s.got ++ [b], down := b' :: down }) hc b' rfl
      rw [← List.append_cons] at hrun
      exact ⟨_, .cons hstep hrun⟩

/-- Up to the hand-off there is a run in which each side gets the whole query in one call,
with `CntThread` or without it. -/
theorem exists_run_handOff (a : Args) (basetime : UInt64)
    (hquery : (query a basetime).length < 1024) {cnt : CntPc}
    (hcnt : cnt = .absent ∨ cnt = .waiting ∧ g.feedback ≠ 0) :
    ∃ actions, Run (WholeStep c g trace (query a basetime)) (Net.start (query a basetime)) actions
      ⟨⟨true, .joining, .sending 0 (sendLengths (decoded a basetime).size), cnt,
        (decoded a basetime).startOfClient, true, false, false⟩, .receiving, [], [],
        query a basetime, [], false⟩ := by
  have hpos : 0 < (query a basetime).length := by
    have := length_query a basetime
    omega
  have hrequest : dataRequest (query a basetime) ⟨0, 0, 0, 0, false⟩ = _ :=
    dataRequest_query _ hquery
  obtain ⟨b, hcreate⟩ : ∃ b, WholeStep c g trace (query a basetime)
      ⟨⟨true, .creatingCnt, .absent, .absent, 0, false, false, false⟩, .receiving,
        query a basetime, [], [], [], false⟩ (.server b)
      ⟨⟨true, .creatingData, .absent, cnt, 0, false, false, false⟩, .receiving,
        query a basetime, [], [], [], false⟩ := by
    rcases hcnt with rfl | ⟨rfl, hf⟩
    · exact ⟨_, .server rfl (.main rfl (.noCnt rfl)), trivial⟩
    · exact ⟨_, .server rfl (.main rfl (.createCnt rfl hf)), trivial⟩
  refine ⟨[.send (query a basetime).length, .internal, .server .accept, .server b,
    .server .create, .server .recv, .server .gotMessage], ?_⟩
  refine .cons ⟨.clientSend _ rfl (by exact_mod_cast hpos), rfl⟩ ?_
  refine .cons ⟨.clientSent rfl (by simp [int32]), trivial⟩ ?_
  refine .cons ⟨.server rfl (.main rfl (.accept rfl)), trivial⟩ ?_
  have hup : ([] : Text) ++ (query a basetime).take ((query a basetime).length : ℤ).toNat =
      query a basetime := by simp
  rw [show (Net.start (query a basetime)).up = [] from rfl, hup]
  refine .cons hcreate ?_
  refine .cons ⟨.server rfl (.main rfl (.createData rfl)), trivial⟩ ?_
  have hrecv : NetStep c g trace (query a basetime)
      ⟨⟨true, .joining, .receiving, cnt, 0, false, false, false⟩, .receiving,
        query a basetime, [], [], [], false⟩ (.server .recv) _ :=
    .serverRecv (query a basetime) (List.length_pos_iff.mp hpos) (List.prefix_refl _) hquery.le
      (.data rfl (.recv rfl (requestOutcome_dataRequest _)))
  rw [hrequest] at hrecv
  refine .cons ⟨hrecv, trivial⟩ ?_
  rw [List.drop_length]
  exact .single ⟨.server rfl (.data rfl (.handOff rfl)), trivial⟩

/-- There is a run to the end of the data. -/
theorem exists_run_download (a : Args) (basetime : UInt64)
    (hquery : (query a basetime).length < 1024) :
    ∃ actions s, Run (WholeStep c g trace (query a basetime)) (Net.start (query a basetime))
      actions s ∧ s.client = .eof ∧ s.server.running = true ∧ s.server.main = .joining ∧
      s.server.data = .returned ∧ s.server.closed = true ∧ s.request = query a basetime := by
  obtain ⟨first, hfirst⟩ := exists_run_handOff c g trace a basetime hquery (Or.inl rfl)
  obtain ⟨sends, hsends⟩ := exists_run_transfer (x := ⟨g, trace, query a basetime⟩)
    (s := ⟨true, .joining, .sending 0 (sendLengths (decoded a basetime).size), .absent,
      (decoded a basetime).startOfClient, true, false, false⟩) rfl rfl
  obtain ⟨messages, m, hmessages⟩ := exists_run_of_wholeSend c g trace (query a basetime)
    (s := ⟨_, .receiving, [], [], query a basetime, [], false⟩) hsends
  have hclose := (hfirst.append hmessages).append
    (.single ⟨.server rfl (.data rfl (.close rfl)), trivial⟩)
  obtain ⟨reads, hreads⟩ := exists_run_read c g trace (query a basetime)
    (s := ⟨⟨true, .joining, .returned, .absent, (decoded a basetime).startOfClient, true, true,
      true⟩, .receiving, [], [] ++ List.replicate m 1, query a basetime, [], false⟩) rfl
  have hall := (hclose.append hreads).append
    (.single ⟨.clientEof rfl rfl (Or.inl rfl) rfl, trivial⟩)
  exact ⟨_, _, hall, rfl, rfl, rfl, rfl, rfl, rfl⟩

end Download

/-- An argument of one digit. -/
def digitWord (n : Fin 10) : Word :=
  ⟨[48 + n.val.toUInt8], by simp, by decide +revert, by decide +revert⟩

/-- One megabyte, asked for by the query `7 1 1 8 12000 1`. -/
def oneMegabyte : Args := ⟨digitWord 7, digitWord 1, digitWord 1, digitWord 8⟩

/-- A client that gets its megabyte. -/
theorem download_exact_oneMegabyte :
    ∃ actions s, Run (WholeStep .amd64 ⟨5, 1, 1, 2⟩ [] (query oneMegabyte 12))
        (Net.start (query oneMegabyte 12)) actions s ∧
      s.client = .eof ∧ s.got = List.replicate 1048576 1 := by
  have hquery : (query oneMegabyte 12).length < 1024 := by decide +kernel
  have hsize : atoi oneMegabyte.dataSize.bytes = 1 := by decide +kernel
  obtain ⟨actions, s, hrun, heof, -, -, -, hclosed, hrequest⟩ :=
    exists_run_download .amd64 ⟨5, 1, 1, 2⟩ [] oneMegabyte 12 hquery
  have hexact := (download_exact .amd64 ⟨5, 1, 1, 2⟩ [] oneMegabyte 12 hquery
    (by rw [hsize]; decide) (by rw [hsize]; decide) actions s hrun).2.2 heof hclosed
  have hlong : oneMegabyte.timeAt < s.request.length := by
    rw [hrequest]
    decide +kernel
  rw [if_pos hlong, hsize] at hexact
  exact ⟨actions, s, hrun, heof, hexact⟩

/-! ### Where nothing is left to happen -/

section Stuck

variable {c : Arith} {g : Settings} {trace : List STrace} {q : Text} {s : Net}

variable (hstuck : ∀ b t, NetStep c g trace q s b t → b ≠ .failure → t = s)

include hstuck

private theorem not_sending_of_stuck (len : ℤ) : s.client ≠ .sending len := by
  intro hclient
  by_cases hl : 0 < len
  · have hsend := hstuck _ _ (.clientSend len hclient hl) (by rintro ⟨⟩)
    have hpc := congrArg Net.client hsend
    rw [hclient] at hpc
    have hzero := ClientPc.sending.inj hpc
    simp [int32] at hzero
    omega
  · have hsent := hstuck _ _ (.clientSent hclient (not_lt.mp hl)) (by rintro ⟨⟩)
    have hpc := congrArg Net.client hsent
    rw [hclient] at hpc
    cases hpc

private theorem down_eq_nil_of_stuck (hclient : s.client = .receiving) : s.down = [] := by
  by_contra hne
  have hpos := List.length_pos_iff.mpr hne
  have hrecv := hstuck _ _ (.clientRecv 1 hclient (by decide) hpos (by decide)) (by rintro ⟨⟩)
  have hlen := congrArg (fun s : Net ↦ s.down.length) hrecv
  simp only [List.length_drop] at hlen
  omega

private theorem not_finished_of_stuck (hclient : s.client = .receiving) (hl : s.lost = false) :
    ¬s.Finished := by
  intro hf
  have hend := hstuck _ _ (.clientEof hclient (down_eq_nil_of_stuck hstuck hclient) hf hl)
    (by rintro ⟨⟩)
  have hpc := congrArg Net.client hend
  rw [hclient] at hpc
  cases hpc

private theorem eq_of_stuck {b : Action} {t : Sys} (hb : onStream b = false)
    (h : ThreadStep c ⟨g, trace, s.request⟩ s.server b t) : t = s.server :=
  congrArg Net.server (hstuck _ _ (.server hb h) (by rintro ⟨⟩))

private theorem joining_of_stuck (hr : s.server.running = true) : s.server.main = .joining := by
  by_contra hm
  obtain ⟨b, t, hstep, hne, -⟩ := exists_mainStep (x := ⟨g, trace, s.request⟩) hm
  have hb : onStream b = false := by cases hstep <;> rfl
  exact hne (congrArg Sys.main (eq_of_stuck hstuck hb (.main hr hstep)))

-- The process would end.
private theorem not_exits_of_stuck (hr : s.server.running = true) {b : Action}
    (hb : onStream b = false) :
    ¬ThreadStep c ⟨g, trace, s.request⟩ s.server b { s.server with running := false } := by
  intro h
  have hrunning := congrArg Sys.running (eq_of_stuck hstuck hb h)
  rw [hr] at hrunning
  cases hrunning

-- Only the call of `recv` may be waiting for something.
private theorem receiving_of_stuck (hr : s.server.running = true) :
    s.server.data = .receiving := by
  have hmain := joining_of_stuck hstuck hr
  by_cases habsent : s.server.data = .absent
  · exact absurd (.main hr (.joinNothing hmain habsent)) (not_exits_of_stuck hstuck hr rfl)
  by_cases hfaulted : s.server.data = .faulted
  · exact absurd (.data hr (.fault hfaulted)) (not_exits_of_stuck hstuck hr rfl)
  by_cases hret : s.server.data = .returned
  · exact absurd (.main hr (.join hmain hret)) (not_exits_of_stuck hstuck hr rfl)
  obtain ⟨b, t, hstep, hne, -⟩ :=
    exists_dataStep (x := ⟨g, trace, s.request⟩) habsent hfaulted hret
  have hmove : ∀ {b t}, onStream b = false →
      DataStep ⟨g, trace, s.request⟩ s.server b t → t.data = s.server.data :=
    fun hb h ↦ congrArg Sys.data (eq_of_stuck hstuck hb (.data hr h))
  cases hstep with
  | recv hd _ => exact hd
  | send result hd hl =>
    have hsend := hstuck _ _ (.serverSend result (.data hr (.send result hd hl))) (by rintro ⟨⟩)
    exact absurd (congrArg (fun s : Net ↦ s.server.data) hsend) hne
  | discard hd => exact absurd (hmove rfl (.discard hd)) hne
  | handOff hd => exact absurd (hmove rfl (.handOff hd)) hne
  | next hd hl => exact absurd (hmove rfl (.next hd hl)) hne
  | finish hd hl => exact absurd (hmove rfl (.finish hd hl)) hne
  | close hd => exact absurd (hmove rfl (.close hd)) hne
  | fault hd => exact absurd hd hfaulted

end Stuck

/-- Calls of `send` take all that they are given, and the query is shorter than the server's
buffer. Then the client is never left waiting: where no call can go on any more, it has left its
receive loop, or the connection was reset. -/
theorem client_served (c : Arith) (g : Settings) (trace : List STrace) (a : Args)
    (basetime : UInt64) (hquery : (query a basetime).length < 1024) (actions : List NetAction)
    (s : Net)
    (h : Run (WholeStep c g trace (query a basetime)) (Net.start (query a basetime)) actions s)
    (hstuck : ∀ b t, NetStep c g trace (query a basetime) s b t → b ≠ .failure → t = s) :
    s.client = .eof ∨ s.client = .failed ∨ s.lost = true := by
  have hs := sound_of_run hquery rfl h
  rcases hclient : s.client with len | _ | _ | _
  case sending => exact absurd hclient (not_sending_of_stuck hstuck len)
  case eof => exact Or.inl rfl
  case failed => exact Or.inr (Or.inl rfl)
  case receiving =>
    refine Or.inr (Or.inr ?_)
    by_contra hlost
    have hopen := not_finished_of_stuck hstuck hclient (by simpa using hlost)
    have hr : s.server.running = true := by
      by_contra hr
      exact hopen (Or.inr (by simpa using hr))
    have hrecv := receiving_of_stuck hstuck hr
    -- The query is there when the server waits for it.
    have hunread := hs.unread (Or.inr hrecv)
    have hup : s.up = query a basetime := by
      have hsent := hs.query_sent hclient
      rwa [hunread, List.nil_append] at hsent
    have hlen := length_query a basetime
    have hne : query a basetime ≠ [] := List.length_pos_iff.mp (by omega)
    have hread := hstuck _ _ (.serverRecv (query a basetime) hne (by rw [hup]) hquery.le
      (.data hr (.recv hrecv (requestOutcome_dataRequest _)))) (by rintro ⟨⟩)
    have hrequest := congrArg Net.request hread
    rw [hunread] at hrequest
    exact hne hrequest

/-- After the download of a megabyte and the end of the server nothing can happen. -/
theorem client_served_oneMegabyte :
    ∃ actions s, Run (WholeStep .amd64 ⟨5, 1, 1, 2⟩ [] (query oneMegabyte 12))
        (Net.start (query oneMegabyte 12)) actions s ∧
      (∀ b t, NetStep .amd64 ⟨5, 1, 1, 2⟩ [] (query oneMegabyte 12) s b t → b ≠ .failure → t = s) ∧
      (s.client = .eof ∨ s.client = .failed ∨ s.lost = true) := by
  have hquery : (query oneMegabyte 12).length < 1024 := by decide +kernel
  obtain ⟨actions, s, hrun, heof, hr, hmain, hret, -, -⟩ :=
    exists_run_download .amd64 ⟨5, 1, 1, 2⟩ [] oneMegabyte 12 hquery
  have hexit := hrun.append (.single ⟨.server rfl (.main hr (.join hmain hret)), trivial⟩)
  have hstuck : ∀ b t, NetStep .amd64 ⟨5, 1, 1, 2⟩ [] (query oneMegabyte 12)
      { s with server := { s.server with running := false } } b t → b ≠ .failure →
      t = { s with server := { s.server with running := false } } := by
    intro b t hstep hb
    cases hstep with
    | server _ h => cases h.running
    | serverRecv _ _ _ _ h => cases h.running
    | serverSend _ h => cases h.running
    | clientSend _ hc _ => cases heof.symm.trans hc
    | clientSent hc _ => cases heof.symm.trans hc
    | clientRecv _ hc _ _ _ => cases heof.symm.trans hc
    | clientEof hc _ _ _ => cases heof.symm.trans hc
    | _ => exact absurd rfl hb
  exact ⟨_, _, hexit, hstuck,
    client_served .amd64 ⟨5, 1, 1, 2⟩ [] oneMegabyte 12 hquery _ _ hexit hstuck⟩

end NatcpSpec.System
