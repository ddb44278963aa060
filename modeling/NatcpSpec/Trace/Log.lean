import NatcpSpec.Base.Loop
import NatcpSpec.Base.ScanFloat
import NatcpSpec.Base.Tally
import NatcpSpec.Trace.Generator
import NatcpSpec.Trace.SignalLoop

/-!
# Reading a log

The event loop of `feedback/mm-throughput-minrtt:41–116` and `mm-thr:41–120`. Both take a
log line by line, and stop at the first line that they cannot use; `mm-thr` leaves out the
events up to the base timestamp. Timestamps, byte counts and what is added up of them are integers,
as in Perl up to the range of 64 bits. A delay is a text that Perl makes a double of where it is
computed with.

The loop is compared with `logEvents`, which says what events a log holds without regard to
bins: for bins of any size but zero, the loop accounts for exactly these.
-/

namespace NatcpSpec.Trace

open NatcpSpec.Base

/-! ### Complaints -/

/-- Why a tool stops with a message of its own; `mm-throughput-minrtt:9,46–184`. -/
inductive Die where
  | usage
  | baseMultiplyDefined
  | format
  | invalidTimestamp (timestamp : Text)
  | invalidByteCount (numBytes : Text)
  | missingBase
  | departureFormat
  | invalidDelay (delay : Text)
  | invalidTimestampAndDelay (timestamp : ℤ) (delay : Text)
  | unknownEventType (eventType : Text)
  | noEvent
  | noDeparture
  | binTooLarge
deriving DecidableEq

/-- How a tool stops before its rows. -/
inductive Stop where
  /-- One of the tool's own checks fails. -/
  | die (d : Die)
  /-- Perl stops at a division by zero. -/
  | divisionByZero
  /-- The loop over the signal delays has not ended yet. -/
  | outOfFuel
deriving DecidableEq

/-- A division, as Perl evaluates it. -/
def divide (c : Arith) (a b : ℚ) : Except Stop ℚ :=
  if b = 0 then .error .divisionByZero else .ok (c.round (a / b))

/-! ### Lines -/

/-- `# base timestamp: `; `mm-throughput-minrtt:44`. -/
def baseHeader : Text :=
  [35, 32, 98, 97, 115, 101, 32, 116, 105, 109, 101, 115, 116, 97, 109, 112, 58, 32]

/-- The pattern `^\d+$` on a text without line ends. -/
def isNumeral (t : Text) : Bool := t ≠ [] ∧ t.all isDigit

/-- A line by itself. -/
inductive LogLine where
  | base (value : ℕ)
  | comment
  | event (timestamp : ℕ) (eventType : Text) (numBytes : ℕ) (delay : Option Text)
deriving DecidableEq

/-- The fields of an event line, `split` at blanks; `mm-throughput-minrtt:56–68`. -/
def parseFields : List Text → Except Die LogLine
  | timestamp :: eventType :: numBytes :: rest =>
    if ¬isNumeral timestamp then .error (.invalidTimestamp timestamp)
    else if ¬isNumeral numBytes then .error (.invalidByteCount numBytes)
    else .ok (.event (digitsVal timestamp) eventType (digitsVal numBytes) rest.head?)
  | _ => .error .format

/-- A line; `mm-throughput-minrtt:44–68`. -/
def parseLine (line : Text) : Except Die LogLine :=
  let digits := (line.drop baseHeader.length).takeWhile isDigit
  if baseHeader.isPrefixOf line ∧ digits ≠ [] then .ok (.base (digitsVal digits))
  else if line.head? = some 35 then .ok .comment
  else parseFields (if line = [] then [] else splitRuns isSpace line)

/-- An event before its type is looked at, with its time after the base timestamp. -/
structure RawEvent where
  time : ℤ
  eventType : Text
  bits : ℕ
  delay : Option Text

/-- A line after the lines before it, up to the place where its bin is computed: the base
timestamp from then on, and the event if it is kept. `mm-throughput-minrtt:44–82`. -/
def checkLine (keep : ℤ → Bool) (base : Option ℕ) (line : Text) :
    Except Die (Option ℕ × Option RawEvent) :=
  match parseLine line with
  | .error d => .error d
  | .ok (.base value) =>
    if base.isSome then .error .baseMultiplyDefined else .ok (some value, none)
  | .ok .comment => .ok (base, none)
  | .ok (.event timestamp eventType numBytes delay) =>
    match base with
    | none => .error .missingBase
    | some value =>
      let time := (timestamp : ℤ) - value
      .ok (base, if keep time then some ⟨time, eventType, numBytes * 8, delay⟩ else none)

/-! ### Events -/

/-- An event of a log; departures and only these have a delay. -/
structure LogEvent where
  time : ℤ
  kind : Kind
  bits : ℕ
  delay : Option Number
  delay_isSome : delay.isSome = true ↔ kind = .departure
deriving DecidableEq

/-- A field as a number: an infinity or a NaN by its first letters, also in the spellings that
begin with `1#` or `1.#`, and otherwise the number that the field starts with, or zero. -/
def perlValue (c : Arith) (t : Text) : Number :=
  let neg := (signAndRest t).1
  let rest := (signAndRest t).2
  let odd : Bool := beginsWith [49, 35] rest || beginsWith [49, 46, 35] rest
  let word := if odd then (rest.dropWhile (· != 35)).tail else rest
  -- `inf`, `ind`, and `nan`, `snan` or `qnan`
  if beginsWith [105, 110, 102] word then .inf neg
  else if odd ∧ beginsWith [105, 110, 100] word then .nan
  else if beginsWith [110, 97, 110] word ∨ beginsWith [115, 110, 97, 110] word ∨
      beginsWith [113, 110, 97, 110] word then .nan
  else (scanNumber t).elim (.finite 0) (fun m ↦ .ofNumeral c m.1)

/-- The type of an event and the checks of a departure; `mm-throughput-minrtt:86–115`. -/
def RawEvent.read (c : Arith) (r : RawEvent) : Except Die LogEvent :=
  if r.eventType = [43] then .ok ⟨r.time, .arrival, r.bits, none, by decide⟩
  else if r.eventType = [35] then .ok ⟨r.time, .capacity, r.bits, none, by decide⟩
  else if r.eventType = [45] then
    match r.delay with
    | none => .error .departureFormat
    | some delay =>
      if (perlValue c delay).lessThan (.finite 0) then .error (.invalidDelay delay)
      else if ((Number.finite r.time).sub c (perlValue c delay)).lessThan (.finite 0) then
        .error (.invalidTimestampAndDelay r.time delay)
      else .ok ⟨r.time, .departure, r.bits, some (perlValue c delay), by simp⟩
  else .error (.unknownEventType r.eventType)

/-- What the loop has counted: the hashes and sums of the three kinds, the first and the
last time, the delays and their table. `mm-throughput-minrtt:30–39`. -/
structure Totals where
  first : Option ℤ
  last : Option ℤ
  bins : Kind → Tally ℤ
  sums : Kind → ℕ
  delays : List Number
  signalDelay : Series Number Number

/-- `ms_to_bin` of a size that is not zero; `mm-throughput-minrtt:22–24`. -/
def msToBin (c : Arith) (ms : ℕ) (time : ℤ) : ℤ := trunc (c.round ((time : ℚ) / ms))

/-- The table of signal delays after an event; `mm-throughput-minrtt:109–112`. -/
def noteEvent (c : Arith) (s : Series Number Number) (e : LogEvent) : Series Number Number :=
  match e.delay with
  | some delay => noteDelay c s e.time delay
  | none => s

/-- Account for an event; `mm-throughput-minrtt:76–113`. -/
def Totals.account (c : Arith) (ms : ℕ) (t : Totals) (e : LogEvent) : Totals where
  first := some (t.first.getD e.time)
  last := some (max e.time (t.last.getD e.time))
  bins := Function.update t.bins e.kind ((t.bins e.kind).add (msToBin c ms e.time) e.bits)
  sums := Function.update t.sums e.kind (t.sums e.kind + e.bits)
  delays := t.delays ++ e.delay.toList
  signalDelay := noteEvent c t.signalDelay e

/-- Nothing counted. -/
def Totals.empty : Totals := ⟨none, none, fun _ ↦ ∅, fun _ ↦ 0, [], ∅⟩

/-! ### The loop -/

/-- The variables of the loop. -/
structure LogState where
  base : Option ℕ
  totals : Totals

/-- One line of the loop. -/
def step (c : Arith) (keep : ℤ → Bool) (ms : ℕ) (s : LogState) (line : Text) :
    Except Stop LogState :=
  match checkLine keep s.base line with
  | .error d => .error (.die d)
  | .ok (base, none) => .ok { s with base := base }
  | .ok (base, some raw) =>
    -- The bin is computed before the type of the event is looked at.
    if ms = 0 then .error .divisionByZero
    else
      match raw.read c with
      | .error d => .error (.die d)
      | .ok e => .ok ⟨base, s.totals.account c ms e⟩

/-- The lines of a log one after the other; `mm-throughput-minrtt:41–116`. -/
def eventLoop (c : Arith) (keep : ℤ → Bool) (ms : ℕ) (s : LogState) (lines : List Text) :
    Except Stop LogState :=
  lines.foldlM (step c keep ms) s

/-- The state before the first line. -/
def LogState.start : LogState := ⟨none, .empty⟩

/-! ### What a log holds -/

/-- The events that are kept up to the first complaint about a line, and that complaint or
the base timestamp at the end. -/
def rawEvents (keep : ℤ → Bool) : Option ℕ → List Text → List RawEvent × Except Die (Option ℕ)
  | base, [] => ([], .ok base)
  | base, line :: lines =>
    match checkLine keep base line with
    | .error d => ([], .error d)
    | .ok (base', raw) =>
      (raw.toList ++ (rawEvents keep base' lines).1, (rawEvents keep base' lines).2)

/-- The events of a log, or the first complaint about it. -/
def logEvents (c : Arith) (keep : ℤ → Bool) (lines : List Text) : Except Die (List LogEvent) :=
  match (rawEvents keep none lines).1.mapM (RawEvent.read c), (rawEvents keep none lines).2 with
  | .error d, _ => .error d
  | .ok _, .error d => .error d
  | .ok es, .ok _ => .ok es

/-- What the loop has counted after some events. -/
def totalsOf (c : Arith) (ms : ℕ) (es : List LogEvent) : Totals :=
  es.foldl (Totals.account c ms) .empty

section Loop

variable {c : Arith} {keep : ℤ → Bool} {ms : ℕ}

/-- With bins of no size the loop stops at the first event. -/
theorem eventLoop_zero (s : LogState) (lines : List Text) :
    eventLoop c keep 0 s lines =
      if (rawEvents keep s.base lines).1 ≠ [] then .error .divisionByZero
      else
        match (rawEvents keep s.base lines).2 with
        | .error d => .error (.die d)
        | .ok base => .ok { s with base := base } := by
  induction lines generalizing s with
  | nil => rfl
  | cons line lines ih =>
    rw [eventLoop, List.foldlM_cons, rawEvents, step]
    rcases checkLine keep s.base line with d | ⟨base, _ | raw⟩
    · rfl
    · exact ih { s with base := base }
    · simp [bind, Except.bind]

/-- With bins of any other size the loop accounts for the events of the log. -/
theorem eventLoop_of_ne_zero (hms : ms ≠ 0) (s : LogState) (lines : List Text) :
    eventLoop c keep ms s lines =
      match (rawEvents keep s.base lines).1.mapM (RawEvent.read c),
        (rawEvents keep s.base lines).2 with
      | .error d, _ => .error (.die d)
      | .ok _, .error d => .error (.die d)
      | .ok es, .ok base => .ok ⟨base, es.foldl (Totals.account c ms) s.totals⟩ := by
  induction lines generalizing s with
  | nil => rfl
  | cons line lines ih =>
    rw [eventLoop, List.foldlM_cons, rawEvents, step]
    rcases checkLine keep s.base line with d | ⟨base, _ | raw⟩
    · rfl
    · exact ih { s with base := base }
    · dsimp only
      rw [if_neg hms, Option.toList_some, List.singleton_append, List.mapM_cons]
      rcases raw.read c with d | e
      · rfl
      · have h := ih ⟨base, s.totals.account c ms e⟩
        dsimp only at h
        change eventLoop c keep ms ⟨base, s.totals.account c ms e⟩ lines = _
        rw [h]
        rcases (rawEvents keep base lines).1.mapM (RawEvent.read c) with d | es
        · rfl
        · rcases (rawEvents keep base lines).2 with d | base'
          · rfl
          · rfl

/-- With bins of no size the loop divides by zero, or there is nothing to count. -/
theorem eventLoop_zero_start (c : Arith) (keep : ℤ → Bool) (lines : List Text) :
    ((rawEvents keep none lines).1 ≠ [] ∧
      eventLoop c keep 0 .start lines = .error .divisionByZero) ∨
    (rawEvents keep none lines).1 = [] ∧
      ((∃ d, eventLoop c keep 0 .start lines = .error (.die d)) ∨
        ∃ base, eventLoop c keep 0 .start lines = .ok ⟨base, .empty⟩) := by
  rw [eventLoop_zero]
  by_cases hraw : (rawEvents keep LogState.start.base lines).1 = []
  · refine Or.inr ⟨hraw, ?_⟩
    rw [if_neg (not_not.mpr hraw)]
    rcases (rawEvents keep LogState.start.base lines).2 with d | base
    · exact Or.inl ⟨d, rfl⟩
    · exact Or.inr ⟨base, rfl⟩
  · exact Or.inl ⟨hraw, if_pos hraw⟩

/-- The loop from the start: it complains as the log does, or has counted its events. -/
theorem eventLoop_start (c : Arith) (keep : ℤ → Bool) (hms : ms ≠ 0) (lines : List Text) :
    (∃ d, logEvents c keep lines = .error d ∧
      eventLoop c keep ms .start lines = .error (.die d)) ∨
    ∃ es base, logEvents c keep lines = .ok es ∧ (rawEvents keep none lines).2 = .ok base ∧
      eventLoop c keep ms .start lines = .ok ⟨base, totalsOf c ms es⟩ := by
  rw [eventLoop_of_ne_zero hms]
  unfold logEvents
  dsimp only [LogState.start]
  rcases (rawEvents keep none lines).1.mapM (RawEvent.read c) with d | es
  · exact Or.inl ⟨d, rfl, rfl⟩
  · rcases (rawEvents keep none lines).2 with d | base
    · exact Or.inl ⟨d, rfl, rfl⟩
    · exact Or.inr ⟨es, base, rfl, rfl, rfl⟩

/-- The loop counts the events of a log that is read to its end. -/
theorem eventLoop_of_logEvents (hms : ms ≠ 0) {lines : List Text} {es : List LogEvent}
    (h : logEvents c keep lines = .ok es) :
    ∃ base, (rawEvents keep none lines).2 = .ok base ∧
      eventLoop c keep ms .start lines = .ok ⟨base, totalsOf c ms es⟩ := by
  rcases eventLoop_start c keep hms lines with ⟨d, hd, -⟩ | ⟨es', base, hes', hbase, hloop⟩
  · rw [h] at hd
    cases hd
  · rw [h, Except.ok.injEq] at hes'
    exact ⟨base, hbase, hes' ▸ hloop⟩

private theorem checkLine_eq_ok {base base' : Option ℕ} {line : Text} {raw : Option RawEvent}
    (h : checkLine keep base line = .ok (base', raw)) :
    (∀ value ∈ base', value ∈ base ∨ parseLine line = .ok (.base value)) ∧
    ∀ r ∈ raw, keep r.time = true ∧ ∃ timestamp eventType numBytes delay, ∃ value ∈ base,
      parseLine line = .ok (.event timestamp eventType numBytes delay) ∧
        r = ⟨timestamp - value, eventType, numBytes * 8, delay⟩ := by
  unfold checkLine at h
  rcases hparse : parseLine line with d | value | _ | ⟨timestamp, eventType, numBytes, delay⟩ <;>
    simp only [hparse] at h
  · cases h
  · split at h
    · cases h
    · cases h
      simp
  · cases h
    simp
  · cases base with
    | none => cases h
    | some value =>
      cases h
      refine ⟨fun v hv ↦ Or.inl hv, ?_⟩
      intro r hr
      split at hr
      · next hkeep =>
        cases hr
        exact ⟨hkeep, timestamp, eventType, numBytes, delay, value, rfl, rfl, rfl⟩
      · cases hr

-- Every event comes from a line, behind a base timestamp that is known or comes from another
-- line.
private theorem exists_line_of_rawEvents {base : Option ℕ} {lines : List Text}
    (known : ℕ → Prop) (hbase : ∀ value ∈ base, known value)
    (hlines : ∀ line ∈ lines, ∀ value, parseLine line = .ok (.base value) → known value) :
    ∀ r ∈ (rawEvents keep base lines).1, keep r.time = true ∧
      ∃ line ∈ lines, ∃ timestamp eventType numBytes delay value, known value ∧
        parseLine line = .ok (.event timestamp eventType numBytes delay) ∧
          r = ⟨timestamp - value, eventType, numBytes * 8, delay⟩ := by
  induction lines generalizing base with
  | nil =>
    intro r hr
    cases hr
  | cons line lines ih =>
    intro r hr
    rw [List.forall_mem_cons] at hlines
    rw [rawEvents] at hr
    rcases hline : checkLine keep base line with d | ⟨base', raw⟩
    · simp [hline] at hr
    · obtain ⟨hnext, hraw⟩ := checkLine_eq_ok hline
      simp only [hline, List.mem_append, Option.mem_toList] at hr
      rcases hr with hr | hr
      · obtain ⟨hkeep, timestamp, eventType, numBytes, delay, value, hvalue, hparse, heq⟩ :=
          hraw r hr
        exact ⟨hkeep, line, List.mem_cons_self, timestamp, eventType, numBytes, delay, value,
          hbase value hvalue, hparse, heq⟩
      · have hknown : ∀ value ∈ base', known value := by
          intro value hvalue
          rcases hnext value hvalue with h | h
          · exact hbase value h
          · exact hlines.1 value h
        obtain ⟨hkeep, line', hline', hrest⟩ := ih hknown hlines.2 r hr
        exact ⟨hkeep, line', List.mem_cons_of_mem _ hline', hrest⟩

/-- Reading keeps the time. -/
theorem time_of_read {r : RawEvent} {e : LogEvent} (h : r.read c = .ok e) :
    e.time = r.time := by
  unfold RawEvent.read at h
  grind

/-- Departures and only these have a delay, that of their line. -/
theorem delay_of_read {r : RawEvent} {e : LogEvent} (h : r.read c = .ok e) :
    (r.eventType = [45] ∧ ∃ delay, r.delay = some delay ∧
      e.delay = some (perlValue c delay) ∧ e.time = r.time) ∨
    (r.eventType ≠ [45] ∧ e.delay = none) := by
  unfold RawEvent.read at h
  grind

/-- Every event of a log is that of a line, after the base timestamp of another line. -/
theorem exists_line_of_logEvents {lines : List Text} {es : List LogEvent}
    (h : logEvents c keep lines = .ok es) : ∀ e ∈ es, keep e.time = true ∧
      ∃ line ∈ lines, ∃ header ∈ lines, ∃ timestamp eventType numBytes delay value,
        parseLine header = .ok (.base value) ∧
        parseLine line = .ok (.event timestamp eventType numBytes delay) ∧
        RawEvent.read c ⟨timestamp - value, eventType, numBytes * 8, delay⟩ = .ok e := by
  intro e he
  unfold logEvents at h
  rcases hread : (rawEvents keep none lines).1.mapM (RawEvent.read c) with d | es'
  · simp [hread] at h
  · rcases hrest : (rawEvents keep none lines).2 with d | base
    · simp [hread, hrest] at h
    · obtain rfl : es' = es := by simpa [hread, hrest] using h
      obtain ⟨r, hr, hre⟩ := (mapM_mem hread).2 e he
      obtain ⟨hkeep, line, hline, timestamp, eventType, numBytes, delay, value, hheader, hparse,
          rfl⟩ := exists_line_of_rawEvents
        (fun value ↦ ∃ header ∈ lines, parseLine header = .ok (.base value))
        (by simp) (fun header hmem value hvalue ↦ ⟨header, hmem, hvalue⟩) r hr
      obtain ⟨header, hmem, hvalue⟩ := hheader
      refine ⟨?_, line, hline, header, hmem, timestamp, eventType, numBytes, delay, value, hvalue,
        hparse, hre⟩
      rw [time_of_read hre]
      exact hkeep

end Loop

/-! ### Timestamps of fifteen digits -/

/-- A timestamp has at most fifteen digits. -/
def LogLine.plainTime : LogLine → Bool
  | .base value => value < 10 ^ 15
  | .comment => true
  | .event timestamp _ _ _ => timestamp < 10 ^ 15

/-- Timestamps of at most fifteen digits, which are the same to Perl as integers, as doubles and as
texts. -/
def PlainTimes (lines : List Text) : Prop :=
  ∀ line ∈ lines, (parseLine line).toOption.all LogLine.plainTime = true

instance (lines : List Text) : Decidable (PlainTimes lines) :=
  inferInstanceAs (Decidable (∀ line ∈ lines, _))

/-- The times after the base timestamp have no more digits. -/
theorem PlainTimes.abs_time_lt {c : Arith} {keep : ℤ → Bool} {lines : List Text}
    {es : List LogEvent} (h : PlainTimes lines) (hes : logEvents c keep lines = .ok es) :
    ∀ e ∈ es, |e.time| < 10 ^ 15 := by
  intro e he
  obtain ⟨-, line, hline, header, hheader, timestamp, eventType, numBytes, delay, value, hvalue,
    hparse, hread⟩ := exists_line_of_logEvents hes e he
  have hbase := h header hheader
  have htime := h line hline
  simp only [hvalue, hparse, Except.toOption, Option.all_some, LogLine.plainTime,
    decide_eq_true_eq] at hbase htime
  rw [time_of_read hread, abs_lt]
  dsimp only
  omega

/-! ### What is counted -/

/-- The bits of some of the events. -/
def bitsWhere (p : LogEvent → Bool) (es : List LogEvent) : ℕ :=
  ((es.filter p).map LogEvent.bits).sum

section Counted

variable (c : Arith) (ms : ℕ) (es : List LogEvent)

/-- Bits of one event more. -/
theorem bitsWhere_append_singleton (p : LogEvent → Bool) (e : LogEvent) :
    bitsWhere p (es ++ [e]) = bitsWhere p es + if p e then e.bits else 0 := by
  rw [bitsWhere, List.filter_append, List.map_append, List.sum_append]
  by_cases h : p e = true
  · simp [h, bitsWhere]
  · simp [h, bitsWhere]

private theorem totalsOf_append_singleton (e : LogEvent) :
    totalsOf c ms (es ++ [e]) = (totalsOf c ms es).account c ms e := by
  rw [totalsOf, List.foldl_append]
  rfl

/-- A bin of a hash has the bits of its events. -/
theorem count_totalsOf (kind : Kind) (bin : ℤ) :
    ((totalsOf c ms es).bins kind).count bin =
      bitsWhere (fun e ↦ e.kind = kind ∧ msToBin c ms e.time = bin) es := by
  induction es using List.reverseRecOn with
  | nil => rfl
  | append_singleton es e ih =>
    rw [totalsOf_append_singleton, bitsWhere_append_singleton, ← ih, Totals.account]
    by_cases hk : e.kind = kind
    · subst hk
      simp [Tally.count_add]
    · simp [Function.update_of_ne (Ne.symm hk), hk]

/-- The keys of a hash are the bins of its events. -/
theorem mem_keys_totalsOf (kind : Kind) (bin : ℤ) :
    bin ∈ ((totalsOf c ms es).bins kind).keys ↔
      ∃ e ∈ es, e.kind = kind ∧ msToBin c ms e.time = bin := by
  induction es using List.reverseRecOn with
  | nil => simp [totalsOf, Totals.empty]
  | append_singleton es e ih =>
    rw [totalsOf_append_singleton, Totals.account]
    by_cases hk : e.kind = kind
    · subst hk
      simp [Tally.mem_keys_add, ih, or_comm, or_and_right, exists_or]
    · simp [Function.update_of_ne (Ne.symm hk), hk, ih, or_and_right, exists_or]

/-- A sum has the bits of all events of its kind. -/
theorem sums_totalsOf (kind : Kind) :
    (totalsOf c ms es).sums kind = bitsWhere (fun e ↦ e.kind = kind) es := by
  induction es using List.reverseRecOn with
  | nil => rfl
  | append_singleton es e ih =>
    rw [totalsOf_append_singleton, bitsWhere_append_singleton, ← ih, Totals.account]
    by_cases hk : e.kind = kind
    · subst hk
      simp
    · simp [Function.update_of_ne (Ne.symm hk), hk]

/-- The first time is that of the first event. -/
theorem first_totalsOf : (totalsOf c ms es).first = es.head?.map LogEvent.time := by
  induction es using List.reverseRecOn with
  | nil => rfl
  | append_singleton es e ih =>
    rw [totalsOf_append_singleton, Totals.account]
    dsimp only
    rw [ih]
    cases es <;> rfl

/-- The last time is the greatest of all. -/
theorem last_totalsOf {last : ℤ} (h : (totalsOf c ms es).last = some last) :
    IsGreatest { t | ∃ e ∈ es, e.time = t } last := by
  induction es using List.reverseRecOn generalizing last with
  | nil => cases h
  | append_singleton es e ih =>
    rw [totalsOf_append_singleton, Totals.account, Option.some.injEq] at h
    cases hlast : (totalsOf c ms es).last with
    | none =>
      have hnil : es = [] := by
        rcases List.eq_nil_or_concat es with rfl | ⟨init, x, rfl⟩
        · rfl
        · rw [List.concat_eq_append, totalsOf_append_singleton] at hlast
          cases hlast
      rw [hlast, Option.getD_none, max_self] at h
      subst hnil h
      simp [IsGreatest, upperBounds]
    | some m =>
      obtain ⟨⟨x, hx, hxm⟩, hub⟩ := ih hlast
      rw [hlast, Option.getD_some] at h
      constructor
      · rcases max_choice e.time m with hm | hm
        · exact ⟨e, by simp, by omega⟩
        · exact ⟨x, by simp [hx], by omega⟩
      · rintro t ⟨y, hy, rfl⟩
        rcases List.mem_append.mp hy with hy | hy
        · have hle := hub ⟨y, hy, rfl⟩
          omega
        · rw [List.mem_singleton.mp hy]
          omega

/-- There is a last time as soon as there is an event. -/
theorem last_totalsOf_isSome (h : es ≠ []) : ∃ last, (totalsOf c ms es).last = some last := by
  obtain ⟨init, e, rfl⟩ := (List.eq_nil_or_concat es).resolve_left h
  rw [List.concat_eq_append, totalsOf_append_singleton]
  exact ⟨_, rfl⟩

/-- The delays are those of the departures, in order. -/
theorem delays_totalsOf : (totalsOf c ms es).delays = es.filterMap LogEvent.delay := by
  induction es using List.reverseRecOn with
  | nil => rfl
  | append_singleton es e ih =>
    rw [totalsOf_append_singleton, Totals.account, List.filterMap_append]
    dsimp only
    rw [ih]
    cases hd : e.delay <;> simp [hd]

/-- The table is that of the departures, one after the other. -/
theorem signalDelay_totalsOf : (totalsOf c ms es).signalDelay = es.foldl (noteEvent c) ∅ := by
  induction es using List.reverseRecOn with
  | nil => rfl
  | append_singleton es e ih =>
    rw [totalsOf_append_singleton, Totals.account, List.foldl_append, ih]
    rfl

/-- What a departure enters in the table. -/
def delayEntry (e : LogEvent) : Option (Number × Number) :=
  e.delay.map (fun delay ↦ (hashKey c (.sub c (.finite e.time) delay), leastDelay delay))

/-- The table is made of the entries of the departures. -/
theorem foldl_noteEvent :
    es.foldl (noteEvent c) ∅ = Series.ofEntries (es.filterMap (delayEntry c)) := by
  rw [Series.ofEntries, List.foldl_filterMap]
  congr 1
  funext s e
  unfold noteEvent delayEntry
  cases e.delay <;> rfl

/-- The keys of the table are the times at which packets were created. -/
theorem mem_keys_signalDelay (k : Number) :
    k ∈ (totalsOf c ms es).signalDelay.keys ↔
      ∃ e ∈ es, ∃ delay, e.delay = some delay ∧ hashKey c (.sub c (.finite e.time) delay) = k := by
  rw [signalDelay_totalsOf, foldl_noteEvent, Series.mem_keys_ofEntries]
  simp only [List.mem_filterMap, delayEntry, Option.map_eq_some_iff, Prod.mk.injEq]
  constructor
  · rintro ⟨w, e, he, delay, hdelay, hk, -⟩
    exact ⟨e, he, delay, hdelay, hk⟩
  · rintro ⟨e, he, delay, hdelay, hk⟩
    exact ⟨_, e, he, delay, hdelay, hk, rfl⟩

end Counted

end NatcpSpec.Trace
