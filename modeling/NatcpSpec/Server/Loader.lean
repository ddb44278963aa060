import NatcpSpec.Base.ScanFloat
import NatcpSpec.Server.Feedback
import Mathlib.Data.List.Forall2

/-!
# Trace loading

`scan_file` and the reading loop of `start_server`, `src/server.cc:124–132,267–284`. Each
line that `fgets` returns is scanned into the entry after the last complete one; a line
without three numbers leaves what it had in that entry and the entry in use.
-/

namespace NatcpSpec.Server

open NatcpSpec.Base

/-- `MAXLINES`, the number of entries allocated; `src/server.cc:124,268`. -/
def maxLines : ℕ := 2000000

/-- Size of the line buffer; `src/server.cc:267`. -/
def lineBuffer : ℕ := 4096

/-- The C string in a buffer, up to its terminator. -/
def cString (buf : Text) : Text := buf.takeWhile (· != 0)

/-- An entry in memory. What is read as a double may also be an infinity or a NaN. -/
structure Entry where
  time : Number
  bw : Number
  minRtt : Number
deriving DecidableEq

/-- An entry of rationals in memory. -/
def STrace.entry (e : STrace) : Entry := ⟨.finite e.time, .finite e.bw, .finite e.minRtt⟩

/-- The entry as rationals, if its fields are. -/
def Entry.toSTrace? (e : Entry) : Option STrace := do
  return ⟨← e.time.toRat?, ← e.bw.toRat?, ← e.minRtt.toRat?⟩

@[simp] theorem toSTrace?_entry (e : STrace) : e.entry.toSTrace? = some e := rfl

/-- The three conversions of `sscanf` into an entry, and the number of them that succeeded;
`src/server.cc:129`. -/
def scanFile (c : Arith) (tr : Entry) (line : Text) : Entry × ℕ :=
  match scanFloat c line with
  | none => (tr, 0)
  | some (time, rest) =>
    match scanFloat c rest with
    | none => ({ tr with time := time }, 1)
    | some (bw, rest) =>
      match scanFloat c rest with
      | none => ({ tr with time := time, bw := bw }, 2)
      | some (minRtt, _) => (⟨time, bw, minRtt⟩, 3)

/-- The entries, the number of complete ones, and whether an entry past the allocated
ones was written. -/
structure Loader where
  trace : ℕ → Entry
  numLines : ℕ
  overrun : Bool

/-- One turn of the reading loop; `src/server.cc:280–283`. -/
def loadLine (c : Arith) (s : Loader) (line : Text) : Loader :=
  let scanned := scanFile c (s.trace s.numLines) (cString line)
  { trace := Function.update s.trace s.numLines scanned.1
    numLines := if scanned.2 = 3 then s.numLines + 1 else s.numLines
    overrun := s.overrun || (scanned.2 != 0 && maxLines ≤ s.numLines) }

/-- The reading loop over a file, from entries of any content; `src/server.cc:278–284`. -/
def load (c : Arith) (file : Text) (mem : ℕ → Entry) : Loader :=
  (fgetsLines lineBuffer 0 file).foldl (loadLine c) ⟨mem, 0, false⟩

/-- The entries that are in use after loading, if all their fields are rationals. -/
def entries (l : Loader) : Option (List STrace) :=
  (List.range l.numLines).mapM (fun i ↦ (l.trace i).toSTrace?)

/-- The entries that are in use, if they are known. -/
theorem entries_eq_some {l : Loader} {n : ℕ} {trace : ℕ → STrace} (hn : l.numLines = n)
    (h : ∀ i < n, l.trace i = (trace i).entry) :
    entries l = some ((List.range n).map trace) := by
  have hall : ∀ is : List ℕ, (∀ i ∈ is, i < n) →
      is.mapM (fun i ↦ (l.trace i).toSTrace?) = some (is.map trace) := by
    intro is his
    induction is with
    | nil => rfl
    | cons i is ih =>
      rw [List.forall_mem_cons] at his
      simp [h i his.1, ih his.2]
  rw [entries, hn]
  exact hall _ (fun i hi ↦ List.mem_range.mp hi)

/-- A line that is scanned to a complete entry. -/
def Scans (c : Arith) (line : Text) (e : Entry) : Prop :=
  ∀ tr, scanFile c tr (cString line) = (e, 3)

section Complete

variable {c : Arith}

/-- A complete line fills the next entry. -/
theorem loadLine_of_scans {line : Text} {e : Entry} (h : Scans c line e) (s : Loader)
    (hmax : s.numLines < maxLines) :
    loadLine c s line = ⟨Function.update s.trace s.numLines e, s.numLines + 1, s.overrun⟩ := by
  have hlt : ¬ maxLines ≤ s.numLines := not_le.mpr hmax
  simp [loadLine, h _, hlt]

/-- Complete lines fill the entries one after the other. -/
theorem foldl_loadLine {lines : List Text} {es : List Entry}
    (h : List.Forall₂ (Scans c) lines es) (s : Loader) (hmax : s.numLines + es.length ≤ maxLines) :
    (lines.foldl (loadLine c) s).numLines = s.numLines + es.length ∧
    (lines.foldl (loadLine c) s).overrun = s.overrun ∧
    (∀ i < s.numLines, (lines.foldl (loadLine c) s).trace i = s.trace i) ∧
    ∀ i e, es[i]? = some e → (lines.foldl (loadLine c) s).trace (s.numLines + i) = e := by
  induction h generalizing s with
  | nil => simp
  | @cons line e lines es hline hrest ih =>
    rw [List.length_cons] at hmax
    have hstep := loadLine_of_scans hline s (by omega)
    have ih' := ih (loadLine c s line) (by rw [hstep]; dsimp only; omega)
    rw [List.foldl_cons, List.length_cons]
    rw [hstep] at ih' ⊢
    dsimp only at ih'
    rcases ih' with ⟨hnum, hover, hkeep, hnew⟩
    refine ⟨by omega, hover, ?_, ?_⟩
    · intro i hi
      rw [hkeep i (by omega), Function.update_of_ne (by omega)]
    · intro i e' hi
      cases i with
      | zero =>
        rw [List.getElem?_cons_zero, Option.some.injEq] at hi
        rw [hkeep _ (by omega)]
        simpa using hi
      | succ i =>
        rw [List.getElem?_cons_succ] at hi
        rw [← hnew i e' hi]
        congr 1
        omega

end Complete

end NatcpSpec.Server
