import NatcpSpec.Server.Loader

/-!
# Bounds of trace loading

The reading loop of `start_server`, `src/server.cc:267–284`, on any file. A line that does
not give three numbers is rejected after its first one or two have been written to the
entry in use, and the next line writes there again. The index moves on with every complete
line and is never compared with the number of allocated entries.
-/

namespace NatcpSpec.Server

open NatcpSpec.Base

/-- The number of conversions that succeed on a line; each of them writes a field. -/
def conversions (c : Arith) (line : Text) : ℕ :=
  (scanFile c (STrace.entry ⟨0, 0, 0⟩) (cString line)).2

/-- The entry of a line with three numbers. -/
def lineEntry (c : Arith) (line : Text) : Option Entry :=
  if conversions c line = 3 then some (scanFile c (STrace.entry ⟨0, 0, 0⟩) (cString line)).1
  else none

/-- Loading writes only allocated entries, and leaves the entries of the complete lines of
the file, in order. -/
structure LoadsInside (c : Arith) (file : Text) (mem : ℕ → Entry) : Prop where
  no_overrun : (load c file mem).overrun = false
  numLines_le : (load c file mem).numLines ≤ maxLines
  entries : (List.range (load c file mem).numLines).map (load c file mem).trace =
    (fgetsLines lineBuffer 0 file).filterMap (lineEntry c)

/-- Every line that writes anything comes after fewer complete lines than there are
entries. -/
def WritesBelow (c : Arith) (lines : List Text) : Prop :=
  ∀ k line, lines[k]? = some line → conversions c line ≠ 0 →
    ((lines.take k).filterMap (lineEntry c)).length < maxLines

/-! ### One line -/

section Line

variable {c : Arith}

/-- What is written to an entry and how much of it does not depend on what was there. -/
theorem scanFile_eq (tr : Entry) (line : Text) :
    (scanFile c tr (cString line)).2 = conversions c line ∧
    ∀ e, lineEntry c line = some e → (scanFile c tr (cString line)).1 = e := by
  unfold lineEntry conversions scanFile
  rcases scanFloat c (cString line) with _ | ⟨time, rest⟩
  · simp
  rcases h : scanFloat c rest with _ | ⟨bw, rest⟩
  · simp [h]
  rcases h' : scanFloat c rest with _ | ⟨minRtt, rest⟩
  · simp [h, h']
  · simp [h, h']

/-- A line fills the next entry if it is complete, and leaves all complete entries. -/
theorem loadLine_spec (s : Loader) (line : Text) :
    (loadLine c s line).numLines = s.numLines + (lineEntry c line).toList.length ∧
    (∀ i < s.numLines, (loadLine c s line).trace i = s.trace i) ∧
    (∀ e, lineEntry c line = some e → (loadLine c s line).trace s.numLines = e) ∧
    (loadLine c s line).overrun =
      (s.overrun || (conversions c line != 0 && decide (maxLines ≤ s.numLines))) := by
  obtain ⟨hcount, hentry⟩ := scanFile_eq (s.trace s.numLines) line
  unfold loadLine
  dsimp only
  refine ⟨?_, ?_, ?_, ?_⟩
  · rw [hcount]
    unfold lineEntry
    split <;> rfl
  · intro i hi
    rw [Function.update_of_ne (by omega)]
  · intro e he
    rw [Function.update_self, hentry e he]
  · rw [hcount]

end Line

/-! ### The file -/

section Lines

variable (c : Arith) (mem : ℕ → Entry)

/-- After any lines the complete ones among them fill the first entries, in order. -/
theorem entries_foldl_loadLine (lines : List Text) :
    (lines.foldl (loadLine c) ⟨mem, 0, false⟩).numLines = (lines.filterMap (lineEntry c)).length ∧
    (List.range (lines.foldl (loadLine c) ⟨mem, 0, false⟩).numLines).map
      (lines.foldl (loadLine c) ⟨mem, 0, false⟩).trace = lines.filterMap (lineEntry c) := by
  induction lines using List.reverseRecOn with
  | nil => exact ⟨rfl, rfl⟩
  | append_singleton lines line ih =>
    obtain ⟨hnum, hentries⟩ := ih
    obtain ⟨hnext, hkeep, hnew, -⟩ := loadLine_spec (lines.foldl (loadLine c) ⟨mem, 0, false⟩) line
    have hold : (List.range (lines.foldl (loadLine c) ⟨mem, 0, false⟩).numLines).map
        (loadLine c (lines.foldl (loadLine c) ⟨mem, 0, false⟩) line).trace =
        lines.filterMap (lineEntry c) := by
      rw [← hentries]
      apply List.map_congr_left
      intro i hi
      exact hkeep i (List.mem_range.mp hi)
    rw [List.foldl_append, List.foldl_cons, List.foldl_nil, List.filterMap_append]
    cases he : lineEntry c line with
    | none =>
      rw [he] at hnext
      rw [List.filterMap_cons_none he, List.filterMap_nil, List.append_nil, hnext]
      exact ⟨hnum, hold⟩
    | some e =>
      rw [he] at hnext
      rw [List.filterMap_cons_some he, List.filterMap_nil, List.length_append, hnext,
        Option.toList_some, List.length_singleton, List.range_succ, List.map_append,
        List.map_singleton, hold, hnew e he, hnum]
      exact ⟨rfl, rfl⟩

/-- An entry past the allocated ones is written exactly if a line that writes comes after
as many complete lines as there are entries. -/
theorem overrun_foldl_loadLine (lines : List Text) :
    (lines.foldl (loadLine c) ⟨mem, 0, false⟩).overrun = false ↔ WritesBelow c lines := by
  induction lines using List.reverseRecOn with
  | nil => simp [WritesBelow]
  | append_singleton lines line ih =>
    obtain ⟨hnum, -⟩ := entries_foldl_loadLine c mem lines
    obtain ⟨-, -, -, hover⟩ := loadLine_spec (lines.foldl (loadLine c) ⟨mem, 0, false⟩) line
    rw [List.foldl_append, List.foldl_cons, List.foldl_nil, hover, Bool.or_eq_false_iff, ih, hnum]
    constructor
    · rintro ⟨hbelow, hline⟩ k l hk hc
      rcases Nat.lt_trichotomy k lines.length with hlt | rfl | hgt
      · rw [List.getElem?_append_left hlt] at hk
        rw [List.take_append_of_le_length hlt.le]
        exact hbelow k l hk hc
      · rw [List.getElem?_concat_length, Option.some.injEq] at hk
        rw [List.take_left]
        subst hk
        simpa [hc] using hline
      · rw [List.getElem?_eq_none (by simp; omega)] at hk
        cases hk
    · intro hbelow
      constructor
      · intro k l hk hc
        have hlt := (List.getElem?_eq_some_iff.mp hk).1
        have h := hbelow k l (by rw [List.getElem?_append_left hlt]; exact hk) hc
        rwa [List.take_append_of_le_length hlt.le] at h
      · by_cases hc : conversions c line = 0
        · simp [hc]
        · have h := hbelow lines.length line List.getElem?_concat_length hc
          rw [List.take_left] at h
          simp [h]

/-- Lines that write below the bound are at most as many complete ones as entries. -/
theorem length_entries_le {lines : List Text} (h : WritesBelow c lines) :
    (lines.filterMap (lineEntry c)).length ≤ maxLines := by
  induction lines using List.reverseRecOn with
  | nil => exact Nat.zero_le _
  | append_singleton lines line ih =>
    rw [List.filterMap_append, List.length_append]
    cases he : lineEntry c line with
    | none =>
      rw [List.filterMap_cons_none he, List.filterMap_nil, List.length_nil, Nat.add_zero]
      apply ih
      intro k l hk hc
      have hlt := (List.getElem?_eq_some_iff.mp hk).1
      have hb := h k l (by rw [List.getElem?_append_left hlt]; exact hk) hc
      rwa [List.take_append_of_le_length hlt.le] at hb
    | some e =>
      have hc : conversions c line ≠ 0 := by
        intro h0
        simp [lineEntry, h0] at he
      have hb := h lines.length line List.getElem?_concat_length hc
      rw [List.take_left] at hb
      rw [List.filterMap_cons_some he, List.filterMap_nil, List.length_singleton]
      omega

end Lines

/-- Loading stays inside its array exactly for the files in which every line that writes
anything comes after fewer complete lines than there are entries. -/
theorem loadsInside_iff (c : Arith) (file : Text) (mem : ℕ → Entry) :
    LoadsInside c file mem ↔ WritesBelow c (fgetsLines lineBuffer 0 file) := by
  obtain ⟨hnum, hentries⟩ := entries_foldl_loadLine c mem (fgetsLines lineBuffer 0 file)
  have hover := overrun_foldl_loadLine c mem (fgetsLines lineBuffer 0 file)
  constructor
  · intro h
    exact hover.mp h.no_overrun
  · intro h
    exact ⟨hover.mpr h, hnum.trans_le (length_entries_le c h), hentries⟩

/-! ### Files of one line, repeated -/

/-- The line `1 1 1` without its end. -/
def onesLine : Text := [49, 32, 49, 32, 49]

private theorem fgetsLines_replicate (n : ℕ) :
    fgetsLines lineBuffer 0 (List.replicate n (onesLine ++ [10])).flatten =
      List.replicate n (onesLine ++ [10]) := by
  induction n with
  | zero => rfl
  | succ n ih =>
    rw [List.replicate_succ, List.flatten_cons, List.append_assoc, List.singleton_append,
      fgetsLines_append_cons (by decide) (by decide), ih]

private theorem lineEntry_onesLine :
    lineEntry .amd64 (onesLine ++ [10]) = some (STrace.entry ⟨1, 1, 1⟩) := by
  decide +kernel

/-- A file with one complete line more than there are entries overruns the array. -/
theorem not_loadsInside_replicate :
    ¬LoadsInside .amd64 (List.replicate (maxLines + 1) (onesLine ++ [10])).flatten
      (fun _ ↦ STrace.entry ⟨0, 0, 0⟩) := by
  intro h
  have hle := h.numLines_le
  obtain ⟨hnum, -⟩ := entries_foldl_loadLine .amd64 (fun _ ↦ STrace.entry ⟨0, 0, 0⟩)
    (fgetsLines lineBuffer 0 (List.replicate (maxLines + 1) (onesLine ++ [10])).flatten)
  rw [load, hnum, fgetsLines_replicate, List.filterMap_replicate_of_some lineEntry_onesLine,
    List.length_replicate] at hle
  omega

end NatcpSpec.Server
