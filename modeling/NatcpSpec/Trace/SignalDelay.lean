import NatcpSpec.Trace.Tools

/-!
# Signal delay

`mm-thr:112–115,165–173`, and the same lines in `feedback/mm-throughput-minrtt` and `mm-del`.
The tools measure for every millisecond how long a message created then takes to get to the
receiver. They only know the delays of packets, so that a millisecond without a packet takes
one millisecond more than the next. This is what the comment in the source says as long as
of the packets created together one departs no later than every packet created then or later.
-/

namespace NatcpSpec.Trace

open NatcpSpec.Base

/-! ### What is measured -/

/-- When the packet of a departure was created. -/
def LogEvent.created (e : LogEvent) : ℚ := e.time - (e.delay.bind Number.toRat?).getD 0

/-- The minimum time for a message created at `t` to get to the receiver: with the packet
that departs first of those created from then on. -/
def IsSignalDelay (es : List LogEvent) (t d : ℚ) : Prop :=
  IsLeast { x | ∃ e ∈ es, e.kind = .departure ∧ t ≤ e.created ∧ x = e.time - t } d

/-- The table of the departures; `mm-thr:112–115`. -/
def noted (es : List LogEvent) : Series Number Number := es.foldl (noteEvent .exact) ∅

/-- The loop over the signal delays ends, and leaves the signal delay of every millisecond
between packets in the table. -/
def MeasuresSignalDelay (es : List LogEvent) : Prop :=
  ∃ n, ∀ p : Perl, n ≤ p.fuel → ∃ table, measureSignalDelay .exact p (noted es) = some table ∧
    ∀ t : ℤ, (∃ e ∈ es, e.kind = .departure ∧ e.created ≤ t) →
      (∃ e ∈ es, e.kind = .departure ∧ t ≤ e.created) →
        ∃ d : ℚ, table.lookup (.finite t) = some (.finite d) ∧ IsSignalDelay es t d

/-- Of the packets created together, one departs no later than every packet created then or
later. -/
def NoOvertaking (es : List LogEvent) : Prop :=
  ∀ e ∈ es, ∀ e' ∈ es, e.kind = .departure → e'.kind = .departure → e.created ≤ e'.created →
    ∃ e'' ∈ es, e''.kind = .departure ∧ e''.created = e.created ∧ e''.time ≤ e'.time

/-- Delays are whole milliseconds. -/
def WholeDelays (es : List LogEvent) : Prop :=
  ∀ e ∈ es, ∀ delay ∈ e.delay, ∃ n : ℤ, delay = .finite n

/-! ### Entries -/

section Entries

variable {es : List LogEvent} (hwhole : WholeDelays es)

include hwhole

private theorem exists_int_created {e : LogEvent} (he : e ∈ es) (hkind : e.kind = .departure) :
    ∃ n : ℤ, e.delay = some (.finite n) ∧ e.created = ((e.time - n : ℤ) : ℚ) := by
  obtain ⟨delay, hdelay⟩ := Option.isSome_iff_exists.mp (e.delay_isSome.mpr hkind)
  obtain ⟨n, rfl⟩ := hwhole e he delay hdelay
  refine ⟨n, hdelay, ?_⟩
  rw [LogEvent.created, hdelay]
  simp

private theorem mem_entries (k w : Number) :
    (k, w) ∈ es.filterMap (delayEntry .exact) ↔ ∃ e ∈ es, e.kind = .departure ∧
      k = .finite e.created ∧ w = .finite (e.time - e.created) := by
  have hentry : ∀ e ∈ es, e.kind = .departure →
      delayEntry .exact e = some (.finite e.created, .finite (e.time - e.created)) := by
    intro e he hkind
    obtain ⟨n, hdelay, hcreated⟩ := exists_int_created hwhole he hkind
    have hsub : (e.time : ℚ) - n = ((e.time - n : ℤ) : ℚ) := by push_cast; rfl
    rw [delayEntry, hdelay, Option.map_some, Number.sub_finite, Arith.exact_round, hsub,
      hashKey_intCast, hcreated]
    simp [leastDelay]
  rw [List.mem_filterMap]
  constructor
  · rintro ⟨e, he, h⟩
    have hkind : e.kind = .departure := by
      rw [← e.delay_isSome]
      rw [delayEntry, Option.map_eq_some_iff] at h
      obtain ⟨delay, hdelay, -⟩ := h
      rw [hdelay]
      rfl
    rw [hentry e he hkind, Option.some.injEq, Prod.mk.injEq] at h
    exact ⟨e, he, hkind, h.1.symm, h.2.symm⟩
  · rintro ⟨e, he, hkind, rfl, rfl⟩
    exact ⟨e, he, hentry e he hkind⟩

private theorem lookup_noted {t : ℚ} {w : Number} (h : (noted es).lookup (.finite t) = some w) :
    ∃ d : ℚ, w = .finite d ∧
      IsLeast { x | ∃ e ∈ es, e.kind = .departure ∧ e.created = t ∧ x = e.time - t } d := by
  rw [noted, foldl_noteEvent, Series.lookup_ofEntries_eq_some] at h
  obtain ⟨hmem, hle⟩ := h
  obtain ⟨e, he, hkind, hk, rfl⟩ := (mem_entries hwhole _ _).mp hmem
  rw [Number.finite.injEq] at hk
  refine ⟨_, rfl, ⟨e, he, hkind, hk.symm, by rw [hk]⟩, ?_⟩
  rintro _ ⟨e', he', hkind', rfl, rfl⟩
  have hmin := hle ((mem_entries hwhole _ _).mpr ⟨e', he', hkind', rfl, rfl⟩)
  rwa [Number.finite_le_finite] at hmin

private theorem lookup_noted_eq_none (t : ℚ) : (noted es).lookup (.finite t) = none ↔
    ∀ e ∈ es, e.kind = .departure → e.created ≠ t := by
  rw [noted, foldl_noteEvent, Series.lookup_ofEntries_eq_none]
  simp only [mem_entries hwhole, Number.finite.injEq]
  grind

private theorem mem_keys_noted (k : Number) :
    k ∈ (noted es).keys ↔ ∃ e ∈ es, e.kind = .departure ∧ .finite e.created = k := by
  rw [noted, foldl_noteEvent, Series.mem_keys_ofEntries]
  simp only [mem_entries hwhole]
  grind

end Entries

/-! ### The loop -/

section Loop

variable {es : List LogEvent}

-- The samples go from the first packet created to the last.
private theorem samples_spec (hwhole : WholeDelays es) {first last : ℤ}
    (hfirst : IsLeast { t : ℚ | ∃ e ∈ es, e.kind = .departure ∧ e.created = t } first)
    (hlast : IsGreatest { t : ℚ | ∃ e ∈ es, e.kind = .departure ∧ e.created = t } last) (p : Perl) :
    (signalDelaySamples p (noted es)).head? = some (.finite first) ∧
      (signalDelaySamples p (noted es)).getLast? = some (.finite last) := by
  have hmem : ∀ k, k ∈ signalDelaySamples p (noted es) ↔
      ∃ e ∈ es, e.kind = .departure ∧ .finite e.created = k := by
    intro k
    rw [signalDelaySamples, (p.keySort.perm _).mem_iff, mem_keys_noted hwhole]
  have hsorted : (signalDelaySamples p (noted es)).Pairwise (· ≤ ·) := by
    apply p.keySort.sorted
    rw [mem_keys_noted hwhole]
    rintro ⟨e, -, -, h⟩
    cases h
  have hbounds : ∀ k ∈ signalDelaySamples p (noted es), .finite first ≤ k ∧ k ≤ .finite last := by
    intro k hk
    obtain ⟨e, he, hkind, rfl⟩ := (hmem k).mp hk
    rw [Number.finite_le_finite, Number.finite_le_finite]
    exact ⟨hfirst.2 ⟨e, he, hkind, rfl⟩, hlast.2 ⟨e, he, hkind, rfl⟩⟩
  have hfirstMem : .finite (first : ℚ) ∈ signalDelaySamples p (noted es) := by
    obtain ⟨e, he, hkind, h⟩ := hfirst.1
    exact (hmem _).mpr ⟨e, he, hkind, congrArg _ h⟩
  have hlastMem : .finite (last : ℚ) ∈ signalDelaySamples p (noted es) := by
    obtain ⟨e, he, hkind, h⟩ := hlast.1
    exact (hmem _).mpr ⟨e, he, hkind, congrArg _ h⟩
  generalize signalDelaySamples p (noted es) = samples at hsorted hbounds hfirstMem hlastMem
  constructor
  · match samples, hsorted, hbounds, hfirstMem with
    | k :: rest, hsorted, hbounds, hfirstMem =>
      rw [List.head?_cons, Option.some.injEq]
      refine le_antisymm ?_ (hbounds k List.mem_cons_self).1
      rcases List.mem_cons.mp hfirstMem with h | h
      · exact h.ge
      · exact (List.pairwise_cons.mp hsorted).1 _ h
  · rcases List.eq_nil_or_concat samples with rfl | ⟨init, k, rfl⟩
    · cases hlastMem
    rw [List.concat_eq_append] at hsorted hbounds hlastMem ⊢
    rw [List.getLast?_append_of_ne_nil _ (by simp), List.getLast?_singleton, Option.some.injEq]
    refine le_antisymm (hbounds k (by simp)).2 ?_
    rcases List.mem_append.mp hlastMem with h | h
    · exact (List.pairwise_append.mp hsorted).2.2 _ h k (by simp)
    · exact (List.mem_singleton.mp h).le

-- Between packets, a time has its own entry or follows the next one.
private def Filled (es : List LogEvent) (table : Series Number Number) : Prop :=
  ∀ t : ℤ, (∃ e ∈ es, e.kind = .departure ∧ e.created ≤ t) →
    (∃ e ∈ es, e.kind = .departure ∧ t ≤ e.created) →
      table.lookup (.finite t) = some (((noted es).lookup (.finite t)).getD
        (signalAbove .exact (table.lookup (.finite ((t + 1 : ℤ) : ℚ)))))

private theorem lookup_fill_range (first : ℤ) (n : ℕ) {t : ℤ} (hlow : first ≤ t)
    (hhigh : t < first + n) (s : Series Number Number) :
    let table := s.fill (signalAbove .exact) ((List.range n).map (fun i : ℕ ↦
      (.finite ((first + n - 1 - i : ℤ) : ℚ), .finite ((first + n - i : ℤ) : ℚ))))
    table.lookup (.finite t) = some ((s.lookup (.finite t)).getD
      (signalAbove .exact (table.lookup (.finite ((t + 1 : ℤ) : ℚ))))) := by
  refine Series.lookup_fill (signalAbove .exact) ?_ ?_ ?_ s
  · rw [List.pairwise_map]
    refine List.pairwise_lt_range.imp ?_
    intro i j hij
    simp only [ne_eq, Number.finite.injEq, Int.cast_inj]
    omega
  · refine List.mem_map.mpr ⟨(first + n - 1 - t).toNat, List.mem_range.mpr (by omega), ?_⟩
    rw [Prod.mk.injEq, Number.finite.injEq, Number.finite.injEq, Int.cast_inj, Int.cast_inj]
    omega
  · simp

-- The loop ends, and has filled the times between packets.
private theorem exists_filled (hwhole : WholeDelays es) : ∃ n, ∀ p : Perl, n ≤ p.fuel →
    ∃ table, measureSignalDelay .exact p (noted es) = some table ∧ Filled es table := by
  by_cases hdep : ∃ e ∈ es, e.kind = .departure
  · -- The times of creation are finitely many integers.
    obtain ⟨first, last, hfirst, hlast⟩ : ∃ first last : ℤ,
        IsLeast { t : ℚ | ∃ e ∈ es, e.kind = .departure ∧ e.created = t } first ∧
        IsGreatest { t : ℚ | ∃ e ∈ es, e.kind = .departure ∧ e.created = t } last := by
      have hfinite : { t : ℚ | ∃ e ∈ es, e.kind = .departure ∧ e.created = t }.Finite := by
        apply ((es.map LogEvent.created).toFinset.finite_toSet).subset
        rintro t ⟨e, he, -, rfl⟩
        simpa using ⟨e, he, rfl⟩
      have hne : { t : ℚ | ∃ e ∈ es, e.kind = .departure ∧ e.created = t }.Nonempty := by
        obtain ⟨e, he, hkind⟩ := hdep
        exact ⟨e.created, e, he, hkind, rfl⟩
      obtain ⟨a, ⟨e, he, hkind, rfl⟩, hleast⟩ := Set.exists_min_image _ id hfinite hne
      obtain ⟨b, ⟨e', he', hkind', rfl⟩, hgreatest⟩ := Set.exists_max_image _ id hfinite hne
      obtain ⟨_, -, hn⟩ := exists_int_created hwhole he hkind
      obtain ⟨_, -, hn'⟩ := exists_int_created hwhole he' hkind'
      rw [hn] at hleast
      rw [hn'] at hgreatest
      exact ⟨_, _, ⟨⟨e, he, hkind, hn⟩, hleast⟩, ⟨e', he', hkind', hn'⟩, hgreatest⟩
    have hle : first ≤ last := by exact_mod_cast hfirst.2 hlast.1
    refine ⟨(last + 1 - first).toNat + 1, fun p hfuel ↦ ?_⟩
    obtain ⟨hhead, hend⟩ := samples_spec hwhole hfirst hlast p
    have hloop := signalLoop_exact first (n := (last + 1 - first).toNat) hfuel (noted es)
    rw [show first + ((last + 1 - first).toNat : ℤ) - 1 = last by omega] at hloop
    refine ⟨_, by rw [measureSignalDelay, hhead, hend]; exact hloop, ?_⟩
    rintro t ⟨e, he, hkind, hlow⟩ ⟨e', he', hkind', hhigh⟩
    have hfirst' : first ≤ t := by exact_mod_cast (hfirst.2 ⟨e, he, hkind, rfl⟩).trans hlow
    have hlast' : t ≤ last := by exact_mod_cast hhigh.trans (hlast.2 ⟨e', he', hkind', rfl⟩)
    have hfill := lookup_fill_range first (last + 1 - first).toNat hfirst' (by omega) (noted es)
    rwa [show first + ((last + 1 - first).toNat : ℤ) - 1 = last by omega] at hfill
  · refine ⟨0, fun p _ ↦ ⟨noted es, ?_, ?_⟩⟩
    · have hkeys : (noted es).keys = [] := by
        rw [List.eq_nil_iff_forall_not_mem]
        intro k hk
        obtain ⟨e, he, hkind, -⟩ := (mem_keys_noted hwhole k).mp hk
        exact hdep ⟨e, he, hkind⟩
      have hsamples : signalDelaySamples p (noted es) = [] := by
        rw [signalDelaySamples, hkeys]
        exact List.perm_nil.mp (p.keySort.perm [])
      rw [measureSignalDelay, hsamples]
      rfl
    · rintro t ⟨e, he, hkind, -⟩
      exact absurd ⟨e, he, hkind⟩ hdep

-- A hole takes one millisecond more than the next time.
private theorem IsSignalDelay.pred (hwhole : WholeDelays es) {t : ℤ} {d : ℚ}
    (h : IsSignalDelay es ((t + 1 : ℤ) : ℚ) d)
    (hnone : (noted es).lookup (.finite (t : ℚ)) = none) : IsSignalDelay es t (d + 1) := by
  rw [lookup_noted_eq_none hwhole] at hnone
  obtain ⟨⟨e, he, hkind, hcreated, rfl⟩, hle⟩ := h
  push_cast at hcreated hle
  constructor
  · refine ⟨e, he, hkind, by linarith, ?_⟩
    push_cast
    ring
  · rintro _ ⟨e', he', hkind', hcreated', rfl⟩
    -- Nothing is created at `t` itself, so the packet is created a millisecond later.
    obtain ⟨n, -, hn⟩ := exists_int_created hwhole he' hkind'
    have hne := hnone e' he' hkind'
    rw [hn] at hcreated' hne
    have hlt : t + 1 ≤ e'.time - n := by
      have hle' : t ≤ e'.time - n := by exact_mod_cast hcreated'
      have hne' : e'.time - n ≠ t := by exact_mod_cast hne
      omega
    have hnext : ((t : ℚ) + 1) ≤ e'.created := by
      rw [hn]
      exact_mod_cast hlt
    have hmin := hle ⟨e', he', hkind', hnext, rfl⟩
    push_cast
    linarith

private theorem isSignalDelay_of_entry (hwhole : WholeDelays es) (hfifo : NoOvertaking es) {t : ℚ}
    {w : Number} (h : (noted es).lookup (.finite t) = some w) :
    ∃ d : ℚ, w = .finite d ∧ IsSignalDelay es t d := by
  obtain ⟨d, rfl, ⟨e, he, hkind, hcreated, rfl⟩, hle⟩ := lookup_noted hwhole h
  refine ⟨_, rfl, ⟨e, he, hkind, hcreated.ge, rfl⟩, ?_⟩
  rintro _ ⟨e', he', hkind', hcreated', rfl⟩
  obtain ⟨e'', he'', hkind'', heq, htime⟩ :=
    hfifo e he e' he' hkind hkind' (hcreated.trans_le hcreated')
  have hmin := hle ⟨e'', he'', hkind'', heq.trans hcreated, rfl⟩
  have hcast : (e''.time : ℚ) ≤ e'.time := by exact_mod_cast htime
  linarith

private theorem isSignalDelay_of_filled (hwhole : WholeDelays es) (hfifo : NoOvertaking es)
    {table : Series Number Number} (hfilled : Filled es table) {t : ℤ}
    (hlow : ∃ e ∈ es, e.kind = .departure ∧ e.created ≤ t)
    (hhigh : ∃ e ∈ es, e.kind = .departure ∧ t ≤ e.created) :
    ∃ d : ℚ, table.lookup (.finite t) = some (.finite d) ∧ IsSignalDelay es t d := by
  have ⟨e₁, he₁, hkind₁, hle₁⟩ := hhigh
  obtain ⟨m, -, hn⟩ := exists_int_created hwhole he₁ hkind₁
  -- Downwards from a packet that is created later, as the loop goes.
  obtain ⟨k, hk⟩ : ∃ k : ℕ, t + k = e₁.time - m := by
    have hle : t ≤ e₁.time - m := by exact_mod_cast hn ▸ hle₁
    exact ⟨(e₁.time - m - t).toNat, by omega⟩
  induction k generalizing t with
  | zero =>
    cases hentry : (noted es).lookup (.finite (t : ℚ)) with
    | none =>
      refine absurd ?_ ((lookup_noted_eq_none hwhole _).mp hentry e₁ he₁ hkind₁)
      rw [hn, ← hk]
      simp
    | some w =>
      obtain ⟨d, rfl, hd⟩ := isSignalDelay_of_entry hwhole hfifo hentry
      exact ⟨d, by rw [hfilled t hlow hhigh, hentry, Option.getD_some], hd⟩
  | succ k ih =>
    cases hentry : (noted es).lookup (.finite (t : ℚ)) with
    | some w =>
      obtain ⟨d, rfl, hd⟩ := isSignalDelay_of_entry hwhole hfifo hentry
      exact ⟨d, by rw [hfilled t hlow hhigh, hentry, Option.getD_some], hd⟩
    | none =>
      have hle : ((t + 1 : ℤ) : ℚ) ≤ e₁.created := by
        rw [hn]
        exact_mod_cast (by omega : t + 1 ≤ e₁.time - m)
      have hlow' : ∃ e ∈ es, e.kind = .departure ∧ e.created ≤ ((t + 1 : ℤ) : ℚ) := by
        obtain ⟨e₀, he₀, hkind₀, hle₀⟩ := hlow
        refine ⟨e₀, he₀, hkind₀, ?_⟩
        push_cast
        linarith
      obtain ⟨d, hd, hsignal⟩ := ih hlow' ⟨e₁, he₁, hkind₁, hle⟩ hle (by omega)
      refine ⟨d + 1, ?_, hsignal.pred hwhole hentry⟩
      rw [hfilled t hlow hhigh, hentry, Option.getD_none, hd]
      rfl

end Loop

/-- For delays in whole milliseconds, the tools measure the signal delay exactly if of the packets
created together one departs no later than every packet created then or later. -/
theorem measuresSignalDelay_iff (es : List LogEvent) (hwhole : WholeDelays es) :
    MeasuresSignalDelay es ↔ NoOvertaking es := by
  obtain ⟨n, hn⟩ := exists_filled hwhole
  constructor
  · rintro ⟨m, hm⟩ e he e' he' hkind hkind' hle
    obtain ⟨table, htable, hmeasures⟩ := hm (.sorted (n + m)) (Nat.le_add_left _ _)
    obtain ⟨table', htable', hfilled⟩ := hn (.sorted (n + m)) (Nat.le_add_right _ _)
    obtain rfl : table' = table := Option.some.inj (htable'.symm.trans htable)
    obtain ⟨k, -, ht⟩ := exists_int_created hwhole he hkind
    obtain ⟨d, hd, -, hmin⟩ := hmeasures _ ⟨e, he, hkind, ht.le⟩ ⟨e, he, hkind, ht.ge⟩
    -- There is a packet created at this time, so that its entry stays.
    cases hentry : (noted es).lookup (.finite ((e.time - k : ℤ) : ℚ)) with
    | none => exact absurd ht ((lookup_noted_eq_none hwhole _).mp hentry e he hkind)
    | some w =>
      rw [hfilled _ ⟨e, he, hkind, ht.le⟩ ⟨e, he, hkind, ht.ge⟩, hentry, Option.getD_some] at hd
      obtain ⟨d', rfl, ⟨e'', he'', hkind'', hcreated, rfl⟩, -⟩ := lookup_noted hwhole hentry
      refine ⟨e'', he'', hkind'', hcreated.trans ht.symm, ?_⟩
      rw [Option.some.injEq, Number.finite.injEq] at hd
      have hbound := hmin ⟨e', he', hkind', ht ▸ hle, rfl⟩
      have hcast : (e''.time : ℚ) ≤ e'.time := by linarith
      exact_mod_cast hcast
  · intro hfifo
    refine ⟨n, fun p hfuel ↦ ?_⟩
    obtain ⟨table, htable, hfilled⟩ := hn p hfuel
    exact ⟨table, htable,
      fun t hlow hhigh ↦ isSignalDelay_of_filled hwhole hfifo hfilled hlow hhigh⟩

/-- Packets created at 1 and at 4 that depart in this order: a message created at 2 waits for
the second of them. -/
theorem measuresSignalDelay_iff_hole : ∃ es : List LogEvent,
    es.map LogEvent.created = [1, 4] ∧
      (measureSignalDelay .exact (.sorted 10) (noted es)).bind
        (fun table ↦ table.lookup (.finite 2)) = some (.finite 3) ∧
      MeasuresSignalDelay es := by
  let es : List LogEvent :=
    [⟨3, .departure, 8, some (.finite 2), by simp⟩, ⟨5, .departure, 8, some (.finite 1), by simp⟩]
  have hwhole : WholeDelays es := by
    intro e he delay hdelay
    simp only [es, List.mem_cons, List.not_mem_nil, or_false] at he
    rcases he with rfl | rfl
    · cases hdelay
      exact ⟨2, rfl⟩
    · cases hdelay
      exact ⟨1, by norm_num⟩
  have hfifo : NoOvertaking es := by
    unfold NoOvertaking
    decide +kernel
  exact ⟨es, by decide +kernel, by decide +kernel, (measuresSignalDelay_iff es hwhole).mpr hfifo⟩

end NatcpSpec.Trace
