import RiftLang.Proofs.Rejection.Report
import RiftLang.Proofs.Trace.Prefix

/-!
# Rejections depend on what was looked at

Whether a source is rejected, and with which error, is settled by its characters up to the farthest
one looked at.

* `Diagnostic.ofSpan_congr`, `ofFrontier_congr` — reports read no farther than their spans, and so
  errors no farther than their frontier.
* `rejection_depends_on_inspected_prefix` — a rejection that did not look past the end is that of
  every source with the same beginning.
-/

namespace RiftLang

variable {source source' : String}

/-- The report of a span reads no farther than the span. -/
theorem Diagnostic.ofSpan_congr {k : Nat} (htake : source.toList.take k = source'.toList.take k)
    {t : Token} (hstart : t.start ≤ k) (hstop : t.stop ≤ k) :
    ofSpan source t = ofSpan source' t := by
  have htake : ∀ {i}, i ≤ k → source.toList.take i = source'.toList.take i := fun {i} hi => by
    have h := congrArg (List.take i) htake
    rwa [List.take_take, List.take_take, Nat.min_eq_left hi] at h
  unfold ofSpan
  rw [htake hstart, htake hstop]

/-- The error of a frontier reads no farther than the frontier, as long as no anchor does. -/
theorem ofFrontier_congr {f : Frontier}
    (htake : source.toList.take f.offset = source'.toList.take f.offset)
    (hanchors : ∀ t ∈ f.anchors, t.start ≤ t.stop ∧ t.stop ≤ f.offset) (config : Config) :
    SyntaxError.ofFrontier source.toList.toArray f config =
      .ofFrontier source'.toList.toArray f config := by
  have hreports : (config.limited f.anchors).map (Diagnostic.ofSpan source)
      = (config.limited f.anchors).map (Diagnostic.ofSpan source') := by
    refine List.map_congr_left fun t ht => ?_
    obtain ⟨hspan, hstop⟩ := hanchors t (Config.mem_of_mem_limited ht)
    exact Diagnostic.ofSpan_congr htake (hspan.trans hstop) hstop
  rw [ofFrontier_eq, ofFrontier_eq, hreports, htake]

/-- A source that is rejected without a look past its end is rejected alike whatever comes after the
farthest character looked at. -/
theorem rejection_depends_on_inspected_prefix {config : Config} {e : SyntaxError}
    (h : recognize config source = .error e) (hinside : e.farthestOffset < source.length)
    (htake : source'.toList.take (e.farthestOffset + 1) =
      source.toList.take (e.farthestOffset + 1)) :
    recognize config source' = .error e := by
  obtain ⟨t, sights, c, first, hrejected⟩ := exists_rejection h
  have herror := hrejected.error_eq
  have hoffset : e.farthestOffset = first.offset := congrArg SyntaxError.farthestOffset herror
  rw [hoffset] at hinside htake
  -- the other source reaches as far and has the same characters up to there
  have hsize : first.offset < source.toList.toArray.size := by
    rw [List.size_toArray, String.length_toList]
    exact hinside
  have hsize' : first.offset < source'.toList.toArray.size := by
    have hlength := congrArg List.length htake
    simp only [List.length_take, String.length_toList, List.size_toArray] at hlength ⊢
    omega
  have hagree : ∀ i ≤ first.offset, source.toList.toArray[i]? = source'.toList.toArray[i]? :=
    fun i hi => by
    have hget := congrArg (·[i]?) htake
    simpa [List.getElem?_take, Nat.lt_succ_of_le hi] using hget.symm
  have hlooks : ∀ l ∈ t.looks, l.offset ≤ first.offset := fun l hl => by
    have hle := Trace.offset_le_frontier hl
    rwa [← hrejected.frontier_eq] at hle
  -- so matching it leaves the same trace, and with the trace the same frontier
  have htraces := hrejected.traces.of_agree hlooks (Nat.zero_le _) hsize hsize' hagree
  obtain ⟨-, -, -, -, hrecognize⟩ := exists_run_of_traces config htraces
  rw [hrecognize, hrejected.matched_eq, herror, ← hrejected.frontier_eq]
  have hbefore : source'.toList.take first.offset = source.toList.take first.offset := by
    have htake := congrArg (List.take first.offset) htake
    rwa [List.take_take, List.take_take, Nat.min_eq_left (Nat.le_succ _)] at htake
  exact congrArg Except.error
    (ofFrontier_congr hbefore hrejected.path.reports_anchors.spans_le config)

set_option maxRecDepth 100000 in
/-- An expression is missing before the closing brace. What comes after the brace does not
matter. -/
theorem rejection_depends_on_inspected_prefix_brace :
    ∃ e, recognize {} "a=>\x7b b=\x7d" = .error e ∧
    e.farthestOffset = 7 ∧ recognize {} "a=>\x7b b=\x7d b => \x7b 1 \x7d" = .error e := by
  obtain ⟨e, he, hcheck⟩ : ∃ e, recognize {} "a=>\x7b b=\x7d" = .error e ∧
      decide (e.farthestOffset = 7) = true :=
    exists_error_of_check (by decide +kernel)
  have hoffset := of_decide_eq_true hcheck
  have hinside : e.farthestOffset < "a=>\x7b b=\x7d".length := by
    rw [hoffset]
    decide
  have htake : "a=>\x7b b=\x7d b => \x7b 1 \x7d".toList.take (e.farthestOffset + 1)
      = "a=>\x7b b=\x7d".toList.take (e.farthestOffset + 1) := by
    rw [hoffset]
    decide
  exact ⟨e, he, hoffset, rejection_depends_on_inspected_prefix he hinside htake⟩

end RiftLang
