import RiftLang.Proofs.Position
import RiftLang.Proofs.Rejection.Anchors

/-!
# Reports on rejected sources

The reports on a rejected source locate the first of the farthest looks that matching it took.

* `Diagnostic.ofSpan` — the report of a span, with positions by counting.
* `ofFrontier_eq` — the error of a frontier in these terms: its reports are those of the anchors.
* `diagnostics_locate_rejection` — which spans are reported for a rejected source, and how.
-/

namespace RiftLang

/-- The report of a span. -/
def Diagnostic.ofSpan (source : String) (t : Token) : Diagnostic where
  depth := t.depth
  symbol := t.symbol
  start := .after (source.toList.take t.start)
  stop := .after (source.toList.take t.stop)
  text := String.ofList ((source.toList.take t.stop).drop t.start)

/-- The anchors that are reported, which a limit may cut short. -/
def Config.limited (config : Config) (anchors : List Token) : List Token :=
  match config.maxDiagnostics with
  | some limit => anchors.take limit
  | none => anchors

/-- A limit adds no anchor. -/
theorem Config.mem_of_mem_limited {config : Config} {anchors : List Token} {t : Token}
    (h : t ∈ config.limited anchors) : t ∈ anchors := by
  unfold limited at h
  split at h
  · exact List.mem_of_mem_take h
  · exact h

/-- The error of a frontier, with positions by counting. -/
theorem ofFrontier_eq (source : String) (f : Frontier) (config : Config) :
    SyntaxError.ofFrontier source.toList.toArray f config =
      let diagnostics := (config.limited f.anchors).map (Diagnostic.ofSpan source)
      let farthest := Position.after (source.toList.take f.offset)
      { message := SyntaxError.wording diagnostics farthest config.colorizeDiagnostics
        diagnostics := diagnostics
        farthest := farthest
        farthestOffset := f.offset } := by
  let anchors := config.limited f.anchors
  let offsets := f.offset :: anchors.flatMap fun t => [t.start, t.stop]
  let positions := positionsOf source.toList.toArray offsets
  let report (t : Token) : Diagnostic :=
    ⟨t.depth, t.symbol, positions.at t.start, positions.at t.stop,
      slice source.toList.toArray t.start t.stop⟩
  have herror : SyntaxError.ofFrontier source.toList.toArray f config =
      ⟨SyntaxError.wording (anchors.map report) (positions.at f.offset) config.colorizeDiagnostics,
        anchors.map report, positions.at f.offset, f.offset⟩ := rfl
  have hfarthest : positions.at f.offset = .after (source.toList.take f.offset) :=
    at_positionsOf source.toList.toArray List.mem_cons_self
  have hreports : anchors.map report = anchors.map (Diagnostic.ofSpan source) := by
    refine List.map_congr_left fun t ht => ?_
    have hstart : t.start ∈ offsets := List.mem_cons_of_mem _ (List.mem_flatMap.2 ⟨t, ht, by simp⟩)
    have hstop : t.stop ∈ offsets := List.mem_cons_of_mem _ (List.mem_flatMap.2 ⟨t, ht, by simp⟩)
    have hslice : slice source.toList.toArray t.start t.stop
        = String.ofList ((source.toList.take t.stop).drop t.start) := by
      simp [slice, List.extract_eq_take_drop, List.drop_take]
    show Diagnostic.mk t.depth t.symbol (positions.at t.start) (positions.at t.stop) _ = _
    rw [at_positionsOf _ hstart, at_positionsOf _ hstop, hslice]
    rfl
  rw [herror, hreports, hfarthest]

/-- Every rejected source is reported, if reports are not limited, for the first of the farthest
sights that matching it took: the spans reported are those that this sight has to be reported
with. -/
theorem diagnostics_locate_rejection {config : Config} {source : String} {e : SyntaxError}
    (h : recognize config source = .error e) (hlimit : config.maxDiagnostics = none) :
    ∃ sights c first spans,
      (Cursor.ofString source config.initialTokenCapacity).tryMatch .rift (.call .source) =
        (false, c) ∧
      (Pattern.call .source).watch (Grammar.rift.watch (Grammar.callBound source.length))
        (.ofString source config.initialTokenCapacity) = some (sights, false, c) ∧
      IsFirstFarthest sights first ∧ e.farthestOffset = first.offset ∧
      first.offset ≤ source.length ∧
      first.Reports spans ∧ e.diagnostics = spans.map (Diagnostic.ofSpan source) := by
  obtain ⟨t, sights, c, first, hrejected⟩ := exists_rejection h
  have herror := hrejected.error_eq
  rw [ofFrontier_eq, Config.limited, hlimit] at herror
  subst herror
  exact ⟨sights, c, first, first.anchors, hrejected.tryMatch_eq, hrejected.watch_eq,
    hrejected.firstFarthest, rfl, hrejected.path.offset_le, hrejected.path.reports_anchors, rfl⟩

set_option maxRecDepth 100000 in
/-- An expression is missing on the second line. At the depth of the block that is open stands the
name before it. -/
theorem diagnostics_locate_rejection_no_expression : ∃ e sights c first spans,
    recognize {} "a=>\x7b\nb=\x7d" = .error e ∧
    (Pattern.call .source).watch (Grammar.rift.watch (Grammar.callBound "a=>\x7b\nb=\x7d".length))
      (.ofString "a=>\x7b\nb=\x7d" 1024) = some (sights, false, c) ∧
    IsFirstFarthest sights first ∧ first.offset = 7 ∧ first.Reports spans ∧
    e.diagnostics = spans.map (Diagnostic.ofSpan "a=>\x7b\nb=\x7d") ∧
    e.diagnostics.map (fun d => (d.depth, d.symbol)) =
      [(4, .rule .assignment), (3, .rule .line), (2, .rule .riftName), (1, .rule .rift),
        (0, .rule .source)] := by
  obtain ⟨e, he, hcheck⟩ : ∃ e, recognize {} "a=>\x7b\nb=\x7d" = .error e ∧
      decide (e.farthestOffset = 7 ∧
      e.diagnostics.map (fun d => (d.depth, d.symbol)) =
        [(4, .rule .assignment), (3, .rule .line), (2, .rule .riftName), (1, .rule .rift),
          (0, .rule .source)]) = true :=
    exists_error_of_check (by decide +kernel)
  obtain ⟨hoffset, hreports⟩ := of_decide_eq_true hcheck
  obtain ⟨sights, c, first, spans, -, hwatch, hfirst, hfarthest, -, hspans, hdiagnostics⟩ :=
    diagnostics_locate_rejection he rfl
  exact ⟨e, sights, c, first, spans, he, hwatch, hfirst, hfarthest ▸ hoffset, hspans,
    hdiagnostics, hreports⟩

end RiftLang
