import RiftLang.Proofs.Trace

/-!
# A trace depends on what it looked at

Patterns see a source only through their looks. Two sources that agree as far as a pattern looks on
the one give it the same trace, whatever follows on the other.

* `Carries` — what is done from an offset on one source is done on the other, as long as no look
  goes past `k`.
* `Pattern.carries_trace`, `Grammar.carries_trace` — so it is for every pattern and every rule, on
  sources that agree up to `k`. A repetition is bounded by the length of its source, but ends before
  that bound on either.
* `Traces.of_agree` — a trace on one source is a trace on the other.
-/

namespace RiftLang

/-- Where `f` looks no farther than `k`, it stays within one past `k` and `f'` does the same. -/
def Carries (k : Nat) (f f' : Nat → Option Trace) : Prop :=
  ∀ p t, p ≤ k + 1 → f p = some t → (∀ l ∈ t.looks, l.offset ≤ k) → p ≤ t.stop ∧ t.stop ≤ k + 1 ∧
    f' p = some t

section carries

variable {k : Nat} {f f' : Nat → Option Trace}

/-- The looks of two traces in a row are the looks of both. -/
theorem forall_looks_andThen {t u : Trace} (h : ∀ l ∈ (t.andThen u).looks, l.offset ≤ k) :
    (∀ l ∈ t.looks, l.offset ≤ k) ∧ ∀ l ∈ u.looks, l.offset ≤ k := by
  obtain ⟨ht, hu⟩ := List.forall_mem_append.1 h
  exact ⟨ht, fun l hl => hu (l.after t.tokens) (List.mem_map.2 ⟨l, hl, rfl⟩)⟩

/-- Inside a capture the offsets looked at are those of its body. -/
theorem forall_looks_inside {t : Trace} {symbol : Symbol} {p : Nat}
    (h : ∀ l ∈ (t.inside symbol p).looks, l.offset ≤ k) : ∀ l ∈ t.looks, l.offset ≤ k :=
  fun l hl => h (l.within symbol p) (List.mem_map.2 ⟨l, hl, rfl⟩)

/-- Both repetitions end by themselves: each round moves on, and none gets farther than one past
`k`. -/
theorem Carries.repeatTrace (hbody : Carries k f f') {budget budget' p : Nat} {t : Trace}
    (hp : p ≤ k + 1) (hbudget : k + 1 < budget + p) (hbudget' : k + 1 < budget' + p)
    (h : RiftLang.repeatTrace f budget p = some t) (hlooks : ∀ l ∈ t.looks, l.offset ≤ k) :
    p ≤ t.stop ∧ t.stop ≤ k + 1 ∧ RiftLang.repeatTrace f' budget' p = some t := by
  induction budget generalizing budget' p t with
  | zero => omega
  | succ budget ih =>
      obtain ⟨budget', rfl⟩ : ∃ b, budget' = b + 1 := ⟨budget' - 1, by omega⟩
      unfold RiftLang.repeatTrace at h ⊢
      obtain ⟨u, hu, h⟩ := Option.bind_eq_some_iff.1 h
      by_cases hm : u.matched = true
      · simp only [hm, if_true] at h
        by_cases hstop : u.stop = p
        · simp only [hstop, if_true, Option.some.injEq] at h
          subst h
          obtain ⟨hle, hle', hu'⟩ := hbody p u hp hu hlooks
          exact ⟨hle, hle', by simp [hu', hm, hstop]⟩
        · simp only [hstop, if_false] at h
          obtain ⟨w, hw, rfl⟩ := Option.map_eq_some_iff.1 h
          obtain ⟨hlooksu, hlooksw⟩ := forall_looks_andThen hlooks
          obtain ⟨hle, hle', hu'⟩ := hbody p u hp hu hlooksu
          obtain ⟨hwle, hwle', hw'⟩ :=
            ih hle' (by omega) (show k + 1 < budget' + u.stop by omega) hw hlooksw
          exact ⟨hle.trans hwle, hwle', by simp [hu', hm, hstop, hw']⟩
      · simp only [hm, Bool.false_eq_true, if_false, Option.some.injEq] at h
        subst h
        obtain ⟨-, -, hu'⟩ := hbody p u hp hu hlooks
        exact ⟨Nat.le_refl _, hp, by simp [hu', hm]⟩

/-- A capture is carried over if its body is. -/
theorem Carries.inside (hbody : Carries k f f') (symbol : Symbol) :
    Carries k (fun p => (f p).map (.inside symbol p)) (fun p => (f' p).map (.inside symbol p)) := by
  intro p t hp h hlooks
  obtain ⟨u, hu, rfl⟩ := Option.map_eq_some_iff.1 h
  obtain ⟨hle, hle', hu'⟩ := hbody p u hp hu (forall_looks_inside hlooks)
  have hbounds : p ≤ (u.inside symbol p).stop ∧ (u.inside symbol p).stop ≤ k + 1 :=
    Trace.stop_inside_of (P := fun n => p ≤ n ∧ n ≤ k + 1) ⟨hle, hle'⟩ ⟨Nat.le_refl p, hp⟩ symbol
  exact ⟨hbounds.1, hbounds.2, by simp [hu']⟩

end carries

section sources

variable {source source' : Array Char} {k : Nat} {callee callee' : Rule → Nat → Option Trace}

/-- A pattern does the same on sources that agree as far as it looks, if the rules that it calls
do. -/
theorem Pattern.carries_trace (hsize : k < source.size) (hsize' : k < source'.size)
    (hagree : ∀ i ≤ k, source[i]? = source'[i]?) (hcallee : ∀ r, Carries k (callee r) (callee' r))
    (pattern : Pattern) : Carries k (pattern.trace source callee)
    (pattern.trace source' callee') := by
  induction pattern with
  | succeed =>
      intro p t hp h hlooks
      cases h
      exact ⟨Nat.le_refl _, hp, rfl⟩
  | one test =>
      intro p t hp h hlooks
      cases h
      have hpk : p ≤ k := hlooks _ List.mem_cons_self
      have hstep : Trace.step source' test p = Trace.step source test p := by
        unfold Trace.step
        rw [hagree p hpk]
      have hbounds : p ≤ (Trace.step source test p).stop ∧
          (Trace.step source test p).stop ≤ k + 1 :=
        Trace.stop_step_of (P := fun n => p ≤ n ∧ n ≤ k + 1)
          (fun _ => ⟨Nat.le_succ p, Nat.succ_le_succ hpk⟩)
          ⟨Nat.le_refl p, hp⟩
      exact ⟨hbounds.1, hbounds.2, congrArg some hstep⟩
  | both first second ihf ihs =>
      intro p t hp h hlooks
      unfold trace at h ⊢
      obtain ⟨u, hu, h⟩ := Option.bind_eq_some_iff.1 h
      by_cases hm : u.matched = true
      · simp only [hm, if_true] at h
        obtain ⟨w, hw, rfl⟩ := Option.map_eq_some_iff.1 h
        obtain ⟨hlooksu, hlooksw⟩ := forall_looks_andThen hlooks
        obtain ⟨hle, hle', hu'⟩ := ihf p u hp hu hlooksu
        obtain ⟨hwle, hwle', hw'⟩ := ihs u.stop w hle' hw hlooksw
        exact ⟨hle.trans hwle, hwle', by simp [hu', hm, hw']⟩
      · simp only [hm, Bool.false_eq_true, if_false, Option.some.injEq] at h
        subst h
        obtain ⟨hle, hle', hu'⟩ := ihf p u hp hu hlooks
        exact ⟨hle, hle', by simp [hu', hm]⟩
  | either first second ihf ihs =>
      intro p t hp h hlooks
      unfold trace at h ⊢
      obtain ⟨u, hu, h⟩ := Option.bind_eq_some_iff.1 h
      by_cases hm : u.matched = true
      · simp only [hm, if_true, Option.some.injEq] at h
        subst h
        obtain ⟨hle, hle', hu'⟩ := ihf p u hp hu hlooks
        exact ⟨hle, hle', by simp [hu', hm]⟩
      · simp only [hm, Bool.false_eq_true, if_false] at h
        obtain ⟨w, hw, rfl⟩ := Option.map_eq_some_iff.1 h
        obtain ⟨hlooksu, hlooksw⟩ := forall_looks_andThen hlooks
        rw [Trace.looks_settle] at hlooksw
        obtain ⟨-, -, hu'⟩ := ihf p u hp hu hlooksu
        obtain ⟨hwle, hwle', hw'⟩ := ihs p w hp hw hlooksw
        have hbounds : p ≤ (w.settle p).stop ∧ (w.settle p).stop ≤ k + 1 :=
          Trace.stop_settle_of (P := fun n => p ≤ n ∧ n ≤ k + 1) ⟨hwle, hwle'⟩ ⟨Nat.le_refl p, hp⟩
        exact ⟨hbounds.1, hbounds.2, by simp [hu', hm, hw']⟩
  | many body ih =>
      intro p t hp h hlooks
      exact ih.repeatTrace hp (by omega) (by omega) h hlooks
  | absent body ih =>
      intro p t hp h hlooks
      obtain ⟨u, hu, rfl⟩ := Option.map_eq_some_iff.1 h
      obtain ⟨-, -, hu'⟩ := ih p u hp hu hlooks
      exact ⟨Nat.le_refl p, hp, Option.map_eq_some_iff.2 ⟨u, hu', rfl⟩⟩
  | rule r body ih => exact ih.inside (.rule r)
  | text body ih => exact ih.inside .text
  | memo r body ih => exact ih.inside (.rule r)
  | action a =>
      intro p t hp h hlooks
      cases h
      exact ⟨Nat.le_refl _, hp, rfl⟩
  | call r => exact hcallee r

/-- A rule does the same on sources that agree as far as it looks. -/
theorem Grammar.carries_trace (g : Grammar) (hsize : k < source.size) (hsize' : k < source'.size)
    (hagree : ∀ i ≤ k, source[i]? = source'[i]?) (depth : Nat) (r : Rule) :
    Carries k (g.trace source depth r) (g.trace source' depth r) := by
  induction depth generalizing r with
  | zero =>
      intro p t hp h hlooks
      cases h
  | succ depth ih => exact (g r).carries_trace hsize hsize' hagree ih

/-- A trace that looks no farther than two sources agree is a trace on both. -/
theorem Traces.of_agree {g : Grammar} {pattern : Pattern} {p : Nat} {t : Trace}
    (h : Traces g source pattern p t) (hlooks : ∀ l ∈ t.looks, l.offset ≤ k) (hp : p ≤ k)
    (hsize : k < source.size) (hsize' : k < source'.size)
    (hagree : ∀ i ≤ k, source[i]? = source'[i]?) : Traces g source' pattern p t := by
  obtain ⟨depth, h⟩ := h
  obtain ⟨-, -, h'⟩ :=
    pattern.carries_trace hsize hsize' hagree (g.carries_trace hsize hsize' hagree depth)
      p t (by omega) h hlooks
  exact ⟨depth, h'⟩

end sources

end RiftLang
