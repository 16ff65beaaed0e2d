import Mathlib.Algebra.Order.Ring.Nat
import Mathlib.Order.Bounds.Basic
import RiftLang.Token.Log

/-!
# A log is a list, and its reservation doubles

Slots of a log are written over, added and dropped in any order. The tokens are those of a plain
list that goes through the same changes. The reservation depends on the greatest length that the
list has had on the way and on nothing else: dropping slots keeps it, so it has to fit the history
of lengths and not the last one.

* `IsLeastDoubling` — the least number that makes room and is reached by doubling.
* `Log.Change` — a slot is recorded, or slots are dropped, of a log (`apply`) and of a list
  (`applyList`).
* `Log.Change.peak` — the greatest length that a list has on the way.
* `Log.Holds.apply` — what one change keeps, and `Log.Holds.applyAll` — what all changes keep.
* `log_is_list_with_least_doubling` — tokens and reservation of a new log after any changes.
-/

namespace RiftLang

/-! ## Doublings -/

/-- The least of the numbers `base * 2 ^ k` that is at least `n`. -/
def IsLeastDoubling (base n capacity : Nat) : Prop :=
  IsLeast {m | (∃ k, m = base * 2 ^ k) ∧ n ≤ m} capacity

namespace IsLeastDoubling

variable {base n m capacity : Nat}

/-- The least doubling makes room for what it is the least doubling for. -/
theorem le (h : IsLeastDoubling base n capacity) : n ≤ capacity :=
  h.1.2

/-- Where there is room to begin with, nothing is doubled. -/
theorem self (h : n ≤ base) : IsLeastDoubling base n base := by
  refine ⟨⟨⟨0, (Nat.mul_one base).symm⟩, h⟩, ?_⟩
  rintro m ⟨⟨k, rfl⟩, -⟩
  exact Nat.le_mul_of_pos_right base (Nat.two_pow_pos k)

/-- More may be asked for as long as there is room. -/
theorem mono (h : IsLeastDoubling base n capacity) (hle : n ≤ m) (hroom : m ≤ capacity) :
    IsLeastDoubling base m capacity := by
  refine ⟨⟨h.1.1, hroom⟩, ?_⟩
  rintro other ⟨hother, hm⟩
  exact h.2 ⟨hother, hle.trans hm⟩

/-- One more than there is room for takes the next doubling. -/
theorem succ (h : IsLeastDoubling base n capacity) (hpos : 0 < capacity) :
    IsLeastDoubling base (capacity + 1) (capacity + capacity) := by
  obtain ⟨⟨⟨k, rfl⟩, -⟩, -⟩ := h
  have hdouble : base * 2 ^ (k + 1) = base * 2 ^ k + base * 2 ^ k := by
    rw [Nat.pow_succ, ← Nat.mul_assoc, Nat.mul_two]
  refine ⟨⟨⟨k + 1, hdouble.symm⟩, by omega⟩, ?_⟩
  rintro other ⟨⟨j, rfl⟩, hj⟩
  -- no number between the two is reached by doubling
  have hlt : k < j := by
    by_contra hle
    have hpow : 2 ^ j ≤ 2 ^ k := Nat.pow_le_pow_right (by decide) (Nat.not_lt.1 hle)
    have := Nat.mul_le_mul_left base hpow
    omega
  rw [← hdouble]
  exact Nat.mul_le_mul_left base (Nat.pow_le_pow_right (by decide) hlt)

end IsLeastDoubling

/-! ## Changes -/

namespace Log

/-- A change of the slots of a log. -/
inductive Change where
  /-- A token is written into a slot. -/
  | record (index : Nat) (token : Token)
  /-- The slots from a number on are dropped. -/
  | trim (n : Nat)
  deriving DecidableEq, Repr

namespace Change

/-- The log after a change. -/
def apply (log : Log) : Change → Log
  | record index token => log.record index token
  | trim n => log.trim n

/-- The list after a change: the token at an index is replaced or added at the end, or the list is
cut. -/
def applyList (tokens : List Token) : Change → List Token
  | record index token =>
    if index < tokens.length then tokens.set index token else tokens ++ [token]
  | trim n => tokens.take n

/-- Only an existing slot is recorded or the next one. -/
def fits (tokens : List Token) : Change → Bool
  | record index _ => index ≤ tokens.length
  | trim _ => true

/-- Is a token written? -/
def isRecord : Change → Bool
  | record .. => true
  | trim _ => false

/-- Every change fits the list that the changes before it have left. -/
def allFit : List Token → List Change → Bool
  | _, [] => true
  | tokens, change :: rest => change.fits tokens && allFit (change.applyList tokens) rest

/-- The greatest length that the list has on the way, from the beginning to the end. -/
def peak : List Token → List Change → Nat
  | tokens, [] => tokens.length
  | tokens, change :: rest => max tokens.length (peak (change.applyList tokens) rest)

/-- The greatest length is no less than the length at the beginning. -/
theorem length_le_peak (tokens : List Token) (changes : List Change) :
    tokens.length ≤ peak tokens changes := by
  cases changes with
  | nil => exact Nat.le_refl _
  | cons change rest => exact Nat.le_max_left _ _

end Change

open Change

/-- The tokens are these, and the reservation is the least doubling of `base` that makes room for
`peak` slots. -/
structure Holds (base peak : Nat) (tokens : List Token) (log : Log) : Prop where
  /-- The tokens of the slots. -/
  toList_eq : log.toList = tokens
  /-- The list was never longer than the peak. -/
  length_le : tokens.length ≤ peak
  /-- The reservation, in terms of the greatest length so far. -/
  least : IsLeastDoubling base peak log.capacity

variable {base peak : Nat} {tokens : List Token} {log : Log}

/-- A log with a reservation has no tokens, and its reservation is where doubling begins. -/
theorem holds_withCapacity (n : Nat) : Holds (max n 1) 0 [] (withCapacity n) where
  toList_eq := rfl
  length_le := Nat.le_refl 0
  least := .self (Nat.zero_le _)

/-- An existing slot is written over. The reservation stays. -/
theorem Holds.overwrite (h : Holds base peak tokens log) {index : Nat}
    (hindex : index < tokens.length) (token : Token) :
    Holds base peak (tokens.set index token) (log.record index token) := by
  have hsize : index < log.size := by
    rw [← log.length_toList, h.toList_eq]
    exact hindex
  have hcapacity : (log.record index token).capacity = log.capacity := by
    have hslots : index < log.slots.size := hsize
    simp [record, hslots]
  refine ⟨?_, ?_, ?_⟩
  · rw [toList_record_of_lt hsize, h.toList_eq]
  · rw [List.length_set]
    exact h.length_le
  · rw [hcapacity]
    exact h.least

/-- A slot is added. A full log doubles its reservation. -/
theorem Holds.append (h : Holds base peak tokens log) (hbase : 0 < base) (token : Token) :
    Holds base (max peak (tokens.length + 1)) (tokens ++ [token])
      (log.record tokens.length token) := by
  have hsize : log.slots.size = tokens.length := by
    rw [← h.toList_eq]
    exact log.length_toList.symm
  have hcapacity : (log.record tokens.length token).capacity =
      if tokens.length = log.capacity then log.capacity + max log.capacity 1 else log.capacity := by
    simp [record, grown, hsize]
  have hroom := h.least.le
  have hlength := h.length_le
  refine ⟨?_, ?_, ?_⟩
  · rw [toList_record_of_le (Nat.le_of_eq hsize), h.toList_eq]
  · rw [List.length_append, List.length_singleton]
    exact Nat.le_max_right _ _
  · rw [hcapacity]
    by_cases hfull : tokens.length = log.capacity
    · have hpeak : max peak (tokens.length + 1) = log.capacity + 1 := by omega
      have hpos : 0 < log.capacity := by
        obtain ⟨k, hk⟩ := h.least.1.1
        rw [hk]
        exact Nat.mul_pos hbase (Nat.two_pow_pos k)
      rw [if_pos hfull, hpeak, Nat.max_eq_left hpos]
      exact h.least.succ hpos
    · rw [if_neg hfull]
      apply h.least.mono
      · exact Nat.le_max_left _ _
      · omega

/-- Slots are dropped. The reservation stays. -/
theorem Holds.trim (h : Holds base peak tokens log) (n : Nat) :
    Holds base peak (tokens.take n) (log.trim n) where
  toList_eq := by rw [toList_trim, h.toList_eq]
  length_le := (List.length_take_le' n tokens).trans h.length_le
  least := h.least

/-- A change that fits makes the same of the log as of the list, and the peak takes in the new
length. -/
theorem Holds.apply (h : Holds base peak tokens log) (hbase : 0 < base) {change : Change}
    (hfits : change.fits tokens = true) :
    Holds base (max peak (change.applyList tokens).length) (change.applyList tokens)
      (change.apply log) := by
  cases change with
  | record index token =>
      have hindex : index ≤ tokens.length := of_decide_eq_true hfits
      by_cases hlt : index < tokens.length
      · have hlist : (Change.record index token).applyList tokens = tokens.set index token :=
          if_pos hlt
        have hpeak : max peak (tokens.set index token).length = peak := by
          rw [List.length_set]
          exact Nat.max_eq_left h.length_le
        rw [hlist, hpeak]
        exact h.overwrite hlt token
      · obtain rfl : index = tokens.length := by omega
        have hlist : (Change.record tokens.length token).applyList tokens = tokens ++ [token] :=
          if_neg hlt
        rw [hlist, List.length_append, List.length_singleton]
        exact h.append hbase token
  | trim n =>
      have hpeak : max peak (tokens.take n).length = peak :=
        Nat.max_eq_left ((List.length_take_le' n tokens).trans h.length_le)
      show Holds base (max peak (tokens.take n).length) (tokens.take n) (log.trim n)
      rw [hpeak]
      exact h.trim n

/-- Changes that fit, one after the other. -/
theorem Holds.applyAll (h : Holds base peak tokens log) (hbase : 0 < base) {changes : List Change}
    (hfit : allFit tokens changes = true) :
    Holds base (max peak (Change.peak tokens changes)) (changes.foldl applyList tokens)
      (changes.foldl Change.apply log) := by
  induction changes generalizing peak tokens log with
  | nil =>
      have hpeak : max peak (Change.peak tokens []) = peak := Nat.max_eq_left h.length_le
      rw [hpeak]
      exact h
  | cons change rest ih =>
      obtain ⟨hfits, hrest⟩ := Bool.and_eq_true_iff.1 hfit
      have hall := ih (h.apply hbase hfits) hrest
      -- the new length counts in the peak of the rest, and the old one in the peak so far
      have hpeak : max (max peak (change.applyList tokens).length)
          (Change.peak (change.applyList tokens) rest) =
          max peak (Change.peak tokens (change :: rest)) := by
        have hnew := length_le_peak (change.applyList tokens) rest
        have hold := h.length_le
        simp only [Change.peak]
        omega
      rw [hpeak] at hall
      exact hall

/-! ## Logs without a reservation -/

/-- There is nothing to drop from an empty log. -/
theorem trim_empty (n : Nat) : empty.trim n = empty := by
  simp [Log.trim, empty]

/-- As long as nothing was recorded there is nothing to drop. -/
theorem applyAll_empty_of_trims {changes : List Change} (h : changes.any isRecord = false) :
    changes.foldl Change.apply empty = empty ∧ changes.foldl applyList [] = [] := by
  induction changes with
  | nil => exact ⟨rfl, rfl⟩
  | cons change rest ih =>
      cases change with
      | record index token => simp [isRecord] at h
      | trim n =>
          have hrest := ih (by simpa [isRecord] using h)
          simpa [Change.apply, applyList, trim_empty] using hrest

/-- With the first token that is recorded one slot is reserved, and doublings begin. -/
theorem holds_applyAll_empty {changes : List Change} (h : changes.any isRecord = true)
    (hfit : allFit [] changes = true) :
    Holds 1 (Change.peak [] changes) (changes.foldl applyList [])
      (changes.foldl Change.apply empty) := by
  induction changes with
  | nil => cases h
  | cons change rest ih =>
      obtain ⟨hfits, hrest⟩ := Bool.and_eq_true_iff.1 hfit
      cases change with
      | record index token =>
          obtain rfl : index = 0 := by simpa [fits] using hfits
          have hfirst : Holds 1 1 [token] (empty.record 0 token) :=
            ⟨toList_record_of_le (Nat.le_refl 0) token, Nat.le_refl 1, .self (Nat.le_refl 1)⟩
          have hall := hfirst.applyAll Nat.one_pos hrest
          have hpeak : max 1 (Change.peak [token] rest) = Change.peak []
              (.record 0 token :: rest) := by
            have hone : 1 ≤ Change.peak [token] rest := length_le_peak [token] rest
            show max 1 (Change.peak [token] rest) = max 0 (Change.peak [token] rest)
            omega
          rw [hpeak] at hall
          exact hall
      | trim n =>
          have hall := ih (by simpa [isRecord] using h) (by simpa [applyList] using hrest)
          simpa [Change.apply, applyList, trim_empty, Change.peak] using hall

end Log

/-! ## New logs -/

open Log Log.Change

/-- After any changes that fit, a new log holds the tokens that the same changes make of the empty
list. With slots reserved at first, its reservation is the least doubling of their number, or of
one, that makes room for the greatest length on the way. Without, it is zero until a token is
recorded, and from then on the least power of two that makes room. -/
theorem log_is_list_with_least_doubling {changes : List Change} (hfit : allFit [] changes = true) :
    (∀ n, ((changes.foldl apply (withCapacity n)).toList = changes.foldl applyList [] ∧
      IsLeastDoubling (max n 1) (peak [] changes)
        (changes.foldl apply (withCapacity n)).capacity)) ∧
    (changes.foldl apply empty).toList = changes.foldl applyList [] ∧
    (changes.any isRecord = false → (changes.foldl apply empty).capacity = 0) ∧
    (changes.any isRecord = true →
      IsLeast {m | (∃ k, m = 2 ^ k) ∧ peak [] changes ≤ m}
        (changes.foldl apply empty).capacity) := by
  refine ⟨fun n => ?_, ?_, fun hnone => ?_, fun hsome => ?_⟩
  · have hall := (holds_withCapacity n).applyAll (Nat.le_max_right n 1) hfit
    rw [Nat.zero_max] at hall
    exact ⟨hall.toList_eq, hall.least⟩
  · rcases hrecord : changes.any isRecord with _ | _
    · obtain ⟨hlog, hlist⟩ := applyAll_empty_of_trims hrecord
      rw [hlog, hlist]
      rfl
    · exact (holds_applyAll_empty hrecord hfit).toList_eq
  · rw [(applyAll_empty_of_trims hnone).1]
    rfl
  · have hleast := (holds_applyAll_empty hsome hfit).least
    simpa only [IsLeastDoubling, Nat.one_mul] using hleast

/-- The fourth slot is one too many for three; slots that are dropped and written again are not. -/
theorem log_is_list_with_least_doubling_rewound :
    let t : Nat → Token := fun i => ⟨.text, i, i + 1, 1⟩
    let changes :=
      [.record 0 (t 0), .record 1 (t 1), .record 2 (t 2), .record 3 (t 3), .trim 2, .record 1 (t 7),
      .record 2 (t 8)]
    allFit [] changes = true ∧ peak [] changes = 4 ∧
      (changes.foldl apply (withCapacity 3)).toList = [t 0, t 7, t 8] ∧
      (changes.foldl apply (withCapacity 3)).capacity = 6 ∧
      IsLeastDoubling 3 4 (changes.foldl apply (withCapacity 3)).capacity ∧
      (changes.foldl apply empty).capacity = 4 := by
  intro t changes
  have hfit : allFit [] changes = true := by decide
  have hpeak : peak [] changes = 4 := by decide
  have hlist : changes.foldl applyList [] = [t 0, t 7, t 8] := by decide
  obtain ⟨htokens, hleast⟩ := (log_is_list_with_least_doubling hfit).1 3
  rw [hlist] at htokens
  rw [hpeak] at hleast
  exact ⟨hfit, hpeak, htokens, by decide +kernel, hleast, by decide +kernel⟩

end RiftLang
