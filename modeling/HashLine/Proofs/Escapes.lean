import HashLine.Proofs.Offset

/-! Quotes and escapes. A scan takes every quote behind a backslash for escaped. A tracker that counts
escapes takes only those behind an odd run of backslashes for escaped, and the two agree exactly where no
quote stands behind an even run. -/

namespace HashLine

def Byte.isQuote (b : UInt8) : Bool :=
  b == doubleQuote || b == singleQuote

/-- A backslash that is not escaped itself escapes the next byte, and an escaped byte toggles nothing. -/
structure EscapeTracker where
  quotes : Quotes
  escaped : Bool
deriving DecidableEq, Repr

def EscapeTracker.step (t : EscapeTracker) (b : UInt8) : EscapeTracker :=
  if t.escaped then ⟨t.quotes, false⟩ else ⟨t.quotes.toggle b, b == Byte.backslash⟩

def backslashesBefore (s : Bytes) (k : Nat) : Nat :=
  ((s.take k).rtakeWhile (· == Byte.backslash)).length

/-- Each quote stands behind no backslash or behind an odd run of them. -/
def OddlyEscaped (s : Bytes) : Prop :=
  ∀ k < s.length, ∀ b ∈ s[k]?, Byte.isQuote b →
    backslashesBefore s k = 0 ∨ backslashesBefore s k % 2 = 1

instance (s : Bytes) : Decidable (OddlyEscaped s) :=
  inferInstanceAs (Decidable (∀ k < s.length, _))

theorem backslashesBefore_succ {s : Bytes} {k : Nat} {b : UInt8} (hb : s[k]? = some b) :
    backslashesBefore s (k + 1) = if b = Byte.backslash then backslashesBefore s k + 1 else 0 := by
  simp only [backslashesBefore]
  rw [List.take_add_one, hb, Option.toList_some, List.rtakeWhile_concat]
  by_cases h : b = Byte.backslash <;> simp [h]

theorem byteBefore_eq_backslash_iff {s : Bytes} {k : Nat} (hk : k ≤ s.length) :
    byteBefore s k = some Byte.backslash ↔ 0 < backslashesBefore s k := by
  cases k with
  | zero => simp [byteBefore, backslashesBefore, List.rtakeWhile]
  | succ k =>
    have hb : s[k]? = some s[k] := List.getElem?_eq_getElem hk
    rw [backslashesBefore_succ hb, byteBefore, hb]
    by_cases h : s[k] = Byte.backslash <;> simp [h]

namespace Quotes

theorem toggle_toggle (q : Quotes) (b : UInt8) : (q.toggle b).toggle b = q := by
  by_cases hd : b = Byte.doubleQuote
  · subst hd
    cases q <;> rfl
  · by_cases hs : b = Byte.singleQuote
    · subst hs
      cases q <;> rfl
    · cases q <;> simp [toggle, hd, hs]

theorem toggle_of_not_quote (q : Quotes) {b : UInt8} (hb : Byte.isQuote b = false) :
    q.toggle b = q := by
  simp only [Byte.isQuote, Bool.or_eq_false_iff, beq_eq_false_iff_ne] at hb
  cases q <;> simp [toggle, hb.1, hb.2]

theorem toggle_unquoted_ne {b : UInt8} (hb : Byte.isQuote b = true) :
    toggle .unquoted b ≠ .unquoted := by
  simp only [Byte.isQuote, Bool.or_eq_true, beq_iff_eq] at hb
  rcases hb with rfl | rfl <;> decide

theorem after_take_succ (q : Quotes) {s : Bytes} {k : Nat} {b : UInt8} (hb : s[k]? = some b) :
    q.after none (s.take (k + 1)) = (q.after none (s.take k)).update (byteBefore s k) (some b) := by
  have hk : k < s.length := (List.getElem?_eq_some_iff.mp hb).1
  rw [List.take_add_one, hb, Option.toList_some, after_append,
    getLast?_take s (Nat.le_of_lt hk), Option.or_none]
  rfl

/-- No update forgets anything, so every state comes of some starting state. -/
theorem exists_after_eq (prev : Option UInt8) (bytes : Bytes) (q' : Quotes) :
    ∃ q : Quotes, q.after prev bytes = q' := by
  induction bytes generalizing prev with
  | nil => exact ⟨q', rfl⟩
  | cons b rest ih =>
    obtain ⟨q, hq⟩ := ih (some b)
    by_cases hprev : prev = some Byte.backslash
    · exact ⟨q, by rw [after, update, if_pos hprev, hq]⟩
    · exact ⟨q.toggle b, by rw [after, update, if_neg hprev, toggle_toggle, hq]⟩

theorem getElem?_states_steps (q : Quotes) (prev : Option UInt8) (s : Bytes) (i : Nat) :
    (q :: q.states (steps prev s))[i]? =
      if i ≤ s.length then some (q.after prev (s.take i)) else none := by
  induction s generalizing q prev i with
  | nil =>
    cases i with
    | zero => rfl
    | succ i => simp [steps, states]
  | cons b rest ih =>
    cases i with
    | zero => rfl
    | succ i =>
      have hrest := ih (q.update prev (some b)) (some b) i
      simpa [steps, states, after] using hrest

end Quotes

namespace EscapeTracker

def follow (t : EscapeTracker) (bytes : Bytes) : EscapeTracker :=
  bytes.foldl step t

theorem follow_take_succ (t : EscapeTracker) {s : Bytes} {k : Nat} {b : UInt8}
    (hb : s[k]? = some b) : t.follow (s.take (k + 1)) = (t.follow (s.take k)).step b := by
  simp only [follow]
  rw [List.take_add_one, hb, Option.toList_some, List.foldl_concat]

/-- The flag is the parity of the run of backslashes that has just been read. -/
theorem escaped_follow (q : Quotes) {s : Bytes} {k : Nat} (hk : k ≤ s.length) :
    (follow ⟨q, false⟩ (s.take k)).escaped = decide (backslashesBefore s k % 2 = 1) := by
  induction k with
  | zero => rfl
  | succ k ih =>
    have hb : s[k]? = some s[k] := List.getElem?_eq_getElem hk
    have hflag := ih (Nat.le_of_succ_le hk)
    rw [follow_take_succ _ hb, backslashesBefore_succ hb, step, hflag]
    by_cases hodd : backslashesBefore s k % 2 = 1
    · by_cases h : s[k] = Byte.backslash
      · simp [hodd, h]
        omega
      · simp [hodd, h]
    · by_cases h : s[k] = Byte.backslash
      · simp [hodd, h]
        omega
      · simp [hodd, h]

theorem quotes_step_of_escaped {t : EscapeTracker} (h : t.escaped = true) (b : UInt8) :
    (t.step b).quotes = t.quotes := by
  rw [step, if_pos h]

theorem quotes_step_of_unescaped {t : EscapeTracker} (h : t.escaped = false) (b : UInt8) :
    (t.step b).quotes = t.quotes.toggle b := by
  rw [step, if_neg (by simp [h])]

end EscapeTracker

namespace OddlyEscaped

variable {s : Bytes}

theorem after_take (h : OddlyEscaped s) (q : Quotes) {k : Nat} (hk : k ≤ s.length) :
    q.after none (s.take k) = (EscapeTracker.follow ⟨q, false⟩ (s.take k)).quotes := by
  induction k with
  | zero => rfl
  | succ k ih =>
    have hb : s[k]? = some s[k] := List.getElem?_eq_getElem hk
    have hk' : k ≤ s.length := Nat.le_of_succ_le hk
    have hflag := EscapeTracker.escaped_follow q hk'
    rw [Quotes.after_take_succ q hb, EscapeTracker.follow_take_succ _ hb, ih hk', Quotes.update]
    by_cases hprev : byteBefore s k = some Byte.backslash
    · rw [if_pos hprev]
      by_cases hodd : backslashesBefore s k % 2 = 1
      · rw [EscapeTracker.quotes_step_of_escaped (hflag.trans (decide_eq_true hodd))]
      · -- Behind an even run only the counting tracker would toggle, but there is no quote.
        have hrun := (byteBefore_eq_backslash_iff hk').mp hprev
        have hplain : Byte.isQuote s[k] = false := by
          apply Bool.eq_false_iff.mpr
          intro hquote
          have := h k hk s[k] hb hquote
          omega
        rw [EscapeTracker.quotes_step_of_unescaped (hflag.trans (decide_eq_false hodd)),
          Quotes.toggle_of_not_quote _ hplain]
    · have hrun : backslashesBefore s k = 0 := by
        have := mt (byteBefore_eq_backslash_iff hk').mpr hprev
        omega
      rw [if_neg hprev, EscapeTracker.quotes_step_of_unescaped (hflag.trans (by simp [hrun]))]

/-- From a state that comes to be unquoted before it, a quote behind an even run tells the two apart. -/
theorem of_after_take (h : ∀ (q : Quotes) (k : Nat), k ≤ s.length →
      q.after none (s.take k) = (EscapeTracker.follow ⟨q, false⟩ (s.take k)).quotes) :
    OddlyEscaped s := by
  intro k hk b hb hquote
  by_contra hrun
  have hk' : k ≤ s.length := Nat.le_of_lt hk
  obtain ⟨q, hq⟩ := Quotes.exists_after_eq none (s.take k) .unquoted
  have hprev : byteBefore s k = some Byte.backslash :=
    (byteBefore_eq_backslash_iff hk').mpr (by omega)
  have hflag := EscapeTracker.escaped_follow q hk'
  rw [decide_eq_false (by omega)] at hflag
  have hnow := h q k hk'
  have hnext := h q (k + 1) hk
  rw [Quotes.after_take_succ q hb, EscapeTracker.follow_take_succ _ hb, Quotes.update, if_pos hprev,
    EscapeTracker.quotes_step_of_unescaped hflag, ← hnow, hq] at hnext
  exact Quotes.toggle_unquoted_ne hquote hnext.symm

end OddlyEscaped

/-- From every state and after every prefix, the quotes that a scan keeps are those of a tracker that
counts escapes, exactly if each quote stands behind no backslash or behind an odd run of them. -/
theorem quotes_know_escapes_iff (s : Bytes) :
    (∀ q : Quotes, q :: q.states (Quotes.steps none s) =
        (s.scanl EscapeTracker.step ⟨q, false⟩).map EscapeTracker.quotes) ↔ OddlyEscaped s := by
  have hprefix (q : Quotes) (k : Nat) :
      ((s.scanl EscapeTracker.step ⟨q, false⟩).map EscapeTracker.quotes)[k]? =
        if k ≤ s.length then some (EscapeTracker.follow ⟨q, false⟩ (s.take k)).quotes else none := by
    rw [List.getElem?_map, List.getElem?_scanl]
    split <;> rfl
  constructor
  · intro h
    apply OddlyEscaped.of_after_take
    intro q k hk
    have hat := congrArg (·[k]?) (h q)
    simp only [Quotes.getElem?_states_steps, hprefix, if_pos hk] at hat
    exact Option.some.inj hat
  · intro h q
    apply List.ext_getElem?
    intro k
    rw [Quotes.getElem?_states_steps, hprefix]
    split
    · next hk => rw [h.after_take q hk]
    · rfl

-- A literal that ends in an escaped backslash is where the two part.
example : ¬ OddlyEscaped [Byte.doubleQuote, Byte.backslash, Byte.backslash, Byte.doubleQuote] := by
  decide +kernel

end HashLine
