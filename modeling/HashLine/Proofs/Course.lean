import HashLine.Proofs.Offset
import HashLine.Scan

/-! The course of a scan over an input that is at hand as a whole, offset by offset: which directive
is open there and what is delivered there. A scan that is not strict takes exactly this course. -/

namespace HashLine

namespace Scan

/-- A `#` with only blanks before it on its line, outside quotes if those gate it. -/
def StartsAt (gate : Bool) (s : Bytes) (k : Nat) : Prop :=
  s[k]? = some Byte.hash ∧ (∀ b ∈ lineHead s k, Byte.isBlank b) ∧
    (gate → quotesBefore s (k + 1) = .unquoted)

/-- A linefeed that no backslash precedes. -/
def EndsAt (s : Bytes) (k : Nat) : Prop :=
  s[k]? = some Byte.linefeed ∧ byteBefore s k ≠ some Byte.backslash

/-- A backslash outside quotes that a blank or the end of the input follows. -/
def StrayAt (s : Bytes) (k : Nat) : Prop :=
  s[k]? = some Byte.backslash ∧ (∀ b ∈ s[k + 1]?, Byte.isBlank b) ∧
    quotesBefore s (k + 1) = .unquoted

instance (gate : Bool) (s : Bytes) (k : Nat) : Decidable (StartsAt gate s k) :=
  inferInstanceAs (Decidable (_ ∧ _ ∧ _))

instance (s : Bytes) (k : Nat) : Decidable (EndsAt s k) :=
  inferInstanceAs (Decidable (_ ∧ _))

instance (s : Bytes) (k : Nat) : Decidable (StrayAt s k) :=
  inferInstanceAs (Decidable (_ ∧ _ ∧ _))

/-- Where the directive began that is open before offset `k`, if one is. -/
def openAt (gate : Bool) (s : Bytes) : Nat → Option Nat
  | 0 => none
  | k + 1 =>
    match openAt gate s k with
    | none => if StartsAt gate s k then some k else none
    | some i => if EndsAt s k then none else some i

def strayOf (s : Bytes) (k : Nat) : StrayBackslash :=
  ⟨Cursor.lineOf s k, ⟨k, k + 1⟩, s[k + 1]?⟩

def directiveOf (s : Bytes) (i stop : Nat) (terminated : Bool) : Directive where
  line := Cursor.lineOf s i
  endLine := Cursor.lineOf s (stop - 1)
  span := ⟨i, stop⟩
  text := (s.take stop).drop (i + 1)
  terminated := terminated

/-- What the byte at offset `k` delivers inside the directive that began at `i`. -/
def deliveriesIn (options : Options) (s : Bytes) (i k : Nat) : List Delivery :=
  if StrayAt s k then
    if options.continuations = .warn then [.warning (.stray (strayOf s k))] else []
  else if EndsAt s k then [.directive (directiveOf s i (k + 1) true)]
  else []

def deliveriesAt (options : Options) (s : Bytes) (k : Nat) : List Delivery :=
  match openAt options.gateQuotes s k with
  | none => []
  | some i => deliveriesIn options s i k

def cutOff (options : Options) (s : Bytes) (i : Nat) : List Delivery :=
  .warning (.unterminated (Cursor.lineOf s i) ⟨i, s.length⟩) ::
    match options.onEnd with
    | .flush => [.directive (directiveOf s i s.length false)]
    | .discard => []

def closing (options : Options) (s : Bytes) : List Delivery :=
  match openAt options.gateQuotes s s.length with
  | none => []
  | some i => cutOff options s i

def StrayInside (gate : Bool) (s : Bytes) (k : Nat) : Prop :=
  (openAt gate s k).isSome ∧ StrayAt s k

def EndsInside (gate : Bool) (s : Bytes) (k : Nat) : Prop :=
  (openAt gate s k).isSome ∧ EndsAt s k

instance (gate : Bool) (s : Bytes) (k : Nat) : Decidable (StrayInside gate s k) :=
  inferInstanceAs (Decidable (_ ∧ _))

instance (gate : Bool) (s : Bytes) (k : Nat) : Decidable (EndsInside gate s k) :=
  inferInstanceAs (Decidable (_ ∧ _))

def straysBefore (gate : Bool) (s : Bytes) (k : Nat) : Nat :=
  (List.range k).countP (StrayInside gate s ·)

def endsBefore (gate : Bool) (s : Bytes) (k : Nat) : Nat :=
  (List.range k).countP (EndsInside gate s ·)

def summaryOf (options : Options) (s : Bytes) : Summary where
  lines := if s.length = 0 then 0 else Cursor.lineOf s (s.length - 1)
  directives := endsBefore options.gateQuotes s s.length +
    ((closing options s).filterMap Delivery.directive?).length
  strayBackslashes := straysBefore options.gateQuotes s s.length
  unterminated := (openAt options.gateQuotes s s.length).isSome
  quotes := quotesBefore s s.length

theorem lines_summaryOf {s : Bytes} (hl : s.count Byte.linefeed < Cursor.lastLine)
    (options : Options) :
    (summaryOf options s).lines =
      s.count Byte.linefeed + if s = [] ∨ s.getLast? = some Byte.linefeed then 0 else 1 := by
  simp only [summaryOf]
  rcases List.eq_nil_or_concat' s with rfl | ⟨init, b, rfl⟩
  · rfl
  · have hbefore : linefeedsBefore (init ++ [b]) init.length = init.count Byte.linefeed := by
      simp [linefeedsBefore]
    rw [Cursor.lineOf_of_count_lt hl, List.length_append, List.length_singleton,
      if_neg (Nat.succ_ne_zero _), Nat.add_sub_cancel, hbefore, List.count_append]
    by_cases hb : b = Byte.linefeed
    · rw [hb, if_pos (.inr List.getLast?_concat), List.count_singleton_self]
      omega
    · have hlast : ¬ (init ++ [b] = [] ∨ (init ++ [b]).getLast? = some Byte.linefeed) := by
        simp [hb]
      rw [if_neg hlast, List.count_singleton, if_neg (by simpa using hb)]
      omega

theorem EndsAt.not_stray {s : Bytes} {k : Nat} (h : EndsAt s k) : ¬ StrayAt s k := by
  rintro ⟨hb, -, -⟩
  rw [h.1] at hb
  exact absurd (Option.some.inj hb) (by decide)

/-- What a byte can deliver: a stray backslash at its offset, or a directive that it ends. -/
theorem mem_deliveriesAt {options : Options} {s : Bytes} {k : Nat} {d : Delivery}
    (hd : d ∈ deliveriesAt options s k) :
    d = .warning (.stray (strayOf s k)) ∨ ∃ i, d = .directive (directiveOf s i (k + 1) true) := by
  simp only [deliveriesAt] at hd
  split at hd
  · simp at hd
  · next i _ =>
    unfold deliveriesIn at hd
    split at hd
    · split at hd
      · exact .inl (List.mem_singleton.mp hd)
      · simp at hd
    · split at hd
      · exact .inr ⟨i, List.mem_singleton.mp hd⟩
      · simp at hd

/-- What the end of the input can deliver: a warning about the open directive, and that directive. -/
theorem mem_closing {options : Options} {s : Bytes} {d : Delivery} (hd : d ∈ closing options s) :
    (∃ line span, d = .warning (.unterminated line span)) ∨
      ∃ i, d = .directive (directiveOf s i s.length false) := by
  simp only [closing] at hd
  split at hd
  · simp at hd
  · unfold cutOff at hd
    rcases List.mem_cons.mp hd with rfl | hd
    · exact .inl ⟨_, _, rfl⟩
    · split at hd
      · exact .inr ⟨_, List.mem_singleton.mp hd⟩
      · simp at hd

theorem openAt_succ_of_none {gate : Bool} {s : Bytes} {k : Nat} (h : openAt gate s k = none) :
    openAt gate s (k + 1) = if StartsAt gate s k then some k else none := by
  simp only [openAt, h]

theorem openAt_succ_of_some {gate : Bool} {s : Bytes} {i k : Nat} (h : openAt gate s k = some i) :
    openAt gate s (k + 1) = if EndsAt s k then none else some i := by
  simp only [openAt, h]

theorem openAt_lt {gate : Bool} {s : Bytes} {i k : Nat} (h : openAt gate s k = some i) :
    i < k := by
  induction k with
  | zero => simp [openAt] at h
  | succ k ih =>
    cases ho : openAt gate s k with
    | none =>
      rw [openAt_succ_of_none ho] at h
      split at h
      · cases h
        omega
      · cases h
    | some j =>
      rw [openAt_succ_of_some ho] at h
      split at h
      · cases h
      · cases h
        have hj := ih ho
        omega

theorem pairwise_of_length_le_one {α : Type} {R : α → α → Prop} {xs : List α}
    (h : xs.length ≤ 1) : xs.Pairwise R := by
  match xs with
  | [] => exact List.Pairwise.nil
  | [x] => exact List.pairwise_singleton R x
  | x :: y :: rest => simp at h

theorem straysBefore_succ (gate : Bool) (s : Bytes) (k : Nat) :
    straysBefore gate s (k + 1) =
      straysBefore gate s k + if StrayInside gate s k then 1 else 0 := by
  simp [straysBefore, List.range_succ, List.countP_append, List.countP_cons]

theorem endsBefore_succ (gate : Bool) (s : Bytes) (k : Nat) :
    endsBefore gate s (k + 1) =
      endsBefore gate s k + if EndsInside gate s k then 1 else 0 := by
  simp [endsBefore, List.range_succ, List.countP_append, List.countP_cons]

end Scan

end HashLine
