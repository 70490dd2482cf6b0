import Mathlib.Data.List.DropRight
import HashLine.Cursor
import HashLine.Quotes

/-! What an offset of an input has before it, and the cursor that stands there. A cursor learns all
this one byte at a time; here it is read off the input as a whole. -/

namespace HashLine

def byteBefore (s : Bytes) : Nat → Option UInt8
  | 0 => none
  | k + 1 => s[k]?

def linefeedsBefore (s : Bytes) (k : Nat) : Nat :=
  (s.take k).count Byte.linefeed

/-- The bytes before offset `k` on its line. -/
def lineHead (s : Bytes) (k : Nat) : Bytes :=
  (s.take k).rtakeWhile (· != Byte.linefeed)

/-- The quotes that are open once the first `k` bytes have been read. -/
def quotesBefore (s : Bytes) (k : Nat) : Quotes :=
  Quotes.after .unquoted none (s.take k)

theorem linefeedsBefore_succ (s : Bytes) (k : Nat) :
    linefeedsBefore s (k + 1) =
      linefeedsBefore s k + if s[k]? = some Byte.linefeed then 1 else 0 := by
  simp only [linefeedsBefore]
  rw [List.take_add_one, List.count_append]
  cases hb : s[k]? with
  | none => simp
  | some b => by_cases h : b = Byte.linefeed <;> simp [h]

theorem linefeedsBefore_le (s : Bytes) (k : Nat) :
    linefeedsBefore s k ≤ s.count Byte.linefeed :=
  (List.take_sublist k s).count_le Byte.linefeed

theorem lineHead_succ (s : Bytes) (k : Nat) {b : UInt8} (hb : s[k]? = some b) :
    lineHead s (k + 1) = if b = Byte.linefeed then [] else lineHead s k ++ [b] := by
  simp only [lineHead]
  rw [List.take_add_one, hb, Option.toList_some, List.rtakeWhile_concat]
  by_cases h : b = Byte.linefeed <;> simp [h]

theorem Quotes.after_append (q : Quotes) (before : Option UInt8) (xs ys : Bytes) :
    q.after before (xs ++ ys) = (q.after before xs).after (xs.getLast?.or before) ys := by
  induction xs generalizing q before with
  | nil => rfl
  | cons x xs ih =>
    have hl : (x :: xs).getLast?.or before = xs.getLast?.or (some x) := by
      rw [List.getLast?_cons]
      cases xs.getLast? <;> rfl
    rw [hl]
    exact ih (q.update before (some x)) (some x)

theorem getLast?_take (s : Bytes) {k : Nat} (hk : k ≤ s.length) :
    (s.take k).getLast? = byteBefore s k := by
  cases k with
  | zero => simp [byteBefore]
  | succ k =>
    have hs : s[k]? = some s[k] := List.getElem?_eq_getElem hk
    rw [List.take_add_one, hs, Option.toList_some, List.getLast?_append_of_ne_nil _ (by simp)]
    exact hs.symm

theorem quotesBefore_succ (s : Bytes) (k : Nat) :
    quotesBefore s (k + 1) = (quotesBefore s k).update (byteBefore s k) s[k]? := by
  simp only [quotesBefore]
  by_cases hk : k < s.length
  · have hs : s[k]? = some s[k] := List.getElem?_eq_getElem hk
    rw [List.take_add_one, hs, Option.toList_some, Quotes.after_append,
      getLast?_take s (Nat.le_of_lt hk), Option.or_none]
    rfl
  · have hs : s[k]? = none := List.getElem?_eq_none (Nat.le_of_not_lt hk)
    rw [List.take_of_length_le (by omega), List.take_of_length_le (by omega), hs]
    simp [Quotes.update]

theorem Source.pull_ofBytes (s : Bytes) :
    (Source.ofBytes s).pull = (.ok s.head?, Source.ofBytes s.tail) := by
  match s with
  | [] => rfl
  | [b] => rfl
  | b :: b' :: rest => rfl

namespace Cursor

def lineOf (s : Bytes) (k : Nat) : Nat :=
  min (linefeedsBefore s k + 1) lastLine

/-- The cursor over `s` whose current byte is the one at offset `k`. Past the last byte it keeps the
line of that byte. -/
def atOffset (s : Bytes) (k : Nat) : Cursor where
  source := .ofBytes (s.drop (k + 2))
  prev2 := match k with
    | 0 => none
    | k + 1 => byteBefore s k
  prev := byteBefore s k
  current := s[k]?
  next := s[k + 1]?
  primed := true
  exhausted := decide (s.length ≤ k + 1)
  line := lineOf s (min k (s.length - 1))
  consumed := min (k + 1) s.length
  onlyBlanks := (lineHead s k).all Byte.isBlank

theorem lineOf_of_count_lt {s : Bytes} (h : s.count Byte.linefeed < lastLine) (k : Nat) :
    lineOf s k = 1 + linefeedsBefore s k := by
  have hk := linefeedsBefore_le s k
  simp only [lineOf]
  omega

theorem read_ofBytes (c : Cursor) {s : Bytes} (hs : c.source = .ofBytes s)
    (he : c.exhausted = false) :
    c.read = (.ok s.head?, { c with source := .ofBytes s.tail, exhausted := s.isEmpty }) := by
  simp only [read]
  rw [hs, Source.pull_ofBytes, he]
  cases s with
  | nil => rfl
  | cons b rest => rfl

theorem lookahead_atOffset (s : Bytes) (k : Nat) :
    (atOffset s k).lookahead =
      (.ok s[k + 2]?, { atOffset s k with
        source := .ofBytes (s.drop (k + 3)), exhausted := decide (s.length ≤ k + 2) }) := by
  simp only [lookahead]
  by_cases hk : k + 1 < s.length
  · have hn : (atOffset s k).next.isSome = true := by simp [atOffset, hk]
    have he : (atOffset s k).exhausted = false := by simp [atOffset, hk]
    have hr := read_ofBytes (atOffset s k) rfl he
    have hd : (s.drop (k + 2)).isEmpty = decide (s.length ≤ k + 2) := by
      rw [Bool.eq_iff_iff]
      simp
    rw [if_pos hn, hr, List.head?_drop, List.tail_drop, hd]
  · have hn : ¬ (atOffset s k).next.isSome = true := by simpa [atOffset] using hk
    have hd : s.drop (k + 2) = s.drop (k + 3) := by
      rw [List.drop_eq_nil_of_le (by omega), List.drop_eq_nil_of_le (by omega)]
    have he : decide (s.length ≤ k + 1) = decide (s.length ≤ k + 2) := by
      rw [decide_eq_true (by omega), decide_eq_true (by omega)]
    rw [if_neg hn, List.getElem?_eq_none (by omega)]
    simp only [atOffset, hd, he]

theorem lineOf_succ (s : Bytes) (k : Nat) :
    lineOf s (k + 1) =
      if s[k]? = some Byte.linefeed then min (lineOf s k + 1) lastLine else lineOf s k := by
  simp only [lineOf]
  rw [linefeedsBefore_succ]
  split <;> omega

theorem all_blank_lineHead_succ (s : Bytes) (k : Nat) :
    (lineHead s (k + 1)).all Byte.isBlank =
      match s[k]? with
      | none => (lineHead s k).all Byte.isBlank
      | some b =>
        if b = Byte.linefeed then true
        else if Byte.isBlank b then (lineHead s k).all Byte.isBlank
        else false := by
  cases hb : s[k]? with
  | none =>
    have hk : s.length ≤ k := List.getElem?_eq_none_iff.mp hb
    simp only [lineHead]
    rw [List.take_of_length_le (by omega), List.take_of_length_le hk]
  | some b =>
    rw [lineHead_succ s k hb]
    by_cases h : b = Byte.linefeed
    · simp [h]
    · cases hi : Byte.isBlank b <;> simp [h, hi]

theorem shift_atOffset (s : Bytes) (k : Nat) :
    ({ atOffset s k with
        source := .ofBytes (s.drop (k + 3)),
        exhausted := decide (s.length ≤ k + 2) } : Cursor).shift s[k + 2]? =
      atOffset s (k + 1) := by
  simp only [shift, atOffset, mk.injEq, true_and]
  refine ⟨rfl, ?_, ?_, (all_blank_lineHead_succ s k).symm⟩
  · by_cases hk : k + 1 < s.length
    · have h₁ : min k (s.length - 1) = k := by omega
      have h₂ : min (k + 1) (s.length - 1) = k + 1 := by omega
      rw [h₁, h₂, lineOf_succ]
      simp [hk]
    · have h₁ : min k (s.length - 1) = min (k + 1) (s.length - 1) := by omega
      simp [hk, h₁]
  · by_cases hk : k + 1 < s.length
    · have hn : s[k + 1]?.isSome = true := by simpa using hk
      exact (if_pos hn).trans (by omega)
    · have hn : ¬ s[k + 1]?.isSome = true := by simpa using hk
      exact (if_neg hn).trans (by omega)

theorem advance_atOffset (s : Bytes) (k : Nat) :
    (atOffset s k).advance = (.ok s[k + 1]?, atOffset s (k + 1)) := by
  have hp : (atOffset s k).prime = (.ok (), atOffset s k) := by
    simp [prime, atOffset]
  simp only [advance]
  rw [hp]
  dsimp only
  rw [lookahead_atOffset]
  dsimp only
  rw [shift_atOffset]
  rfl

theorem advance_start (s : Bytes) :
    (start (.ofBytes s)).advance = (.ok s[0]?, atOffset s 0) := by
  match s with
  | [] => rfl
  | [b] => rfl
  | [b, b'] => rfl
  | b :: b' :: b'' :: rest => rfl

theorem read_restartLine (c : Cursor) :
    c.restartLine.read = (c.read.1, c.read.2.restartLine) := by
  unfold read restartLine
  dsimp only
  split
  · rfl
  · split <;> rfl

theorem lookahead_restartLine (c : Cursor) :
    c.restartLine.lookahead = (c.lookahead.1, c.lookahead.2.restartLine) := by
  simp only [lookahead]
  rw [read_restartLine]
  by_cases h : c.next.isSome = true
  · simp [restartLine, h]
  · simp [restartLine, h]

theorem shift_restartLine {c : Cursor} (hc : c.current = some Byte.linefeed)
    (fresh : Option UInt8) : c.restartLine.shift fresh = c.shift fresh := by
  simp [shift, restartLine, hc]

/-- Restarting the line at a linefeed is what the next advance over `s` does by itself. -/
theorem advance_restartLine_atOffset {s : Bytes} {k : Nat} (hk : s[k]? = some Byte.linefeed) :
    (atOffset s k).restartLine.advance = (.ok s[k + 1]?, atOffset s (k + 1)) := by
  have hp : (atOffset s k).restartLine.prime = (.ok (), (atOffset s k).restartLine) := by
    simp [prime, restartLine, atOffset]
  simp only [advance]
  rw [hp]
  dsimp only
  rw [lookahead_restartLine, lookahead_atOffset]
  dsimp only
  rw [shift_restartLine hk, shift_atOffset]
  rfl

end Cursor

end HashLine
