import HashLine.Byte

/-! C identifiers, and the search for one as a whole word. -/

namespace HashLine

def isIdentifier : Bytes → Bool
  | [] => false
  | b :: rest => Byte.beginsIdentifier b && rest.all Byte.inIdentifier

theorem inIdentifier_of_isIdentifier {word : Bytes} (h : isIdentifier word = true) :
    word ≠ [] ∧ ∀ b ∈ word, Byte.inIdentifier b = true := by
  cases word with
  | nil => cases h
  | cons first rest =>
    rw [isIdentifier, Bool.and_eq_true, List.all_eq_true] at h
    refine ⟨List.cons_ne_nil first rest, ?_⟩
    intro b hb
    rcases List.mem_cons.mp hb with rfl | hb
    · rw [Byte.inIdentifier, h.1, Bool.true_or]
    · exact h.2 b hb

/-- Does `word` stand at the head of `bytes`, with neither `before` nor the byte after it in the
same identifier? -/
def standsAlone (word : Bytes) (before : Option UInt8) (bytes : Bytes) : Bool :=
  word.isPrefixOf bytes && !before.any Byte.inIdentifier &&
    !(bytes.drop word.length).head?.any Byte.inIdentifier

/-- The first offset, counted from `offset`, at which `word` stands alone; `before` is the byte
just left of the remaining ones. -/
def findWordFrom (word : Bytes) (offset : Nat) (before : Option UInt8) : Bytes → Option Nat
  | [] => none
  | b :: rest =>
    if standsAlone word before (b :: rest) then some offset
    else findWordFrom word (offset + 1) (some b) rest

/-- Where `word` first occurs as a whole word. The empty word occurs nowhere. -/
def findWord (haystack word : Bytes) : Option Nat :=
  if word.isEmpty then none else findWordFrom word 0 none haystack

end HashLine
