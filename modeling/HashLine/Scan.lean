import HashLine.Scan.State

/-! Scanning a whole source for directives. -/

namespace HashLine

namespace Scan

/-- Scan on from a state, after the events in `seen`, latest first. -/
def resume (options : Options) (s : State) (seen : List Event) : Run :=
  match _h : s.round options with
  | .failed failure => ⟨seen.reverse, .error failure⟩
  | .finished events summary => ⟨seen.reverse ++ events, .ok summary⟩
  | .moved s' events => resume options s' (events.reverse ++ seen)
termination_by s.cursor.unread
decreasing_by exact State.unread_of_round _h

theorem resume_of_failed {options : Options} {s : State} {failure : Failure}
    (h : s.round options = .failed failure) (seen : List Event) :
    resume options s seen = ⟨seen.reverse, .error failure⟩ := by
  rw [resume]
  split <;> simp_all

theorem resume_of_finished {options : Options} {s : State} {events : List Event}
    {summary : Summary} (h : s.round options = .finished events summary) (seen : List Event) :
    resume options s seen = ⟨seen.reverse ++ events, .ok summary⟩ := by
  rw [resume]
  split <;> simp_all

theorem resume_of_moved {options : Options} {s s' : State} {events : List Event}
    (h : s.round options = .moved s' events) (seen : List Event) :
    resume options s seen = resume options s' (events.reverse ++ seen) := by
  rw [resume]
  split <;> simp_all

/-- Events from before come first and change nothing else. -/
theorem resume_append (options : Options) (s : State) (seen before : List Event) :
    resume options s (seen ++ before) =
      ⟨before.reverse ++ (resume options s seen).events, (resume options s seen).outcome⟩ := by
  fun_induction resume options s seen with
  | case1 s seen failure h => simp [resume_of_failed h]
  | case2 s seen events summary h => simp [resume_of_finished h]
  | case3 s seen s' events h ih => rw [resume_of_moved h, ← List.append_assoc, ih]

end Scan

def scan (options : Options) (source : Source) : Run :=
  Scan.resume options (.start source) []

/-- Everything a successful scan delivered, the warnings apart from the directives. -/
structure Collected where
  directives : List Directive
  warnings : List Warning
deriving DecidableEq, Repr

def Run.collected (r : Run) : Except Failure Collected :=
  r.outcome.map fun _ => ⟨r.directives, r.warnings⟩

/-- The directives of an input that is at hand as a whole, found with the default options. -/
def directivesIn (input : Bytes) : Except Failure (List Directive) :=
  let r := scan {} (Source.ofBytes input)
  r.outcome.map fun _ => r.directives

end HashLine
