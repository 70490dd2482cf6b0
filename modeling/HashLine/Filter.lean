import HashLine.Directive

/-! Which directives are worth reporting. -/

namespace HashLine

structure Filter where
  /-- Names of the directives wanted; all are wanted if none is listed. -/
  directives : List String := []
  /-- Identifiers of which a directive has to mention at least one, if any is listed. -/
  obsolete : List String := []
deriving DecidableEq, Repr

namespace Filter

def wants (f : Filter) (d : Directive) : Bool :=
  f.directives.isEmpty || d.name?.any fun name => f.directives.contains name

def mentioned (f : Filter) (d : Directive) : List String :=
  f.obsolete.filter d.mentions

/-- The listed identifiers that the directive mentions, or `none` if it is to be left out. -/
def matches? (f : Filter) (d : Directive) : Option (List String) :=
  if f.wants d ∧ (f.obsolete.isEmpty ∨ ¬ (f.mentioned d).isEmpty) then some (f.mentioned d) else none

end Filter

end HashLine
