/-! Colours for a terminal. -/

namespace HashLine

inductive Style where
  | bold
  | boldRed
  | boldYellow
  | boldBlue
  | boldCyan
deriving DecidableEq, Repr

namespace Style

def code : Style → String
  | bold => "1"
  | boldRed => "1;31"
  | boldYellow => "1;33"
  | boldBlue => "1;34"
  | boldCyan => "1;36"

/-- The text between the codes that switch the style on and off, also when it is empty. -/
def paint (style : Style) (text : String) : String :=
  "\x1b[" ++ style.code ++ "m" ++ text ++ "\x1b[0m"

end Style

end HashLine
