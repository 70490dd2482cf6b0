import HashLine.Folder
import HashLine.Scan

/-! Scanning a file of a folder. -/

namespace HashLine

def scanFile (options : Options) (folder : Folder) (path : String) : Except SystemError Run :=
  (folder.openSource path).map (scan options)

end HashLine
