/-
  Looking for files.

  A name that exists as given wins.  Otherwise the directories of the search path are tried in
  order; a name found nowhere is returned unchanged, so that opening it reports the problem.
-/
import Pushdown.Disk.Basic

namespace Pushdown

/-- The directories in which to look for included files, in order of precedence. -/
abbrev SearchPath := List Text

/-- The path of a file of a given name. -/
def SearchPath.resolve (path : SearchPath) (d : Disk) (name : Text) : Text :=
  if d.hasFile name || Path.isAbsolute name then name
  else ((path.map (Path.join · name)).find? d.hasFile).getD name

end Pushdown
